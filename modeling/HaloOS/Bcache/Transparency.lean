import HaloOS.Bcache.Sharing

/-! With eviction and all, the buffer cache is a plain array of blocks for callers that
write back what they modify: `bread` returns what the last `bwrite` of that block wrote. -/

namespace HaloOS

open Lib

variable {m m' : Machine} {lru : List (Fin NBUF)} {i : Fin NBUF} {g : Get} {dev : ℕ}

/-- The array of blocks after the `bwrite`s of a run. -/
def plainArray (disk : ℕ → Block) (past : List BcacheEvent) : ℕ → Block :=
  past.foldl (fun blocks e => match e with
    | .bwrite g data => Function.update blocks g.blockno data
    | _ => blocks) disk

/-- The callers use one device, and no process releases a buffer with a modification that
it did not write. -/
def WritesBack (dev : ℕ) : BcacheEvent → Prop
  | .bget _ dev' _ => dev' = dev
  | .unlock g => g.modified = false
  | _ => True

namespace Machine

/-- Only holders have modified anything, and a valid buffer without a modification holds
its block. -/
structure Coherent (dev : ℕ) (m : Machine) : Prop where
  device : ∀ i, (m.bufs i).vaild = true → (m.bufs i).dev = dev
  asked : ∀ g ∈ m.gets, g.dev = dev
  modified : ∀ g ∈ m.gets, g.modified = true → g.phase = .holding
  clean : ∀ i, (m.bufs i).vaild = true → (∀ g ∈ m.gets, g.buf = i → g.modified = false) →
    (m.bufs i).data = m.disk (m.bufs i).blockno

theorem coherent_init (dev : ℕ) (disk : ℕ → Block) : (init disk).Coherent dev := by
  refine ⟨?_, ?_, ?_, ?_⟩ <;> simp [init]

/-- While a process loads a buffer nobody else has modified it. -/
theorem Coherent.unmodified (coherent : m.Coherent dev) (rep : m.Rep lru) (loading : g ∈ m.gets)
    (phase : g.phase = .loading) : ∀ h ∈ m.gets, h.buf = g.buf → h.modified = false := by
  intro h inside same
  by_contra modified
  have holding := coherent.modified h inside (by simpa using modified)
  have equal := rep.owner_unique loading inside (by rw [phase]; rfl) (by rw [holding]; rfl) same
  rw [equal, phase] at holding
  exact absurd holding (by decide)

/-- What `bread` returns is on the disk. -/
theorem Coherent.returned (coherent : m.Coherent dev) (rep : m.Rep lru) (loading : g ∈ m.gets)
    (phase : g.phase = .loading) : ((m.fill g.buf).bufs g.buf).data = m.disk g.blockno := by
  rw [fill_eq, ← (rep.tagged g loading).2]
  cases vaild : (m.bufs g.buf).vaild with
  | false => simp
  | true => simpa using coherent.clean g.buf vaild (coherent.unmodified rep loading phase)

/-- A step of one process with its buffer, away from the disk. -/
theorem Coherent.advance {g' : Get} {b : Buf} (coherent : m.Coherent dev) (member : g ∈ m.gets)
    (buf : g'.buf = g.buf) (sameDev : g'.dev = g.dev) (tagDev : b.dev = (m.bufs g.buf).dev)
    (device : b.vaild = true → (m.bufs g.buf).dev = dev)
    (modified : g'.modified = true → g'.phase = .holding)
    (clean : b.vaild = true → g'.modified = false →
      (∀ h ∈ m.gets.erase g, h.buf = g.buf → h.modified = false) → b.data = m.disk b.blockno) :
    Coherent dev { m with bufs := Function.update m.bufs g.buf b, gets := g' :: m.gets.erase g } where
  device := by
    dsimp only
    intro i valid
    by_cases here : i = g.buf
    · subst here
      rw [Function.update_self] at valid ⊢
      exact tagDev.trans (device valid)
    · rw [Function.update_of_ne here] at valid ⊢
      exact coherent.device i valid
  asked := by
    intro h inside
    rcases List.mem_cons.mp inside with rfl | before
    · rw [sameDev]
      exact coherent.asked g member
    · exact coherent.asked h (List.mem_of_mem_erase before)
  modified := by
    intro h inside
    rcases List.mem_cons.mp inside with rfl | before
    · exact modified
    · exact coherent.modified h (List.mem_of_mem_erase before)
  clean := by
    dsimp only
    intro i valid unmodified
    by_cases here : i = g.buf
    · subst here
      rw [Function.update_self] at valid ⊢
      exact clean valid (unmodified g' List.mem_cons_self buf) fun h before same =>
        unmodified h (List.mem_cons_of_mem _ before) same
    · rw [Function.update_of_ne here] at valid ⊢
      refine coherent.clean i valid fun h inside same => ?_
      have other : h ≠ g := by
        rintro rfl
        exact here same.symm
      exact unmodified h (List.mem_cons_of_mem _ ((List.mem_erase_of_ne other).mpr inside)) same

/-- All gets of a buffer are unmodified if one of them and the rest are. -/
theorem unmodified_of_erase {l : List Get} (one : g.modified = false)
    (rest : ∀ h ∈ l.erase g, h.buf = i → h.modified = false) : ∀ h ∈ l, h.buf = i → h.modified = false := by
  intro h inside same
  by_cases here : h = g
  · rw [here]
    exact one
  · exact rest h ((List.mem_erase_of_ne here).mpr inside) same

theorem Coherent.bget {d blockno pid : ℕ} (coherent : m.Coherent dev) (rep : m.Rep lru)
    (same : d = dev) (chosen : m.bgetSection d blockno = some (i, m')) :
    Coherent dev { m' with gets := { pid, buf := i, dev := d, blockno } :: m'.gets } := by
  have others : ∀ h ∈ ({ pid, buf := i, dev := d, blockno } :: m.gets : List Get),
      h.dev = dev ∧ (h.modified = true → h.phase = .holding) := by
    intro h inside
    rcases List.mem_cons.mp inside with rfl | before
    · exact ⟨same, fun bad => absurd bad (by simp)⟩
    · exact ⟨coherent.asked h before, coherent.modified h before⟩
  rcases rep.bgetSection_cases chosen with ⟨-, -, rfl⟩ | ⟨zero, -, rfl⟩
  · refine ⟨fun j => ?_, fun h inside => (others h inside).1, fun h inside => (others h inside).2,
      fun j valid unmodified => ?_⟩
    · by_cases here : j = i
      · subst here
        simpa [setBuf] using coherent.device j
      · simpa [setBuf, here] using coherent.device j
    · have before : ∀ h ∈ m.gets, h.buf = j → h.modified = false :=
        fun h inside => unmodified h (List.mem_cons_of_mem _ inside)
      by_cases here : j = i
      · subst here
        simpa [setBuf] using coherent.clean j (by simpa [setBuf] using valid) before
      · simpa [setBuf, here] using coherent.clean j (by simpa [setBuf, here] using valid) before
  · refine ⟨fun j valid => ?_, fun h inside => (others h inside).1, fun h inside => (others h inside).2,
      fun j valid unmodified => ?_⟩
    · by_cases here : j = i
      · subst here
        simp [setBuf] at valid
      · simpa [setBuf, here] using coherent.device j (by simpa [setBuf, here] using valid)
    · by_cases here : j = i
      · subst here
        simp [setBuf] at valid
      · simpa [setBuf, here] using coherent.clean j (by simpa [setBuf, here] using valid)
          fun h inside => unmodified h (List.mem_cons_of_mem _ inside)

/-- `bwrite` cleans its buffer; no other valid buffer has that block. -/
theorem Coherent.bwrite (coherent : m.Coherent dev) (rep : m.Rep lru) (real : dev ≠ 0) (holding : g ∈ m.gets)
    (phase : g.phase = .holding) :
    Coherent dev ({ m with
      disk := Function.update m.disk (m.bufs g.buf).blockno (m.bufs g.buf).data }.advance g
        { g with modified := false }) where
  device := coherent.device
  asked := by
    intro h inside
    rcases List.mem_cons.mp inside with rfl | before
    · exact coherent.asked g holding
    · exact coherent.asked h (List.mem_of_mem_erase before)
  modified := by
    intro h inside
    rcases List.mem_cons.mp inside with rfl | before
    · exact fun _ => phase
    · exact coherent.modified h (List.mem_of_mem_erase before)
  clean := by
    intro i valid unmodified
    change (m.bufs i).data =
      Function.update m.disk (m.bufs g.buf).blockno (m.bufs g.buf).data (m.bufs i).blockno
    by_cases here : i = g.buf
    · rw [here, Function.update_self]
    · have own := rep.filled g holding (.inl phase)
      have apart : (m.bufs i).blockno ≠ (m.bufs g.buf).blockno := by
        intro same
        have one := coherent.device i valid
        have two := coherent.device g.buf own
        exact here (rep.tags i g.buf (one ▸ real) (one.trans two.symm) same)
      rw [Function.update_of_ne apart]
      refine coherent.clean i valid fun h inside same => ?_
      have other : h ≠ g := by
        rintro rfl
        exact here same.symm
      exact unmodified h (List.mem_cons_of_mem _ ((List.mem_erase_of_ne other).mpr inside)) same

theorem Coherent.drop (coherent : m.Coherent dev) (dropping : g ∈ m.gets) (phase : g.phase = .dropping) :
    Coherent dev { m.bunref g.buf with gets := m.gets.erase g } := by
  have fields : ∀ j, ((m.bunref g.buf).bufs j).dev = (m.bufs j).dev ∧
      ((m.bunref g.buf).bufs j).blockno = (m.bufs j).blockno ∧
      ((m.bunref g.buf).bufs j).data = (m.bufs j).data ∧
      ((m.bunref g.buf).bufs j).vaild = (m.bufs j).vaild := by
    intro j
    unfold bunref setBuf
    by_cases here : j = g.buf
    · subst here
      dsimp only
      split <;> simp
    · dsimp only
      split <;> simp [here]
  have disk : (m.bunref g.buf).disk = m.disk := by
    unfold bunref
    dsimp only
    split <;> rfl
  have own : g.modified = false := by
    by_contra modified
    have held := coherent.modified g dropping (by simpa using modified)
    rw [phase] at held
    exact absurd held (by decide)
  refine ⟨fun j => ?_, fun h inside => coherent.asked h (List.mem_of_mem_erase inside),
    fun h inside => coherent.modified h (List.mem_of_mem_erase inside), fun j valid unmodified => ?_⟩
  · dsimp only
    rw [(fields j).1, (fields j).2.2.2]
    exact coherent.device j
  · dsimp only at valid unmodified ⊢
    rw [(fields j).2.2.2] at valid
    rw [(fields j).2.1, (fields j).2.2.1, disk]
    exact coherent.clean j valid (unmodified_of_erase own unmodified)

theorem Coherent.step {e : BcacheEvent} (coherent : m.Coherent dev) (rep : m.Rep lru) (real : dev ≠ 0)
    (disciplined : WritesBack dev e) (taken : BcacheStep m e m') : m'.Coherent dev := by
  cases taken with
  | bget chosen => exact coherent.bget rep disciplined chosen
  | @lock g waiting phase free =>
    refine coherent.advance waiting rfl rfl rfl (coherent.device _) (fun changed => ?_)
      fun valid own rest => coherent.clean _ valid (unmodified_of_erase (g := g) own rest)
    have held := coherent.modified g waiting changed
    rw [phase] at held
    exact absurd held (by decide)
  | @load g data loading phase returned =>
    have tag := rep.tagged g loading
    have filled := coherent.returned rep loading phase
    rw [fill_eq] at filled ⊢
    rw [← tag.2] at filled
    refine coherent.advance loading rfl rfl rfl (fun _ => tag.1.trans (coherent.asked g loading))
      (fun _ => rfl) fun _ _ _ => ?_
    simpa using filled
  | @modify g data holding phase =>
    exact coherent.advance holding rfl rfl rfl (coherent.device _) (fun _ => phase)
      fun _ bad => absurd bad (by simp)
  | @bwrite g data holding phase checked written => exact coherent.bwrite rep real holding phase
  | @unlock g holding phase checked =>
    have own : g.modified = false := disciplined
    exact coherent.advance holding rfl rfl rfl (coherent.device _)
      (fun bad => by rw [own] at bad; simp at bad)
      fun valid _ rest => coherent.clean _ valid (unmodified_of_erase own rest)
  | @drop g dropping phase => exact coherent.drop dropping phase

/-- The disk is the plain array. -/
theorem Rep.disk_step {e : BcacheEvent} {disk : ℕ → Block} {past : List BcacheEvent} (rep : m.Rep lru)
    (array : m.disk = plainArray disk past) (taken : BcacheStep m e m') :
    m'.disk = plainArray disk (past ++ [e]) := by
  unfold plainArray at array ⊢
  rw [List.foldl_append, ← array]
  cases taken with
  | @bget pid d blockno i m₁ chosen =>
    rcases rep.bgetSection_cases chosen with ⟨-, -, rfl⟩ | ⟨-, -, rfl⟩ <;> rfl
  | lock waiting phase free => rfl
  | load loading phase returned =>
    rw [fill_eq]
    rfl
  | modify holding phase => rfl
  | @bwrite g data holding phase checked written =>
    rw [(rep.tagged g holding).2, written]
    rfl
  | unlock holding phase checked => rfl
  | drop dropping phase =>
    unfold bunref
    dsimp only
    split <;> rfl

end Machine

/-- In every run of callers that write back, `bread` returns the block as the last `bwrite`
left it. -/
theorem bread_returns_last_bwrite (disk : ℕ → Block) (dev : ℕ) (real : dev ≠ 0)
    (events : List BcacheEvent) (m : Machine)
    (run : Trace (fun m e m' => WritesBack dev e ∧ BcacheStep m e m') (Machine.init disk) events m) :
    ∀ past g data rest, events = past ++ .load g data :: rest →
      g.dev = dev ∧ data = plainArray disk past g.blockno := by
  intro past g data rest split
  obtain ⟨before, after, earlier, ⟨-, taken⟩, -⟩ := run.split split
  obtain ⟨⟨lru, rep⟩, coherent, array⟩ := earlier.invariant
    (fun past m => (∃ lru, m.Rep lru) ∧ m.Coherent dev ∧ m.disk = plainArray disk past)
    ⟨Machine.rep_init disk, Machine.coherent_init dev disk, rfl⟩
    fun _ _ _ _ ⟨⟨_, rep⟩, coherent, array⟩ ⟨disciplined, taken⟩ =>
      ⟨⟨_, rep.step taken⟩, coherent.step rep real disciplined taken, rep.disk_step array taken⟩
  cases taken with
  | load loading phase returned =>
    rw [← returned, coherent.returned rep loading phase, array]
    exact ⟨coherent.asked g loading, rfl⟩

/-- The first `bread` of a block returns it as it is on the disk. -/
theorem bread_returns_disk : ∃ (i : Fin NBUF) (data : Block) (m : Machine),
    Trace (fun m e m' => WritesBack 1 e ∧ BcacheStep m e m') (Machine.init fun n _ => BitVec.ofNat 8 n)
      [.bget 7 1 45, .lock ⟨7, i, 1, 45, .locking, false⟩, .load ⟨7, i, 1, 45, .loading, false⟩ data] m ∧
      data = fun _ => 45 := by
  obtain ⟨i, m, chosen, -⟩ := exists_bget_init (fun n _ => BitVec.ofNat 8 n) Nat.one_ne_zero 45
  obtain ⟨lru, rep⟩ := Machine.rep_init fun n _ => BitVec.ofNat 8 n
  have free : (m.bufs i).sk.locked = false := by
    rcases rep.bgetSection_cases chosen with ⟨-, -, rfl⟩ | ⟨-, -, rfl⟩ <;>
      simp [Machine.setBuf, Machine.init]
  have one : Trace (fun m e m' => WritesBack 1 e ∧ BcacheStep m e m')
      (Machine.init fun n _ => BitVec.ofNat 8 n) [.bget 7 1 45] _ := .single ⟨rfl, .bget chosen⟩
  have locks : WritesBack 1 (.lock ⟨7, i, 1, 45, .locking, false⟩) := trivial
  have two := one.snoc ⟨locks, .lock List.mem_cons_self rfl free⟩
  have loads : ∀ data, WritesBack 1 (.load ⟨7, i, 1, 45, .loading, false⟩ data) := fun _ => trivial
  have three := two.snoc ⟨loads _, .load List.mem_cons_self rfl rfl⟩
  refine ⟨i, _, _, three, ?_⟩
  exact (bread_returns_last_bwrite _ 1 Nat.one_ne_zero _ _ three _ _ _ [] rfl).2

end HaloOS
