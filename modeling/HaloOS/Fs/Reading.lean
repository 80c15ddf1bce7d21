import HaloOS.Fs.Bmap

/-! `readi` into the memory of the kernel. The loop advances the destination but not the
offset, so every round reads the rest of the first block again. -/

namespace HaloOS

open Lib

variable {V : ℕ → Block} {s : Fs} {me k n off dst : ℕ} {i : Fin INODES} {E : Stop → Prop}

/-- The memory of the kernel. -/
abbrev Mem := ℕ → Byte

/-- `memmove` of bytes to an address. -/
def Mem.store (mem : Mem) (at_ : ℕ) (bytes : List Byte) : Mem := fun a =>
  if at_ ≤ a ∧ a < at_ + bytes.length then bytes.getD (a - at_) 0 else mem a

/-- Work on the file system next to the memory. -/
def onFs {α : Type} (m : Fio α) : Exec Stop (Fs × Mem) α := zoom Prod.fst (fun s t => (s, t.2)) m

/-- `either_copyout(0, dst + tot, bytes, m)`, which is a `memmove`. -/
def copyoutKernel (dst tot : ℕ) (bytes : List Byte) : Exec Stop (Fs × Mem) Bool := do
  update fun t => (t.1, t.2.store (dst + tot) bytes)
  pure true

/-- `readi(ip, 0, dst, off, n)`. -/
def readiKernel (me : ℕ) (i : Fin INODES) (dst off n : ℕ) : Exec Stop (Fs × Mem) (ℤ × List Byte) :=
  readi onFs me i (copyoutKernel dst) off n

section Rounds

variable {K : ℕ} {ns : List ℕ} {c : Bcache}

/-- The blocks of `ns` can be read any number of times: each pushes the other buffers back by one
place when it is read first, and those still to come are counted in `K`. -/
def Budget (V : ℕ → Block) (me K : ℕ) (ns : List ℕ) (c : Bcache) : Prop :=
  ∃ (k : ℕ) (far : List ℕ), Rest V me k [] c ∧ (∀ m ∈ ns, m ∈ far ∨ Near m k c) ∧ k + far.length ≤ K

theorem Rest.budget (rest : Rest V me k [] c) (ns : List ℕ) : Budget V me (k + ns.length) ns c :=
  ⟨k, ns, rest, fun _ member => .inl member, le_refl _⟩

/-- A state in which buffer `b` is lent: its release leads back into the budget. -/
def Lends (V : ℕ → Block) (me K : ℕ) (ns : List ℕ) (b : Fin NBUF) (s : Fs) : Prop :=
  ∀ E : Stop → Prop, Sat (bio (brelease me b)) s E fun _ s' => Budget V me K ns s'.cache ∧ s'.sb = s.sb ∧
    s'.inodes = s.inodes

theorem touch (budget : Budget V me K ns s.cache) (room : K < NBUF) (member : n ∈ ns) :
    Sat (bio (bread me ROOTDEV n)) s E fun b s' => (s'.cache.bufs b).data = V n ∧
      Lends V me K ns b s' ∧ s'.sb = s.sb ∧ s'.inodes = s.inodes := by
  obtain ⟨k, far, rest, near, bound⟩ := budget
  refine (bio_bread_rest rest (by simpa using by omega) (by simp)).mono ?_
  rintro b s₁ ⟨-, rest₁, tag₁, data₁, -, near₁, -, sb₁, inodes₁⟩
  refine ⟨data₁, fun E' => ?_, sb₁, inodes₁⟩
  by_cases first : n ∈ far
  · refine Sat.zoom ((brelease_rest rest₁ (by simp)).mono ?_)
    rintro _ c₂ ⟨rest₂, -, -, here, near₂⟩
    refine ⟨⟨k + 1, far.erase n, rest₂, fun m place => ?_, ?_⟩, rfl, rfl⟩
    · by_cases self : m = n
      · rw [self, ← tag₁]
        exact .inr here
      · rcases near m place with later | close
        · exact .inl ((List.mem_erase_of_ne self).mpr later)
        · exact .inr (near₂ m (near₁ m close))
    · have positive := List.length_pos_of_mem first
      rw [List.length_erase_of_mem first]
      omega
  · have close := (near n member).resolve_left first
    refine Sat.zoom ((brelease_near rest₁ (by simp) ((near₁ n close).place rest₁ tag₁)).mono ?_)
    rintro _ c₂ ⟨rest₂, -, -, near₂⟩
    refine ⟨⟨k, far, rest₂, fun m place => ?_, bound⟩, rfl, rfl⟩
    exact (near m place).imp_right fun close => near₂ m (near₁ m close)

/-- `bmap` of an index that is there reads the indirect block at most. -/
theorem bmap_budget {index : ℕ} (budget : Budget V me K ns s.cache) (room : K < NBUF)
    (dev : (s.inodes i).dev = ROOTDEV) (small : index < MAXFILE)
    (member : (s.inodes i).din.addrs NDIRECT ∈ ns) (present : mapped V (s.inodes i).din index ≠ 0) :
    Sat (bmap me i index) s E fun b s' => mapped V (s.inodes i).din index = b ∧
      Budget V me K ns s'.cache ∧ s'.sb = s.sb ∧ s'.inodes = s.inodes := by
  unfold bmap
  refine Sat.bind getInode_sat ?_
  rintro _ _ ⟨rfl, rfl⟩
  unfold mapped at present ⊢
  by_cases direct : index < NDIRECT
  · simp only [direct, ↓reduceIte] at present ⊢
    rw [if_neg present]
    exact Sat.pure ⟨rfl, budget, rfl, rfl⟩
  · have inside : index - NDIRECT < NINDIRECT := by
      simp only [MAXFILE] at small
      omega
    simp only [direct, ↓reduceIte] at present ⊢
    by_cases none : (s.inodes i).din.addrs NDIRECT = 0
    · rw [if_pos none] at present
      exact absurd rfl present
    simp only [none, ↓reduceIte, inside, dev] at present ⊢
    refine Sat.bind (Sat.pure (Q := fun addr t => (s.inodes i).din.addrs NDIRECT = addr ∧ s = t)
      ⟨rfl, rfl⟩) ?_
    rintro _ _ ⟨rfl, rfl⟩
    refine Sat.bind (touch budget room member) ?_
    rintro bp s₁ ⟨data, lends, sb₁, inodes₁⟩
    refine Sat.bind bio_bufData ?_
    rintro _ _ ⟨rfl, rfl⟩
    rw [data, if_neg present]
    refine Sat.bind (lends E) ?_
    rintro _ s₂ ⟨budget₂, sb₂, inodes₂⟩
    exact Sat.pure ⟨rfl, budget₂, sb₂.trans sb₁, inodes₂.trans inodes₁⟩

end Rounds

section Loop

variable {K : ℕ} {mem : Mem}

/-- The bytes that the loop leaves at the destination from place `tot` on. -/
def repeated (V : ℕ → Block) (b off dst tot n : ℕ) (mem : Mem) : Mem := fun a =>
  if dst + tot ≤ a ∧ a < dst + n then V b (off % BSIZE + (a - dst) % (BSIZE - off % BSIZE)) else mem a

theorem repeated_self (V : ℕ → Block) (b off dst n : ℕ) (mem : Mem) :
    repeated V b off dst n n mem = mem := by
  funext a
  unfold repeated
  rw [if_neg (by omega)]

/-- A round stores the rest of the block once more. -/
theorem repeated_store {b tot m : ℕ} (whole : BSIZE - off % BSIZE ∣ tot) (more : tot < n)
    (length : m = min (n - tot) (BSIZE - off % BSIZE)) :
    repeated V b off dst (tot + m) n
        (mem.store (dst + tot) ((List.range m).map fun k => V b (off % BSIZE + k))) =
      repeated V b off dst tot n mem := by
  have positive : 0 < BSIZE - off % BSIZE := Nat.sub_pos_of_lt (Nat.mod_lt _ (by decide))
  unfold repeated Mem.store
  generalize BSIZE - off % BSIZE = c at *
  funext a
  rw [List.length_map, List.length_range]
  by_cases later : dst + (tot + m) ≤ a ∧ a < dst + n
  · rw [if_pos later, if_pos (by omega)]
  · rw [if_neg later]
    by_cases now : dst + tot ≤ a ∧ a < dst + tot + m
    · obtain ⟨q, rfl⟩ := whole
      have index : a - (dst + c * q) < m := by omega
      have place : (a - dst) % c = a - (dst + c * q) := by
        rw [show a - dst = a - (dst + c * q) + c * q by omega, Nat.add_mul_mod_self_left]
        exact Nat.mod_eq_of_lt (by omega)
      rw [if_pos now, if_pos (by omega), place, List.getD_eq_getElem _ _ (by simpa using index)]
      simp
    · rw [if_neg now, if_neg (by omega)]

/-- The loop of `readi` for a block that is there. -/
theorem readiLoop_kernel {b : ℕ} (block : mapped V (s.inodes i).din (off / BSIZE) = b) (present : b ≠ 0)
    (small : off / BSIZE < MAXFILE) (room : K < NBUF) (dev : (s.inodes i).dev = ROOTDEV) (fuel tot : ℕ)
    (done : List Byte) (budget : Budget V me K [(s.inodes i).din.addrs NDIRECT, b] s.cache)
    (whole : BSIZE - off % BSIZE ∣ tot ∨ tot = n) (le : tot ≤ n) (enough : n ≤ tot + fuel) :
    Sat (readiLoop onFs me i (copyoutKernel dst) off n fuel tot done) (s, mem) E fun r t =>
      r.1 = n ∧ t.2 = repeated V b off dst tot n mem := by
  have positive : 0 < BSIZE - off % BSIZE := Nat.sub_pos_of_lt (Nat.mod_lt _ (by decide))
  induction fuel generalizing s mem tot done with
  | zero =>
    obtain rfl : tot = n := by omega
    exact Sat.pure ⟨rfl, (repeated_self V b off dst tot mem).symm⟩
  | succ fuel ih =>
    unfold readiLoop
    by_cases full : n ≤ tot
    · obtain rfl : tot = n := by omega
      rw [if_pos full]
      exact Sat.pure ⟨rfl, (repeated_self V b off dst tot mem).symm⟩
    rw [if_neg full]
    have divides := whole.resolve_right (by omega)
    refine Sat.bind (Q := fun a t => b = a ∧ Budget V me K [(s.inodes i).din.addrs NDIRECT, b] t.1.cache ∧
      t.1.inodes = s.inodes ∧ t.2 = mem) (Sat.zoom ?_) ?_
    · refine (bmap_budget budget room dev small (by simp) (block ▸ present)).mono ?_
      rintro _ s₁ ⟨rfl, budget₁, -, inodes₁⟩
      exact ⟨block.symm, budget₁, inodes₁, rfl⟩
    rintro _ ⟨s₁, mem₁⟩ ⟨rfl, budget₁, inodes₁, same⟩
    obtain rfl : mem = mem₁ := same.symm
    refine Sat.bind (Sat.zoom (Q := fun ip t => s₁.inodes i = ip ∧ (s₁, mem) = t) (Sat.gets ⟨rfl, rfl⟩)) ?_
    rintro _ _ ⟨rfl, rfl⟩
    have dev₁ : (s₁.inodes i).dev = ROOTDEV := by
      rw [inodes₁]
      exact dev
    rw [dev₁]
    refine Sat.bind (Q := fun bp t => (t.1.cache.bufs bp).data = V b ∧
      Lends V me K [(s.inodes i).din.addrs NDIRECT, b] bp t.1 ∧ t.1.inodes = s.inodes ∧ t.2 = mem)
      (Sat.zoom ?_) ?_
    · refine (touch budget₁ room (by simp)).mono ?_
      rintro bp s₂ ⟨data₂, lends, -, inodes₂⟩
      exact ⟨data₂, lends, inodes₂.trans inodes₁, rfl⟩
    rintro bp ⟨s₂, mem₂⟩ ⟨data₂, lends, inodes₂, same₂⟩
    obtain rfl : mem = mem₂ := same₂.symm
    refine Sat.bind (Sat.zoom (Q := fun data t => V b = data ∧ (s₂, mem) = t)
      (Sat.zoom (Sat.gets ⟨data₂.symm, rfl⟩))) ?_
    rintro _ _ ⟨rfl, rfl⟩
    dsimp only
    generalize length : min (n - tot) (BSIZE - off % BSIZE) = m
    have progress : 0 < m := by omega
    refine Sat.bind (Q := fun copied t => copied = true ∧ (s₂, mem.store (dst + tot)
      ((List.range m).map fun k => V b (off % BSIZE + k))) = t) ⟨rfl, rfl⟩ ?_
    rintro _ _ ⟨rfl, rfl⟩
    refine Sat.bind (Q := fun _ t => Budget V me K [(s.inodes i).din.addrs NDIRECT, b] t.1.cache ∧
      t.1.inodes = s.inodes ∧ t.2 = mem.store (dst + tot) ((List.range m).map fun k => V b (off % BSIZE + k)))
      (Sat.zoom ((lends E).mono fun _ s₃ facts => ⟨facts.1, facts.2.2.trans inodes₂, rfl⟩)) ?_
    rintro _ ⟨s₃, mem₃⟩ ⟨budget₃, inodes₃, same₃⟩
    rw [if_pos rfl, ← repeated_store divides (by omega) length.symm]
    dsimp only at same₃
    rw [← same₃]
    have next : BSIZE - off % BSIZE ∣ tot + m ∨ tot + m = n := by
      by_cases last : n - tot ≤ BSIZE - off % BSIZE
      · exact .inr (by omega)
      · refine .inl (Nat.dvd_add divides ?_)
        rw [← length, min_eq_right (by omega)]
    exact ih (by rw [inodes₃]; exact block) (by rw [inodes₃]; exact dev) _ _ (by rw [inodes₃]; exact budget₃) next
      (by omega) (by omega)

end Loop

section Right

variable {mem mem' : Mem} {d : Dinode} {r : ℤ}

/-- Byte `p` of a file whose blocks are there. -/
def content (V : ℕ → Block) (d : Dinode) (p : ℕ) : Byte := V (mapped V d (p / BSIZE)) (p % BSIZE)

/-- The arguments for which `readi` is to return 0. -/
def Unreadable (d : Dinode) (off n : ℕ) : Prop := d.size < off ∨ UINT ≤ off + n

/-- `readi` is right: it refuses without a trace, or it puts the bytes of the file from `off` on, as
many as there are up to `n`, at the destination and touches nothing else. -/
structure ReadsRight (V : ℕ → Block) (d : Dinode) (mem : Mem) (dst off n : ℕ) (r : ℤ) (mem' : Mem) : Prop where
  refuses : Unreadable d off n → r = 0 ∧ mem' = mem
  reads : ¬ Unreadable d off n → r = (min n (d.size - off) : ℕ) ∧ ∀ a, mem' a =
    if dst ≤ a ∧ a < dst + min n (d.size - off) then content V d (off + (a - dst)) else mem a

/-- The bytes of the range repeat with the rest of their first block, as they do in particular
when they lie in one block. -/
def Repeats (V : ℕ → Block) (d : Dinode) (off n : ℕ) : Prop :=
  ∀ j < min n (d.size - off), content V d (off + j) = content V d (off + j % (BSIZE - off % BSIZE))

/-- Within the first block an index of the loop is a byte of the file. -/
theorem content_first (V : ℕ → Block) (d : Dinode) (off j : ℕ) :
    V (mapped V d (off / BSIZE)) (off % BSIZE + j % (BSIZE - off % BSIZE)) =
      content V d (off + j % (BSIZE - off % BSIZE)) := by
  have inside : off % BSIZE < BSIZE := Nat.mod_lt _ (by decide)
  have small : j % (BSIZE - off % BSIZE) < BSIZE - off % BSIZE := Nat.mod_lt _ (by omega)
  have split := Nat.div_add_mod off BSIZE
  unfold content
  generalize j % (BSIZE - off % BSIZE) = o at *
  have rest : off % BSIZE + o < BSIZE := by omega
  have sum : off + o = BSIZE * (off / BSIZE) + (off % BSIZE + o) := by omega
  rw [sum, Nat.mul_add_div (by decide), Nat.div_eq_of_lt rest, Nat.mul_add_mod, Nat.mod_eq_of_lt rest,
    Nat.add_zero]

/-- A range within one block repeats nothing. -/
theorem repeats_of_block (within : off % BSIZE + min n (d.size - off) ≤ BSIZE) : Repeats V d off n := by
  intro j small
  rw [Nat.mod_eq_of_lt (by omega)]

/-- What `readi` leaves is right exactly when the bytes repeat. -/
theorem repeated_right (mem : Mem) (dst : ℕ) (readable : ¬ Unreadable d off n) :
    ReadsRight V d mem dst off n (min n (d.size - off) : ℕ)
      (repeated V (mapped V d (off / BSIZE)) off dst 0 (min n (d.size - off)) mem) ↔ Repeats V d off n := by
  constructor
  · intro right j small
    have byte := (right.reads readable).2 (dst + j)
    unfold repeated at byte
    rw [if_pos (by omega), if_pos (by omega), Nat.add_sub_cancel_left, content_first V d] at byte
    exact byte.symm
  · intro repeats
    refine ⟨fun bad => absurd bad readable, fun _ => ⟨rfl, fun a => ?_⟩⟩
    unfold repeated
    rw [Nat.add_zero]
    by_cases here : dst ≤ a ∧ a < dst + min n (d.size - off)
    · rw [if_pos here, if_pos here, content_first V d, repeats (a - dst) (by omega)]
    · rw [if_neg here, if_neg here]

/-- What `readi` does for a file whose blocks are there. -/
theorem readi_right (me : ℕ) (quiet : s.Quiet) (dev : (s.inodes i).dev = ROOTDEV)
    (bounded : (s.inodes i).din.size ≤ MAXFILE * BSIZE)
    (present : ∀ m, m * BSIZE < (s.inodes i).din.size → mapped s.shown (s.inodes i).din m ≠ 0)
    (offset : off < UINT) (length : n < UINT) :
    Sat (readiKernel me i dst off n) (s, mem) E fun r t =>
      ReadsRight s.shown (s.inodes i).din mem dst off n r.1 t.2 ↔
        Unreadable (s.inodes i).din off n ∨ Repeats s.shown (s.inodes i).din off n := by
  have wraps : (off + n) % UINT < off ↔ UINT ≤ off + n := by
    generalize UINT = u at *
    constructor
    · intro small
      by_contra fits
      rw [Nat.mod_eq_of_lt (by omega)] at small
      omega
    · intro exceeds
      rw [Nat.mod_eq_sub_mod exceeds, Nat.mod_eq_of_lt (by omega)]
      omega
  unfold readiKernel readi
  refine Sat.bind (Sat.zoom (Q := fun ip t => s.inodes i = ip ∧ (s, mem) = t) (Sat.gets ⟨rfl, rfl⟩)) ?_
  rintro _ _ ⟨rfl, rfl⟩
  refine Sat.ite (fun refused => ?_) fun readable => ?_
  · rw [wraps] at refused
    exact Sat.pure (iff_of_true ⟨fun _ => ⟨rfl, rfl⟩, fun bad => absurd refused bad⟩ (.inl refused))
  rw [wraps] at readable
  dsimp only
  have low : off ≤ (s.inodes i).din.size := by omega
  have amount : (if (s.inodes i).din.size < off + n then (s.inodes i).din.size - off else n) =
      min n ((s.inodes i).din.size - off) := by
    split <;> omega
  have allowed : ¬ Unreadable (s.inodes i).din off n := readable
  rw [amount, or_iff_right allowed, ← repeated_right mem dst allowed]
  generalize count : min n ((s.inodes i).din.size - off) = m
  by_cases none : m = 0
  · subst none
    unfold readiLoop
    refine Sat.pure ?_
    rw [repeated_self]
  · have floor := Nat.div_mul_le_self off BSIZE
    have some := present (off / BSIZE) (by omega)
    have small : off / BSIZE < MAXFILE := Nat.div_lt_of_lt_mul (by rw [Nat.mul_comm]; omega)
    refine (readiLoop_kernel rfl some small (K := 10) (by decide) dev m 0 [] ((quiet.rest me).budget _)
      (.inl (dvd_zero _)) (by omega) (by omega)).mono ?_
    rintro ⟨r, bytes⟩ ⟨s', mem'⟩ ⟨result, same⟩
    dsimp only at result same
    rw [result, same]

/-- A file of two blocks, the first of ones and the second of twos. -/
def twoBlocks : Dinode where
  size := 2 * BSIZE
  addrs := Function.update (Function.update (fun _ => 0) 0 4) 1 5

def twoDisk : ℕ → Block := Function.update (Function.update (fun _ _ => 0) 4 fun _ => 1) 5 fun _ => 2

theorem twoBlocks_present (m : ℕ) (below : m * BSIZE < twoBlocks.size) (V : ℕ → Block) :
    mapped V twoBlocks m ≠ 0 := by
  have few : m < 2 := by
    simp only [twoBlocks, BSIZE] at below
    omega
  have cases : m = 0 ∨ m = 1 := by omega
  rcases cases with rfl | rfl <;> simp [mapped, NDIRECT, twoBlocks]

end Right

end HaloOS
