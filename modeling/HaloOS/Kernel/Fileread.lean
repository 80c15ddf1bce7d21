import HaloOS.Fs.Lookup
import HaloOS.Fs.Locks
import HaloOS.Kernel.Copyin
import HaloOS.Kernel.Paths
import HaloOS.Lib.Trace

/-! The offset of an open file. `fileread` advances it by the number of bytes asked for, where `readi`
may have found fewer. -/

namespace HaloOS

open Lib

variable {k k' : Kernel} {p : Fin NPROC} {f : Fin NFILE} {i : Fin INODES} {addr n off me : ℕ} {ret : ℤ}

section Copyout

variable {v v' : Vm} {pagetable : ℕ}

/-- `walkaddr` finds no other reason to return 0 than an address that is too large. -/
theorem walkaddr_ne_zero {va pa : ℕ} (small : va < MAXVA) (returned : walkaddr pagetable va v = .ok (pa, v')) :
    pa ≠ 0 := by
  unfold walkaddr at returned
  rw [if_neg (by omega)] at returned
  obtain ⟨pte, v₁, -, rest⟩ := bind_ok.mp returned
  obtain ⟨_, _, -, rest⟩ := bind_ok.mp rest
  obtain ⟨entry, _, -, rest⟩ := bind_ok.mp rest
  obtain ⟨_, _, -, rest⟩ := bind_ok.mp rest
  obtain ⟨_, _, -, rest⟩ := bind_ok.mp rest
  obtain ⟨_, _, checked, rest⟩ := bind_ok.mp rest
  obtain ⟨nonzero, -⟩ := stopIf_ok.mp checked
  obtain ⟨rfl, -⟩ := pure_ok.mp rest
  exact nonzero

/-- A copy below `MAXVA` that returns has succeeded. -/
theorem copyoutLoop_true {src : List Byte} {dstva : ℕ} {ok : Bool} (fuel : ℕ) (inside : dstva + src.length ≤ MAXVA)
    (returned : copyoutLoop pagetable fuel dstva src v = .ok (ok, v')) : ok = true := by
  induction fuel generalizing dstva src v with
  | zero =>
    obtain ⟨rfl, -⟩ := pure_ok.mp returned
    rfl
  | succ fuel ih =>
    unfold copyoutLoop at returned
    by_cases empty : src = []
    · rw [if_pos empty] at returned
      obtain ⟨rfl, -⟩ := pure_ok.mp returned
      rfl
    rw [if_neg empty] at returned
    have length := List.length_pos_iff.mpr empty
    have base : PGROUNDDOWN dstva ≤ dstva := Nat.div_mul_le_self _ _
    obtain ⟨pa, v₁, walked, rest⟩ := bind_ok.mp returned
    rw [if_neg (walkaddr_ne_zero (by omega) walked)] at rest
    obtain ⟨_, v₂, -, rest⟩ := bind_ok.mp rest
    by_cases last : PGSIZE - (dstva - PGROUNDDOWN dstva) < src.length
    · refine ih ?_ rest
      rw [List.length_drop, min_eq_left last.le]
      have offset : dstva - PGROUNDDOWN dstva ≤ PGSIZE := by
        simp only [PGROUNDDOWN, PGSIZE] at *
        omega
      omega
    · -- the page holds the rest, and nothing is left for another round
      rw [min_eq_right (by omega), List.drop_length] at rest
      cases fuel with
      | zero =>
        obtain ⟨rfl, -⟩ := pure_ok.mp rest
        rfl
      | succ fuel =>
        unfold copyoutLoop at rest
        rw [if_pos rfl] at rest
        obtain ⟨rfl, -⟩ := pure_ok.mp rest
        rfl

end Copyout

section Count

/-- What `readi` returns when the copies succeed. -/
def readCount (size off n : ℕ) : ℕ := if size < off ∨ (off + n) % UINT < off then 0 else min n (size - off)

/-- The loop of `readi` ends with all bytes copied, whatever the file system does meanwhile. -/
theorem readiLoop_count {σ : Type} {fs : {α : Type} → Fio α → Exec Stop σ α}
    {copyout : ℕ → List Byte → Exec Stop σ Bool} {t t' : σ} {r : ℤ × List Byte}
    (copies : ∀ t tot bytes ok t', tot + bytes.length ≤ n → copyout tot bytes t = .ok (ok, t') → ok = true)
    (fuel tot : ℕ) (done : List Byte) (le : tot ≤ n) (enough : n ≤ tot + fuel)
    (returned : readiLoop fs me i copyout off n fuel tot done t = .ok (r, t')) : r.1 = n := by
  have positive : 0 < BSIZE - off % BSIZE := Nat.sub_pos_of_lt (Nat.mod_lt _ (by decide))
  induction fuel generalizing t tot done with
  | zero =>
    obtain ⟨rfl, -⟩ := pure_ok.mp returned
    exact congrArg Nat.cast (show tot = n by omega)
  | succ fuel ih =>
    unfold readiLoop at returned
    by_cases full : n ≤ tot
    · rw [if_pos full] at returned
      obtain ⟨rfl, -⟩ := pure_ok.mp returned
      exact congrArg Nat.cast (show tot = n by omega)
    rw [if_neg full] at returned
    obtain ⟨addr, t₁, -, rest⟩ := bind_ok.mp returned
    obtain ⟨ip, t₂, -, rest⟩ := bind_ok.mp rest
    obtain ⟨b, t₃, -, rest⟩ := bind_ok.mp rest
    obtain ⟨data, t₄, -, rest⟩ := bind_ok.mp rest
    obtain ⟨copied, t₅, copying, rest⟩ := bind_ok.mp rest
    obtain ⟨_, t₆, -, rest⟩ := bind_ok.mp rest
    have succeeded : copied = true := by
      refine copies _ _ _ _ _ ?_ copying
      rw [List.length_map, List.length_range]
      omega
    rw [if_pos succeeded] at rest
    exact ih _ _ (by omega) (by omega) rest

theorem readi_count (size : ℕ) {copyout : ℕ → List Byte → Kio Bool} {r : ℤ × List Byte} (loaded : (k.fs.inodes i).din.size = size)
    (copies : ∀ t tot bytes ok t', tot + bytes.length ≤ readCount size off n →
      copyout tot bytes t = .ok (ok, t') → ok = true)
    (returned : readi fio me i copyout off n k = .ok (r, k')) : r.1 = readCount size off n := by
  unfold readi at returned
  obtain ⟨ip, k₁, first, rest⟩ := bind_ok.mp returned
  obtain ⟨s₁, got, rfl⟩ := zoom_ok.mp first
  obtain ⟨rfl, rfl⟩ := gets_ok.mp got
  rw [loaded] at rest
  unfold readCount at copies ⊢
  by_cases refused : size < off ∨ (off + n) % UINT < off
  · rw [if_pos refused] at rest ⊢
    obtain ⟨rfl, -⟩ := pure_ok.mp rest
    rfl
  rw [if_neg refused] at rest copies ⊢
  have amount : (if size < off + n then size - off else n) = min n (size - off) := by
    split <;> omega
  dsimp only at rest
  rw [amount] at rest
  exact readiLoop_count copies _ 0 [] (by omega) (by omega) rest

theorem asInt_natCast {c : ℕ} (fits : c < UINT) : asInt c = if c < 2 ^ 31 then (c : ℤ) else c - 2 ^ 32 := by
  simp only [UINT] at fits
  unfold asInt
  rw [BitVec.toInt_ofInt, Int.bmod_def, Int.emod_eq_of_lt (by omega) (by exact_mod_cast fits)]
  split <;> split <;> push_cast at * <;> omega

/-- The count for numbers of 32 bits, in which the sum wraps around at most once. -/
theorem readCount_cases (size : ℕ) (low : off < UINT) (width : n < UINT) :
    ((size < off ∨ UINT ≤ off + n) ∧ readCount size off n = 0) ∨
      (off ≤ size ∧ off + n < UINT ∧ readCount size off n = min n (size - off)) := by
  have wraps : (off + n) % UINT < off ↔ UINT ≤ off + n := by
    simp only [UINT] at *
    omega
  unfold readCount
  by_cases refused : size < off ∨ (off + n) % UINT < off
  · rw [if_pos refused]
    exact .inl ⟨refused.imp_right wraps.mp, rfl⟩
  · rw [if_neg refused]
    rw [wraps] at refused
    exact .inr ⟨by omega, by omega, rfl⟩

theorem readCount_le (size off n : ℕ) : readCount size off n ≤ n := by
  unfold readCount
  split <;> omega

end Count

section Load

/-- The inode that `ilock` makes available: the one in memory if it is loaded, else what the buffer
cache presents. -/
def Fs.loadedDinode (s : Fs) (i : Fin INODES) : Dinode :=
  if (s.inodes i).vaild then (s.inodes i).din
  else Dinode.read (s.cache.block (s.inodes i).dev (IBLOCK (s.inodes i).inum s.sb)) ((s.inodes i).inum % IPB)

theorem ilock_loads {s s' : Fs} {u : Unit} (returned : ilock me (some i) s = .ok (u, s')) :
    (s'.inodes i).din = s.loadedDinode i := by
  unfold ilock at returned
  obtain ⟨ip, _, first, rest⟩ := bind_ok.mp returned
  obtain ⟨rfl, rfl⟩ := gets_ok.mp first
  obtain ⟨_, _, checked, rest⟩ := bind_ok.mp rest
  obtain ⟨-, rfl⟩ := stopIf_ok.mp checked
  obtain ⟨_, s₁, taken, rest⟩ := bind_ok.mp rest
  obtain ⟨-, rfl⟩ := lockInode_ok me taken
  unfold Fs.loadedDinode
  rw [onlyIf_run] at rest
  cases vaild : (s.inodes i).vaild with
  | true =>
    simp only [vaild, Bool.true_eq_false, ↓reduceIte, Except.ok.injEq, Prod.mk.injEq, true_and] at rest
    subst rest
    simp
  | false =>
    rw [if_pos vaild] at rest
    obtain ⟨sb, _, got, rest⟩ := bind_ok.mp rest
    obtain ⟨rfl, rfl⟩ := gets_ok.mp got
    obtain ⟨b, _, read, rest⟩ := bind_ok.mp rest
    obtain ⟨c, reading, rfl⟩ := zoom_ok.mp read
    obtain ⟨refs, rfl, -⟩ := bread_ok reading
    obtain ⟨data, _, looked, rest⟩ := bind_ok.mp rest
    obtain ⟨_, looking, rfl⟩ := zoom_ok.mp looked
    obtain ⟨rfl, rfl⟩ := gets_ok.mp looking
    obtain ⟨_, _, stored, rest⟩ := bind_ok.mp rest
    obtain rfl := update_ok.mp stored
    obtain ⟨_, _, released, rest⟩ := bind_ok.mp rest
    obtain ⟨c', -, rfl⟩ := zoom_ok.mp released
    obtain rfl := update_ok.mp rest
    simp [Fs.setInode, Bcache.setBuf, loaded]

def Kernel.fileSize (k : Kernel) (i : Fin INODES) : ℕ := (k.fs.loadedDinode i).size

end Load

section Offset

/-- The file table is left alone. -/
def Kernel.SameFiles (k k' : Kernel) : Prop := k'.files = k.files

instance : Std.Refl Kernel.SameFiles where
  refl := fun _ => rfl

instance : IsTrans Kernel Kernel.SameFiles where
  trans := fun _ _ _ first second => second.trans first

theorem fio_sameFiles {α : Type} (m : Fio α) : Frames Kernel.SameFiles (fio m) := by
  refine .ofOk fun k _ k' returned => ?_
  obtain ⟨_, -, rfl⟩ := zoom_ok.mp returned
  rfl

theorem mio_sameFiles {α : Type} (m : Mio α) : Frames Kernel.SameFiles (mio m) := by
  refine .ofOk fun k _ k' returned => ?_
  obtain ⟨_, -, rfl⟩ := zoom_ok.mp returned
  rfl

/-- The file is open for reading, and its inode is entry `i`. -/
structure OpenForRead (f : Fin NFILE) (i : Fin INODES) (k : Kernel) : Prop where
  readable : (k.files f).readable = true
  type : (k.files f).type = .inode
  ip : (k.files f).ip = some i
  off : (k.files f).off < UINT

/-- The bytes to be copied go to user addresses; a page of them that is not mapped makes the call panic. -/
def ValidBuffer (f : Fin NFILE) (i : Fin INODES) (addr n : ℕ) (k : Kernel) : Prop :=
  addr + readCount (k.fileSize i) (k.files f).off (n % UINT) ≤ MAXVA

/-- Everything a read that returns does to the file table. -/
theorem fileread_ok (opened : OpenForRead f i k) (buffer : ValidBuffer f i addr n k)
    (returned : fileread p f addr n k = .ok (ret, k')) :
    ret = asInt (readCount (k.fileSize i) (k.files f).off (n % UINT)) ∧
      k'.files = if 0 < ret then
        Function.update k.files f { k.files f with off := ((k.files f).off + n) % UINT } else k.files := by
  unfold fileread at returned
  obtain ⟨file, _, got, rest⟩ := bind_ok.mp returned
  obtain ⟨rfl, rfl⟩ := gets_ok.mp got
  rw [if_neg (by simp [opened.readable]), if_neg (by simp [opened.type]), if_pos opened.type] at rest
  obtain ⟨proc, _, got, rest⟩ := bind_ok.mp rest
  obtain ⟨rfl, rfl⟩ := gets_ok.mp got
  obtain ⟨_, k₁, locked, rest⟩ := bind_ok.mp rest
  have files₁ := (fio_sameFiles _).ok locked
  rw [opened.ip] at locked rest
  obtain ⟨s₁, locking, rfl⟩ := zoom_ok.mp locked
  have loaded := ilock_loads locking
  obtain ⟨⟨tot, bytes⟩, k₂, reading, rest⟩ := bind_ok.mp rest
  have files₂ : Kernel.SameFiles _ k₂ := Frames.ok (readi_frames _ (fun _ => fio_sameFiles _)
    (fun _ _ => mio_sameFiles _) i _ _) reading
  have count := readi_count (k.fileSize i) (congrArg Dinode.size loaded)
    (fun t tot bytes ok t' inside copied => ?_) reading
  rotate_left
  · obtain ⟨v, copying, -⟩ := zoom_ok.mp copied
    unfold ValidBuffer at buffer
    refine copyoutLoop_true _ ?_ copying
    have small := Nat.mod_le (addr + tot) WORD
    omega
  dsimp only at count rest
  obtain ⟨_, k₃, moved, rest⟩ := bind_ok.mp rest
  obtain ⟨_, k₄, unlocked, rest⟩ := bind_ok.mp rest
  have files₄ := (fio_sameFiles _).ok unlocked
  obtain ⟨rfl, rfl⟩ := pure_ok.mp rest
  rw [count] at moved ⊢
  refine ⟨rfl, ?_⟩
  rw [show k₄.files = k₃.files from files₄]
  have same : k₂.files = k.files := files₂.trans files₁
  rw [onlyIf_run] at moved
  split at moved
  · obtain rfl := update_ok.mp moved
    rw [if_pos ‹_›]
    simp only [Kernel.setFile, same]
  · obtain rfl : k₂ = k₃ := by simpa using moved
    rw [if_neg ‹_›]
    exact same

/-- The call asks for more than is left, and something is left. -/
def ShortRead (f : Fin NFILE) (i : Fin INODES) (n : ℕ) (k : Kernel) : Prop :=
  (k.files f).off < k.fileSize i ∧ k.fileSize i - (k.files f).off < n % UINT ∧
    (k.files f).off + n % UINT < UINT ∧ k.fileSize i - (k.files f).off < 2 ^ 31

/-- The offset moved by the number of bytes that was returned. -/
def OffsetRight (f : Fin NFILE) (k : Kernel) (ret : ℤ) (k' : Kernel) : Prop :=
  ((k'.files f).off : ℤ) = (k.files f).off + max ret 0

theorem offsetRight_iff (opened : OpenForRead f i k) (buffer : ValidBuffer f i addr n k)
    (returned : fileread p f addr n k = .ok (ret, k')) : OffsetRight f k ret k' ↔ ¬ ShortRead f i n k := by
  obtain ⟨value, files⟩ := fileread_ok opened buffer returned
  have low := opened.off
  have width : n % UINT < UINT := Nat.mod_lt _ (by decide)
  have moved : (k'.files f).off = if 0 < ret then ((k.files f).off + n % UINT) % UINT else (k.files f).off := by
    rw [files, Nat.add_mod_mod]
    split <;> simp
  unfold OffsetRight ShortRead
  rw [moved]
  rw [asInt_natCast (lt_of_le_of_lt (readCount_le _ _ _) width)] at value
  have cases := readCount_cases (k.fileSize i) low width
  generalize readCount (k.fileSize i) (k.files f).off (n % UINT) = c at *
  generalize (k.files f).off = off at *
  generalize k.fileSize i = size at *
  generalize n % UINT = u at *
  simp only [UINT] at *
  rcases cases with ⟨refused, rfl⟩ | ⟨inside, fits, rfl⟩
  · obtain rfl : ret = 0 := by simpa using value
    rw [if_neg (by omega)]
    omega
  · rw [Nat.mod_eq_of_lt fits]
    by_cases large : min u (size - off) < 2 ^ 31
    · rw [if_pos large] at value
      split <;> omega
    · rw [if_neg large] at value
      rw [if_neg (by omega)]
      omega

end Offset

section Ready

variable {V : ℕ → Block} {E : Stop → Prop} {I : Vm → Prop}

/-- The inode of entry `i` in the blocks `V`. -/
def Fs.dinodeIn (s : Fs) (V : ℕ → Block) (i : Fin INODES) : Dinode :=
  Dinode.read (V (IBLOCK (s.inodes i).inum s.sb)) ((s.inodes i).inum % IPB)

/-- Between two calls: the entry of the file is neither locked nor loaded, its blocks are all there,
and they and the block of the inode are saved. -/
structure FileReady (V : ℕ → Block) (i : Fin INODES) (s : Fs) : Prop where
  real : (s.inodes i).dev ≠ 0
  ref : 0 < (s.inodes i).ref
  free : (s.inodes i).splock.locked = false
  unread : (s.inodes i).vaild = false
  there : BlocksThere V (s.dinodeIn V i)
  settled : s.Settled (s.inodes i).dev V
    (insert (IBLOCK (s.inodes i).inum s.sb) (fileBlocks V (s.dinodeIn V i)))

theorem FileReady.loaded {s : Fs} (ready : FileReady V i s) : s.loadedDinode i = s.dinodeIn V i := by
  unfold Fs.loadedDinode Fs.dinodeIn
  rw [if_neg (by simp [ready.unread]), (ready.settled.agrees _ (.inl rfl)).1]

/-- `ilock` of such a file. -/
theorem FileReady.ilock {s : Fs} (ready : FileReady V i s) :
    Sat (ilock me (some i)) s E fun _ s' => s'.sb = s.sb ∧
      s'.Settled (s.inodes i).dev V (insert (IBLOCK (s.inodes i).inum s.sb) (fileBlocks V (s.dinodeIn V i))) ∧
      s'.inodes = Function.update s.inodes i
        { s.inodes i with splock := ⟨true, me⟩, din := s.dinodeIn V i } :=
  (ilock_settled ready.settled rfl ready.real (.inl rfl) ready.ref ready.free ready.unread).mono
    fun _ _ ⟨settled, sb, inodes⟩ => ⟨sb, settled, inodes⟩

/-- `iunlock` by the holder. -/
theorem iunlock_held {s : Fs} (held : (s.inodes i).splock = ⟨true, me⟩) (ref : 0 < (s.inodes i).ref) :
    Sat (iunlock me (some i)) s E fun _ s' =>
      s.setInode i (fun ip => { ip with splock := sleepUnlock ip.splock }) = s' := by
  unfold iunlock
  refine Sat.bind getInode_sat ?_
  rintro _ _ ⟨rfl, rfl⟩
  refine Sat.bind (Sat.stopIf (Q := fun _ t => s = t) (fun bad => ?_) fun _ => rfl) ?_
  · simp only [held, holdingsleep, beq_self_eq_true, Bool.and_self, Bool.true_eq_false, false_or] at bad
    omega
  rintro _ _ rfl
  exact Sat.update rfl

/-- `readi` of such a file, into a destination that takes every copy. -/
theorem readi_ready {copyout : ℕ → List Byte → Kio Bool} {d : Dinode} {dev : ℕ} {B : Set ℕ} (J : Kernel → Prop)
    (lifts : ∀ {α : Type} {m : Fio α} {t : Kernel} {Q : α → Fs → Prop}, J t → Sat m t.fs E Q →
      Sat (fio m) t E fun a t' => Q a t'.fs ∧ J t')
    (copies : ∀ t tot bytes, J t → tot + bytes.length ≤ readCount d.size off n →
      Sat (copyout tot bytes) t E fun ok t' => ok = true ∧ t'.fs = t.fs ∧ J t')
    (inv : J k) (real : dev ≠ 0) (there : BlocksThere V d) (known : fileBlocks V d ⊆ B)
    (settled : k.fs.Settled dev V B) (here : (k.fs.inodes i).dev = dev) (din : (k.fs.inodes i).din = d) :
    Sat (readi fio me i copyout off n) k E fun _ k' =>
      k'.fs.Settled dev V B ∧ k'.fs.sb = k.fs.sb ∧ k'.fs.inodes = k.fs.inodes ∧ J k' := by
  unfold readi
  refine Sat.bind (lifts inv getInode_sat) ?_
  rintro _ k₁ ⟨⟨rfl, same⟩, inv₁⟩
  rw [same] at settled here din ⊢
  rw [din]
  unfold readCount at copies
  by_cases refused : d.size < off ∨ (off + n) % UINT < off
  · rw [if_pos refused]
    exact Sat.pure ⟨settled, rfl, rfl, inv₁⟩
  rw [if_neg refused] at copies ⊢
  have amount : (if d.size < off + n then d.size - off else n) = min n (d.size - off) := by
    split <;> omega
  dsimp only
  rw [amount]
  by_cases none : min n (d.size - off) = 0
  · rw [none]
    exact Sat.pure ⟨settled, rfl, rfl, inv₁⟩
  obtain ⟨small, present, member, indirect⟩ := there.block (show off < d.size by omega)
  refine (readiLoop_settled (·.fs) J (d := d) lifts copies real small (fun far => known (indirect far)) present
    (known member) _ 0 [] (by omega) (by omega) inv₁ settled here din).mono ?_
  rintro r k₂ ⟨-, settled₂, sb₂, inodes₂, inv₂⟩
  exact ⟨settled₂, sb₂, inodes₂, inv₂⟩

/-- A read leaves the file ready for the next one, if the buffer takes every copy. -/
theorem fileread_ready (ready : FileReady V i k.fs) (opened : OpenForRead f i k) (inv : I k.vm)
    (copies : ∀ v tot bytes, I v → tot + bytes.length ≤ readCount (k.fileSize i) (k.files f).off (n % UINT) →
      Sat (copyoutpg (k.procs p).pagetable ((addr + tot) % WORD) bytes) v E fun ok v' => ok = true ∧ I v') :
    Sat (fileread p f addr n) k E fun _ k' =>
      FileReady V i k'.fs ∧ k'.fs.dinodeIn V i = k.fs.dinodeIn V i ∧ k'.procs = k.procs ∧ I k'.vm := by
  unfold fileread
  refine Sat.bind (Sat.gets (Q := fun a t => k.files f = a ∧ k = t) ⟨rfl, rfl⟩) ?_
  rintro _ _ ⟨rfl, rfl⟩
  rw [if_neg (by simp [opened.readable]), if_neg (by simp [opened.type]), if_pos opened.type]
  refine Sat.bind (Sat.gets (Q := fun a t => k.procs p = a ∧ k = t) ⟨rfl, rfl⟩) ?_
  rintro _ _ ⟨rfl, rfl⟩
  rw [opened.ip]
  refine Sat.bind (Q := fun _ t => t.fs.sb = k.fs.sb ∧ t.fs.Settled (k.fs.inodes i).dev V
      (insert (IBLOCK (k.fs.inodes i).inum k.fs.sb) (fileBlocks V (k.fs.dinodeIn V i))) ∧
      t.fs.inodes = Function.update k.fs.inodes i
        { k.fs.inodes i with splock := ⟨true, (k.procs p).pid⟩, din := k.fs.dinodeIn V i } ∧
      t.procs = k.procs ∧ t.vm = k.vm)
    (Sat.zoom (ready.ilock.mono fun _ _ ⟨sb, settled, inodes⟩ => ⟨sb, settled, inodes, rfl, rfl⟩)) ?_
  rintro _ k₁ ⟨sb₁, settled₁, inodes₁, procs₁, vm₁⟩
  dsimp only
  have size : k.fileSize i = (k.fs.dinodeIn V i).size := congrArg Dinode.size ready.loaded
  rw [size] at copies
  refine Sat.bind (readi_ready (fun t => t.procs = k.procs ∧ I t.vm)
    (fun inv spec => Sat.zoom (spec.mono fun _ _ post => ⟨post, inv⟩)) (fun t tot bytes inv inside => ?_)
    ⟨procs₁, vm₁ ▸ inv⟩ ready.real ready.there (fun _ member => .inr member) settled₁
    (by rw [inodes₁, Function.update_self]) (by rw [inodes₁, Function.update_self])) ?_
  · exact Sat.zoom ((copies t.vm tot bytes inv.2 inside).mono
      fun _ _ ⟨copied, kept⟩ => ⟨copied, rfl, inv.1, kept⟩)
  rintro ⟨tot, bytes⟩ k₂ ⟨settled₂, sb₂, inodes₂, procs₂, vm₂⟩
  dsimp only
  refine Sat.bind (Q := fun _ t => t.fs = k₂.fs ∧ t.procs = k₂.procs ∧ t.vm = k₂.vm)
    (Sat.onlyIf (fun _ => Sat.update ⟨rfl, rfl, rfl⟩) fun _ => ⟨rfl, rfl, rfl⟩) ?_
  rintro _ k₃ ⟨fs₃, procs₃, vm₃⟩
  have entry : k₃.fs.inodes i =
      { k.fs.inodes i with splock := ⟨true, (k.procs p).pid⟩, din := k.fs.dinodeIn V i } := by
    rw [fs₃, inodes₂, inodes₁, Function.update_self]
  refine Sat.bind (Q := fun _ t => t.fs = k₃.fs.setInode i (fun ip => { ip with splock := sleepUnlock ip.splock }) ∧
      t.procs = k₃.procs ∧ t.vm = k₃.vm)
    (Sat.zoom ((iunlock_held (by rw [entry]) (by rw [entry]; exact ready.ref)).mono ?_)) ?_
  · rintro _ s rfl
    exact ⟨rfl, rfl, rfl⟩
  rintro _ k₄ ⟨fs₄, procs₄, vm₄⟩
  have last : k₄.fs.inodes i = { k.fs.inodes i with splock := ⟨false, 0⟩, din := k.fs.dinodeIn V i } := by
    rw [fs₄, setInode_self, entry]
    rfl
  have sb₄ : k₄.fs.sb = k.fs.sb := by
    rw [fs₄, ← sb₁, ← sb₂, ← fs₃]
    rfl
  have din : k₄.fs.dinodeIn V i = k.fs.dinodeIn V i := by
    unfold Fs.dinodeIn
    rw [last, sb₄]
  refine Sat.pure ⟨?_, din, procs₄.trans (procs₃.trans procs₂), by rw [vm₄, vm₃]; exact vm₂⟩
  constructor
  · rw [last]
    exact ready.real
  · rw [last]
    exact ready.ref
  · rw [last]
  · rw [last]
    exact ready.unread
  · rw [din]
    exact ready.there
  · rw [din, last, sb₄]
    refine ⟨?_, ?_⟩
    · rw [fs₄, setInode_cache, fs₃]
      exact settled₂.resting
    · rw [fs₄, setInode_cache, fs₃]
      exact settled₂.agrees

/-- Reads of a file with all its blocks there keep its size. -/
theorem fileSize_kept (ready : FileReady V i k.fs) (opened : OpenForRead f i k) (buffer : ValidBuffer f i addr n k)
    (returned : fileread p f addr n k = .ok (ret, k')) :
    FileReady V i k'.fs ∧ k'.fileSize i = k.fileSize i := by
  have spec : Sat (fileread p f addr n) k anyStop _ := fileread_ready (I := fun _ => True) ready opened trivial
    fun v tot bytes _ inside => Sat.ofOk fun ok v' copied => ⟨?_, trivial⟩
  · obtain ⟨ready', din, -⟩ := spec.ok returned
    refine ⟨ready', ?_⟩
    unfold Kernel.fileSize
    rw [ready'.loaded, ready.loaded, din]
  · unfold ValidBuffer at buffer
    refine copyoutLoop_true _ ?_ copied
    have small := Nat.mod_le (addr + tot) WORD
    omega

end Ready

section Sequence

/-- A call of `fileread` and what it returned. -/
structure ReadCall where
  p : Fin NPROC
  addr : ℕ
  n : ℕ
  ret : ℤ

/-- The bytes that a sequence of calls returned. -/
def returnedBytes (calls : List ReadCall) : ℤ := (calls.map fun c => max c.ret 0).sum

/-- A call with a valid buffer, from the state before it to the one after it. -/
structure ReadStep (f : Fin NFILE) (i : Fin INODES) (k : Kernel) (c : ReadCall) (k' : Kernel) : Prop where
  buffer : ValidBuffer f i c.addr c.n k
  returned : fileread c.p f c.addr c.n k = .ok (c.ret, k')

/-- A call that does not ask for more than is left. -/
structure FullRead (f : Fin NFILE) (i : Fin INODES) (k : Kernel) (c : ReadCall) (k' : Kernel) : Prop
    extends ReadStep f i k c k' where
  full : ¬ ShortRead f i c.n k

variable {c : ReadCall} {calls : List ReadCall} {start : Kernel}

theorem OpenForRead.step (opened : OpenForRead f i k) (step : ReadStep f i k c k') : OpenForRead f i k' := by
  obtain ⟨-, files⟩ := fileread_ok opened step.buffer step.returned
  have file : k'.files f = k.files f ∨ k'.files f = { k.files f with off := ((k.files f).off + c.n) % UINT } := by
    rw [files]
    split
    · exact .inr (Function.update_self ..)
    · exact .inl rfl
  rcases file with same | moved
  · exact ⟨same ▸ opened.readable, same ▸ opened.type, same ▸ opened.ip, same ▸ opened.off⟩
  · refine ⟨?_, ?_, ?_, ?_⟩ <;> rw [moved]
    · exact opened.readable
    · exact opened.type
    · exact opened.ip
    · exact Nat.mod_lt _ (by decide)

/-- A call that moves the offset as it should ends within the file, if it began there. -/
theorem FullRead.within (opened : OpenForRead f i k) (step : FullRead f i k c k')
    (inside : (k.files f).off ≤ k.fileSize i) : (k'.files f).off ≤ k.fileSize i := by
  obtain ⟨value, -⟩ := fileread_ok opened step.buffer step.returned
  have moved := (offsetRight_iff opened step.buffer step.returned).mpr step.full
  have width : c.n % UINT < UINT := Nat.mod_lt _ (by decide)
  have cases := readCount_cases (k.fileSize i) opened.off width
  rw [asInt_natCast (lt_of_le_of_lt (readCount_le _ _ _) width)] at value
  unfold OffsetRight at moved
  generalize readCount (k.fileSize i) (k.files f).off (c.n % UINT) = count at *
  simp only [UINT] at *
  split at value <;> omega

/-- The offset after a sequence of full reads. -/
theorem offset_eq_returned (opened : OpenForRead f i start) (zero : (start.files f).off = 0)
    (run : Trace (FullRead f i) start calls k) :
    OpenForRead f i k ∧ ((k.files f).off : ℤ) = returnedBytes calls := by
  refine run.invariant (fun past k => OpenForRead f i k ∧ ((k.files f).off : ℤ) = returnedBytes past)
    ⟨opened, by simp [zero, returnedBytes]⟩ ?_
  rintro past k c k' ⟨opened, sum⟩ step
  have moved := (offsetRight_iff opened step.buffer step.returned).mpr step.full
  refine ⟨opened.step step.toReadStep, ?_⟩
  unfold OffsetRight at moved
  rw [moved, sum]
  simp [returnedBytes]

/-- A full read during which the file does not shrink. -/
def SteadyRead (f : Fin NFILE) (i : Fin INODES) (k : Kernel) (c : ReadCall) (k' : Kernel) : Prop :=
  FullRead f i k c k' ∧ k.fileSize i ≤ k'.fileSize i

theorem offset_within (opened : OpenForRead f i start) (zero : (start.files f).off = 0)
    (run : Trace (SteadyRead f i) start calls k) : OpenForRead f i k ∧ (k.files f).off ≤ k.fileSize i := by
  refine run.invariant (fun _ k => OpenForRead f i k ∧ (k.files f).off ≤ k.fileSize i) ⟨opened, by omega⟩ ?_
  rintro _ k c k' ⟨opened, inside⟩ ⟨step, grows⟩
  exact ⟨opened.step step.toReadStep, (step.within opened inside).trans grows⟩

/-- The offset of an open file under any sequence of reads. A call moves it by the bytes it returns
exactly when it does not ask for more than is left; after calls that do not, the offset is the number
of bytes returned so far, and within the file, which keeps its size if all its blocks are there. -/
theorem fileread_offset_iff (f : Fin NFILE) (i : Fin INODES) :
    (∀ k c k', OpenForRead f i k → ReadStep f i k c k' → (OffsetRight f k c.ret k' ↔ ¬ ShortRead f i c.n k)) ∧
    (∀ start calls k, OpenForRead f i start → (start.files f).off = 0 → Trace (FullRead f i) start calls k →
      ((k.files f).off : ℤ) = returnedBytes calls) ∧
    (∀ start calls k, OpenForRead f i start → (start.files f).off = 0 → Trace (SteadyRead f i) start calls k →
      (k.files f).off ≤ k.fileSize i) ∧
    ∀ V start calls k, OpenForRead f i start → (start.files f).off = 0 → FileReady V i start.fs →
      Trace (FullRead f i) start calls k → (k.files f).off ≤ k.fileSize i ∧ k.fileSize i = start.fileSize i := by
  refine ⟨fun k c k' opened step => offsetRight_iff opened step.buffer step.returned,
    fun start calls k opened zero run => (offset_eq_returned opened zero run).2,
    fun start calls k opened zero run => (offset_within opened zero run).2,
    fun V start calls k opened zero ready run => ?_⟩
  have inv := run.invariant (fun _ k => OpenForRead f i k ∧ (k.files f).off ≤ k.fileSize i ∧
    FileReady V i k.fs ∧ k.fileSize i = start.fileSize i) ⟨opened, by omega, ready, rfl⟩ ?_
  · exact ⟨inv.2.1, inv.2.2.2⟩
  · rintro _ k c k' ⟨opened, inside, ready, same⟩ step
    obtain ⟨ready', kept⟩ := fileSize_kept ready opened step.buffer step.returned
    exact ⟨opened.step step.toReadStep, kept ▸ step.within opened inside, ready', kept.trans same⟩

end Sequence

section Sample

/-- The entries on the way to user page 1 of the sample memory. -/
structure PageOne (v : Vm) : Prop where
  upper : v.load (PGSIZE * 524288) = 524289 * 1024 + 1
  inner : v.load (PGSIZE * 524289) = 524290 * 1024 + 1
  leaf : v.load (PGSIZE * 524290 + 8) = 524291 * 1024 + 31

theorem pageOne_scattered : PageOne scattered := ⟨by decide +kernel, by decide +kernel, by decide +kernel⟩

theorem PageOne.walkaddr {v : Vm} (page : PageOne v) :
    walkaddr (PGSIZE * 524288) PGSIZE v = .ok (PGSIZE * 524291, v) := by
  have frames : PTE2PA (524289 * 1024 + 1) = PGSIZE * 524289 ∧ PTE2PA (524290 * 1024 + 1) = PGSIZE * 524290 ∧
      PTE2PA (524291 * 1024 + 31) = PGSIZE * 524291 := by decide +kernel
  have valid : (524289 * 1024 + 1) &&& PTE_V ≠ 0 ∧ (524290 * 1024 + 1) &&& PTE_V ≠ 0 ∧
      (524291 * 1024 + 31) &&& PTE_V ≠ 0 ∧ (524291 * 1024 + 31) &&& PTE_U ≠ 0 := by decide +kernel
  have index : PX 2 PGSIZE = 0 ∧ PX 1 PGSIZE = 0 ∧ PX 0 PGSIZE = 1 := by decide
  have nonzero : PGSIZE * 524290 + 8 * 1 ≠ 0 ∧ PGSIZE * 524291 ≠ 0 := by decide
  have leaf : v.load (PGSIZE * 524290 + 8 * 1) = 524291 * 1024 + 31 := page.leaf
  unfold HaloOS.walkaddr walk
  rw [if_neg (by decide)]
  simp only [bind_run, stopIf_run, walkFrom, gets_run, index.1, index.2.1, index.2.2, Nat.mul_zero, Nat.add_zero,
    page.upper, page.inner, leaf, frames.1, frames.2.1, frames.2.2, if_pos valid.1, if_pos valid.2.1,
    if_neg valid.2.2.1, if_neg valid.2.2.2, if_neg nonzero.1, if_neg nonzero.2, pure_run,
    if_neg (show ¬ MAXVA ≤ PGSIZE by decide)]

/-- Copies into page 1 succeed, one after the other. -/
theorem PageOne.copyoutpg {v : Vm} {tot : ℕ} {bytes : List Byte} {E : Stop → Prop} (page : PageOne v)
    (inside : tot + bytes.length ≤ PGSIZE) :
    Sat (copyoutpg (PGSIZE * 524288) ((PGSIZE + tot) % WORD) bytes) v E fun ok v' => ok = true ∧ PageOne v' := by
  unfold HaloOS.copyoutpg
  cases bytes with
  | nil => exact Sat.pure ⟨rfl, page⟩
  | cons head rest =>
    have place : (PGSIZE + tot) % WORD = PGSIZE + tot := by
      simp only [PGSIZE, WORD, List.length_cons] at *
      omega
    have base : PGROUNDDOWN (PGSIZE + tot) = PGSIZE := by
      simp only [PGROUNDDOWN, PGSIZE, List.length_cons] at *
      omega
    rw [place, List.length_cons]
    unfold copyoutLoop
    rw [if_neg (by simp), base]
    refine Sat.bind (Q := fun pa t => PGSIZE * 524291 = pa ∧ v = t) ?_ ?_
    · unfold Sat
      rw [page.walkaddr]
      exact ⟨rfl, rfl⟩
    rintro _ _ ⟨rfl, rfl⟩
    rw [if_neg (by decide), Nat.add_sub_cancel_left, min_eq_right (by simp only [List.length_cons] at *; omega)]
    dsimp only
    rw [List.take_length, List.drop_length]
    refine Sat.bind (Sat.update (Q := fun _ t => PageOne t) ?_) ?_
    · -- the table pages lie below the frame
      have below : ∀ a, a + 8 ≤ PGSIZE * 524291 →
          (v.writeBytes (PGSIZE * 524291 + tot) (head :: rest)).load a = v.load a := by
        intro a low
        unfold Vm.load Vm.writeBytes
        dsimp only
        rw [if_pos (by omega)]
      exact ⟨(below _ (by decide)).trans page.upper, (below _ (by decide)).trans page.inner,
        (below _ (by decide)).trans page.leaf⟩
    rintro _ v' page'
    cases rest with
    | nil => exact Sat.pure ⟨rfl, page'⟩
    | cons _ _ =>
      rw [List.length_cons]
      unfold copyoutLoop
      rw [if_pos rfl]
      exact Sat.pure ⟨rfl, page'⟩

/-- A process that has opened the root directory of two entries. -/
def dirReader : Kernel where
  fs := smallDir dotAndX
  vm := scattered
  files := fun _ => { type := .inode, ref := 1, readable := true, ip := some 0 }
  procs := fun _ => { state := .running, pid := 1, pagetable := PGSIZE * 524288 }
  initp := none
  nextPid := 2
  cons := {}

theorem dirReader_open : OpenForRead 0 0 dirReader := ⟨rfl, rfl, rfl, by decide⟩

theorem dirReader_ready : FileReady dirReader.fs.cache.disk 0 dirReader.fs where
  real := by decide
  ref := Int.one_pos
  free := rfl
  unread := rfl
  there := ((twoEntries_directory _).congr (smallDir_root dotAndX).symm).toBlocksThere
  settled := smallDir_settled dotAndX _

theorem dirReader_size : dirReader.fileSize 0 = 32 :=
  (congrArg Dinode.size dirReader_ready.loaded).trans (smallDir_root dotAndX).size

/-- The process reads `n` bytes into page 1. -/
theorem dirReader_reads (n : ℕ) : ∃ ret k', ReadStep 0 0 dirReader ⟨0, PGSIZE, n, ret⟩ k' := by
  have few : readCount (dirReader.fileSize 0) (dirReader.files 0).off (n % UINT) ≤ 32 := by
    rw [dirReader_size]
    unfold readCount
    split <;> omega
  have total : Sat (fileread 0 0 PGSIZE n) dirReader (fun _ => False) _ :=
    fileread_ready dirReader_ready dirReader_open pageOne_scattered fun v tot bytes page inside =>
      page.copyoutpg (inside.trans (few.trans (by decide)))
  obtain ⟨ret, k', returned, -⟩ := total.returns
  refine ⟨ret, k', ?_, returned⟩
  unfold ValidBuffer
  have room : PGSIZE + 32 ≤ MAXVA := by decide
  dsimp only
  omega

/-- The first entry is read, and the offset is at the second. -/
theorem fileread_offset_entry : ∃ k', Trace (FullRead 0 0) dirReader [⟨0, PGSIZE, 16, 16⟩] k' ∧
    (k'.files 0).off = 16 ∧ (k'.files 0).off ≤ k'.fileSize 0 := by
  obtain ⟨ret, k', step⟩ := dirReader_reads 16
  have value := (fileread_ok dirReader_open step.buffer step.returned).1
  rw [dirReader_size] at value
  obtain rfl : ret = 16 := value.trans (show asInt (readCount 32 0 (16 % UINT)) = 16 by decide)
  have full : ¬ ShortRead 0 0 16 dirReader := by
    unfold ShortRead
    rw [dirReader_size]
    decide
  obtain ⟨-, sum, -, within⟩ := fileread_offset_iff 0 0
  have run : Trace (FullRead 0 0) dirReader [⟨0, PGSIZE, 16, 16⟩] k' := .single ⟨step, full⟩
  refine ⟨k', run, ?_, (within _ _ _ _ dirReader_open rfl dirReader_ready run).1⟩
  have total : ((k'.files 0).off : ℤ) = 16 := sum _ _ _ dirReader_open rfl run
  exact_mod_cast total

/-- Asked for 64 bytes, `fileread` returns the 32 of the file and moves the offset to 64. -/
theorem fileread_runs_past : OpenForRead 0 0 dirReader ∧ dirReader.fileSize 0 = 32 ∧
    ∃ k', fileread 0 0 PGSIZE 64 dirReader = .ok (32, k') ∧ (k'.files 0).off = 64 ∧
      ¬ OffsetRight 0 dirReader 32 k' := by
  refine ⟨dirReader_open, dirReader_size, ?_⟩
  obtain ⟨ret, k', step⟩ := dirReader_reads 64
  obtain ⟨value, files⟩ := fileread_ok dirReader_open step.buffer step.returned
  rw [dirReader_size] at value
  obtain rfl : ret = 32 := value.trans (show asInt (readCount 32 0 (64 % UINT)) = 32 by decide)
  have moved : (k'.files 0).off = 64 := by
    rw [files, if_pos (by decide), Function.update_self]
    rfl
  refine ⟨k', step.returned, moved, fun right => ?_⟩
  unfold OffsetRight at right
  rw [moved] at right
  exact absurd right (by decide)

end Sample

end HaloOS
