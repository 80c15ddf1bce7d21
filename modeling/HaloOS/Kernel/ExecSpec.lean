import HaloOS.Kernel.Reader
import HaloOS.Kernel.Stack

/-! `exec` keeps the books: the new address space is built beside the old one, whatever
the program headers say, and the old one is given back as a whole. What the new one holds
is what was loaded, with the arguments in its last page. -/

namespace HaloOS

open Lib

variable {L : Layout} {v v' : Vm} {own own' : ℕ → Owner} {l l' : List ℕ} {k k' : Kernel}
  {procs : Fin NPROC → Proc} {t f g n u : ℕ} {p : Fin NPROC} {S : ℕ → Prop} {top : ℕ → ℕ}
  {W : (ℕ → Owner) → Vm → Prop} {data data' : Mem} {flags : ℕ → ℕ}

section Building

/-- A table of process `p` that is being built while the books are kept. -/
structure Site (L : Layout) (procs : Fin NPROC → Proc) (t f : ℕ) (own : ℕ → Owner) (l : List ℕ)
    (S : ℕ → Prop) (k : Kernel) : Prop where
  ledger : Ledger L k.vm procs own l (fun n => n = t ∨ False)
  space : Space L k.vm own l t S (topLeaves L f)
  apart : ∀ q, (procs q).state ≠ .unused → (procs q).pagetable ≠ PGSIZE * t
  procs_eq : k.procs = procs

/-- The same with the owners left open, as long as what is watched holds. User memory holds `data`. -/
def Builds (L : Layout) (W : (ℕ → Owner) → Vm → Prop) (procs : Fin NPROC → Proc) (t f : ℕ) (p : Fin NPROC)
    (S : ℕ → Prop) (flags : ℕ → ℕ) (data : Mem) (k : Kernel) : Prop :=
  ∃ own l, Site L procs t f own l S k ∧ own t = .root p ∧ W own k.vm ∧ Image k.vm own t data flags

/-- All pages are open to the user. -/
def opened : ℕ → ℕ := fun _ => 31

theorem Site.settled (site : Site L procs t f own l S k) : Settled own t :=
  fun n => site.ledger.settled n t

theorem Site.setFs (site : Site L procs t f own l S k) (fs : Fs) :
    Site L procs t f own l S { k with fs } :=
  ⟨site.ledger, site.space, site.apart, site.procs_eq⟩

theorem Builds.setFs (builds : Builds L W procs t f p S flags data k) (fs : Fs) :
    Builds L W procs t f p S flags data { k with fs } := by
  obtain ⟨own, l, site, rest⟩ := builds
  exact ⟨own, l, site.setFs fs, rest⟩

/-- Work on the new table. -/
theorem Builds.mio {α : Type} {m : Mio α} {E : Stop → Prop} (watched : Watched p W) (S' : α → ℕ → Prop)
    (flags' : ℕ → ℕ) (R : α → Mem → Prop) (builds : Builds L W procs t f p S flags data k)
    (run : ∀ own l, Space L k.vm own l t S (topLeaves L f) → Settled own t → Image k.vm own t data flags →
      Sat m k.vm E fun a s => ∃ own' l' data', Settled own' t ∧ Within t own k.vm own' s ∧
        Space L s own' l' t (S' a) (topLeaves L f) ∧ Image s own' t data' flags' ∧ R a data') :
    Sat (HaloOS.mio m) k E fun a k' =>
      ∃ data', Builds L W procs t f p (S' a) flags' data' k' ∧ R a data' := by
  obtain ⟨own, l, site, root, kept, image⟩ := builds
  refine Sat.mono (sat_mio (run own l site.space site.settled image)) ?_
  rintro a k' ⟨⟨own', l', data', settled, within, space, image', result⟩, same⟩
  have root' : own' t = .root p := within.root.trans root
  refine ⟨data', ⟨own', l', ⟨?_, space, site.apart, same.trans site.procs_eq⟩, root', ?_, image'⟩, result⟩
  · exact site.ledger.work _ site.space.tree site.apart space settled within
  · exact watched.touches within.touches (.inr root) (.inr root') kept

theorem Builds.fio {α : Type} {m : Fio α} (builds : Builds L W procs t f p S flags data k)
    (calm : Stops Gentle m) :
    Sat (HaloOS.fio m) k Gentle fun _ k' => Builds L W procs t f p S flags data k' := by
  refine (calm.sat_zoom k).mono ?_
  rintro _ _ ⟨fs, rfl⟩
  exact builds.setFs fs

/-- `uvmalloc` adds pages of zeros, or fails. -/
theorem Builds.uvmalloc {sz newsz : ℕ} {E : Stop → Prop} (watched : Watched p W)
    (builds : Builds L W procs t f p (· < pages sz) opened data k) :
    Sat (HaloOS.mio (HaloOS.uvmalloc L (PGSIZE * t) sz newsz)) k E fun r k' => r ≠ 0 →
      r = max sz newsz ∧ Builds L W procs t f p (· < pages r) opened data k' := by
  obtain ⟨own, l, site, root, kept, image⟩ := builds
  refine (sat_mio (site.space.uvmalloc site.settled (topLeaves_topOnly L f))).mono ?_
  rintro r k' ⟨⟨own', l', settled, within, ⟨zero, -⟩ | ⟨larger, space, extended, -⟩⟩, same⟩ positive
  · exact absurd zero positive
  · have root' : own' t = .root p := within.root.trans root
    refine ⟨larger, own', l', ⟨?_, space, site.apart, same.trans site.procs_eq⟩, root', ?_,
      image.extends extended⟩
    · exact site.ledger.work _ site.space.tree site.apart space settled within
    · exact watched.touches within.touches (.inr root) (.inr root') kept

end Building

section Loading

variable {rd : Reader} {ok : Fin INODES → ℕ → ℕ → List Byte → Prop} {ip : Fin INODES}

/-- Bytes that were read one behind the other were read together. -/
structure Joins (ok : ℕ → ℕ → List Byte → Prop) : Prop where
  none : ∀ off, ok off 0 []
  more : ∀ off bytes rest, ok off bytes.length bytes → ok (off + bytes.length) rest.length rest →
    ok off (bytes ++ rest).length (bytes ++ rest)

/-- What the program headers from `off` on load, one after the other: the size and the contents of user
memory before and after. -/
inductive Loads (ok : ℕ → ℕ → List Byte → Prop) : ℕ → ℕ → ℕ → Mem → ℕ → Mem → Prop
  | done {off sz : ℕ} {data : Mem} : Loads ok 0 off sz data sz data
  | skip {count off sz sz' : ℕ} {data data' : Mem} {ph : List Byte} (read : ok off 56 ph)
      (other : field ph 0 4 ≠ ELF_PROG_LOAD)
      (rest : Loads ok count ((off + 56) % UINT) sz data sz' data') : Loads ok (count + 1) off sz data sz' data'
  | segment {count off sz sz' : ℕ} {data data' : Mem} {ph bytes : List Byte} (read : ok off 56 ph)
      (load : field ph 0 4 = ELF_PROG_LOAD) (fits : field ph 32 8 ≤ field ph 40 8)
      (inside : field ph 16 8 + field ph 40 8 < WORD) (aligned : field ph 16 8 % PGSIZE = 0)
      (length : bytes.length = field ph 32 8)
      (delivered : field ph 8 8 + field ph 32 8 ≤ UINT → ok (field ph 8 8) bytes.length bytes)
      (rest : Loads ok count ((off + 56) % UINT) (max sz (field ph 16 8 + field ph 40 8))
        (data.store (field ph 16 8) bytes) sz' data') : Loads ok (count + 1) off sz data sz' data'

/-- `loadseg` fills frames of the new table. -/
theorem Builds.loadseg (delivers : rd.Delivers Gentle ok) (joins : Joins (ok ip)) (watched : Watched p W)
    (builds : Builds L W procs t f p S flags data k) (me u off sz : ℕ) :
    Sat (loadsegWith rd me (PGSIZE * t) (PGSIZE * u) ip off sz) k Gentle fun r k' =>
      ∃ data', Builds L W procs t f p S flags data' k' ∧ (r = true → ∃ bytes, bytes.length = sz ∧
        data' = data.store (PGSIZE * u) bytes ∧ (off + sz ≤ UINT → ok ip off bytes.length bytes)) := by
  have loop : ∀ count i data k, Builds L W procs t f p S flags data k →
      (sz - PGSIZE * i + PGSIZE - 1) / PGSIZE = count →
      Sat (loadsegLoopWith rd me (PGSIZE * t) (PGSIZE * u) ip off sz count (PGSIZE * i)) k Gentle
        fun r k' => ∃ data', Builds L W procs t f p S flags data' k' ∧ (r = true → ∃ bytes,
          bytes.length = sz - PGSIZE * i ∧ data' = data.store (PGSIZE * (u + i)) bytes ∧
          (off + sz ≤ UINT → ok ip (off + PGSIZE * i) bytes.length bytes)) := by
    intro count
    induction count with
    | zero =>
      intro i data k builds none
      refine Sat.pure ⟨data, builds, fun _ => ⟨[], ?_, (Mem.store_nil _ _).symm, fun _ => joins.none _⟩⟩
      simp only [PGSIZE, List.length_nil] at *
      omega
    | succ count ih =>
      rintro i data k ⟨own, l, site, root, kept, image⟩ pages
      have low : PGSIZE * i < sz := by
        simp only [PGSIZE] at *
        omega
      unfold loadsegLoopWith
      rw [← Nat.mul_add]
      refine Sat.bind (sat_mio (site.space.walkaddr (u + i))) ?_
      rintro pa k₁ ⟨⟨vm₁, place⟩, procs₁⟩
      refine Sat.bind (Sat.stopIf (Q := fun _ s => k₁ = s ∧ pa ≠ 0) (fun _ => by decide)
        fun nonzero => ⟨rfl, nonzero⟩) ?_
      rintro _ _ ⟨rfl, nonzero⟩
      obtain zero | ⟨g, rfl, owner⟩ := place
      · exact absurd zero nonzero
      rw [← vm₁] at kept
      have site₁ : Site L procs t f own l S k₁ := by
        refine ⟨?_, ?_, site.apart, procs₁.trans site.procs_eq⟩
        · rw [vm₁]
          exact site.ledger
        · rw [vm₁]
          exact site.space
      dsimp only
      generalize size : min (sz - PGSIZE * i) PGSIZE = m
      refine Sat.bind (delivers.segment me ip _ ((off + PGSIZE * i) % UINT) m (fun tot k => ∃ bytes,
        bytes.length = tot ∧ Site L procs t f own l S k ∧ W own k.vm ∧
        Image k.vm own t (data.store (PGSIZE * (u + i)) bytes) flags ∧
        (off + sz ≤ UINT → ok ip (off + PGSIZE * i) bytes.length bytes)) k₁ ?_ ?_ ?_) ?_
      · rintro tot k fs ⟨bytes, length, site, kept, image, read⟩
        exact ⟨bytes, length, site.setFs fs, kept, image, read⟩
      · rintro _ chunk k fits chunkOk ⟨bytes, rfl, site, kept, image, read⟩
        have inside : bytes.length + chunk.length ≤ PGSIZE := by omega
        obtain ⟨space', within⟩ := site.space.scribble (.inr ⟨_, owner⟩) (keeps_writeBytes k.vm inside) rfl
        have image' := image.write site.space owner inside
        rw [Mem.store_append] at image'
        refine Sat.bind (Q := fun _ s => s = { k with vm := k.vm.writeBytes (PGSIZE * g + bytes.length) chunk })
          (Sat.zoom (Sat.update rfl)) ?_
        rintro _ _ rfl
        refine Sat.pure ⟨bytes ++ chunk, List.length_append, ⟨?_, space', site.apart, site.procs_eq⟩,
          watched.touches within.touches (.inr root) (.inr root) kept, image', fun small => ?_⟩
        · exact site.ledger.work _ site.space.tree site.apart space' site.settled within
        · rw [Nat.mod_eq_of_lt (by omega)] at chunkOk
          exact joins.more _ _ _ (read small) chunkOk
      · refine ⟨[], rfl, site₁, kept, ?_, fun _ => joins.none _⟩
        rw [Mem.store_nil, vm₁]
        exact image
      · rintro ⟨r, handed⟩ k₂ ⟨_, ⟨bytes, rfl, site₂, kept₂, image₂, read⟩, all⟩
        dsimp only at all ⊢
        refine Sat.ite (fun _ => Sat.pure ⟨_, ⟨own, l, site₂, root, kept₂, image₂⟩, fun bad => by cases bad⟩)
          fun complete => ?_
        have length := all (not_not.mp complete)
        refine (ih (i + 1) _ k₂ ⟨own, l, site₂, root, kept₂, image₂⟩ ?_).mono ?_
        · simp only [PGSIZE] at *
          omega
        rintro done k₃ ⟨data₃, builds₃, result⟩
        refine ⟨data₃, builds₃, fun succeeded => ?_⟩
        obtain ⟨rest, restLength, rfl, restOk⟩ := result succeeded
        refine ⟨bytes ++ rest, ?_, ?_⟩
        · rw [List.length_append, length, restLength, ← size]
          simp only [PGSIZE] at *
          omega
        by_cases last : rest = []
        · subst last
          rw [List.append_nil, Mem.store_nil]
          exact ⟨rfl, read⟩
        · have some := List.length_pos_of_ne_nil last
          have full : bytes.length = PGSIZE := by
            rw [length, ← size]
            simp only [PGSIZE] at *
            omega
          have next : PGSIZE * (u + (i + 1)) = PGSIZE * (u + i) + bytes.length := by
            rw [full, ← Nat.add_assoc, Nat.mul_add_one]
          rw [next, Mem.store_append]
          refine ⟨rfl, fun small => joins.more _ _ _ (read small) ?_⟩
          rw [full, Nat.add_assoc, ← Nat.mul_add_one]
          exact restOk small
  have start := loop ((sz + PGSIZE - 1) / PGSIZE) 0 data k builds (by simp)
  simpa [loadsegWith] using start

theorem field_lt (bytes : List Byte) (off n : ℕ) : field bytes off n < 256 ^ n := by
  have digits : ∀ places : List ℕ, places.foldr (fun k rest => (bytes.getD (off + k) 0).toNat + 256 * rest) 0 <
      256 ^ places.length := by
    intro places
    induction places with
    | nil => simp
    | cons k places ih =>
      rw [List.foldr_cons, List.length_cons, pow_succ]
      have low := (bytes.getD (off + k) 0).isLt
      omega
  simpa [field] using digits (List.range n)

/-- The loop over the program headers. -/
theorem Builds.loadLoop {me sz off count : ℕ} (delivers : rd.Delivers Gentle ok) (joins : Joins (ok ip))
    (watched : Watched p W) (builds : Builds L W procs t f p (· < pages sz) opened data k) :
    Sat (loadLoopWith L rd me (PGSIZE * t) ip count off sz) k Gentle fun r k' =>
      ∃ data', Builds L W procs t f p (· < pages r) opened data' k' ∧ Loads (ok ip) count off sz data r data' := by
  induction count generalizing off sz data k with
  | zero => exact Sat.pure ⟨data, builds, .done⟩
  | succ count ih =>
    unfold loadLoopWith
    refine Sat.bind (delivers.header me ip off 56 k) ?_
    rintro ⟨r, ph⟩ k₁ ⟨⟨fs, same⟩, read⟩
    have builds := builds.setFs fs
    rw [← same] at builds
    dsimp only at read ⊢
    refine Sat.bind (Sat.stopIf (Q := fun _ s => k₁ = s ∧ ok ip off 56 ph) (fun _ => by decide)
      fun whole => ⟨rfl, read (not_not.mp whole)⟩) ?_
    rintro _ _ ⟨rfl, read⟩
    refine Sat.ite (fun other => ?_) fun load => ?_
    · refine (ih builds).mono ?_
      rintro r k₂ ⟨data', builds', loads⟩
      exact ⟨data', builds', .skip read other loads⟩
    have load := not_not.mp load
    have vaddrLt := field_lt ph 16 8
    have memszLt := field_lt ph 40 8
    have word : (256 : ℕ) ^ 8 = WORD := rfl
    rw [word] at vaddrLt memszLt
    generalize vaddrIs : field ph 16 8 = vaddr at vaddrLt ⊢
    generalize memszIs : field ph 40 8 = memsz at memszLt ⊢
    generalize fileszIs : field ph 32 8 = filesz
    generalize offIs : field ph 8 8 = from_
    refine Sat.bind (Sat.stopIf (Q := fun _ s => k₁ = s ∧ filesz ≤ memsz)
      (fun _ => by decide) fun fits => ⟨rfl, not_lt.mp fits⟩) ?_
    rintro _ _ ⟨rfl, fits⟩
    refine Sat.bind (Sat.stopIf (Q := fun _ s => k₁ = s ∧ vaddr + memsz < WORD)
      (fun _ => by decide) fun forward => ⟨rfl, ?_⟩) ?_
    · by_contra wraps
      rw [Nat.mod_eq_sub_mod (not_lt.mp wraps), Nat.mod_eq_of_lt (by omega)] at forward
      omega
    rintro _ _ ⟨rfl, inside⟩
    rw [Nat.mod_eq_of_lt inside]
    refine Sat.bind (builds.uvmalloc watched) fun sz1 k₂ grown => ?_
    refine Sat.bind (Sat.stopIf (Q := fun _ s => sz1 = max sz (vaddr + memsz) ∧
      Builds L W procs t f p (· < pages sz1) opened data s) (fun _ => by decide) grown) ?_
    rintro _ k₃ ⟨larger, builds₃⟩
    refine Sat.bind (Sat.stopIf (Q := fun _ s => k₃ = s ∧ vaddr % PGSIZE = 0) (fun _ => by decide)
      fun aligned => ⟨rfl, not_not.mp aligned⟩) ?_
    rintro _ _ ⟨rfl, aligned⟩
    have page : PGSIZE * (vaddr / PGSIZE) = vaddr := by
      have whole := Nat.div_add_mod vaddr PGSIZE
      rwa [aligned, Nat.add_zero] at whole
    have loaded := builds₃.loadseg delivers joins watched me (vaddr / PGSIZE) from_ filesz
    rw [page] at loaded
    refine Sat.bind loaded ?_
    rintro done k₄ ⟨data₄, builds₄, result⟩
    refine Sat.bind (Sat.stopIf (Q := fun _ s => k₄ = s ∧ done = true) (fun _ => by decide)
      fun ended => ⟨rfl, by simpa using ended⟩) ?_
    rintro _ _ ⟨rfl, succeeded⟩
    obtain ⟨bytes, length, rfl, delivered⟩ := result succeeded
    refine (ih builds₄).mono ?_
    rintro r k₅ ⟨data', builds', loads⟩
    subst vaddrIs memszIs fileszIs offIs larger
    exact ⟨data', builds', .segment read load fits inside aligned length delivered loads⟩

end Loading

section Installing

/-- `exec` starts its table beside the books. -/
theorem Ledger.builds (books : Books L k own l) (f : ℕ) (p : Fin NPROC) (watched : Watched p W)
    (kept : W own k.vm) :
    Sat (mio (procPagetable L (PGSIZE * f))) k Gentle fun r k' =>
      ∃ t, r = PGSIZE * t ∧
        Builds L W k.procs t f p (· < pages 0) opened (fun _ => 0) k' := by
  refine Sat.mono (sat_mio (procPagetable_spec books.pool (fun t free => books.bare free) p f)) ?_
  rintro _ k₁ ⟨⟨t, own₁, l₁, rfl, free, root, space, settled, touches, -, -⟩, procs₁⟩
  have apart : ∀ q, (k.procs q).state ≠ .unused → (k.procs q).pagetable ≠ PGSIZE * t := by
    intro q used same
    obtain ⟨s, g, table, -, root', -⟩ := books.holds q used
    obtain rfl := PGSIZE_inj (table.symm.trans same)
    simp [free] at root'
  have ledger := Ledger.within books touches space.pool (.inl free) (.inr ⟨p, root⟩)
    (fun _ _ => ⟨p, root⟩) settled (.inl free) apart
  have unmapped : ∀ n u, own₁ n ≠ .user t u := fun n u here => (space.maps.user n u here).1
  refine ⟨t, rfl, own₁, l₁, ⟨ledger.relist ?_ ?_, ⟨space.pool, space.tree, ?_⟩, apart, procs₁⟩, root, ?_, ?_⟩
  · exact fun n q _ either => either.symm
  · exact fun n q _ either => either.symm
  · exact space.maps.set_congr fun a => ⟨False.elim, fun below => by simp [pages, PGSIZE] at below⟩
  · exact watched.touches touches (.inl free) (.inr root) kept
  · exact ⟨fun n u here => absurd here (unmapped n u), fun n u here => absurd here (unmapped n u),
      fun _ _ => ⟨rfl, fun _ _ => rfl⟩⟩

/-- The old table of `exec` is given back as a whole. -/
theorem Ledger.giveBack {procs : Fin NPROC → Proc} {sz s : ℕ} {E : Stop → Prop}
    (ledger : Ledger L v procs own l (fun n => n = s)) (root : own s = .root p)
    (tree : Tree v.mem own s) (maps : Maps v.mem own s (· < pages sz) (topLeaves L f))
    (apart : ∀ q, (procs q).state ≠ .unused → (procs q).pagetable ≠ PGSIZE * s) :
    Sat (procFreepagetable L (PGSIZE * s) sz) v E fun _ v' =>
      ∃ own' l', Ledger L v' procs own' l' (fun _ => False) ∧ Touches s own v own' v' ∧
        own' s = .free := by
  have space : Space L v own l s (· < pages sz) (topLeaves L f) := ⟨ledger.pool, tree, maps⟩
  refine (space.procFreepagetable (E := E) fun n => ledger.settled n s).mono ?_
  rintro _ v' ⟨own', l', pool, touches, free, bare⟩
  have after := ledger.within touches pool (.inr ⟨p, root⟩) (.inl free)
    (fun n inner => (inner.elim (bare n).1 (bare n).2).elim) (fun n => (bare n).2) (.inr rfl) apart
  refine ⟨own', l', after.relist ?_ ?_, touches, free⟩
  · rintro n q here (rfl | rfl) <;> simp [free] at here
  · rintro n q here (rfl | rfl) <;> simp [free] at here

/-- What `exec` leaves of process `p`: a table whose memory holds `data`, and a trapframe for the
first instruction. -/
structure Installed (L : Layout) (k : Kernel) (own : ℕ → Owner) (l : List ℕ) (p : Fin NPROC)
    (t f sz entry sp : ℕ) (data : Mem) (flags : ℕ → ℕ) : Prop where
  table : (k.procs p).pagetable = PGSIZE * t
  frame : (k.procs p).trapframe = PGSIZE * f
  size : (k.procs p).sz = sz
  space : Space L k.vm own l t (· < pages sz) (topLeaves L f)
  image : Image k.vm own t data flags
  epc : k.vm.load (PGSIZE * f + EPC) = entry
  pointer : k.vm.load (PGSIZE * f + SP) = sp
  argument : k.vm.load (PGSIZE * f + A1) = sp

theorem load_store (v : Vm) (n a b x : ℕ) : (v.store (PGSIZE * n + 8 * a) x).load (PGSIZE * n + 8 * b) =
    if b = a then x else v.load (PGSIZE * n + 8 * b) := by
  have word : ∀ a, (PGSIZE * n + 8 * a) / 8 = 512 * n + a := by
    intro a
    simp only [PGSIZE]
    omega
  unfold Vm.store Vm.load
  rw [word, word]
  by_cases same : b = a
  · subst same
    rw [if_pos rfl]
    exact Function.update_self ..
  · rw [if_neg same]
    exact Function.update_of_ne (by omega) ..

/-- The end of `exec`: the process moves to the finished table and the old one goes. -/
theorem exec_install {sz entry sp : ℕ} (watched : Watched p W) (builds : Builds L W k.procs t f p (· < pages sz) flags data k)
    (live : (k.procs p).state ≠ .unused) (frame : (k.procs p).trapframe = PGSIZE * f)
    (whole : sz % PGSIZE = 0) {E : Stop → Prop} :
    Sat (do
      mio (update (Vm.store (PGSIZE * f + A1) sp))
      setProc p ({ · with pagetable := PGSIZE * t, sz })
      mio (update (Vm.store (PGSIZE * f + EPC) entry))
      mio (update (Vm.store (PGSIZE * f + SP) sp))
      mio (procFreepagetable L (k.procs p).pagetable (k.procs p).sz)
      pure 0 : Kio ℤ) k E fun r k' => r = 0 ∧
      k'.procs = Function.update k.procs p { k.procs p with pagetable := PGSIZE * t, sz } ∧
      ∃ own' l', Books L k' own' l' ∧ W own' k'.vm ∧ Installed L k' own' l' p t f sz entry sp data flags := by
  obtain ⟨own, l, site, root, kept, image⟩ := builds
  obtain ⟨s, g, table, frame', rootOld, trap, tree, maps, -⟩ := site.ledger.holds p live
  obtain rfl := PGSIZE_inj (frame'.symm.trans frame)
  have other : s ≠ t := by
    rintro rfl
    exact site.apart p live table
  have poked : ∀ {v : Vm} {q : ℕ} {S : ℕ → Prop} {top : ℕ → ℕ} (off x : ℕ), off < 512 →
      Space L v own l q S top → Space L (v.store (PGSIZE * g + 8 * off) x) own l q S top ∧
        Extends q own v own (v.store (PGSIZE * g + 8 * off) x) := by
    intro v q S top off x small space
    exact space.poke (by simp [trap]) (by simp [trap]) (by simp [trap, Owner.under]) (keeps_store v small x) rfl
  have ledger : Ledger L k.vm k.procs own l (fun n => n = t) := site.ledger.relist
    (fun n q _ listed => listed.resolve_right id) (fun n q _ listed => listed.resolve_right id)
  have old : Space L k.vm own l s (· < pages (k.procs p).sz) (topLeaves L g) :=
    ⟨ledger.pool, tree, maps⟩
  have stored : ∀ {v : Vm} {procs : Fin NPROC → Proc} {extra : ℕ → Prop} (off x : ℕ), off < 512 →
      Ledger L v procs own l extra →
      Ledger L (v.store (PGSIZE * g + 8 * off) x) procs own l extra :=
    fun off x small ledger => ledger.scribble (keeps_store _ small x) rfl (.inl ⟨_, trap⟩)
  have watch : ∀ {v : Vm} (off x : ℕ), off < 512 → W own v → W own (v.store (PGSIZE * g + 8 * off) x) :=
    fun off x small kept => watched.poke trap (keeps_store _ small x) kept
  have swapped := (stored 15 sp (by decide) ledger).swap (p := p)
      { k.procs p with pagetable := PGSIZE * t, sz } live rfl rfl table ?_ rfl root
  · refine Sat.bind (Q := fun _ s => s = { k with vm := k.vm.store (PGSIZE * g + A1) sp })
      (Sat.zoom (Sat.update rfl)) ?_
    rintro _ _ rfl
    refine Sat.bind (Sat.update (Q := fun _ k' => k'.vm = k.vm.store (PGSIZE * g + A1) sp ∧
      k'.procs = Function.update k.procs p { k.procs p with pagetable := PGSIZE * t, sz })
      ⟨rfl, rfl⟩) ?_
    rintro _ k₁ ⟨vm₁, procs₁⟩
    refine Sat.bind (Q := fun _ k' => k'.vm = k₁.vm.store (PGSIZE * g + EPC) entry ∧
      k'.procs = k₁.procs) (Sat.zoom (Sat.update ⟨rfl, rfl⟩)) ?_
    rintro _ k₂ ⟨vm₂, procs₂⟩
    refine Sat.bind (Q := fun _ k' => k'.vm = k₂.vm.store (PGSIZE * g + SP) sp ∧
      k'.procs = k₂.procs) (Sat.zoom (Sat.update ⟨rfl, rfl⟩)) ?_
    rintro _ k₃ ⟨vm₃, procs₃⟩
    have ledger₃ : Ledger L k₃.vm k₃.procs own l (fun n => n = s) := by
      rw [vm₃, vm₂, vm₁, procs₃, procs₂, procs₁]
      exact stored 6 sp (by decide) (stored 3 entry (by decide) swapped)
    have old₃ : Space L k₃.vm own l s (· < pages (k.procs p).sz) (topLeaves L g) := by
      rw [vm₃, vm₂, vm₁]
      exact (poked 6 sp (by decide) (poked 3 entry (by decide) (poked 15 sp (by decide) old).1).1).1
    obtain ⟨new₁, grown₁⟩ := poked 15 sp (by decide) site.space
    obtain ⟨new₂, grown₂⟩ := poked 3 entry (by decide) new₁
    obtain ⟨new₃, grown₃⟩ := poked 6 sp (by decide) new₂
    have image₃ : Image k₃.vm own t data flags := by
      rw [vm₃, vm₂, vm₁]
      exact ((image.extends grown₁).extends grown₂).extends grown₃
    have apart : ∀ q, (k₃.procs q).state ≠ .unused → (k₃.procs q).pagetable ≠ PGSIZE * s := by
      intro q used clash
      obtain ⟨s', g', table', -, root', -⟩ := ledger₃.holds q used
      obtain rfl := PGSIZE_inj (table'.symm.trans clash)
      have both := root'.symm.trans rootOld
      simp only [Owner.root.injEq] at both
      obtain rfl : q = p := Fin.ext both
      rw [procs₃, procs₂, procs₁, Function.update_self] at clash
      exact other (PGSIZE_inj clash).symm
    have kept₃ : W own k₃.vm := by
      rw [vm₃, vm₂, vm₁]
      exact watch 6 sp (by decide) (watch 3 entry (by decide) (watch 15 sp (by decide) kept))
    rw [table]
    refine Sat.bind (sat_mio (ledger₃.giveBack (E := E) rootOld old₃.tree old₃.maps apart)) ?_
    rintro _ k₄ ⟨⟨own₄, l₄, ledger₄, touches, free⟩, procs₄⟩
    have kept₄ := watched.touches touches (.inr rootOld) (.inl free) kept₃
    have books₄ : Books L k₄ own₄ l₄ := by
      unfold Books
      rw [procs₄]
      exact ledger₄
    have proc : k₄.procs p = { k.procs p with pagetable := PGSIZE * t, sz } := by
      rw [procs₄, procs₃, procs₂, procs₁, Function.update_self]
    have live₄ : (k₄.procs p).state ≠ .unused := by
      rw [proc]
      exact live
    obtain ⟨t', g', table', frame', -, -, tree', maps', -⟩ := books₄.holds p live₄
    rw [proc] at table' frame' maps'
    obtain rfl := PGSIZE_inj table'
    obtain rfl := PGSIZE_inj (frame.symm.trans frame')
    have space₃ : Space L k₃.vm own l t (· < pages sz) (topLeaves L g) := by
      rw [vm₃, vm₂, vm₁]
      exact new₃
    have image₄ := image₃.extends (space₃.extends_elsewhere touches (Ne.symm other)
      (by simp [rootOld, Owner.under]) (by simp [free, Owner.under]))
    have outside : ¬ Avail s own g := by
      rintro (rfl | inside)
      · simp [rootOld] at trap
      · simp [trap] at inside
    have words : ∀ j < 512, k₄.vm.load (PGSIZE * g + 8 * j) = k₃.vm.load (PGSIZE * g + 8 * j) := by
      intro j small
      have word : (PGSIZE * g + 8 * j) / 8 = 512 * g + j := by
        simp only [PGSIZE]
        omega
      unfold Vm.load
      rw [word]
      exact (touches.keep outside).2 j small
    refine Sat.pure ⟨rfl, procs₄.trans (procs₃.trans (procs₂.trans procs₁)), own₄, l₄, books₄, kept₄, ?_⟩
    refine ⟨by rw [proc], by rw [proc]; exact frame, by rw [proc], ⟨books₄.pool, tree', maps'⟩, image₄, ?_, ?_, ?_⟩
    · refine (words 3 (by decide)).trans ?_
      rw [vm₃, vm₂]
      exact (load_store _ g 6 3 sp).trans (load_store _ g 3 3 entry)
    · refine (words 6 (by decide)).trans ?_
      rw [vm₃]
      exact load_store _ g 6 6 sp
    · refine (words 15 (by decide)).trans ?_
      rw [vm₃, vm₂, vm₁]
      exact (load_store _ g 6 15 sp).trans ((load_store _ g 3 15 entry).trans (load_store _ g 15 15 sp))
  · have new := (poked 15 sp (by decide) site.space).1
    exact ⟨t, g, rfl, frame, root, trap, new.tree, new.maps, whole⟩

end Installing

section Executing

variable {rd : Reader} {ok : Fin INODES → ℕ → ℕ → List Byte → Prop} {E : Stop → Prop}

/-- All pages are open to the user but the one below the stack. -/
def guarded (guard : ℕ) : ℕ → ℕ := fun u => if u = guard then 15 else 31

/-- `uvmclear` takes a page from the user and keeps what it holds. -/
theorem Builds.uvmclear (watched : Watched p W) (builds : Builds L W procs t f p S opened data k) (inside : S u) :
    Sat (HaloOS.mio (HaloOS.uvmclear (PGSIZE * t) (PGSIZE * u))) k E fun _ k' =>
      Builds L W procs t f p S (guarded u) data k' := by
  refine (builds.mio watched (fun _ => S) (guarded u) (fun _ data' => data' = data) ?_).mono ?_
  · intro own l space settled image
    refine (space.uvmclear inside).mono ?_
    rintro _ s ⟨space', within, leaves⟩
    refine ⟨own, l, data, settled, within, space', ⟨?_, ?_, ?_⟩, rfl⟩
    · intro h a owner
      rw [(leaves h a owner).1, guarded]
      split
      · rfl
      · exact image.entry h a owner
    · intro h a owner off small
      rw [byteAt_frame (leaves h a owner).2 small]
      exact image.byte h a owner off small
    · intro a none
      have away : a ≠ u := by
        rintro rfl
        obtain ⟨g, owner⟩ := space.maps.frame a inside
        exact none g owner
      exact ⟨if_neg away, (image.blank a none).2⟩
  · rintro _ k' ⟨data', builds', rfl⟩
    exact builds'

/-- What the program at `path` leaves in memory, and how large that is. -/
def Programmed (ok : Fin INODES → ℕ → ℕ → List Byte → Prop) (me : ℕ) (path : List Byte) (s : Fs) (elf : List Byte)
    (size : ℕ) (data : Mem) : Prop :=
  ∃ app fs, rootsub me (strip path) s = .ok (.some app, fs) ∧ ok app 0 64 elf ∧
    Loads (ok app) (field elf 56 2) (field elf 32 8 % UINT) 0 (fun _ => 0) size data

/-- The first part of `exec` builds a table with the program, a page that is closed to the user and one
for the stack. -/
theorem prepareWith_spec (delivers : rd.Delivers Gentle ok) (joins : ∀ ip, Joins (ok ip))
    (books : Books L k own l) (watched : Watched p W) (kept : W own k.vm) (frame : (k.procs p).trapframe = PGSIZE * f) (path : List Byte) :
    Sat (prepareWith L rd (k.procs p) path) k Gentle fun r k' => ∃ t size data,
      r.1 = PGSIZE * t ∧ r.2.1 = PGSIZE * (pages size + 2) ∧
      Programmed ok (k.procs p).pid path k.fs r.2.2 size data ∧
      Builds L W k.procs t f p (· < pages size + 2) (guarded (pages size)) data k' := by
  unfold prepareWith
  dsimp only
  refine Sat.bind (Q := fun a s => (∃ fs, rootsub (k.procs p).pid (strip path) k.fs = .ok (a, fs)) ∧
    s.vm = k.vm ∧ s.procs = k.procs) (Sat.zoom ((rootsub_calm _ _ k.fs).andRun.mono ?_)) ?_
  · exact fun a fs result => ⟨⟨fs, result.1⟩, rfl, rfl⟩
  rintro app k₁ ⟨⟨fs, found⟩, vm₁, procs₁⟩
  refine Sat.bind (Q := fun _ s => s.vm = k.vm ∧ s.procs = k.procs)
    (((ilock_calm _ _).sat_zoom k₁).mono ?_) ?_
  · rintro _ _ ⟨fs, rfl⟩
    exact ⟨vm₁, procs₁⟩
  rintro _ k₂ ⟨vm₂, procs₂⟩
  cases app with
  | none => exact Sat.throw (by decide)
  | some app =>
    have books₂ : Books L k₂ own l := by
      unfold Books
      rw [vm₂, procs₂]
      exact books
    rw [frame]
    refine Sat.bind (books₂.builds f p watched (by rwa [vm₂])) ?_
    rintro _ k₃ ⟨t, rfl, builds₃⟩
    rw [procs₂] at builds₃
    refine Sat.bind (delivers.header _ app 0 64 k₃) ?_
    rintro ⟨r, elf⟩ k₄ ⟨⟨fs', same⟩, read⟩
    have builds₄ := builds₃.setFs fs'
    rw [← same] at builds₄
    dsimp only at read ⊢
    refine Sat.bind (Sat.stopIf (Q := fun _ s => k₄ = s ∧ ok app 0 64 elf)
      (fun _ => by decide) fun whole => ⟨rfl, read (not_not.mp whole)⟩) ?_
    rintro _ _ ⟨rfl, read⟩
    refine Sat.bind (Sat.stopIf (Q := fun _ s => k₄ = s) (fun _ => by decide) fun _ => rfl) ?_
    rintro _ _ rfl
    refine Sat.bind (builds₄.loadLoop delivers (joins app) watched) ?_
    rintro sz k₅ ⟨data, builds₅, loads⟩
    refine Sat.bind (builds₅.fio (iunlockput_calm _ app)) fun _ k₆ builds₆ => ?_
    have few : pages sz ≤ 32768 := by
      obtain ⟨own₆, l₆, site, -⟩ := builds₆
      exact site.space.maps.pages_le site.space.pool fun _ below => below
    have size : PGROUNDUP sz = PGSIZE * pages sz := PGROUNDUP_eq (few.trans (by norm_num))
    have grown : (PGROUNDUP sz + 2 * PGSIZE) % WORD = PGSIZE * (pages sz + 2) := by
      rw [size]
      simp only [PGSIZE, WORD]
      omega
    rw [grown, size]
    have builds₆ : Builds L W k.procs t f p (· < pages (PGSIZE * pages sz)) opened data k₆ := by
      rw [pages_mul]
      exact builds₆
    refine Sat.bind (builds₆.uvmalloc watched) fun sz1 k₇ larger => ?_
    refine Sat.bind (Sat.stopIf (Q := fun _ s => sz1 = PGSIZE * (pages sz + 2) ∧
      Builds L W k.procs t f p (· < pages sz1) opened data s)
      (fun _ => by decide) fun positive => ?_) ?_
    · obtain ⟨value, builds₇⟩ := larger positive
      refine ⟨value.trans ?_, builds₇⟩
      simp only [PGSIZE]
      omega
    intro _ k₈ facts
    have value := facts.1
    have builds₈ := facts.2
    subst value
    have guard : PGSIZE * (pages sz + 2) - 2 * PGSIZE = PGSIZE * pages sz := by
      simp only [PGSIZE]
      omega
    rw [guard]
    rw [pages_mul] at builds₈
    refine Sat.bind (builds₈.uvmclear (u := pages sz) watched (by omega)) fun _ k₉ builds₉ => ?_
    exact Sat.pure ⟨t, sz, data, rfl, rfl, ⟨app, fs, found, read, loads⟩, builds₉⟩

/-- Process `p` has another table and another size. -/
def Moves (p : Fin NPROC) (procs procs' : Fin NPROC → Proc) : Prop :=
  ∃ pagetable sz, procs' = Function.update procs p { procs p with pagetable, sz }

/-- Process `p` runs in a table of `N + 2` pages that holds `data` and in the last page the arguments. -/
def Ready (L : Layout) (k : Kernel) (own : ℕ → Owner) (l : List ℕ) (p : Fin NPROC) (N entry : ℕ) (data : Mem)
    (argv : List (List Byte)) : Prop :=
  ∃ ptrs sp t f, Pushed (PGSIZE * (N + 1)) (PGSIZE * (N + 2)) argv ptrs sp ∧
    Installed L k own l p t f (PGSIZE * (N + 2)) entry sp
      ((storeArgs argv ptrs data).store sp (ustackBytes ptrs)) (guarded N)

theorem stackbase_eq (N : ℕ) : PGSIZE * (N + 2) - PGSIZE = PGSIZE * (N + 1) := by
  simp only [PGSIZE]
  omega

/-- The second part of `exec` puts the arguments on the stack and moves the process to the new table. -/
theorem finishExec_spec {N : ℕ} (watched : Watched p W) (builds : Builds L W k.procs t f p (· < N + 2) (guarded N) data k)
    (live : (k.procs p).state ≠ .unused) (frame : (k.procs p).trapframe = PGSIZE * f) (elf : List Byte)
    (argv : List (List Byte)) :
    Sat (finishExec L p (k.procs p) (PGSIZE * t) (PGSIZE * (N + 2)) elf argv) k (ExecStop argv) fun r k' =>
      r = 0 ∧ Moves p k.procs k'.procs ∧ ∃ own' l', Books L k' own' l' ∧ W own' k'.vm ∧
        Ready L k' own' l' p N (field elf 24 8) data argv := by
  unfold finishExec
  generalize field elf 24 8 = entry
  rw [stackbase_eq, frame]
  refine Sat.bind (builds.mio watched (fun _ => (· < N + 2)) (guarded N) (fun sp data' => ∃ ptrs,
    Pushed (PGSIZE * (N + 1)) (PGSIZE * (N + 2)) argv ptrs sp ∧
    data' = (storeArgs argv ptrs data).store sp (ustackBytes ptrs)) fun own₁ l₁ space settled image => ?_) ?_
  · refine (space.pushArgs image (by simp only [PGSIZE]; omega) (by simp [PGSIZE]) (le_refl _)).mono ?_
    rintro sp v' ⟨space', within, ptrs, pushed, image'⟩
    exact ⟨own₁, l₁, _, settled, within, space', image', ptrs, pushed, rfl⟩
  rintro sp k₁ ⟨_, builds₁, ptrs, pushed, rfl⟩
  have same : k₁.procs = k.procs := by
    obtain ⟨_, _, site, -⟩ := builds₁
    exact site.procs_eq
  rw [← same] at live frame builds₁ ⊢
  have sized : Builds L W k₁.procs t f p (· < pages (PGSIZE * (N + 2))) (guarded N)
      ((storeArgs argv ptrs data).store sp (ustackBytes ptrs)) k₁ := by
    rw [pages_mul]
    exact builds₁
  refine (exec_install watched sized live frame (by simp [PGSIZE])).mono ?_
  rintro r k' ⟨zero, moves, own', l', books', kept, installed⟩
  exact ⟨zero, ⟨_, _, moves⟩, own', l', books', kept, ptrs, sp, t, f, pushed, installed⟩

/-- `exec` with any reader keeps the books and what is watched, and makes the process ready. -/
theorem execWith_spec (delivers : rd.Delivers Gentle ok) (joins : ∀ ip, Joins (ok ip))
    (books : Books L k own l) (watched : Watched p W) (kept : W own k.vm)
    (live : (k.procs p).state ≠ .unused) (path : List Byte) (argv : List (List Byte)) :
    Sat (execWith L rd p path argv) k (ExecStop argv) fun r k' => r = 0 ∧
      Moves p k.procs k'.procs ∧ ∃ own' l', Books L k' own' l' ∧ W own' k'.vm ∧ ∃ elf size data,
        Programmed ok (k.procs p).pid path k.fs elf size data ∧
        Ready L k' own' l' p (pages size) (field elf 24 8) data argv := by
  unfold execWith
  refine Sat.bind (Sat.gets (Q := fun a s => k.procs p = a ∧ k = s) ⟨rfl, rfl⟩) ?_
  rintro _ _ ⟨rfl, rfl⟩
  obtain ⟨s, f, table, frame, -⟩ := books.holds p live
  refine Sat.bind ((prepareWith_spec delivers joins books watched kept frame path).weaken
    Gentle.execStop) ?_
  rintro ⟨_, _, elf⟩ k₁ ⟨t, size, data, rfl, rfl, programmed, builds⟩
  dsimp only at programmed ⊢
  have same : k₁.procs = k.procs := by
    obtain ⟨_, _, site, -⟩ := builds
    exact site.procs_eq
  rw [← same] at live frame builds ⊢
  refine (finishExec_spec watched builds live frame elf argv).mono ?_
  rintro r k' ⟨zero, moves, own', l', books', kept', ready⟩
  refine ⟨zero, moves, own', l', books', kept', elf, size, data, ?_, ready⟩
  rw [same]
  exact programmed

theorem joins_true : Joins fun _ _ _ => True := ⟨fun _ => trivial, fun _ _ _ _ _ => trivial⟩

/-- `exec` keeps the books and what is watched. -/
theorem exec_watched (books : Books L k own l) (watched : Watched p W) (kept : W own k.vm)
    (live : (k.procs p).state ≠ .unused) (path : List Byte) (argv : List (List Byte)) :
    Sat (exec L p path argv) k Harmless fun _ k' =>
      Moves p k.procs k'.procs ∧ ∃ own' l', Books L k' own' l' ∧ W own' k'.vm := by
  rw [exec_eq]
  refine ((execWith_spec (readiReader_delivers fun _ gentle => gentle) (fun _ => joins_true) books watched
    kept live path argv).weaken fun _ stop => stop.1).mono ?_
  rintro r k' ⟨-, moves, own', l', books', kept', -⟩
  exact ⟨moves, own', l', books', kept'⟩

/-- `exec` keeps the books and loses no page. -/
theorem exec_spec {K : ℕ → Prop} (books : Books L k own l) (live : (k.procs p).state ≠ .unused)
    (path : List Byte) (argv : List (List Byte)) :
    Sat (exec L p path argv) k Harmless fun _ k' =>
      ∃ own' l', Books L k' own' l' ∧ (Sound K own → Sound K own') :=
  (exec_watched books (watched_sound p (Sound K own) K) id live path argv).mono fun _ _ post => post.2

end Executing

end HaloOS
