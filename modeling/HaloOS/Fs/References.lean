import HaloOS.Fs.Frame
import HaloOS.Fs.InodeCache

/-! References to inodes. Each function of the file system changes the counts of the inode
cache by a fixed amount: one more for every entry it returns, one less for every entry it puts,
and nothing for the ones it only looks at. -/

namespace HaloOS

open Lib

variable {s s' s'' : Fs} {i : Fin INODES} {me : ℕ} {d d' : Fin INODES → ℤ}

/-- One reference to the entry that was returned, if any. -/
def credit (found : Option (Fin INODES)) (i : Fin INODES) : ℤ := if found = some i then 1 else 0

/-- The counts change by `d`. As `ilock` clears the flag `vaild`, no `iput` truncates. -/
def Fs.RefsBy (s : Fs) (d : Fin INODES → ℤ) (s' : Fs) : Prop :=
  s.Unvaild → s'.Unvaild ∧ ∀ i, (s'.inodes i).ref = (s.inodes i).ref + d i

theorem Fs.RefsBy.trans (first : s.RefsBy d s') (second : s'.RefsBy d' s'') :
    s.RefsBy (fun i => d i + d' i) s'' := by
  intro unread
  obtain ⟨unread', one⟩ := first unread
  obtain ⟨unread'', two⟩ := second unread'
  refine ⟨unread'', fun i => ?_⟩
  rw [two, one, add_assoc]

theorem Fs.RefsBy.congr (moved : s.RefsBy d s') (same : ∀ i, d i = d' i) : s.RefsBy d' s' := by
  obtain rfl : d = d' := funext same
  exact moved

/-- The counts stay. -/
def Fs.SameRefs (s s' : Fs) : Prop := s.RefsBy (fun _ => 0) s'

instance : Std.Refl Fs.SameRefs where
  refl := fun _ unread => ⟨unread, fun _ => by simp⟩

instance : IsTrans Fs Fs.SameRefs where
  trans := fun _ _ _ first second => (first.trans second).congr fun _ => by simp

theorem Fs.OnlyDin.sameRefs (only : s.OnlyDin s') : s.SameRefs s' := by
  intro unread
  refine ⟨fun i => by rw [only.vaild, unread i], fun i => by rw [only.ref, add_zero]⟩

theorem Fs.SameEntries.sameRefs (same : s.SameEntries s') : s.SameRefs s' :=
  fun unread => ⟨fun i => same.vaild i (unread i), fun i => by rw [same.ref, add_zero]⟩

theorem sameRefs_of_onlyDin {α : Type} {m : Fio α} (frame : Frames Fs.OnlyDin m) :
    Frames Fs.SameRefs m := frame.mono fun _ _ => Fs.OnlyDin.sameRefs

/-- Work that leaves the counts alone, and then work that changes them. -/
theorem Fs.SameRefs.before (same : s.SameRefs s') (moved : s'.RefsBy d s'') : s.RefsBy d s'' :=
  (same.trans moved).congr fun _ => by simp

theorem Fs.RefsBy.after (moved : s.RefsBy d s') (same : s'.SameRefs s'') : s.RefsBy d s'' :=
  (moved.trans same).congr fun _ => by simp

theorem Fs.Recounts.refsBy {by_ : ℤ} (recounts : s.Recounts i by_ s') :
    s.RefsBy (fun j => if i = j then by_ else 0) s' := by
  intro unread
  constructor
  · intro j
    by_cases here : j = i
    · subst here
      exact recounts.unvaild (unread j)
    · rw [recounts.others j here]
      exact unread j
  · intro j
    dsimp only
    by_cases here : i = j
    · subst here
      rw [recounts.ref, if_pos rfl]
    · rw [recounts.others j (Ne.symm here), if_neg here, add_zero]

theorem iget_refs (dev inum : ℕ) (s : Fs) :
    Sat (iget dev inum) s anyStop fun i s' => s.RefsBy (credit (some i)) s' := by
  refine Sat.ofOk fun i s' returns => ?_
  refine (iget_recounts returns).1.refsBy.congr fun j => ?_
  simp [credit]

theorem idup_refs (i : Fin INODES) (s : Fs) :
    Sat (idup i) s anyStop fun j s' => j = i ∧ s.RefsBy (credit (some i)) s' := by
  refine Sat.ofOk fun j s' returns => ⟨?_, ?_⟩
  · obtain ⟨_, _, -, last⟩ := bind_ok.mp returns
    exact (pure_ok.mp last).1.symm
  · refine (idup_recounts returns).refsBy.congr fun j => ?_
    simp [credit]

theorem iput_refs (me : ℕ) (i : Fin INODES) (s : Fs) :
    Sat (iput me i) s anyStop fun _ s' => s.RefsBy (fun j => -credit (some i) j) s' := by
  refine Sat.ofOk fun _ s' returns => fun unread => ?_
  refine ((iput_recounts (unread i) returns).refsBy.congr fun j => ?_) unread
  by_cases here : i = j <;> simp [credit, here]

theorem ilock_refs (me : ℕ) : (i : Option (Fin INODES)) → Frames Fs.SameRefs (ilock me i)
  | none => .throw _
  | some i => fun s => (ilock_sameEntries me i s).mono fun _ _ => Fs.SameEntries.sameRefs

theorem iunlock_refs (me : ℕ) : (i : Option (Fin INODES)) → Frames Fs.SameRefs (iunlock me i)
  | none => .throw _
  | some i => fun s => (iunlock_sameEntries me i s).mono fun _ _ => Fs.SameEntries.sameRefs

theorem unlockInode_refs (i : Fin INODES) : Frames Fs.SameRefs (unlockInode i) :=
  .update fun s => (sameEntries_setInode s i rfl rfl rfl id).sameRefs

theorem iunlockput_refs (me : ℕ) (i : Fin INODES) (s : Fs) :
    Sat (iunlockput me i) s anyStop fun _ s' => s.RefsBy (fun j => -credit (some i) j) s' := by
  unfold iunlockput
  refine Sat.bind (iunlock_refs me (some i) s) fun _ s₁ same => ?_
  exact (iput_refs me i s₁).mono fun _ s₂ moved => same.before moved

/-- A lookup references the entry it returns. -/
theorem inodeByName_refs (me : ℕ) (i : Fin INODES) (name : List Byte) (s : Fs) :
    Sat (inodeByName me i name) s anyStop fun found s' => s.RefsBy (credit found) s' := by
  have loop : ∀ entries off s, Sat (inodeByNameLoop me i name entries off) s anyStop
      fun found s' => s.RefsBy (credit found) s' := by
    intro entries
    induction entries with
    | zero =>
      intro off s
      refine Sat.pure ?_
      exact (refl_of Fs.SameRefs s).congr fun j => by simp [credit]
    | succ entries ih =>
      intro off s
      unfold inodeByNameLoop
      refine Sat.bind (sameRefs_of_onlyDin (readk_onlyDin me i off 16) s) ?_
      rintro ⟨r, de⟩ s₁ same₁
      refine Sat.bind (Frames.stopIf (R := Fs.SameRefs) _ s₁) fun _ s₂ same₂ => ?_
      refine Sat.ite (fun _ => ?_) fun _ => ?_
      · refine Sat.bind (Sat.gets (Q := fun _ t => s₂ = t) rfl) ?_
        rintro ip _ rfl
        refine Sat.bind (iget_refs _ _ s₂) fun j s₃ moved => Sat.pure ?_
        exact same₁.before (same₂.before moved)
      · exact (ih _ s₂).mono fun found s₃ moved => same₁.before (same₂.before moved)
  unfold inodeByName
  refine Sat.bind (Sat.gets (Q := fun _ t => s = t) rfl) ?_
  rintro ip _ rfl
  exact loop _ _ s

/-- `rootsub` puts the root directory again. -/
theorem rootsub_refs (me : ℕ) (name : List Byte) (s : Fs) :
    Sat (rootsub me name) s anyStop fun found s' => s.RefsBy (credit found) s' := by
  unfold rootsub
  refine Sat.bind (iget_refs _ _ s) fun root s₁ got => ?_
  refine Sat.bind (ilock_refs me (some root) s₁) fun _ s₂ same => ?_
  refine Sat.bind (inodeByName_refs me root name s₂) fun found s₃ looked => ?_
  refine Sat.bind (iunlockput_refs me root s₃) fun _ s₄ put => Sat.pure ?_
  refine (((got.after same).trans looked).trans put).congr fun j => ?_
  omega

/-- A path that starts with `/` is the root, with one more reference. -/
theorem iname_refs (me : ℕ) {name : List Byte} (rooted : name.head? = some slash) (s : Fs) :
    Sat (iname me name) s anyStop fun found s' => s.RefsBy (credit found) s' := by
  unfold iname
  refine Sat.bind (iget_refs _ _ s) fun dp s₁ got => ?_
  rw [if_pos rooted]
  exact Sat.pure got

theorem ialloc_refs (me dev type : ℕ) (s : Fs) :
    Sat (ialloc me dev type) s anyStop fun found s' => s.RefsBy (credit found) s' := by
  have loop : ∀ count inum s, Sat (iallocFrom me dev type count inum) s anyStop
      fun found s' => s.RefsBy (credit found) s' := by
    intro count
    induction count with
    | zero =>
      intro inum s
      refine Sat.pure ?_
      exact (refl_of Fs.SameRefs s).congr fun j => by simp [credit]
    | succ count ih =>
      intro inum s
      have disk : ∀ {α : Type} (m : Bio α), Frames Fs.SameRefs (bio m) :=
        fun m => sameRefs_of_onlyDin (bio_onlyDin m)
      unfold iallocFrom
      refine Sat.bind (Sat.gets (Q := fun _ t => s = t) rfl) ?_
      rintro sb _ rfl
      refine Sat.bind (disk _ s) fun bp s₁ same₁ => ?_
      refine Sat.bind (disk _ s₁) fun data s₂ same₂ => ?_
      refine Sat.ite (fun _ => ?_) fun _ => ?_
      · refine Sat.bind (disk _ s₂) fun _ s₃ same₃ => ?_
        refine Sat.bind (disk _ s₃) fun _ s₄ same₄ => ?_
        refine Sat.bind (disk _ s₄) fun _ s₅ same₅ => ?_
        refine Sat.bind (iget_refs _ _ s₅) fun i s₆ got => Sat.pure ?_
        exact same₁.before (same₂.before (same₃.before (same₄.before (same₅.before got))))
      · refine Sat.bind (disk _ s₂) fun _ s₃ same₃ => ?_
        exact (ih _ s₃).mono fun found s₄ got => same₁.before (same₂.before (same₃.before got))
  unfold ialloc
  refine Sat.bind (Sat.gets (Q := fun _ t => s = t) rfl) ?_
  rintro sb _ rfl
  exact loop _ _ s

end HaloOS
