import HaloOS.Fs.Frame

/-! The sleep locks of the inodes. `ilock` takes a free one; the functions here give back no
lock that they did not take. -/

namespace HaloOS

open Lib

variable {s s' : Fs} {i j : Fin INODES} (me : ℕ)

def Fs.Locked (s : Fs) (i : Fin INODES) : Prop := (s.inodes i).splock.locked = true

/-- No lock is given back. -/
def Fs.KeepsLocked (s s' : Fs) : Prop := ∀ i, s.Locked i → s'.Locked i

instance : Std.Refl Fs.KeepsLocked where
  refl := fun _ _ locked => locked

instance : IsTrans Fs Fs.KeepsLocked where
  trans := fun _ _ _ first second i locked => second i (first i locked)

theorem Fs.OnlyDin.keepsLocked (only : s.OnlyDin s') : s.KeepsLocked s' := by
  intro i locked
  unfold Fs.Locked
  rwa [only.splock i]

theorem keepsLocked_of_onlyDin {α : Type} {m : Fio α} (frame : Frames Fs.OnlyDin m) :
    Frames Fs.KeepsLocked m := frame.mono fun _ _ => Fs.OnlyDin.keepsLocked

/-- A change of one entry that keeps its lock. -/
theorem keepsLocked_setInode {f : Inode → Inode} (same : ∀ ip, (f ip).splock = ip.splock) (s : Fs) :
    s.KeepsLocked (s.setInode i f) := by
  intro j locked
  unfold Fs.Locked at *
  by_cases here : j = i
  · subst here
    simpa [Fs.setInode, same] using locked
  · simpa [Fs.setInode, here] using locked

theorem lockInode_ok {u : Unit} (returned : lockInode me i s = .ok (u, s')) :
    ¬ s.Locked i ∧ s' = s.setInode i ({ · with splock := ⟨true, me⟩ }) := by
  unfold lockInode sleepLock at returned
  unfold Fs.Locked
  cases locked : (s.inodes i).splock.locked with
  | true => simp [locked] at returned
  | false =>
    simp only [locked, Bool.false_eq_true, ↓reduceIte, Except.ok.injEq, Prod.mk.injEq, true_and] at returned
    exact ⟨by simp, returned.symm⟩

theorem lockInode_keepsLocked (i : Fin INODES) : Frames Fs.KeepsLocked (lockInode me i) := by
  refine .ofOk fun s _ s' returned => ?_
  obtain ⟨-, rfl⟩ := lockInode_ok me returned
  intro j locked
  unfold Fs.Locked at *
  by_cases here : j = i
  · subst here
    simp [Fs.setInode]
  · simpa [Fs.setInode, here] using locked

theorem iget_keepsLocked (dev inum : ℕ) : Frames Fs.KeepsLocked (iget dev inum) := by
  unfold iget
  refine .bind (.gets _) fun s => ?_
  dsimp only
  split
  · exact .bind (.update (keepsLocked_setInode fun _ => rfl)) fun _ => .pure _
  · split
    · exact .bind (.update (keepsLocked_setInode fun _ => rfl)) fun _ => .pure _
    · exact .throw _

/-- `ilock` takes the lock of its inode, which was free. -/
theorem ilock_ok {u : Unit} (returned : ilock me (some i) s = .ok (u, s')) :
    ¬ s.Locked i ∧ s'.Locked i ∧ s.KeepsLocked s' := by
  unfold ilock at returned
  obtain ⟨ip, _, first, rest⟩ := bind_ok.mp returned
  obtain ⟨rfl, rfl⟩ := gets_ok.mp first
  obtain ⟨_, _, checked, rest⟩ := bind_ok.mp rest
  obtain ⟨-, rfl⟩ := stopIf_ok.mp checked
  obtain ⟨_, s₁, taken, rest⟩ := bind_ok.mp rest
  have held := (lockInode_keepsLocked me i).ok taken
  obtain ⟨free, rfl⟩ := lockInode_ok me taken
  have load : Fs.KeepsLocked (s.setInode i ({ · with splock := ⟨true, me⟩ })) s' := by
    refine Frames.ok (.onlyIf ?_) rest
    refine .bind (.gets _) fun sb => .bind (keepsLocked_of_onlyDin (bio_onlyDin _)) fun b => ?_
    refine .bind (keepsLocked_of_onlyDin (bio_onlyDin _)) fun data => ?_
    refine .bind (keepsLocked_of_onlyDin (setDinode_onlyDin i _)) fun _ => ?_
    refine .bind (keepsLocked_of_onlyDin (bio_onlyDin _)) fun _ => ?_
    exact .update (keepsLocked_setInode fun _ => rfl)
  refine ⟨free, load i ?_, fun j locked => load j (held j locked)⟩
  simp [Fs.Locked, Fs.setInode]

theorem inodeByName_keepsLocked (i : Fin INODES) (name : List Byte) :
    Frames Fs.KeepsLocked (inodeByName me i name) := by
  unfold inodeByName
  refine .bind (.gets _) fun ip => ?_
  generalize (ip.din.size + 15) / 16 = entries, (0 : ℕ) = off
  induction entries generalizing off with
  | zero => exact .pure _
  | succ entries ih =>
    unfold inodeByNameLoop
    refine .bind (keepsLocked_of_onlyDin (readk_onlyDin me i _ _)) fun ⟨r, de⟩ => ?_
    refine .bind (.stopIf _) fun _ => .ite ?_ (ih _)
    exact .bind (.gets _) fun ip => .bind (iget_keepsLocked _ _) fun _ => .pure _

/-- `iname` gives back the lock of the root, which it took. -/
theorem iname_keepsLocked (name : List Byte) : Frames Fs.KeepsLocked (iname me name) := by
  refine .ofOk fun s found s' returned => ?_
  unfold iname at returned
  obtain ⟨dp, s₁, first, rest⟩ := bind_ok.mp returned
  have kept := (iget_keepsLocked _ _).ok first
  by_cases rooted : name.head? = some slash
  · rw [if_pos rooted] at rest
    obtain ⟨-, rfl⟩ := pure_ok.mp rest
    exact kept
  · rw [if_neg rooted] at rest
    obtain ⟨_, s₂, locking, rest⟩ := bind_ok.mp rest
    obtain ⟨free, -, kept₂⟩ := ilock_ok me locking
    obtain ⟨i, s₃, looked, rest⟩ := bind_ok.mp rest
    have kept₃ := (inodeByName_keepsLocked me dp name).ok looked
    obtain ⟨_, s₄, unlocked, rest⟩ := bind_ok.mp rest
    obtain rfl := update_ok.mp unlocked
    obtain ⟨-, rfl⟩ := pure_ok.mp rest
    intro j locked
    have other : j ≠ dp := by
      rintro rfl
      exact free (kept j locked)
    have held := kept₃ j (kept₂ j (kept j locked))
    unfold Fs.Locked at *
    simpa [Fs.setInode, other] using held

/-- `iput` takes a lock only to give it back. -/
theorem iput_keepsLocked (i : Fin INODES) : Frames Fs.KeepsLocked (iput me i) := by
  refine .ofOk fun s _ s' returned => ?_
  unfold iput at returned
  obtain ⟨ip, _, first, rest⟩ := bind_ok.mp returned
  obtain ⟨rfl, rfl⟩ := gets_ok.mp first
  obtain ⟨_, s₁, freed, dropped⟩ := bind_ok.mp rest
  obtain rfl := update_ok.mp dropped
  have counted : s₁.KeepsLocked (s₁.setInode i fun ip => { ip with ref := ip.ref - 1 }) := by
    apply keepsLocked_setInode
    exact fun _ => rfl
  refine fun j locked => counted j ?_
  rw [onlyIf_run] at freed
  split at freed
  · obtain ⟨_, s₂, taken, rest⟩ := bind_ok.mp freed
    obtain ⟨free, -⟩ := lockInode_ok me taken
    have kept := (lockInode_keepsLocked me i).ok taken
    obtain ⟨_, s₃, truncated, rest⟩ := bind_ok.mp rest
    have kept₂ := (itrunc_onlyDin me i).ok truncated
    obtain ⟨_, s₄, typed, rest⟩ := bind_ok.mp rest
    have kept₃ := (setDinode_onlyDin i _).ok typed
    obtain ⟨_, s₅, updated, rest⟩ := bind_ok.mp rest
    have kept₄ := (iupdate_onlyDin me i).ok updated
    obtain ⟨_, s₆, cleared, unlocked⟩ := bind_ok.mp rest
    obtain rfl := update_ok.mp cleared
    obtain rfl := update_ok.mp unlocked
    have other : j ≠ i := by
      rintro rfl
      exact free locked
    have held := kept₄.keepsLocked j (kept₃.keepsLocked j (kept₂.keepsLocked j (kept j locked)))
    unfold Fs.Locked at *
    simpa [Fs.setInode, other] using held
  · obtain rfl : s = s₁ := by simpa using freed
    exact locked

end HaloOS
