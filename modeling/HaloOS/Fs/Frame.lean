import HaloOS.Fs.Model
import HaloOS.Lib.Frame

/-! What the functions below `iget` leave alone. Reading, writing, mapping and truncating
change the buffer cache and the fields of an inode that mirror the disk; the entries of the
inode cache keep their inode, their references and their locks. -/

namespace HaloOS

open Lib

variable {σ : Type} (me dev : ℕ) {s s' : Fs}

/-- The superblock stays, and of an inode at most the mirrored fields change. -/
structure Fs.OnlyDin (s s' : Fs) : Prop where
  sb : s'.sb = s.sb
  dev : ∀ i, (s'.inodes i).dev = (s.inodes i).dev
  inum : ∀ i, (s'.inodes i).inum = (s.inodes i).inum
  ref : ∀ i, (s'.inodes i).ref = (s.inodes i).ref
  splock : ∀ i, (s'.inodes i).splock = (s.inodes i).splock
  vaild : ∀ i, (s'.inodes i).vaild = (s.inodes i).vaild

instance : Std.Refl Fs.OnlyDin where
  refl := fun _ => ⟨rfl, fun _ => rfl, fun _ => rfl, fun _ => rfl, fun _ => rfl, fun _ => rfl⟩

instance : IsTrans Fs Fs.OnlyDin where
  trans := fun _ _ _ first second => ⟨second.sb.trans first.sb,
    fun i => (second.dev i).trans (first.dev i), fun i => (second.inum i).trans (first.inum i),
    fun i => (second.ref i).trans (first.ref i), fun i => (second.splock i).trans (first.splock i),
    fun i => (second.vaild i).trans (first.vaild i)⟩

theorem bio_onlyDin {α : Type} (m : Bio α) : Frames Fs.OnlyDin (bio m) := by
  refine Frames.ofOk fun s a s' returned => ?_
  obtain ⟨cache, -, rfl⟩ := zoom_ok.mp returned
  exact ⟨rfl, fun _ => rfl, fun _ => rfl, fun _ => rfl, fun _ => rfl, fun _ => rfl⟩

theorem setDinode_onlyDin (i : Fin INODES) (f : Dinode → Dinode) :
    Frames Fs.OnlyDin (setDinode i f) := by
  refine Frames.update fun s => ⟨rfl, ?_, ?_, ?_, ?_, ?_⟩
  all_goals
    intro j
    by_cases here : j = i
    · subst here
      simp [Fs.setInode]
    · simp [Fs.setInode, here]

theorem getInode_onlyDin (i : Fin INODES) : Frames Fs.OnlyDin (getInode i) := .gets _

theorem ballocAt_onlyDin (i : Fin INODES) (k : ℕ) : Frames Fs.OnlyDin (ballocAt me i k) :=
  .bind (getInode_onlyDin i) fun _ => .bind (.gets _) fun _ => .bind (bio_onlyDin _) fun _ =>
    .bind (setDinode_onlyDin i _) fun _ => .pure _

theorem bmap_onlyDin (i : Fin INODES) (n : ℕ) : Frames Fs.OnlyDin (bmap me i n) := by
  unfold bmap
  refine .bind (getInode_onlyDin i) fun ip => .ite (.ite (ballocAt_onlyDin me i n) (.pure _))
    (.ite ?_ (.throw _))
  have tail : ∀ addr, Frames Fs.OnlyDin (do
      let bp ← bio (bread me ip.dev addr)
      let data ← bio (bufData bp)
      let addr := u32 data (4 * (n - NDIRECT))
      if addr = 0 then do
        let sb ← gets (·.sb)
        let addr ← bio (balloc me ip.dev sb)
        let data ← bio (bufData bp)
        bio (setData bp (putU32 (4 * (n - NDIRECT)) addr data))
        bio (brelease me bp)
        pure addr
      else do
        bio (brelease me bp)
        pure addr : Fio ℕ) := by
    intro addr
    refine .bind (bio_onlyDin _) fun bp => .bind (bio_onlyDin _) fun data => .ite ?_ ?_
    · refine .bind (.gets _) fun sb => .bind (bio_onlyDin _) fun addr => ?_
      refine .bind (bio_onlyDin _) fun data => .bind (bio_onlyDin _) fun _ => ?_
      exact .bind (bio_onlyDin _) fun _ => .pure _
    · exact .bind (bio_onlyDin _) fun _ => .pure _
  dsimp only
  exact .ite (.bind (ballocAt_onlyDin me i _) tail) (.bind (.pure _) tail)

/-- `readi` keeps within a frame that allows for its own work and for copying the bytes out. -/
theorem readi_frames {R : σ → σ → Prop} [Std.Refl R] [IsTrans σ R]
    {fs : {α : Type} → Fio α → Exec Stop σ α} {copyout : ℕ → List Byte → Exec Stop σ Bool}
    (lift : ∀ {α : Type} {m : Fio α}, Frames Fs.OnlyDin m → Frames R (fs m))
    (copy : ∀ tot bytes, Frames R (copyout tot bytes)) (i : Fin INODES) (off n : ℕ) :
    Frames R (readi fs me i copyout off n) := by
  have loop : ∀ fuel n tot done, Frames R (readiLoop fs me i copyout off n fuel tot done) := by
    intro fuel
    induction fuel with
    | zero => exact fun _ _ _ => .pure _
    | succ fuel ih =>
      intro n tot done
      unfold readiLoop
      refine .ite (.pure _) (.bind (lift (bmap_onlyDin me i _)) fun addr => ?_)
      refine .bind (lift (getInode_onlyDin i)) fun ip => .bind (lift (bio_onlyDin _)) fun b => ?_
      refine .bind (lift (bio_onlyDin _)) fun data => .bind (copy _ _) fun copied => ?_
      exact .bind (lift (bio_onlyDin _)) fun _ => .ite (ih _ _ _) (.pure _)
  unfold readi
  exact .bind (lift (getInode_onlyDin i)) fun ip => .ite (.pure _) (loop _ _ _ _)

theorem readk_onlyDin (i : Fin INODES) (off n : ℕ) : Frames Fs.OnlyDin (readk me i off n) :=
  readi_frames me (fun frame => frame) (fun _ _ => .pure _) i off n

theorem iupdate_onlyDin (i : Fin INODES) : Frames Fs.OnlyDin (iupdate me i) := by
  unfold iupdate
  refine .bind (getInode_onlyDin i) fun ip => .bind (.gets _) fun sb => .bind (bio_onlyDin _) fun b => ?_
  refine .bind (bio_onlyDin _) fun data => .bind (bio_onlyDin _) fun _ => ?_
  exact .bind (bio_onlyDin _) fun _ => bio_onlyDin _

theorem bfreeAll_onlyDin (blocks : List ℕ) : Frames Fs.OnlyDin (bfreeAll me dev blocks) := by
  induction blocks with
  | nil => exact .pure _
  | cons b rest ih =>
    unfold bfreeAll
    exact .bind (.onlyIf (.bind (.gets _) fun sb => bio_onlyDin _)) fun _ => ih

theorem itrunc_onlyDin (i : Fin INODES) : Frames Fs.OnlyDin (itrunc me i) := by
  unfold itrunc
  refine .bind (getInode_onlyDin i) fun ip => .bind (bfreeAll_onlyDin me _ _) fun _ => ?_
  refine .bind (setDinode_onlyDin i _) fun _ => .bind (.onlyIf ?_) fun _ => ?_
  · refine .bind (bio_onlyDin _) fun b => .bind (bio_onlyDin _) fun data => ?_
    refine .bind (bfreeAll_onlyDin me _ _) fun _ => .bind (bio_onlyDin _) fun _ => ?_
    exact .bind (bfreeAll_onlyDin me _ _) fun _ => setDinode_onlyDin i _
  · exact .bind (setDinode_onlyDin i _) fun _ => iupdate_onlyDin me i

theorem writeiLoop_onlyDin (i : Fin INODES) (src : List Byte) (fuel tot off : ℕ) :
    Frames Fs.OnlyDin (writeiLoop me i src fuel tot off) := by
  induction fuel generalizing tot off with
  | zero => exact .pure _
  | succ fuel ih =>
    unfold writeiLoop
    refine .ite (.pure _) (.bind (bmap_onlyDin me i _) fun addr => .bind (getInode_onlyDin i) fun ip => ?_)
    refine .bind (bio_onlyDin _) fun bp => .bind (bio_onlyDin _) fun data => ?_
    refine .bind (bio_onlyDin _) fun _ => .bind (bio_onlyDin _) fun _ => ?_
    exact .bind (bio_onlyDin _) fun _ => ih _ _

theorem writei_onlyDin (i : Fin INODES) (src : List Byte) (off : ℕ) :
    Frames Fs.OnlyDin (writei me i src off) := by
  unfold writei
  refine .bind (getInode_onlyDin i) fun ip => .ite (.pure _) (.ite (.pure _) ?_)
  refine .bind (writeiLoop_onlyDin me i src _ _ _) fun ⟨tot, off⟩ => ?_
  exact .bind (.onlyIf (setDinode_onlyDin i _)) fun _ => .bind (iupdate_onlyDin me i) fun _ => .pure _

theorem dirlinkSlot_onlyDin (dp : Fin INODES) (count off : ℕ) :
    Frames Fs.OnlyDin (dirlinkSlot me dp count off) := by
  induction count generalizing off with
  | zero => exact .pure _
  | succ count ih =>
    unfold dirlinkSlot
    refine .bind (readk_onlyDin me dp off 16) fun ⟨r, dir⟩ => ?_
    exact .bind (.stopIf _) fun _ => .ite (.pure _) (ih _)

theorem dirlink_onlyDin (dp : Fin INODES) (path : List Byte) (inum : ℕ) :
    Frames Fs.OnlyDin (dirlink me dp path inum) := by
  unfold dirlink
  refine .bind (getInode_onlyDin dp) fun ip => .bind (dirlinkSlot_onlyDin me dp _ _) fun off => ?_
  exact .bind (writei_onlyDin me dp _ _) fun r => .stopIf _

end HaloOS
