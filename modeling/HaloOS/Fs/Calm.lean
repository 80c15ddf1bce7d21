import HaloOS.Fs.Model
import HaloOS.Vm.Build

/-! The file system never stops with one of the panics that accuse a page table, and never
with an access through a null pointer. -/

namespace HaloOS

open Lib

variable {σ : Type} (me dev : ℕ)

theorem lockBuf_calm (i : Fin NBUF) : Stops Gentle (lockBuf me i) := by
  intro c
  unfold Sat lockBuf sleepLock
  by_cases taken : (c.bufs i).sk.locked
  · by_cases mine : (c.bufs i).sk.pid = me
    · simp only [taken, mine, ↓reduceIte]
      decide
    · simp only [taken, mine, ↓reduceIte]
      decide
  · simp [taken]

theorem bget_calm (blockno : ℕ) : Stops Gentle (bget me dev blockno) := by
  unfold bget
  refine .bind (.gets _) fun c => ?_
  split
  · exact .bind (.update _) fun _ => .bind (lockBuf_calm me _) fun _ => .pure _
  · split
    · exact .bind (.update _) fun _ => .bind (lockBuf_calm me _) fun _ => .pure _
    · exact .throw (by decide)

theorem bread_calm (blockno : ℕ) : Stops Gentle (bread me dev blockno) := by
  unfold bread
  refine .bind (bget_calm me dev blockno) fun r => .bind (.gets _) fun _ => ?_
  exact .bind (.onlyIf (.bind (.update _) fun _ => .update _)) fun _ => .pure _

theorem brelease_calm (i : Fin NBUF) : Stops Gentle (brelease me i) := by
  unfold brelease
  refine .bind (.gets _) fun c => .bind (.stopIf (by decide)) fun _ => ?_
  exact .bind (.update _) fun _ => .update _

theorem bwrite_calm (i : Fin NBUF) : Stops Gentle (bwrite me i) := by
  unfold bwrite
  exact .bind (.gets _) fun c => .bind (.stopIf (by decide)) fun _ => .update _

theorem balloc_calm (sb : Superblock) : Stops Gentle (balloc me dev sb) := by
  unfold balloc
  generalize sb.size / BPB + 1 = fuel, (0 : ℕ) = b
  induction fuel generalizing b with
  | zero => exact .throw (by decide)
  | succ fuel ih =>
    unfold ballocFrom
    refine .ite (.bind (bread_calm me dev _) fun bp => .bind (.gets _) fun data => ?_)
      (.throw (by decide))
    split
    · exact .bind (.update _) fun _ => .bind (brelease_calm me bp) fun _ => .pure _
    · exact .bind (brelease_calm me bp) fun _ => ih _

theorem bfree_calm (sb : Superblock) (b : ℕ) : Stops Gentle (bfree me dev sb b) := by
  unfold bfree
  refine .bind (bread_calm me dev _) fun bp => .bind (.gets _) fun data => ?_
  refine .bind (.stopIf (by decide)) fun _ => .bind (.update _) fun _ => brelease_calm me bp

theorem lockInode_calm (i : Fin INODES) : Stops Gentle (lockInode me i) := by
  intro s
  unfold Sat lockInode sleepLock
  by_cases taken : (s.inodes i).splock.locked
  · by_cases mine : (s.inodes i).splock.pid = me
    · simp only [taken, mine, ↓reduceIte]
      decide
    · simp only [taken, mine, ↓reduceIte]
      decide
  · simp [taken]

theorem iget_calm (inum : ℕ) : Stops Gentle (iget dev inum) := by
  unfold iget
  refine .bind (.gets _) fun s => ?_
  dsimp only
  split
  · exact .bind (.update _) fun _ => .pure _
  · split
    · exact .bind (.update _) fun _ => .pure _
    · exact .throw (by decide)

theorem rooti_calm : Stops Gentle rooti := iget_calm ROOTDEV ROOTINO

theorem ilock_calm (i : Option (Fin INODES)) : Stops Gentle (ilock me i) := by
  cases i with
  | none => exact .throw (by decide)
  | some i =>
    unfold ilock
    refine .bind (.gets _) fun ip => .bind (.stopIf (by decide)) fun _ => ?_
    refine .bind (lockInode_calm me i) fun _ => .onlyIf (.bind (.gets _) fun sb => ?_)
    refine .bind (.zoom (bread_calm me _ _)) fun b => .bind (.zoom (.gets _)) fun data => ?_
    exact .bind (.update _) fun _ => .bind (.zoom (brelease_calm me b)) fun _ => .update _

theorem iunlock_calm (i : Option (Fin INODES)) : Stops Gentle (iunlock me i) := by
  cases i with
  | none => exact .throw (by decide)
  | some i =>
    unfold iunlock
    exact .bind (.gets _) fun ip => .bind (.stopIf (by decide)) fun _ => .update _

theorem iupdate_calm (i : Fin INODES) : Stops Gentle (iupdate me i) := by
  unfold iupdate
  refine .bind (.gets _) fun ip => .bind (.gets _) fun sb => ?_
  refine .bind (.zoom (bread_calm me _ _)) fun b => .bind (.zoom (.gets _)) fun data => ?_
  refine .bind (.zoom (.update _)) fun _ => .bind (.zoom (bwrite_calm me b)) fun _ => ?_
  exact .zoom (brelease_calm me b)

theorem bfreeAll_calm (blocks : List ℕ) : Stops Gentle (bfreeAll me dev blocks) := by
  induction blocks with
  | nil => exact .pure _
  | cons b rest ih =>
    unfold bfreeAll
    exact .bind (.onlyIf (.bind (.gets _) fun sb => .zoom (bfree_calm me dev sb b))) fun _ => ih

theorem itrunc_calm (i : Fin INODES) : Stops Gentle (itrunc me i) := by
  unfold itrunc
  refine .bind (.gets _) fun ip => .bind (bfreeAll_calm me _ _) fun _ => .bind (.update _) fun _ => ?_
  refine .bind (.onlyIf ?_) fun _ => .bind (.update _) fun _ => iupdate_calm me i
  refine .bind (.zoom (bread_calm me _ _)) fun b => .bind (.zoom (.gets _)) fun data => ?_
  refine .bind (bfreeAll_calm me _ _) fun _ => .bind (.zoom (brelease_calm me b)) fun _ => ?_
  exact .bind (bfreeAll_calm me _ _) fun _ => .update _

theorem iput_calm (i : Fin INODES) : Stops Gentle (iput me i) := by
  unfold iput
  refine .bind (.gets _) fun ip => .bind (.onlyIf ?_) fun _ => .update _
  refine .bind (lockInode_calm me i) fun _ => .bind (itrunc_calm me i) fun _ => ?_
  refine .bind (.update _) fun _ => .bind (iupdate_calm me i) fun _ => ?_
  exact .bind (.update _) fun _ => .update _

theorem iunlockput_calm (i : Fin INODES) : Stops Gentle (iunlockput me i) := by
  unfold iunlockput
  exact .bind (iunlock_calm me _) fun _ => iput_calm me i

theorem ballocAt_calm (i : Fin INODES) (k : ℕ) : Stops Gentle (ballocAt me i k) := by
  unfold ballocAt
  refine .bind (.gets _) fun ip => .bind (.gets _) fun sb => ?_
  exact .bind (.zoom (balloc_calm me _ sb)) fun addr => .bind (.update _) fun _ => .pure _

theorem bmap_calm (i : Fin INODES) (n : ℕ) : Stops Gentle (bmap me i n) := by
  unfold bmap
  refine .bind (.gets _) fun ip => .ite (.ite (ballocAt_calm me i n) (.pure _)) (.ite ?_ (.throw (by decide)))
  have tail : ∀ addr, Stops Gentle (do
      let bp ← bio (bread me ip.dev addr)
      let data ← bio (bufData bp)
      let addr := u32 data (4 * (n - NDIRECT))
      if addr = 0 then do
        let sb ← gets (·.sb)
        let addr ← bio (balloc me ip.dev sb)
        let data ← bio (bufData bp)
        bio (setData bp (putU32 (4 * (n - NDIRECT)) addr data))
        bio (brelease me bp)
        pure addr
      else do
        bio (brelease me bp)
        pure addr : Fio ℕ) := by
    intro addr
    refine .bind (.zoom (bread_calm me _ _)) fun bp => .bind (.zoom (.gets _)) fun data => .ite ?_ ?_
    · refine .bind (.gets _) fun sb => .bind (.zoom (balloc_calm me _ sb)) fun addr => ?_
      refine .bind (.zoom (.gets _)) fun data => .bind (.zoom (.update _)) fun _ => ?_
      exact .bind (.zoom (brelease_calm me bp)) fun _ => .pure _
    · exact .bind (.zoom (brelease_calm me bp)) fun _ => .pure _
  dsimp only
  exact .ite (.bind (ballocAt_calm me i _) tail) (.bind (.pure _) tail)

/-- `readi` stops for calm reasons if copying its bytes out does. -/
theorem readi_calm {fs : {α : Type} → Fio α → Exec Stop σ α} {i : Fin INODES}
    {copyout : ℕ → List Byte → Exec Stop σ Bool} {off n : ℕ}
    (lift : ∀ {α : Type} {m : Fio α}, Stops Gentle m → Stops Gentle (fs m))
    (copy : ∀ tot bytes, Stops Gentle (copyout tot bytes)) :
    Stops Gentle (readi fs me i copyout off n) := by
  have loop : ∀ fuel n tot done, Stops Gentle (readiLoop fs me i copyout off n fuel tot done) := by
    intro fuel
    induction fuel with
    | zero => exact fun _ _ _ => .pure _
    | succ fuel ih =>
      intro n tot done
      unfold readiLoop
      refine .ite (.pure _) (.bind (lift (bmap_calm me i _)) fun addr => .bind (lift (.gets _)) fun ip => ?_)
      refine .bind (lift (.zoom (bread_calm me _ _))) fun b => .bind (lift (.zoom (.gets _))) fun data => ?_
      refine .bind (copy _ _) fun copied => .bind (lift (.zoom (brelease_calm me b))) fun _ => ?_
      exact .ite (ih _ _ _) (.pure _)
  unfold readi
  exact .bind (lift (.gets _)) fun ip => .ite (.pure _) (loop _ _ _ _)

theorem readk_calm (i : Fin INODES) (off n : ℕ) : Stops Gentle (readk me i off n) :=
  readi_calm me (fun calm => calm) fun _ _ => .pure _

theorem inodeByName_calm (i : Fin INODES) (name : List Byte) :
    Stops Gentle (inodeByName me i name) := by
  unfold inodeByName
  refine .bind (.gets _) fun ip => ?_
  generalize (ip.din.size + 15) / 16 = entries, (0 : ℕ) = off
  induction entries generalizing off with
  | zero => exact .pure _
  | succ entries ih =>
    unfold inodeByNameLoop
    refine .bind (readk_calm me i _ _) fun result => .bind (.stopIf (by decide)) fun _ => .ite ?_ (ih _)
    exact .bind (.gets _) fun ip => .bind (iget_calm _ _) fun _ => .pure _

theorem rootsub_calm (name : List Byte) : Stops Gentle (rootsub me name) := by
  unfold rootsub
  refine .bind rooti_calm fun root => .bind (ilock_calm me _) fun _ => ?_
  exact .bind (inodeByName_calm me root name) fun sub => .bind (iunlockput_calm me root) fun _ => .pure _

end HaloOS
