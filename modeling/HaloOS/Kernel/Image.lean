import HaloOS.Fs.Reading
import HaloOS.Kernel.Spaces
import HaloOS.Vm.Bytes

/-! The contents of an address space: what the frames of a table hold, page by page, whatever
else is in memory. What works on the table or beside it is specified by what it does to these
contents. -/

namespace HaloOS

open Lib

variable {L : Layout} {v v' : Vm} {own own' : ℕ → Owner} {l : List ℕ} {t s u f g n a off : ℕ}
  {S : ℕ → Prop} {top : ℕ → ℕ} {data : Mem} {flags : ℕ → ℕ} {bytes : List Byte}

/-- The byte at a virtual address to which user code has access. -/
def userAt (v : Vm) (pagetable a : ℕ) : Option Byte := (translate v pagetable a).map v.byteAt

/-- The user pages of table `t` hold `data` and have the given flags. Pages that are not there
count as pages of zeros open to the user, as which they come. -/
structure Image (v : Vm) (own : ℕ → Owner) (t : ℕ) (data : Mem) (flags : ℕ → ℕ) : Prop where
  entry : ∀ f u, own f = .user t u → leaf v.mem t u = f * 1024 + flags u
  byte : ∀ f u, own f = .user t u → ∀ off < PGSIZE,
    v.byteAt (PGSIZE * f + off) = data (PGSIZE * u + off)
  blank : ∀ u, (∀ f, own f ≠ .user t u) → flags u = 31 ∧ ∀ off < PGSIZE, data (PGSIZE * u + off) = 0

theorem Mem.store_of_mem (mem : Mem) (inside : off < bytes.length) :
    mem.store a bytes (a + off) = bytes.getD off 0 := by
  unfold Mem.store
  rw [if_pos (by omega), Nat.add_sub_cancel_left]

theorem Mem.store_of_not_mem (mem : Mem) (outside : ¬ (a ≤ n ∧ n < a + bytes.length)) :
    mem.store a bytes n = mem n := if_neg outside

/-- Stores of one stretch after the other. -/
theorem Mem.store_append (mem : Mem) (a : ℕ) (bytes more : List Byte) :
    (mem.store a bytes).store (a + bytes.length) more = mem.store a (bytes ++ more) := by
  funext n
  unfold Mem.store
  rw [List.length_append]
  by_cases second : a + bytes.length ≤ n ∧ n < a + bytes.length + more.length
  · rw [if_pos second, if_pos (by omega), List.getD_append_right _ _ _ _ (by omega)]
    congr 1
    omega
  · rw [if_neg second]
    by_cases first : a ≤ n ∧ n < a + bytes.length
    · rw [if_pos first, if_pos (by omega), List.getD_append _ _ _ _ (by omega)]
    · rw [if_neg first, if_neg (by omega)]

theorem Mem.store_nil (mem : Mem) (a : ℕ) : mem.store a [] = mem := by
  funext n
  unfold Mem.store
  rw [if_neg (by simp only [List.length_nil]; omega)]

section Kept

variable {l' : List ℕ} (space : Space L v own l t S (topLeaves L f)) (tree' : Tree v'.mem own' t)
  (pool' : Pool L v' own' l')
  (kept : ∀ n, n = t ∨ (own n).under t →
    own' n = own n ∧ ∀ k < 512, v'.mem (512 * n + k) = v.mem (512 * n + k))

include space tree' pool' kept

/-- A table whose pages have been kept translates as before. -/
theorem Space.sv39_kept (small : u < 2 ^ 27) :
    HaloOS.sv39 v'.mem u 2 (PGSIZE * t) = HaloOS.sv39 v.mem u 2 (PGSIZE * t) := by
  have between : Tree v'.mem own t := by
    refine space.tree.congr rfl (fun _ _ => Iff.rfl) (fun _ _ _ => Iff.rfl) ?_
    rintro n (rfl | ⟨i, inner⟩)
    · exact (kept n (.inl rfl)).2
    · exact (kept n (.inr (by rw [inner]; rfl))).2
  have old : leaf v'.mem t u = leaf v.mem t u := by
    refine space.tree.leaf_congr between (fun n i j bottom => ⟨bottom, ?_⟩) (fun _ _ _ bottom => .inl bottom) small
    exact (kept n (.inr (by rw [bottom]; rfl))).2
  rw [tree'.sv39 pool' small, space.tree.sv39 space.pool small, old]

/-- User code reads the same bytes through it. -/
theorem Space.userAt_kept {a : ℕ} (small : a < 2 ^ 39) :
    HaloOS.userAt v' (PGSIZE * t) a = HaloOS.userAt v (PGSIZE * t) a := by
  have low : a / PGSIZE < 2 ^ 27 := by
    simp only [PGSIZE]
    omega
  unfold HaloOS.userAt HaloOS.translate
  rw [space.sv39_kept tree' pool' kept low]
  by_cases inside : S (a / PGSIZE)
  · obtain ⟨g, flags, either, owner, entry⟩ := space.sv39_user inside
    have page : PTE2PA (g * 1024 + flags) = PGSIZE * g :=
      entry_page (space.pool.managed g (by simp [owner])).lt (by rcases either with rfl | rfl <;> decide)
    have words := (kept g (.inr (by rw [owner]; rfl))).2
    have byte := byteAt_frame words (Nat.mod_lt a (by decide : 0 < PGSIZE))
    simp only [entry, page]
    by_cases opened : (g * 1024 + flags) &&& PTE_U ≠ 0
    · simp only [if_pos opened, Option.map_some, byte]
    · simp only [if_neg opened, Option.map_none]
  · rw [space.sv39_other low inside]
    by_cases blank : topLeaves L f (a / PGSIZE) = 0
    · simp only [if_pos blank, Option.map_none]
    · have closed : ¬ topLeaves L f (a / PGSIZE) &&& PTE_U ≠ 0 := not_not.mpr (topLeaves_closed L f _)
      simp only [if_neg blank, if_neg closed, Option.map_none]

end Kept

/-- Every address space has its contents. -/
theorem Image.exists (maps : Maps v.mem own t S top)
    (entry : ∀ f u, own f = .user t u → leaf v.mem t u = f * 1024 + flags u)
    (blank : ∀ u, (∀ f, own f ≠ .user t u) → flags u = 31) : ∃ data, Image v own t data flags := by
  classical
  refine ⟨fun a => if here : ∃ f, own f = .user t (a / PGSIZE) then
    v.byteAt (PGSIZE * here.choose + a % PGSIZE) else 0, entry, ?_, fun u none => ⟨blank u none, ?_⟩⟩
  · intro f u here off inside
    have page : (PGSIZE * u + off) / PGSIZE = u := by
      simp only [PGSIZE] at *
      omega
    have rest : (PGSIZE * u + off) % PGSIZE = off := by
      simp only [PGSIZE] at *
      omega
    have some : ∃ f, own f = .user t ((PGSIZE * u + off) / PGSIZE) := ⟨f, by rw [page, here]⟩
    have same : some.choose = f := maps.frame_unique (by rw [some.choose_spec, page]) here
    rw [dif_pos some, same, rest]
  · intro off inside
    have page : (PGSIZE * u + off) / PGSIZE = u := by
      simp only [PGSIZE] at *
      omega
    rw [dif_neg (by rw [page]; exact fun mapped => none _ mapped.choose_spec)]

/-- New pages come as pages of zeros. -/
theorem Image.extends (image : Image v own t data flags) (grown : Extends t own v own' v') :
    Image v' own' t data flags where
  entry := by
    intro f u here
    rcases grown.new f u here with old | ⟨none, entry, -⟩
    · rw [(grown.old f u old).2.1, image.entry f u old]
    · rw [entry, (image.blank u none).1]
  byte := by
    intro f u here off inside
    rcases grown.new f u here with old | ⟨none, -, zero⟩
    · rw [byteAt_frame (grown.old f u old).2.2 inside, image.byte f u old off inside]
    · rw [byteAt_zero zero inside, (image.blank u none).2 off inside]
  blank := fun u none => image.blank u fun f here => none f (grown.old f u here).1

/-- Writing to a frame. -/
theorem Image.write (image : Image v own t data flags) (space : Space L v own l t S top)
    (here : own g = .user t u) (inside : off + bytes.length ≤ PGSIZE) :
    Image (v.writeBytes (PGSIZE * g + off) bytes) own t (data.store (PGSIZE * u + off) bytes) flags where
  entry := by
    have leaves := (space.tree.reown (o := .held t) (keeps_writeBytes v inside) (.inr ⟨u, here⟩)
      (.inr (.inl rfl))).2
    intro f w owner
    rw [leaves w (space.maps.small owner), image.entry f w owner]
  byte := by
    intro f w owner k low
    rw [byteAt_writeBytes]
    unfold Mem.store
    by_cases same : f = g
    · subst same
      obtain rfl : u = w := by simpa [here] using owner
      by_cases place : off ≤ k ∧ k < off + bytes.length
      · rw [if_pos (by omega), if_pos (by omega)]
        congr 1
        omega
      · rw [if_neg (by omega), if_neg (by omega), image.byte f u owner k low]
    · have other : w ≠ u := by
        rintro rfl
        exact same (space.maps.frame_unique owner here)
      have apart : ∀ {m n : ℕ}, m ≠ n → ¬ (PGSIZE * n + off ≤ PGSIZE * m + k ∧
          PGSIZE * m + k < PGSIZE * n + off + bytes.length) := by
        intro m n differ
        simp only [PGSIZE] at *
        omega
      rw [if_neg (apart same), if_neg (apart other), image.byte f w owner k low]
  blank := by
    intro w none
    obtain ⟨flags, zero⟩ := image.blank w none
    refine ⟨flags, fun k low => ?_⟩
    have other : w ≠ u := by
      rintro rfl
      exact none g here
    rw [Mem.store_of_not_mem, zero k low]
    simp only [PGSIZE] at *
    omega

/-- Writing to a page that is neither free nor one of table `t`. -/
theorem Space.poke (space : Space L v own l t S top) (used : own n ≠ .free) (root : ∀ q, own n ≠ .root q)
    (other : ¬ (own n).under t) (keeps : Keeps v v' (· ≠ n)) (freelist : v'.freelist = v.freelist) :
    Space L v' own l t S top ∧ Extends t own v own v' := by
  have apart : ∀ {o : Owner}, o.under t → own n ≠ o := by
    rintro _ inner rfl
    exact other inner
  obtain ⟨tree', leaves⟩ := space.tree.poke root (fun a => apart (o := .l1 t a) rfl)
    (fun a b => apart (o := .l0 t a b) rfl) keeps
  refine ⟨⟨space.pool.congr freelist (keeps.mono ?_), tree',
    space.maps.congr (fun _ _ => Iff.rfl) leaves⟩, .same (fun _ _ => Iff.rfl) leaves
    (fun f u here => space.maps.small here) ?_⟩
  · rintro m free rfl
    exact used free
  · intro f u here k inside
    refine keeps.at ?_ inside
    rintro rfl
    exact apart (o := .user t u) rfl here

/-- Work on another table does not concern user memory. -/
theorem Space.extends_elsewhere (space : Space L v own l t S top) (touches : Touches s own v own' v')
    (other : t ≠ s) (root : ¬ (own s).under t) (root' : ¬ (own' s).under t) : Extends t own v own' v' := by
  refine .same (fun f u => touches.under (o := .user t u) other root root' rfl)
    (fun u small => space.tree.leaf_other touches other root root' small)
    (fun f u here => space.maps.small here) ?_
  intro f u here
  exact (touches.keep (not_avail_of_under other root (by rw [here]; rfl))).2

section Access

variable (image : Image v own t data flags) (space : Space L v own l t S top)
include image space

/-- What the hardware finds at a user page. -/
theorem Image.sv39 (inside : S u) (low : flags u < 1024) (valid : flags u &&& PTE_V ≠ 0) :
    ∃ g, own g = .user t u ∧ PTE2PA (g * 1024 + flags u) = PGSIZE * g ∧
      HaloOS.sv39 v.mem u 2 (PGSIZE * t) = some (0, g * 1024 + flags u) := by
  obtain ⟨g, owner⟩ := space.maps.frame u inside
  refine ⟨g, owner, entry_page (space.pool.managed g (by simp [owner])).lt low, ?_⟩
  rw [space.tree.sv39 space.pool (space.maps.small owner), image.entry g u owner, if_neg]
  rwa [entry_and g (by decide)]

/-- User code sees the contents of the pages that are open to it. -/
theorem Image.userAt (inside : S (a / PGSIZE)) (open_ : flags (a / PGSIZE) = 31) :
    userAt v (PGSIZE * t) a = some (data a) := by
  obtain ⟨g, owner, frame, found⟩ := image.sv39 space inside (by omega) (by rw [open_]; decide)
  have user : (g * 1024 + flags (a / PGSIZE)) &&& PTE_U ≠ 0 := by
    rw [open_, entry_and g (by decide)]
    decide
  unfold HaloOS.userAt
  rw [translate_of found user, frame, Option.map_some,
    image.byte g _ owner _ (Nat.mod_lt _ (by decide)), Nat.div_add_mod]

end Access

end HaloOS
