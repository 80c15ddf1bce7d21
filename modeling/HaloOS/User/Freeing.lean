import HaloOS.User.Umem

/-! What `free` keeps. The blocks of the circle and the live blocks tile the memory from `sbrk`; `free`
finds the place of the block by a walk around the circle and joins the block with what touches
it. -/

namespace HaloOS.Umem

open Lib

variable {base bp p n x : ℕ} {h : Heap} {a b c : Block} {pre post blocks live : List Block}

/-- A block in memory from `sbrk`. -/
structure Sound (base : ℕ) (b : Block) : Prop where
  above : base + 16 ≤ b.addr
  aligned : 16 ∣ b.addr
  filled : 0 < b.units

/-- Free and live blocks tile the memory from `sbrk`. The header `base` counts as a free block of no
units, and no two free blocks touch. -/
structure Tiled (base : ℕ) (h : Heap) (blocks live : List Block) : Prop where
  head : blocks.head? = some ⟨base, 0⟩
  sizes : ∀ b ∈ blocks ++ live, h.size b.addr = b.units
  sound : ∀ b ∈ blocks, b = ⟨base, 0⟩ ∨ Sound base b
  held : ∀ b ∈ live, Sound base b
  apart : blocks.Pairwise fun a b => a.stop < b.addr
  tiles : (cellsOf (blocks ++ live)).Perm (cellsOf h.core)
  once : (cellsOf h.core).Nodup

/-- The free blocks are linked into a circle that `freep` enters. -/
structure Laid (base : ℕ) (h : Heap) (blocks live : List Block) : Prop where
  tiled : Tiled base h blocks live
  circle : Chained h.ptr (blocks.map Block.addr ++ [base])
  entered : h.freep ∈ blocks.map Block.addr

section Tiling

theorem Sound.apart (one : Sound base a) (other : Sound base b)
    (disjoint : a.cells.Disjoint b.cells) : a.stop ≤ b.addr ∨ b.stop ≤ a.addr := by
  rcases lt_trichotomy a.addr b.addr with less | same | more
  · exact .inl (stop_le_of_disjoint disjoint one.aligned other.aligned other.filled less)
  · have first : b.addr ∈ b.cells := Block.mem_cells.mpr ⟨0, other.filled, by omega⟩
    exact absurd first (disjoint (Block.mem_cells.mpr ⟨0, one.filled, by omega⟩))
  · exact .inr (stop_le_of_disjoint disjoint.symm other.aligned one.aligned one.filled more)

theorem Tiled.disjoint (tiled : Tiled base h blocks live) :
    (blocks ++ live).Pairwise fun a b => a.cells.Disjoint b.cells :=
  (List.nodup_flatMap.mp (tiled.tiles.nodup_iff.mpr tiled.once)).2

/-- A free block and a live block do not overlap. -/
theorem Tiled.across (tiled : Tiled base h blocks live) (free : a ∈ blocks) (member : b ∈ live) :
    a.stop ≤ b.addr ∨ b.stop ≤ a.addr := by
  have live := tiled.held b member
  rcases tiled.sound a free with rfl | sound
  · exact .inl (by have := live.above; simp only [Block.stop]; omega)
  · exact sound.apart live ((List.pairwise_append.mp tiled.disjoint).2.2 a free b member)

theorem Tiled.live_apart (tiled : Tiled base h blocks live) :
    live.Pairwise fun a b => a.stop ≤ b.addr ∨ b.stop ≤ a.addr :=
  (List.pairwise_append.mp tiled.disjoint).2.1.imp_of_mem fun first second disjoint =>
    (tiled.held _ first).apart (tiled.held _ second) disjoint

theorem Tiled.ascending (tiled : Tiled base h blocks live) :
    (blocks.map Block.addr).Pairwise (· < ·) :=
  List.pairwise_map.mpr (tiled.apart.imp fun less => by simp only [Block.stop] at less; omega)

/-- No two blocks have one header. -/
theorem Tiled.distinct (tiled : Tiled base h blocks live) :
    ((blocks ++ live).map Block.addr).Nodup := by
  rw [List.map_append]
  refine List.nodup_append'.mpr ⟨tiled.ascending.imp fun less => less.ne, ?_, ?_⟩
  · refine List.pairwise_map.mpr (tiled.live_apart.imp_of_mem fun {a b} first second apart => ?_)
    have filled := (tiled.held a first).filled
    have filled' := (tiled.held b second).filled
    simp only [Block.stop] at apart
    omega
  · intro addr free member
    obtain ⟨a, inside, rfl⟩ := List.mem_map.mp free
    obtain ⟨b, here, same⟩ := List.mem_map.mp member
    have filled := (tiled.held b here).filled
    have above := (tiled.held b here).above
    have apart := tiled.across inside here
    simp only [Block.stop] at apart
    rcases tiled.sound a inside with rfl | sound
    · simp only at same apart
      omega
    · have := sound.filled
      omega

/-- The other blocks have other headers. -/
theorem addr_ne (distinct : ((pre ++ b :: post).map Block.addr).Nodup) (member : a ∈ pre ++ post) :
    a.addr ≠ b.addr := by
  rw [List.map_append, List.map_cons, List.nodup_middle, ← List.map_append] at distinct
  intro same
  exact (List.nodup_cons.mp distinct).1 (same ▸ List.mem_map_of_mem member)

/-- One header gets another size. -/
theorem sizes_update {size : ℕ → ℕ} (distinct : ((pre ++ b :: post).map Block.addr).Nodup)
    (sizes : ∀ a ∈ pre ++ b :: post, size a.addr = a.units) :
    ∀ a ∈ pre ++ ⟨b.addr, n⟩ :: post, Function.update size b.addr n a.addr = a.units := by
  intro a member
  rcases List.mem_append.mp member with before | behind
  · rw [Function.update_of_ne (addr_ne distinct (List.mem_append_left post before))]
    exact sizes a (List.mem_append_left _ before)
  · rcases List.mem_cons.mp behind with rfl | after
    · exact Function.update_self ..
    · rw [Function.update_of_ne (addr_ne distinct (List.mem_append_right pre after))]
      exact sizes a (List.mem_append_right pre (List.mem_cons_of_mem b after))

theorem cells_join (touch : a.stop = b.addr) :
    (Block.mk a.addr (a.units + b.units)).cells = a.cells ++ b.cells := by
  rw [Block.cells_split]
  change a.cells ++ (Block.mk a.stop b.units).cells = a.cells ++ b.cells
  rw [touch]

/-- The units of free and live blocks are the units from `sbrk`. -/
theorem Tiled.total (tiled : Tiled base h blocks live) :
    (cellsOf blocks).length + (cellsOf live).length = (cellsOf h.core).length := by
  rw [← tiled.tiles.length_eq, cellsOf_append, List.length_append]

end Tiling

section Place

/-- What the loop of `free` asks about a link. -/
theorem freeLoop_succ : freeLoop h bp (n + 1) p =
    if (p < bp ∧ bp < h.ptr p) ∨ (h.ptr p ≤ p ∧ (p < bp ∨ bp < h.ptr p)) then some p
    else freeLoop h bp n (h.ptr p) := by
  rw [freeLoop]
  by_cases between : bp > p ∧ bp < h.ptr p
  · rw [if_pos between, if_pos (.inl between)]
  · rw [if_neg between]
    by_cases wraps : p ≥ h.ptr p ∧ (bp > p ∨ bp < h.ptr p)
    · rw [if_pos wraps, if_pos (.inr wraps)]
    · rw [if_neg wraps, if_neg (not_or.mpr ⟨between, wraps⟩)]

/-- More rounds find the same place. -/
theorem freeLoop_more {q : ℕ} (found : freeLoop h bp n p = some q) (m : ℕ) :
    freeLoop h bp (n + m) p = some q := by
  induction n generalizing p with
  | zero => simp [freeLoop] at found
  | succ n ih =>
    rw [freeLoop_succ] at found
    rw [Nat.succ_add, freeLoop_succ]
    split at found
    · rw [if_pos ‹_›]
      exact found
    · rw [if_neg ‹_›]
      exact ih found

/-- The loop of `free` finds the last block below `bp` when it comes around. -/
theorem freeLoop_finds {first : ℕ} {l rest : List ℕ} (circle : Chained h.ptr (first :: l ++ [first]))
    (ascending : (first :: l).Pairwise (· < ·)) (fresh : bp ∉ first :: l) (above : first < bp)
    (walk : Chained h.ptr (p :: rest ++ [x])) (inside : ∀ q ∈ p :: rest, q ∈ first :: l)
    (there : ∃ q ∈ p :: rest, Below (first :: l) bp q) :
    ∃ q, Below (first :: l) bp q ∧ freeLoop h bp (rest.length + 1) p = some q := by
  induction rest generalizing p with
  | nil =>
    obtain ⟨q, member, below⟩ := there
    obtain rfl := List.mem_singleton.mp member
    have test := circle.below_iff ascending fresh above below.member
    exact ⟨q, below, by rw [freeLoop_succ, if_pos (test.mp below)]⟩
  | cons y rest ih =>
    have test := circle.below_iff ascending fresh above (inside p List.mem_cons_self)
    by_cases here : Below (first :: l) bp p
    · exact ⟨p, here, by rw [freeLoop_succ, if_pos (test.mp here)]⟩
    · obtain ⟨q, member, below⟩ := there
      have later : q ∈ y :: rest := by
        rcases List.mem_cons.mp member with rfl | later
        · exact absurd below here
        · exact later
      obtain ⟨link, walk⟩ := chained_cons.mp walk
      obtain ⟨found, place, ends⟩ := ih walk (fun q member => inside q (List.mem_cons_of_mem p member))
        ⟨q, later, below⟩
      refine ⟨found, place, ?_⟩
      rw [List.length_cons, freeLoop_succ, if_neg (test.not.mp here), link]
      exact ends

/-- From `freep` the loop of `free` finds the last free block below a live one. -/
theorem Laid.place (laid : Laid base h blocks (b :: live)) :
    ∃ q n, Below (blocks.map Block.addr) b.addr q ∧ freeLoop h b.addr n h.freep = some q := by
  obtain ⟨free, rfl⟩ := List.head?_eq_some_iff.mp laid.tiled.head
  have ascending := laid.tiled.ascending
  have fresh : b.addr ∉ (⟨base, 0⟩ :: free).map Block.addr := by
    intro member
    obtain ⟨a, inside, same⟩ := List.mem_map.mp member
    have distinct := laid.tiled.distinct
    exact addr_ne distinct (List.mem_append_left live inside) same
  have above : base < b.addr := by
    have := (laid.tiled.held b List.mem_cons_self).above
    omega
  obtain ⟨rest, walk, perm⟩ := laid.circle.rotate laid.entered
  obtain ⟨q, below⟩ := exists_below ascending above
  obtain ⟨found, place, ends⟩ := freeLoop_finds laid.circle ascending fresh above walk
    (fun q member => perm.mem_iff.mp member) ⟨q, perm.mem_iff.mpr below.member, below⟩
  exact ⟨found, rest.length + 1, place, ends⟩

end Place

section Joining

variable (h)

theorem joinNext_ptr (other : x ≠ bp) : (joinNext bp p h).ptr x = h.ptr x := by
  unfold joinNext
  split <;> exact Function.update_of_ne other ..

theorem joinNext_core : (joinNext bp p h).core = h.core := by
  unfold joinNext
  split <;> rfl

theorem joinPrev_ptr (other : x ≠ p) : (joinPrev bp p h).ptr x = h.ptr x := by
  unfold joinPrev
  split <;> exact Function.update_of_ne other ..

theorem joinPrev_core : (joinPrev bp p h).core = h.core := by
  unfold joinPrev
  split <;> rfl

variable {h}

/-- The first half of `free`: behind the block, which has taken in the next one if that touches it,
stand blocks that do not touch it. -/
theorem joinNext_tiled (tiled : Tiled base h (pre ++ a :: post) (b :: live))
    (chained : Chained h.ptr (a.addr :: post.map Block.addr ++ [base]))
    (above : ∀ c ∈ post, b.addr < c.addr) (room : (cellsOf h.core).length < 2 ^ 32) :
    ∃ b' post', Tiled base (joinNext b.addr a.addr h) (pre ++ a :: post') (b' :: live) ∧
      Chained (joinNext b.addr a.addr h).ptr (b.addr :: post'.map Block.addr ++ [base]) ∧
      b'.addr = b.addr ∧ b.units ≤ b'.units ∧ ∀ c ∈ post', b'.stop < c.addr := by
  have held := tiled.held b List.mem_cons_self
  have size : h.size b.addr = b.units := tiled.sizes b (by simp)
  have order : ∀ c ∈ post, b.stop ≤ c.addr := by
    intro c member
    have less := above c member
    have apart := tiled.across (a := c) (by simp [member]) List.mem_cons_self
    have filled := held.filled
    simp only [Block.stop] at apart ⊢
    omega
  have elsewhere : ∀ link, ∀ q ∈ post.map Block.addr, Function.update h.ptr b.addr link q = h.ptr q := by
    intro link q member
    obtain ⟨c, inside, rfl⟩ := List.mem_map.mp member
    exact Function.update_of_ne (above c inside).ne' ..
  have behind := (List.pairwise_append.mp tiled.apart).2.1
  by_cases touch : b.addr + 16 * h.size b.addr = h.ptr a.addr
  · rw [joinNext, if_pos touch]
    cases post with
    | nil =>
      obtain ⟨link, -⟩ := chained_cons.mp chained
      have := held.above
      omega
    | cons c post =>
      obtain ⟨link, rest⟩ := chained_cons.mp chained
      have touches : b.stop = c.addr := by rw [Block.stop, ← size, touch, link]
      have sizeNext : h.size c.addr = c.units := tiled.sizes c (by simp)
      have total := tiled.total
      simp only [cellsOf_append, cellsOf_cons, List.length_append, Block.length_cells] at total
      have sum : (h.size b.addr + h.size (h.ptr a.addr)) % 2 ^ 32 = b.units + c.units := by
        rw [link, size, sizeNext, Nat.mod_eq_of_lt (by omega)]
      rw [sum, link]
      refine ⟨⟨b.addr, b.units + c.units⟩, post, ⟨?_, ?_, ?_, ?_, ?_, ?_, tiled.once⟩, ?_, rfl,
        Nat.le_add_right _ _, ?_⟩
      · cases pre <;> simpa using tiled.head
      · intro x member
        refine sizes_update tiled.distinct tiled.sizes x ?_
        simp only [List.mem_append, List.mem_cons] at member ⊢
        tauto
      · intro x member
        refine tiled.sound x ?_
        simp only [List.mem_append, List.mem_cons] at member ⊢
        tauto
      · intro x member
        rcases List.mem_cons.mp member with rfl | other
        · exact ⟨held.above, held.aligned, Nat.add_pos_left held.filled _⟩
        · exact tiled.held x (List.mem_cons_of_mem b other)
      · exact tiled.apart.sublist (((List.sublist_cons_self c post).cons_cons a).append_left pre)
      · refine List.Perm.trans ?_ tiled.tiles
        refine List.perm_iff_count.mpr fun x => ?_
        simp only [cellsOf_append, cellsOf_cons, cells_join touches, List.count_append]
        omega
      · exact rest.relink (Function.update_self ..) fun q member =>
          elsewhere _ q (List.mem_cons_of_mem c.addr member)
      · intro d member
        have next := (List.pairwise_cons.mp (List.pairwise_cons.mp behind).2).1 d member
        simp only [Block.stop] at touches next ⊢
        omega
  · rw [joinNext, if_neg touch]
    refine ⟨b, post, ⟨tiled.head, tiled.sizes, tiled.sound, tiled.held, tiled.apart, tiled.tiles,
      tiled.once⟩, chained.relink (Function.update_self ..) (elsewhere _), rfl, le_refl _, ?_⟩
    cases post with
    | nil => simp
    | cons c post =>
      obtain ⟨link, -⟩ := chained_cons.mp chained
      have first : b.stop < c.addr := by
        refine lt_of_le_of_ne (order c List.mem_cons_self) fun same => touch ?_
        rw [link, size]
        exact same
      intro d member
      rcases List.mem_cons.mp member with rfl | later
      · exact first
      · have next := (List.pairwise_cons.mp (List.pairwise_cons.mp behind).2).1 d later
        simp only [Block.stop] at next first ⊢
        omega

/-- The second half of `free`: the block takes its place in the circle, or is taken in by the block
before it. -/
theorem joinPrev_laid (tiled : Tiled base h (pre ++ a :: post) (b :: live)) (under : a.addr < b.addr)
    (above : ∀ c ∈ post, b.stop < c.addr) (room : (cellsOf h.core).length < 2 ^ 32)
    (front : Chained h.ptr (pre.map Block.addr ++ [a.addr]))
    (back : Chained h.ptr (b.addr :: post.map Block.addr ++ [base])) :
    ∃ blocks, Laid base { joinPrev b.addr a.addr h with freep := a.addr } blocks live ∧
      ∃ c ∈ blocks, b.units ≤ c.units := by
  have held := tiled.held b List.mem_cons_self
  have size : h.size b.addr = b.units := tiled.sizes b (by simp)
  have sizePrev : h.size a.addr = a.units := tiled.sizes a (by simp)
  have order : a.stop ≤ b.addr := by
    have apart := tiled.across (a := a) (by simp) List.mem_cons_self
    have filled := held.filled
    simp only [Block.stop] at apart ⊢
    omega
  obtain ⟨apartPre, behind, between⟩ := List.pairwise_append.mp tiled.apart
  obtain ⟨-, apartPost⟩ := List.pairwise_cons.mp behind
  have elsewhere : ∀ link, ∀ q ∈ pre.map Block.addr, Function.update h.ptr a.addr link q = h.ptr q := by
    intro link q member
    obtain ⟨c, inside, rfl⟩ := List.mem_map.mp member
    have := between c inside a List.mem_cons_self
    simp only [Block.stop] at this
    exact Function.update_of_ne (by omega) ..
  have further : ∀ link, ∀ q ∈ post.map Block.addr, Function.update h.ptr a.addr link q = h.ptr q := by
    intro link q member
    obtain ⟨c, inside, rfl⟩ := List.mem_map.mp member
    have := above c inside
    simp only [Block.stop] at this
    exact Function.update_of_ne (by omega) ..
  by_cases touch : a.addr + 16 * h.size a.addr = b.addr
  · rw [joinPrev, if_pos touch]
    have touches : a.stop = b.addr := by rw [Block.stop, ← sizePrev, touch]
    have sound : Sound base a := by
      rcases tiled.sound a (by simp) with rfl | sound
      · have := held.above
        simp only [Block.stop] at touches
        omega
      · exact sound
    have total := tiled.total
    simp only [cellsOf_append, cellsOf_cons, List.length_append, Block.length_cells] at total
    have sum : (h.size a.addr + h.size b.addr) % 2 ^ 32 = a.units + b.units := by
      rw [size, sizePrev, Nat.mod_eq_of_lt (by omega)]
    rw [sum]
    refine ⟨pre ++ ⟨a.addr, a.units + b.units⟩ :: post, ⟨⟨?_, ?_, ?_, ?_, ?_, ?_, tiled.once⟩, ?_, ?_⟩,
      ⟨a.addr, a.units + b.units⟩, by simp, Nat.le_add_left _ _⟩
    · have head := tiled.head
      have above := sound.above
      cases pre with
      | nil =>
        obtain rfl : a = ⟨base, 0⟩ := by simpa using head
        simp only at above
        omega
      | cons c pre => exact head
    · have distinct := tiled.distinct
      have sizes := tiled.sizes
      rw [List.append_assoc, List.cons_append] at distinct sizes
      intro x member
      refine sizes_update distinct sizes x ?_
      simp only [List.mem_append, List.mem_cons] at member ⊢
      tauto
    · intro x member
      rcases List.mem_append.mp member with before | there
      · exact tiled.sound x (List.mem_append_left _ before)
      · rcases List.mem_cons.mp there with rfl | after
        · exact .inr ⟨sound.above, sound.aligned, Nat.add_pos_left sound.filled _⟩
        · exact tiled.sound x (List.mem_append_right pre (List.mem_cons_of_mem a after))
    · exact fun x member => tiled.held x (List.mem_cons_of_mem b member)
    · refine List.pairwise_append.mpr ⟨apartPre, List.pairwise_cons.mpr ⟨?_, apartPost⟩, ?_⟩
      · intro c member
        have next := above c member
        simp only [Block.stop] at next touches ⊢
        omega
      · intro c before d member
        rcases List.mem_cons.mp member with rfl | after
        · exact between c before a List.mem_cons_self
        · exact between c before d (List.mem_cons_of_mem a after)
    · refine List.Perm.trans ?_ tiled.tiles
      refine List.perm_iff_count.mpr fun x => ?_
      simp only [cellsOf_append, cellsOf_cons, cells_join touches, List.count_append]
      omega
    · rw [List.map_append, List.map_cons, List.append_assoc]
      exact chained_split.mpr ⟨front.congr (elsewhere _),
        back.relink (Function.update_self ..) (further _)⟩
    · simp
  · rw [joinPrev, if_neg touch]
    have gap : a.stop < b.addr :=
      lt_of_le_of_ne order fun same => touch (by rw [sizePrev]; exact same)
    refine ⟨pre ++ a :: b :: post, ⟨⟨?_, ?_, ?_, ?_, ?_, ?_, tiled.once⟩, ?_, by simp⟩,
      b, by simp, le_refl _⟩
    · cases pre <;> simpa using tiled.head
    · intro x member
      refine tiled.sizes x ?_
      simp only [List.mem_append, List.mem_cons] at member ⊢
      tauto
    · intro x member
      by_cases same : x = b
      · exact .inr (same ▸ held)
      · refine tiled.sound x ?_
        simp only [List.mem_append, List.mem_cons] at member ⊢
        tauto
    · exact fun x member => tiled.held x (List.mem_cons_of_mem b member)
    · refine List.pairwise_append.mpr ⟨apartPre, ?_, ?_⟩
      · refine List.pairwise_cons.mpr ⟨?_, List.pairwise_cons.mpr ⟨above, apartPost⟩⟩
        intro c member
        rcases List.mem_cons.mp member with rfl | after
        · exact gap
        · exact (List.pairwise_cons.mp behind).1 c after
      · intro c before d member
        have prev := between c before a List.mem_cons_self
        rcases List.mem_cons.mp member with rfl | later
        · exact prev
        · rcases List.mem_cons.mp later with rfl | after
          · exact prev.trans under
          · exact between c before d (List.mem_cons_of_mem a after)
    · refine List.Perm.trans ?_ tiled.tiles
      refine List.perm_iff_count.mpr fun x => ?_
      simp only [cellsOf_append, cellsOf_cons, List.count_append]
      omega
    · rw [List.map_append, List.map_cons, List.map_cons, List.append_assoc]
      refine chained_split.mpr ⟨front.congr (elsewhere _), chained_cons.mpr ⟨Function.update_self .., ?_⟩⟩
      exact back.relink (Function.update_of_ne under.ne' ..) (further _)

end Joining

/-- `free` of a live block. -/
theorem free_laid (laid : Laid base h blocks (b :: live)) (room : (cellsOf h.core).length < 2 ^ 32) :
    ∃ n h' blocks', (∀ m, free (n + m) (b.addr + 16) h = some h') ∧ Laid base h' blocks' live ∧
      h'.core = h.core ∧ ∃ c ∈ blocks', b.units ≤ c.units := by
  obtain ⟨q, n, below, found⟩ := laid.place
  obtain ⟨front, back, whole, after⟩ := below.split laid.tiled.ascending
  obtain ⟨pre, rest, rfl, rfl, tail⟩ := List.map_eq_append_iff.mp whole
  obtain ⟨a, post, rfl, rfl, rfl⟩ := List.map_eq_cons_iff.mp tail
  have above : ∀ c ∈ post, b.addr < c.addr := by
    intro c member
    refine lt_of_le_of_ne (after c.addr (List.mem_map_of_mem member)) fun same => ?_
    exact addr_ne laid.tiled.distinct (a := c) (by simp [member]) same.symm
  have circle := laid.circle
  rw [List.map_append, List.map_cons, List.append_assoc] at circle
  obtain ⟨upTo, onward⟩ := chained_split.mp circle
  obtain ⟨b', post', tiled, onward, same, more, gap⟩ := joinNext_tiled laid.tiled onward above room
  have core : (joinNext b.addr a.addr h).core = h.core := joinNext_core h
  have upTo : Chained (joinNext b.addr a.addr h).ptr (pre.map Block.addr ++ [a.addr]) := by
    refine upTo.congr fun x member => joinNext_ptr h ?_
    obtain ⟨c, inside, rfl⟩ := List.mem_map.mp member
    exact addr_ne laid.tiled.distinct (by simp [inside])
  have onward : Chained (joinNext b.addr a.addr h).ptr (b'.addr :: post'.map Block.addr ++ [base]) := by
    rw [same]
    exact onward
  obtain ⟨blocks, laid', c, member, large⟩ := joinPrev_laid tiled (same ▸ below.less) gap
    (core ▸ room) upTo onward
  rw [same] at laid'
  refine ⟨n, _, blocks, fun m => ?_, laid', ?_, c, member, more.trans large⟩
  · simp only [free, Nat.add_sub_cancel, freeLoop_more found m]
  · exact (joinPrev_core _).trans core

end HaloOS.Umem
