import HaloOS.User.Freeing

/-! What `malloc` keeps. The loop goes around the circle until a block is large enough, and `morecore`
frees fresh memory into the circle when none is. -/

namespace HaloOS.Umem

open Lib

variable {base addr nunits nbytes prev p n m x : ℕ} {h : Heap} {a b c : Block}
  {pre post blocks live : List Block} {sbrk : ℕ → Option ℕ}

section Taking

/-- No other header stands in the units of a block. -/
theorem Tiled.cell_ne (tiled : Tiled base h blocks live) (whole : blocks ++ live = pre ++ c :: post)
    (sound : Sound base c) (cell : x ∈ c.cells) (member : a ∈ pre ++ post) : a.addr ≠ x := by
  have disjoint := tiled.disjoint
  rw [whole] at disjoint
  obtain ⟨other, -⟩ := List.pairwise_cons.mp
    ((List.pairwise_middle fun {a b} disjoint => List.Disjoint.symm disjoint).mp disjoint)
  have inside : a ∈ blocks ++ live := by
    rw [whole]
    simp only [List.mem_append, List.mem_cons] at member ⊢
    tauto
  have away : Sound base a → a.addr ≠ x := by
    rintro filled rfl
    exact other a member cell (Block.mem_cells.mpr ⟨0, filled.filled, by omega⟩)
  rcases List.mem_append.mp inside with free | held
  · rcases tiled.sound a free with rfl | filled
    · obtain ⟨k, -, rfl⟩ := Block.mem_cells.mp cell
      have := sound.above
      simp only
      omega
    · exact away filled
  · exact away (tiled.held a held)

/-- `malloc` hands out the end of a block. -/
theorem take_end (laid : Laid base h blocks live) (inside : p ∈ blocks.map Block.addr)
    (entered : prev ∈ blocks.map Block.addr) (filled : 0 < nunits) (larger : nunits < h.size p) :
    ∃ addr h' blocks', take nunits prev p h = (addr + 16, h') ∧
      Laid base h' blocks' (⟨addr, nunits⟩ :: live) ∧ h'.core = h.core := by
  obtain ⟨c, member, rfl⟩ := List.mem_map.mp inside
  have tiled := laid.tiled
  have size : h.size c.addr = c.units := tiled.sizes c (List.mem_append_left live member)
  have sound : Sound base c := by
    rcases tiled.sound c member with rfl | sound
    · rw [size] at larger
      exact absurd larger (Nat.not_lt_zero nunits)
    · exact sound
  obtain ⟨pre, post, rfl⟩ := List.append_of_mem member
  rw [size] at larger
  have parts : c.units = (c.units - nunits) + nunits := by omega
  have cells : c.cells = (Block.mk c.addr (c.units - nunits)).cells ++
      (Block.mk (c.addr + 16 * (c.units - nunits)) nunits).cells := by
    rw [← Block.cells_split, ← parts]
  have whole : (pre ++ c :: post) ++ live = pre ++ c :: (post ++ live) := by simp
  refine ⟨c.addr + 16 * (c.units - nunits), { h with
      size := Function.update (Function.update h.size c.addr (c.units - nunits))
        (c.addr + 16 * (c.units - nunits)) nunits
      freep := prev }, pre ++ ⟨c.addr, c.units - nunits⟩ :: post, ?_, ⟨⟨?_, ?_, ?_, ?_, ?_, ?_, tiled.once⟩,
      ?_, ?_⟩, rfl⟩
  · rw [take, if_neg (by omega)]
    simp only [size, Function.update_self]
  · have head := tiled.head
    have above := sound.above
    cases pre with
    | nil =>
      obtain rfl : c = ⟨base, 0⟩ := by simpa using head
      simp only at above
      omega
    | cons a pre => exact head
  · have sizes := tiled.sizes
    have distinct := tiled.distinct
    rw [whole] at sizes distinct
    have cell : c.addr + 16 * (c.units - nunits) ∈ c.cells :=
      Block.mem_cells.mpr ⟨c.units - nunits, by omega, rfl⟩
    intro b member
    by_cases fresh : b = ⟨c.addr + 16 * (c.units - nunits), nunits⟩
    · rw [fresh]
      exact Function.update_self ..
    · have there : b ∈ pre ++ ⟨c.addr, c.units - nunits⟩ :: (post ++ live) := by
        simp only [List.mem_append, List.mem_cons] at member ⊢
        tauto
      have apart : b.addr ≠ c.addr + 16 * (c.units - nunits) := by
        by_cases front : b = ⟨c.addr, c.units - nunits⟩
        · rw [front]
          simp only
          omega
        · refine tiled.cell_ne whole sound cell ?_
          simp only [List.mem_append, List.mem_cons] at there ⊢
          tauto
      exact (Function.update_of_ne apart ..).trans (sizes_update distinct sizes b there)
  · intro b member
    rcases List.mem_append.mp member with before | there
    · exact tiled.sound b (List.mem_append_left _ before)
    · rcases List.mem_cons.mp there with rfl | after
      · exact .inr ⟨sound.above, sound.aligned, by simp only; omega⟩
      · exact tiled.sound b (List.mem_append_right pre (List.mem_cons_of_mem c after))
  · intro b member
    rcases List.mem_cons.mp member with rfl | other
    · refine ⟨?_, ?_, filled⟩
      · exact sound.above.trans (Nat.le_add_right _ _)
      · exact Nat.dvd_add sound.aligned (Nat.dvd_mul_right 16 _)
    · exact tiled.held b other
  · obtain ⟨apartPre, behind, between⟩ := List.pairwise_append.mp tiled.apart
    obtain ⟨next, apartPost⟩ := List.pairwise_cons.mp behind
    refine List.pairwise_append.mpr ⟨apartPre, List.pairwise_cons.mpr ⟨?_, apartPost⟩, ?_⟩
    · intro d member
      have := next d member
      simp only [Block.stop] at this ⊢
      omega
    · intro d before e member
      rcases List.mem_cons.mp member with rfl | after
      · exact between d before c List.mem_cons_self
      · exact between d before e (List.mem_cons_of_mem c after)
  · refine List.Perm.trans ?_ tiled.tiles
    refine List.perm_iff_count.mpr fun x => ?_
    simp only [cellsOf_append, cellsOf_cons, cells, List.count_append]
    omega
  · simpa using laid.circle
  · simpa using entered

/-- A link that does not lead back to `base` leads to the next block. -/
theorem Laid.next (laid : Laid base h blocks live) (entered : prev ∈ blocks.map Block.addr)
    (onward : h.ptr prev ≠ base) :
    ∃ pre a c post, blocks = pre ++ a :: c :: post ∧ a.addr = prev ∧ c.addr = h.ptr prev := by
  obtain ⟨a, member, rfl⟩ := List.mem_map.mp entered
  obtain ⟨pre, post, rfl⟩ := List.append_of_mem member
  have circle := laid.circle
  rw [List.map_append, List.map_cons, List.append_assoc] at circle
  obtain ⟨-, rest⟩ := chained_split.mp circle
  cases post with
  | nil => exact absurd (chained_cons.mp rest).1 onward
  | cons c post => exact ⟨pre, a, c, post, rfl, rfl, (chained_cons.mp rest).1.symm⟩

/-- `malloc` takes a whole block out of the circle. -/
theorem take_whole (laid : Laid base h blocks live) (entered : prev ∈ blocks.map Block.addr)
    (link : h.ptr prev = p) (filled : 0 < nunits) (fits : h.size p = nunits) :
    ∃ addr h' blocks', take nunits prev p h = (addr + 16, h') ∧
      Laid base h' blocks' (⟨addr, nunits⟩ :: live) ∧ h'.core = h.core := by
  have onward : h.ptr prev ≠ base := by
    intro back
    obtain ⟨free, rfl⟩ := List.head?_eq_some_iff.mp laid.tiled.head
    have header : h.size base = 0 := laid.tiled.sizes ⟨base, 0⟩ (by simp)
    rw [← link, back, header] at fits
    omega
  obtain ⟨pre, a, c, post, rfl, rfl, place⟩ := laid.next entered onward
  rw [link] at place
  subst place
  have tiled := laid.tiled
  have size : h.size c.addr = c.units := tiled.sizes c (by simp)
  have units : c.units = nunits := size.symm.trans fits
  have same : Block.mk c.addr nunits = c := by rw [← units]
  have sound : Sound base c := by
    rcases tiled.sound c (by simp) with rfl | sound
    · simp only at units
      omega
    · exact sound
  have distinct := tiled.distinct
  rw [List.append_assoc, List.cons_append] at distinct
  have circle := laid.circle
  rw [List.map_append, List.map_cons, List.append_assoc] at circle
  obtain ⟨upTo, onward⟩ := chained_split.mp circle
  obtain ⟨-, onward⟩ := chained_cons.mp onward
  have elsewhere : ∀ d ∈ pre ++ post, ∀ link, Function.update h.ptr a.addr link d.addr = h.ptr d.addr := by
    intro d member link
    refine Function.update_of_ne (addr_ne distinct ?_) ..
    simp only [List.mem_append, List.mem_cons] at member ⊢
    tauto
  refine ⟨c.addr, { h with
      ptr := Function.update h.ptr a.addr (h.ptr c.addr)
      freep := a.addr }, pre ++ a :: post, if_pos fits, ⟨⟨?_, ?_, ?_, ?_, ?_, ?_, tiled.once⟩, ?_, by simp⟩, rfl⟩
  · cases pre <;> simpa using tiled.head
  · intro d member
    refine tiled.sizes d ?_
    rw [same] at member
    simp only [List.mem_append, List.mem_cons] at member ⊢
    tauto
  · intro d member
    refine tiled.sound d ?_
    simp only [List.mem_append, List.mem_cons] at member ⊢
    tauto
  · intro d member
    rcases List.mem_cons.mp member with rfl | other
    · exact ⟨sound.above, sound.aligned, filled⟩
    · exact tiled.held d other
  · exact tiled.apart.sublist (((List.sublist_cons_self c post).cons_cons a).append_left pre)
  · refine List.Perm.trans ?_ tiled.tiles
    rw [same]
    refine List.perm_iff_count.mpr fun x => ?_
    simp only [cellsOf_append, cellsOf_cons, List.count_append]
    omega
  · rw [List.map_append, List.map_cons, List.append_assoc]
    refine chained_split.mpr ⟨upTo.congr ?_, onward.relink (Function.update_self ..) ?_⟩
    · intro x member
      obtain ⟨d, inside, rfl⟩ := List.mem_map.mp member
      exact elsewhere d (List.mem_append_left post inside) _
    · intro x member
      obtain ⟨d, inside, rfl⟩ := List.mem_map.mp member
      exact elsewhere d (List.mem_append_right pre inside) _

end Taking

section Fuel

variable {m : ℕ} {r : ℕ × Heap} {calls prevp : ℕ}

theorem free_more {h' : Heap} {ap : ℕ} (done : free n ap h = some h') (m : ℕ) :
    free (n + m) ap h = some h' := by
  unfold free at done ⊢
  cases found : freeLoop h (ap - 16) n h.freep with
  | none => simp [found] at done
  | some q =>
    simp only [found] at done
    simpa only [freeLoop_more found m] using done

theorem morecore_more {answer : Option ℕ} {nu : ℕ} (done : morecore answer n nu h = some r) (m : ℕ) :
    morecore answer (n + m) nu h = some r := by
  unfold morecore at done ⊢
  cases answer with
  | none => exact done
  | some hp =>
    simp only at done ⊢
    split at done
    · cases done
    · rw [free_more ‹_› m]
      exact done

/-- More rounds give the same answer. -/
theorem mallocLoop_more (done : mallocLoop nunits sbrk n calls prevp p h = some r) (m : ℕ) :
    mallocLoop nunits sbrk (n + m) calls prevp p h = some r := by
  induction n generalizing calls prevp p h with
  | zero => simp [mallocLoop] at done
  | succ n ih =>
    rw [Nat.succ_add]
    rw [mallocLoop] at done ⊢
    split
    · rwa [if_pos ‹_›] at done
    · rw [if_neg ‹_›] at done
      split
      · rw [if_pos ‹_›] at done
        cases more : morecore (sbrk calls) n nunits h with
        | none => simp [more] at done
        | some answer =>
          simp only [more] at done
          simp only [morecore_more more m]
          split
          · rwa [if_pos ‹_›] at done
          · rw [if_neg ‹_›] at done
            exact ih done
      · rw [if_neg ‹_›] at done
        exact ih done

end Fuel

section Walk

variable {calls : ℕ}

/-- The loop of `malloc` takes the first block that is large enough, or comes to `freep`. -/
theorem mallocLoop_walk {rest : List ℕ} (walk : Chained h.ptr (prev :: rest ++ [h.freep]))
    (before : h.freep ∉ rest) :
    (∃ n q p, q ∈ prev :: rest ∧ h.ptr q = p ∧ p ∈ rest ++ [h.freep] ∧ nunits ≤ h.size p ∧
      ∀ m, mallocLoop nunits sbrk (n + m) calls prev (h.ptr prev) h = some (take nunits q p h)) ∨
    (∀ p ∈ rest ++ [h.freep], h.size p < nunits) ∧
      ∃ n q, ∀ m, mallocLoop nunits sbrk (n + m) calls prev (h.ptr prev) h =
        mallocLoop nunits sbrk (m + 1) calls q h.freep h := by
  induction rest generalizing prev with
  | nil =>
    obtain ⟨link, -⟩ := chained_cons.mp walk
    rw [link]
    by_cases fits : nunits ≤ h.size h.freep
    · refine .inl ⟨1, prev, h.freep, by simp, link, by simp, fits, fun m => ?_⟩
      rw [Nat.add_comm, mallocLoop, if_pos fits]
    · refine .inr ⟨by simpa using fits, 1, prev, fun m => ?_⟩
      rw [Nat.add_comm]
  | cons y rest ih =>
    obtain ⟨link, walk⟩ := chained_cons.mp walk
    obtain ⟨away, before⟩ := not_or.mp (List.mem_cons.not.mp before)
    by_cases fits : nunits ≤ h.size y
    · refine .inl ⟨1, prev, y, by simp, link, by simp, fits, fun m => ?_⟩
      rw [link, Nat.add_comm, mallocLoop, if_pos fits]
    · have step : ∀ k, mallocLoop nunits sbrk (k + 1) calls prev (h.ptr prev) h =
          mallocLoop nunits sbrk k calls y (h.ptr y) h := by
        intro k
        rw [link, mallocLoop, if_neg fits, if_neg (Ne.symm away)]
      rcases ih walk before with ⟨n, q, p, entered, reached, inside, large, taken⟩ | ⟨small, n, q, ends⟩
      · refine .inl ⟨n + 1, q, p, List.mem_cons_of_mem prev entered, reached,
          List.mem_cons_of_mem y inside, large, fun m => ?_⟩
        rw [Nat.add_right_comm, step]
        exact taken m
      · refine .inr ⟨?_, n + 1, q, fun m => ?_⟩
        · intro p member
          rcases List.mem_cons.mp member with rfl | later
          · exact not_le.mp fits
          · exact small p later
        · rw [Nat.add_right_comm, step]
          exact ends m

end Walk

section Growing

/-- The units that `morecore` asks for. -/
def asked (nunits : ℕ) : ℕ := if nunits < 4096 then 4096 else nunits

theorem le_asked (nunits : ℕ) : nunits ≤ asked nunits := by
  unfold asked
  split <;> omega

theorem asked_pos (nunits : ℕ) : 0 < asked nunits := by
  unfold asked
  split <;> omega

theorem length_cellsOf (blocks : List Block) :
    (cellsOf blocks).length = (blocks.map Block.units).sum := by
  simp [cellsOf, List.length_flatMap, Block.length_cells]

/-- What a caller of `sbrk` for some units may get: the start of fresh memory that is aligned and
above all the memory handed out before and above `base`. The byte count is a positive `int`, and no
more than `limit` units are handed out altogether. -/
structure Fresh (base limit : ℕ) (h : Heap) (nu addr : ℕ) : Prop where
  aligned : 16 ∣ addr
  above : base + 16 ≤ addr
  fresh : ∀ b ∈ h.core, b.stop ≤ addr
  positive : 16 * nu < 2 ^ 31
  within : (h.core.map Block.units).sum + nu ≤ limit

variable {limit nu : ℕ}

theorem Tiled.below_fresh (tiled : Tiled base h blocks live) (fresh : Fresh base limit h nu addr)
    (member : b ∈ blocks ++ live) : b.addr < addr := by
  have here : b = ⟨base, 0⟩ ∨ Sound base b := by
    rcases List.mem_append.mp member with free | held
    · exact tiled.sound b free
    · exact .inr (tiled.held b held)
  rcases here with rfl | sound
  · have := fresh.above
    simp only
    omega
  · have first : b.addr ∈ cellsOf (blocks ++ live) :=
      List.mem_flatMap.mpr ⟨b, member, Block.mem_cells.mpr ⟨0, sound.filled, by omega⟩⟩
    obtain ⟨c, inside, cell⟩ := List.mem_flatMap.mp (tiled.tiles.mem_iff.mp first)
    obtain ⟨k, less, place⟩ := Block.mem_cells.mp cell
    have := fresh.fresh c inside
    simp only [Block.stop] at this
    omega

/-- Memory from `sbrk` counts as live before `morecore` frees it. -/
theorem Laid.grow (laid : Laid base h blocks live) (fresh : Fresh base limit h nu addr) (filled : 0 < nu) :
    Laid base { h with core := h.core ++ [⟨addr, nu⟩], size := Function.update h.size addr nu } blocks
      (⟨addr, nu⟩ :: live) := by
  have tiled := laid.tiled
  refine ⟨⟨tiled.head, ?_, tiled.sound, ?_, tiled.apart, ?_, ?_⟩, laid.circle, laid.entered⟩
  · intro b member
    by_cases same : b = ⟨addr, nu⟩
    · rw [same]
      exact Function.update_self ..
    · have old : b ∈ blocks ++ live := by
        simp only [List.mem_append, List.mem_cons] at member ⊢
        tauto
      exact (Function.update_of_ne (tiled.below_fresh fresh old).ne ..).trans (tiled.sizes b old)
  · intro b member
    rcases List.mem_cons.mp member with rfl | old
    · exact ⟨fresh.above, fresh.aligned, filled⟩
    · exact tiled.held b old
  · have perm := tiled.tiles
    rw [List.perm_iff_count] at perm ⊢
    intro x
    have count := perm x
    simp only [cellsOf_append, cellsOf_cons, cellsOf_nil, List.count_append, List.count_nil] at count ⊢
    omega
  · rw [cellsOf_append, cellsOf_single]
    refine List.nodup_append'.mpr ⟨tiled.once, ?_, ?_⟩
    · exact List.nodup_range.map_on fun i _ j _ same => by omega
    · intro x old new
      obtain ⟨c, inside, cell⟩ := List.mem_flatMap.mp old
      obtain ⟨k, less, place⟩ := Block.mem_cells.mp cell
      have := fresh.fresh c inside
      obtain ⟨j, -, place'⟩ := Block.mem_cells.mp new
      simp only [Block.stop] at this place'
      omega

end Growing

section Answers

variable {limit : ℕ}

/-- A walk around the circle that meets a large enough block. -/
theorem Laid.walk (laid : Laid base h blocks live) (sbrk : ℕ → Option ℕ) (calls : ℕ) (filled : 0 < nunits) :
    (∃ n addr h' blocks', (∀ m, mallocLoop nunits sbrk (n + m) calls h.freep (h.ptr h.freep) h =
        some (addr + 16, h')) ∧
      Laid base h' blocks' (⟨addr, nunits⟩ :: live) ∧ h'.core = h.core) ∨
    (∀ b ∈ blocks, b.units < nunits) ∧
      ∃ n q, ∀ m, mallocLoop nunits sbrk (n + m) calls h.freep (h.ptr h.freep) h =
        mallocLoop nunits sbrk (m + 1) calls q h.freep h := by
  obtain ⟨free, rfl⟩ := List.head?_eq_some_iff.mp laid.tiled.head
  obtain ⟨rest, circle, perm⟩ := laid.circle.rotate laid.entered
  have once : h.freep ∉ rest := by
    have ascending := laid.tiled.ascending.imp fun less => Nat.ne_of_lt less
    exact (List.nodup_cons.mp (perm.nodup_iff.mpr ascending)).1
  have around : ∀ p ∈ rest ++ [h.freep], p ∈ (⟨base, 0⟩ :: free).map Block.addr := by
    intro p member
    refine perm.mem_iff.mp ?_
    simp only [List.mem_append, List.mem_cons, List.not_mem_nil, or_false] at member ⊢
    tauto
  rcases mallocLoop_walk circle once with ⟨n, q, p, entered, link, inside, large, taken⟩ | ⟨small, ends⟩
  · have entered := perm.mem_iff.mp entered
    refine .inl ?_
    rcases Nat.lt_or_eq_of_le large with larger | fits
    · obtain ⟨addr, h', blocks', result, laid', core⟩ :=
        take_end laid (around p inside) entered filled larger
      exact ⟨n, addr, h', blocks', fun m => (taken m).trans (congrArg _ result), laid', core⟩
    · obtain ⟨addr, h', blocks', result, laid', core⟩ := take_whole laid entered link filled fits.symm
      exact ⟨n, addr, h', blocks', fun m => (taken m).trans (congrArg _ result), laid', core⟩
  · refine .inr ⟨fun b member => ?_, ends⟩
    rw [← laid.tiled.sizes b (List.mem_append_left live member)]
    refine small b.addr ?_
    have there := perm.mem_iff.mpr (List.mem_map_of_mem member)
    simp only [List.mem_append, List.mem_cons, List.not_mem_nil, or_false] at there ⊢
    tauto

/-- `malloc` fails when `sbrk` fails and nothing is large enough. Otherwise it takes a block, which is
in the fresh memory if no other was large enough. -/
theorem mallocLoop_laid (laid : Laid base h blocks live) (positive : 0 < base) (filled : 0 < nunits)
    (small : limit < 2 ^ 32) (within : (h.core.map Block.units).sum ≤ limit)
    (fresh : ∀ a, sbrk 0 = some a → Fresh base limit h (asked nunits) a) :
    ∃ n p h', (∀ m, mallocLoop nunits sbrk (n + m) 0 h.freep (h.ptr h.freep) h = some (p, h')) ∧
      ((p = 0 ∧ sbrk 0 = none ∧ h' = h) ∨
        ∃ addr blocks', p = addr + 16 ∧ Laid base h' blocks' (⟨addr, nunits⟩ :: live) ∧
          (h'.core.map Block.units).sum ≤ limit) := by
  rcases laid.walk sbrk 0 filled with ⟨n, addr, h', blocks', taken, laid', core⟩ | ⟨low, n, q, ends⟩
  · exact ⟨n, addr + 16, h', taken, .inr ⟨addr, blocks', rfl, laid', core ▸ within⟩⟩
  have header : ¬ nunits ≤ h.size h.freep := by
    obtain ⟨b, member, place⟩ := List.mem_map.mp laid.entered
    rw [← place, laid.tiled.sizes b (List.mem_append_left live member)]
    exact not_le.mpr (low b member)
  cases answer : sbrk 0 with
  | none =>
    refine ⟨n, 0, h, fun m => ?_, .inl ⟨rfl, rfl, rfl⟩⟩
    rw [ends, mallocLoop, if_neg header, if_pos rfl]
    simp only [answer, morecore, if_true]
  | some a =>
    have fresh := fresh a answer
    have grown := laid.grow fresh (asked_pos nunits)
    have total : ((h.core ++ [Block.mk a (asked nunits)]).map Block.units).sum ≤ limit := by
      simpa using fresh.within
    obtain ⟨k, h₂, blocks₂, freed, laid₂, core₂, c, member, large⟩ :=
      free_laid grown ((length_cellsOf _).trans_lt (total.trans_lt small))
    rcases laid₂.walk sbrk 1 filled with ⟨j, addr, h', blocks', taken, laid', core⟩ | ⟨low₂, -⟩
    · have core' : (h'.core.map Block.units).sum ≤ limit := by
        rw [core, core₂]
        exact total
      refine ⟨n + (k + j), addr + 16, h', fun m => ?_, .inr ⟨addr, blocks', rfl, laid', core'⟩⟩
      have rounds : n + (k + j) + m = n + (k + (j + m)) := by omega
      have more : morecore (some a) (k + (j + m)) nunits h = some (h₂.freep, h₂) := by
        have freed := freed (j + m)
        unfold asked at freed
        simp only [morecore, freed]
      have live₂ : h₂.freep ≠ 0 := by
        obtain ⟨b, inside, place⟩ := List.mem_map.mp laid₂.entered
        rw [← place]
        rcases laid₂.tiled.sound b inside with rfl | sound
        · exact positive.ne'
        · have := sound.above
          omega
      rw [rounds, ends, mallocLoop, if_neg header, if_pos rfl, answer]
      simp only [more, if_neg live₂]
      rw [Nat.add_left_comm]
      exact taken (k + m)
    · have := low₂ c member
      have := le_asked nunits
      simp only at large
      omega

end Answers

end HaloOS.Umem
