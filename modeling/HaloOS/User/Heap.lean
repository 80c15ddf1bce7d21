import HaloOS.User.Malloc

/-! Runs of `malloc` and `free`. Every call finds the heap as the calls before left it, and between the
calls a program stores only inside of the memory that it was given. -/

namespace HaloOS.Umem

open Lib

variable {base limit n p x : ℕ} {h : Heap} {a b : Block} {blocks live live' : List Block}
  {sbrk : ℕ → Option ℕ}

/-- The heap and the blocks that `malloc` has returned and `free` has not taken back. -/
structure State where
  heap : Heap
  live : List Block := []

/-- The states that calls of `malloc` and of `free`, for a pointer that is live, lead to. `sbrk` hands out
at most `limit` units. -/
inductive Run (base limit : ℕ) : State → Prop
  | start {h : Heap} (empty : h.freep = 0) (nothing : h.core = []) : Run base limit ⟨h, []⟩
  | malloc {s : State} {sbrk : ℕ → Option ℕ} {n nbytes p : ℕ} {h : Heap} (run : Run base limit s)
      (fresh : ∀ a, sbrk 0 = some a → Fresh base limit s.heap (asked (unitsFor nbytes)) a)
      (ret : malloc base sbrk n nbytes s.heap = some (p, h)) :
      Run base limit ⟨h, if p = 0 then s.live else ⟨p - 16, unitsFor nbytes⟩ :: s.live⟩
  | free {s : State} {b : Block} {n : ℕ} {h : Heap} (run : Run base limit s) (held : b ∈ s.live)
      (ret : free n (b.addr + 16) s.heap = some h) : Run base limit ⟨h, s.live.erase b⟩
  | store {s : State} {ptr size : ℕ → ℕ} (run : Run base limit s)
      (inside : ∀ x, (∀ b ∈ s.live, x ≤ b.addr ∨ b.stop ≤ x) →
        ptr x = s.heap.ptr x ∧ size x = s.heap.size x) :
      Run base limit ⟨{ s.heap with ptr := ptr, size := size }, s.live⟩

/-- The free list is a circle through `base` and the free blocks, whose addresses ascend up to the link
back to `base`, and no free block touches the next one. -/
structure FreeList (base : ℕ) (h : Heap) (free : List Block) : Prop where
  circle : Chained h.ptr (base :: free.map Block.addr ++ [base])
  entered : h.freep ∈ base :: free.map Block.addr
  sizes : ∀ b ∈ free, h.size b.addr = b.units
  ascending : (base :: free.map Block.addr).Pairwise (· < ·)
  apart : free.Pairwise fun a b => a.stop < b.addr

/-- Free and live blocks are disjoint and cover the memory from `sbrk`; `malloc` returns 0, which it
does only if `sbrk` fails, or an aligned block of at least the given number of bytes outside of all
live blocks; `free` returns. -/
structure HeapRight (base limit : ℕ) (s : State) : Prop where
  list : ∃ free : List Block, (s.heap.freep = 0 ∧ free = [] ∨ FreeList base s.heap free) ∧
    (free ++ s.live).Pairwise (fun a b => a.stop ≤ b.addr ∨ b.stop ≤ a.addr) ∧
    ∀ x, (∃ b ∈ free ++ s.live, b.addr ≤ x ∧ x < b.stop) ↔ ∃ b ∈ s.heap.core, b.addr ≤ x ∧ x < b.stop
  malloc : ∀ (sbrk : ℕ → Option ℕ) nbytes,
    (∀ a, sbrk 0 = some a → Fresh base limit s.heap (asked (unitsFor nbytes)) a) →
    ∃ n p h, (∀ m, Umem.malloc base sbrk (n + m) nbytes s.heap = some (p, h)) ∧
      (p = 0 ∧ sbrk 0 = none ∨
        p ≠ 0 ∧ 16 ∣ p ∧ ∀ b ∈ s.live, p + nbytes ≤ b.addr ∨ b.stop ≤ p)
  free : ∀ b ∈ s.live, ∃ n h, ∀ m, Umem.free (n + m) (b.addr + 16) s.heap = some h

section Runs

theorem Laid.perm (laid : Laid base h blocks live) (same : live.Perm live') : Laid base h blocks live' := by
  have tiled := laid.tiled
  refine ⟨⟨tiled.head, ?_, tiled.sound, ?_, tiled.apart, ?_, tiled.once⟩, laid.circle, laid.entered⟩
  · exact fun b member => tiled.sizes b ((same.append_left blocks).mem_iff.mpr member)
  · exact fun b member => tiled.held b (same.mem_iff.mpr member)
  · exact ((same.append_left blocks).symm.flatMap_right Block.cells).trans tiled.tiles

/-- No header stands inside of a live block. -/
theorem Tiled.outside (tiled : Tiled base h blocks live) (member : a ∈ blocks ++ live) (held : b ∈ live) :
    a.addr ≤ b.addr ∨ b.stop ≤ a.addr := by
  have touching : a.stop ≤ b.addr ∨ b.stop ≤ a.addr → a.addr ≤ b.addr ∨ b.stop ≤ a.addr := by
    simp only [Block.stop]
    omega
  rcases List.mem_append.mp member with free | live
  · exact touching (tiled.across free held)
  · by_cases same : a = b
    · exact .inl (same ▸ le_refl _)
    · have symmetric : Std.Symm fun a b : Block => a.stop ≤ b.addr ∨ b.stop ≤ a.addr :=
        ⟨fun a b apart => apart.symm⟩
      exact touching (tiled.live_apart.forall live held same)

/-- A program that stores inside of its blocks leaves the free list as it is. -/
theorem Laid.store {ptr size : ℕ → ℕ} (laid : Laid base h blocks live)
    (inside : ∀ x, (∀ b ∈ live, x ≤ b.addr ∨ b.stop ≤ x) → ptr x = h.ptr x ∧ size x = h.size x) :
    Laid base { h with ptr := ptr, size := size } blocks live := by
  have tiled := laid.tiled
  have kept : ∀ a ∈ blocks ++ live, ptr a.addr = h.ptr a.addr ∧ size a.addr = h.size a.addr :=
    fun a member => inside a.addr fun b held => tiled.outside member held
  refine ⟨⟨tiled.head, ?_, tiled.sound, tiled.held, tiled.apart, tiled.tiles, tiled.once⟩, ?_, laid.entered⟩
  · exact fun a member => (kept a member).2.trans (tiled.sizes a member)
  · refine laid.circle.congr fun x member => ?_
    obtain ⟨a, free, rfl⟩ := List.mem_map.mp member
    exact (kept a (List.mem_append_left live free)).1

/-- What every call finds: nothing yet, or the blocks in their places. -/
structure Steady (base limit : ℕ) (s : State) : Prop where
  laid : (s.heap.freep = 0 ∧ s.heap.core = [] ∧ s.live = []) ∨ ∃ blocks, Laid base s.heap blocks s.live
  within : (s.heap.core.map Block.units).sum ≤ limit

theorem Laid.freep_ne (laid : Laid base h blocks live) (positive : 0 < base) : h.freep ≠ 0 := by
  obtain ⟨b, inside, place⟩ := List.mem_map.mp laid.entered
  rw [← place]
  rcases laid.tiled.sound b inside with rfl | sound
  · exact positive.ne'
  · have := sound.above
    omega

theorem initFree_core : (initFree base h).core = h.core := by
  unfold initFree
  split <;> rfl

/-- The first call of `malloc` makes the circle of `base` alone. -/
theorem Steady.initFree {s : State} (steady : Steady base limit s) (positive : 0 < base) :
    ∃ blocks, Laid base (Umem.initFree base s.heap) blocks s.live := by
  rcases steady.laid with ⟨empty, nothing, idle⟩ | ⟨blocks, laid⟩
  · rw [Umem.initFree, if_pos empty, idle]
    refine ⟨[⟨base, 0⟩], ⟨rfl, ?_, by simp, by simp, List.pairwise_singleton .., ?_, ?_⟩, ?_, by simp⟩
    · simp
    · simp [nothing, cellsOf, Block.cells]
    · simp [nothing, cellsOf]
    · exact chained_cons.mpr ⟨Function.update_self .., List.IsChain.singleton base⟩
  · rw [Umem.initFree, if_neg (laid.freep_ne positive)]
    exact ⟨blocks, laid⟩

theorem unitsFor_pos (nbytes : ℕ) : 0 < unitsFor nbytes := Nat.succ_pos _

theorem bytes_le_units (nbytes : ℕ) : nbytes + 16 ≤ 16 * unitsFor nbytes := by
  unfold unitsFor
  omega

/-- `malloc` from a state of a run. -/
theorem Steady.malloc {s : State} {nbytes : ℕ} (steady : Steady base limit s) (positive : 0 < base)
    (small : limit < 2 ^ 32)
    (fresh : ∀ a, sbrk 0 = some a → Fresh base limit s.heap (asked (unitsFor nbytes)) a) :
    ∃ n p h, (∀ m, Umem.malloc base sbrk (n + m) nbytes s.heap = some (p, h)) ∧
      ((p = 0 ∧ sbrk 0 = none ∧ ∃ blocks, Laid base h blocks s.live) ∨
        ∃ addr blocks, p = addr + 16 ∧ Laid base h blocks (⟨addr, unitsFor nbytes⟩ :: s.live)) ∧
      (h.core.map Block.units).sum ≤ limit := by
  obtain ⟨blocks, laid⟩ := steady.initFree positive
  have core : (Umem.initFree base s.heap).core = s.heap.core := initFree_core
  have within : ((Umem.initFree base s.heap).core.map Block.units).sum ≤ limit := by
    rw [core]
    exact steady.within
  have fresh : ∀ a, sbrk 0 = some a → Fresh base limit (Umem.initFree base s.heap) (asked (unitsFor nbytes)) a := by
    intro a answer
    have fresh := fresh a answer
    exact ⟨fresh.aligned, fresh.above, core.symm ▸ fresh.fresh, fresh.positive,
      core.symm ▸ fresh.within⟩
  obtain ⟨n, p, h, returns, result⟩ :=
    mallocLoop_laid laid positive (unitsFor_pos nbytes) small within fresh
  refine ⟨n, p, h, returns, ?_⟩
  rcases result with ⟨zero, failed, rfl⟩ | ⟨addr, blocks', place, laid', total⟩
  · exact ⟨.inl ⟨zero, failed, blocks, laid⟩, within⟩
  · exact ⟨.inr ⟨addr, blocks', place, laid'⟩, total⟩

theorem Steady.free {s : State} (steady : Steady base limit s) (small : limit < 2 ^ 32) (held : b ∈ s.live) :
    ∃ n h blocks, (∀ m, Umem.free (n + m) (b.addr + 16) s.heap = some h) ∧
      Laid base h blocks (s.live.erase b) ∧ h.core = s.heap.core := by
  rcases steady.laid with ⟨-, -, idle⟩ | ⟨blocks, laid⟩
  · simp [idle] at held
  · have laid := laid.perm (List.perm_cons_erase held)
    obtain ⟨n, h, blocks', returns, laid', core, -⟩ :=
      free_laid laid ((length_cellsOf _).trans_lt (steady.within.trans_lt small))
    exact ⟨n, h, blocks', returns, laid', core⟩

theorem Run.steady {s : State} (run : Run base limit s) (positive : 0 < base) (small : limit < 2 ^ 32) :
    Steady base limit s := by
  induction run with
  | start empty nothing => exact ⟨.inl ⟨empty, nothing, rfl⟩, by simp [nothing]⟩
  | @malloc s sbrk n nbytes p h run fresh ret ih =>
    obtain ⟨m, q, h', returns, result, total⟩ := ih.malloc positive small fresh
    have same : (p, h) = (q, h') := by
      have more := mallocLoop_more ret m
      rw [Nat.add_comm] at more
      exact Option.some.inj (more.symm.trans (returns n))
    obtain ⟨rfl, rfl⟩ := Prod.mk.inj same
    refine ⟨.inr ?_, total⟩
    rcases result with ⟨rfl, -, blocks, laid⟩ | ⟨addr, blocks, rfl, laid⟩
    · exact ⟨blocks, laid⟩
    · exact ⟨blocks, laid⟩
  | @free s b n h run held ret ih =>
    obtain ⟨m, h', blocks, returns, laid, core⟩ := ih.free small held
    have same : h = h' := by
      have more := free_more ret m
      rw [Nat.add_comm] at more
      exact Option.some.inj (more.symm.trans (returns n))
    subst same
    exact ⟨.inr ⟨blocks, laid⟩, core ▸ ih.within⟩
  | @store s ptr size run inside ih =>
    refine ⟨?_, ih.within⟩
    rcases ih.laid with ⟨empty, nothing, idle⟩ | ⟨blocks, laid⟩
    · exact .inl ⟨empty, nothing, idle⟩
    · exact .inr ⟨blocks, laid.store inside⟩

/-- Bytes of a block are bytes of its units. -/
theorem Block.mem_bytes : b.addr ≤ x ∧ x < b.stop ↔ ∃ c ∈ b.cells, c ≤ x ∧ x < c + 16 := by
  constructor
  · rintro ⟨low, high⟩
    simp only [Block.stop] at high
    exact ⟨b.addr + 16 * ((x - b.addr) / 16), Block.mem_cells.mpr ⟨_, by omega, rfl⟩, by omega, by omega⟩
  · rintro ⟨c, cell, low, high⟩
    obtain ⟨k, less, rfl⟩ := Block.mem_cells.mp cell
    simp only [Block.stop]
    omega

theorem mem_bytesOf : (∃ b ∈ blocks, b.addr ≤ x ∧ x < b.stop) ↔
    ∃ c ∈ cellsOf blocks, c ≤ x ∧ x < c + 16 := by
  simp only [Block.mem_bytes, cellsOf, List.mem_flatMap]
  constructor
  · rintro ⟨b, member, c, cell, inside⟩
    exact ⟨c, ⟨b, member, cell⟩, inside⟩
  · rintro ⟨c, ⟨b, member, cell⟩, inside⟩
    exact ⟨b, member, c, cell, inside⟩

/-- The free list of a heap in its places. -/
theorem Laid.freeList (laid : Laid base h blocks live) :
    ∃ free : List Block, FreeList base h free ∧
      (free ++ live).Pairwise (fun a b => a.stop ≤ b.addr ∨ b.stop ≤ a.addr) ∧
      ∀ x, (∃ b ∈ free ++ live, b.addr ≤ x ∧ x < b.stop) ↔ ∃ b ∈ h.core, b.addr ≤ x ∧ x < b.stop := by
  have tiled := laid.tiled
  obtain ⟨free, rfl⟩ := List.head?_eq_some_iff.mp tiled.head
  have apart := (List.pairwise_cons.mp tiled.apart).2
  refine ⟨free, ⟨laid.circle, laid.entered, ?_, tiled.ascending, apart⟩, ?_, ?_⟩
  · exact fun b member => tiled.sizes b (List.mem_append_left live (List.mem_cons_of_mem _ member))
  · refine List.pairwise_append.mpr ⟨apart.imp fun less => .inl less.le, tiled.live_apart, ?_⟩
    exact fun a member b held => tiled.across (List.mem_cons_of_mem _ member) held
  · intro x
    have perm : (cellsOf (free ++ live)).Perm (cellsOf h.core) := tiled.tiles
    rw [mem_bytesOf, mem_bytesOf]
    simp only [perm.mem_iff]

theorem heap_right {s : State} (positive : 0 < base) (small : limit < 2 ^ 32) (run : Run base limit s) :
    HeapRight base limit s := by
  have steady := run.steady positive small
  refine ⟨?_, ?_, ?_⟩
  · rcases steady.laid with ⟨empty, nothing, idle⟩ | ⟨blocks, laid⟩
    · exact ⟨[], .inl ⟨empty, rfl⟩, by simp [idle], by simp [nothing, idle]⟩
    · obtain ⟨free, list, apart, cover⟩ := laid.freeList
      exact ⟨free, .inr list, apart, cover⟩
  · intro sbrk nbytes fresh
    obtain ⟨n, p, h, returns, result, -⟩ := steady.malloc positive small fresh
    refine ⟨n, p, h, returns, ?_⟩
    rcases result with ⟨zero, failed, -⟩ | ⟨addr, blocks, rfl, laid⟩
    · exact .inl ⟨zero, failed⟩
    · have sound := laid.tiled.held _ List.mem_cons_self
      have others := (List.pairwise_cons.mp laid.tiled.live_apart).1
      have bytes := bytes_le_units nbytes
      refine .inr ⟨by omega, ?_, fun b member => ?_⟩
      · exact Nat.dvd_add sound.aligned (Nat.dvd_refl 16)
      · have apart := others b member
        simp only [Block.stop] at apart ⊢
        omega
  · intro b held
    obtain ⟨n, h, blocks, returns, -⟩ := steady.free small held
    exact ⟨n, h, returns⟩

end Runs

section Exec

/-- A call, with the rounds that its loops may take; one call of `malloc` gets one answer of `sbrk`. -/
inductive Call
  | malloc (answer : Option ℕ) (n nbytes : ℕ)
  | free (n : ℕ) (b : Block)

instance {nu addr : ℕ} : Decidable (Fresh base limit h nu addr) :=
  decidable_of_iff (16 ∣ addr ∧ base + 16 ≤ addr ∧ (∀ b ∈ h.core, b.stop ≤ addr) ∧ 16 * nu < 2 ^ 31 ∧
      (h.core.map Block.units).sum + nu ≤ limit)
    ⟨fun ⟨aligned, above, fresh, positive, within⟩ => ⟨aligned, above, fresh, positive, within⟩,
      fun fresh => ⟨fresh.aligned, fresh.above, fresh.fresh, fresh.positive, fresh.within⟩⟩

/-- One call, where the run allows it. -/
def State.call (base limit : ℕ) (s : State) : Call → Option State
  | .malloc answer n nbytes =>
    if ∀ a ∈ answer, Fresh base limit s.heap (asked (unitsFor nbytes)) a then
      match malloc base (fun _ => answer) n nbytes s.heap with
      | none => none
      | some (p, h) => some ⟨h, if p = 0 then s.live else ⟨p - 16, unitsFor nbytes⟩ :: s.live⟩
    else none
  | .free n b =>
    if b ∈ s.live then
      match free n (b.addr + 16) s.heap with
      | none => none
      | some h => some ⟨h, s.live.erase b⟩
    else none

/-- The state after all calls of a list. -/
def State.calls (base limit : ℕ) (s : State) (calls : List Call) : Option State :=
  calls.foldlM (State.call base limit) s

theorem Run.call {s t : State} {call : Call} (run : Run base limit s)
    (done : s.call base limit call = some t) : Run base limit t := by
  cases call with
  | malloc answer n nbytes =>
    simp only [State.call] at done
    split at done
    · split at done
      · cases done
      · obtain rfl := Option.some.inj done
        exact @Run.malloc base limit s (fun _ => answer) n nbytes _ _ run ‹_› ‹_›
    · cases done
  | free n b =>
    simp only [State.call] at done
    split at done
    · split at done
      · cases done
      · obtain rfl := Option.some.inj done
        exact .free run ‹_› ‹_›
    · cases done

theorem Run.calls {s t : State} {calls : List Call} (run : Run base limit s)
    (done : s.calls base limit calls = some t) : Run base limit t := by
  induction calls generalizing s with
  | nil =>
    obtain rfl := Option.some.inj done
    exact run
  | cons call calls ih =>
    obtain ⟨u, first, rest⟩ := Option.bind_eq_some_iff.mp done
    exact ih (run.call first) rest

/-- The heap of a program that has not called `malloc`. -/
def State.fresh : State where
  heap := { ptr := fun _ => 0, size := fun _ => 0 }

theorem Run.fresh : Run base limit State.fresh := .start rfl rfl

/-- The lower one of two blocks is freed, and `malloc` then does without `sbrk`. -/
theorem heap_right_reused : ∃ s : State, s.live = [⟨131936, 2⟩, ⟨131968, 8⟩] ∧ HeapRight 512 8192 s := by
  have evaluated : (State.fresh.calls 512 8192
      [.malloc (some 1024) 9 65520, .malloc (some 66560) 9 100, .free 9 ⟨1024, 4096⟩,
        .malloc none 9 10]).any (fun s => s.live = [⟨131936, 2⟩, ⟨131968, 8⟩]) = true := by
    decide +kernel
  obtain ⟨s, ran, live⟩ := (Option.any_eq_true _ _).mp evaluated
  exact ⟨s, of_decide_eq_true live, heap_right (by decide) (by decide) (Run.fresh.calls ran)⟩

/-- The units of a block for the largest byte count that `sbrk` takes. -/
def mostUnits : ℕ := 2 ^ 27 - 1

/-- 33 blocks that touch are taken, then freed from the lowest one on. Their units do not fit `s.size`,
and the free list loses most of them. -/
theorem heap_right_wraps : ¬ ∀ base limit (s : State), 0 < base → Run base limit s → HeapRight base limit s := by
  intro right
  have evaluated : (State.fresh.calls 512 (2 ^ 33)
      ((List.range 33).map (fun i => .malloc (some (1024 + i * (16 * mostUnits))) 9 (16 * (mostUnits - 1))) ++
        (List.range 33).map fun i => .free 9 ⟨1024 + i * (16 * mostUnits), mostUnits⟩)).any
      (fun s => s.live = [] ∧ s.heap.freep = 1024 ∧ s.heap.ptr 512 = 1024 ∧ s.heap.ptr 1024 = 512 ∧
        s.heap.size 1024 = 2 ^ 27 - 33 ∧ ⟨1024 + 32 * (16 * mostUnits), mostUnits⟩ ∈ s.heap.core) = true := by
    decide +kernel
  obtain ⟨s, ran, facts⟩ := (Option.any_eq_true _ _).mp evaluated
  obtain ⟨live, freep, first, back, size, last⟩ := of_decide_eq_true facts
  obtain ⟨free, list, -, cover⟩ := (right 512 (2 ^ 33) s (by decide) (Run.fresh.calls ran)).list
  have list : FreeList 512 s.heap free := by
    rcases list with ⟨empty, -⟩ | list
    · rw [freep] at empty
      cases empty
    · exact list
  obtain ⟨b, member, low, high⟩ :=
    (cover (1024 + 32 * (16 * mostUnits))).mpr ⟨_, last, le_refl _, by decide⟩
  rw [live, List.append_nil] at member
  -- the circle has one block
  have alone : b.addr = 1024 := by
    have circle := list.circle
    have ascending := list.ascending
    cases free with
    | nil => simp at member
    | cons c free =>
      obtain ⟨link, circle⟩ := chained_cons.mp circle
      have place : c.addr = 1024 := link.symm.trans first
      cases free with
      | nil =>
        rw [List.mem_singleton.mp member]
        exact place
      | cons d free =>
        obtain ⟨link, -⟩ := chained_cons.mp circle
        have around : d.addr = 512 := by rw [← link, place, back]
        have above := (List.pairwise_cons.mp ascending).1 d.addr (by simp)
        omega
  have units := list.sizes b member
  rw [alone, size] at units
  simp only [Block.stop, alone, ← units, mostUnits] at high
  omega

end Exec

end HaloOS.Umem
