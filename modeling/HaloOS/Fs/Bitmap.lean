import HaloOS.Bcache.Contents
import HaloOS.Lib.Trace
import Mathlib.Data.Set.Insert
import Mathlib.Tactic.IntervalCases

/-! Block allocation: `balloc` and `bfree` over the bitmap blocks as the buffer
cache presents them. Neither function calls `bwrite`, so a bit lives in the cached
copy until the buffer is recycled. -/

namespace HaloOS

open Lib

/-- `bp->data[bi/8] & (1 << (bi % 8))`. -/
def bitSet (data : Block) (bi : ℕ) : Bool :=
  data (bi / 8) &&& (1#8 <<< (bi % 8)) != 0#8

/-- `bp->data[bi/8] |= 1 << (bi % 8)`. -/
def setBit (data : Block) (bi : ℕ) : Block :=
  Function.update data (bi / 8) (data (bi / 8) ||| (1#8 <<< (bi % 8)))

/-- `bp->data[bi/8] &= ~(1 << (bi % 8))`. -/
def clearBit (data : Block) (bi : ℕ) : Block :=
  Function.update data (bi / 8) (data (bi / 8) &&& ~~~(1#8 <<< (bi % 8)))

theorem bitSet_eq (data : Block) (bi : ℕ) :
    bitSet data bi = (data (bi / 8)).getLsbD (bi % 8) := by
  have mask : ∀ (b : BitVec 8) (k : Fin 8),
      (b &&& (1#8 <<< k.val) != 0#8) = b.getLsbD k.val := by decide
  exact mask (data (bi / 8)) ⟨bi % 8, Nat.mod_lt _ (by decide)⟩

private theorem mask_bit {k j : ℕ} (small : k < 8) :
    (1#8 <<< k).getLsbD j = decide (j = k) := by
  rw [BitVec.getLsbD_shiftLeft, BitVec.getLsbD_one]
  by_cases same : j = k
  · subst same
    simp [small]
  · by_cases below : j < k
    · simp [below, same]
    · have apart : j - k ≠ 0 := by omega
      simp [apart, same]

theorem bitSet_setBit (data : Block) (bi k : ℕ) :
    bitSet (setBit data bi) k = (decide (k = bi) || bitSet data k) := by
  rw [bitSet_eq, bitSet_eq]
  unfold setBit
  have small : bi % 8 < 8 := Nat.mod_lt _ (by decide)
  by_cases byte : k / 8 = bi / 8
  · rw [byte, Function.update_self, BitVec.getLsbD_or, mask_bit small]
    have here : (k % 8 = bi % 8) ↔ k = bi := by omega
    simp only [here]
    exact Bool.or_comm _ _
  · have away : k ≠ bi := fun same => byte (by rw [same])
    rw [Function.update_of_ne byte]
    simp [away]

theorem bitSet_clearBit (data : Block) (bi k : ℕ) :
    bitSet (clearBit data bi) k = (!decide (k = bi) && bitSet data k) := by
  rw [bitSet_eq, bitSet_eq]
  unfold clearBit
  have small : bi % 8 < 8 := Nat.mod_lt _ (by decide)
  by_cases byte : k / 8 = bi / 8
  · have inside : k % 8 < 8 := Nat.mod_lt _ (by decide)
    rw [byte, Function.update_self, BitVec.getLsbD_and, BitVec.getLsbD_not, mask_bit small]
    have here : (k % 8 = bi % 8) ↔ k = bi := by omega
    simp only [here, inside, decide_true, Bool.true_and]
    exact Bool.and_comm _ _
  · have away : k ≠ bi := fun same => byte (by rw [same])
    rw [Function.update_of_ne byte]
    simp [away]

/-- The inner loop of `balloc`: the first clear bit from `bi` on whose block number
`b + bi` is still below `size`. -/
def ballocBit (size b : ℕ) (data : Block) : ℕ → ℕ → Option ℕ
  | 0, _ => none
  | fuel + 1, bi =>
    if b + bi < size then
      if bitSet data bi = false then some bi else ballocBit size b data fuel (bi + 1)
    else none

/-- The outer loop of `balloc`, from the bitmap block that starts at block `b`. -/
def ballocFrom (me dev : ℕ) (sb : Superblock) : ℕ → ℕ → Bio ℕ
  | 0, _ => throw (.panic "balloc panic...\n")
  | fuel + 1, b =>
    if b < sb.size then do
      let bp ← bread me dev (BBLOCK b sb)
      let data ← bufData bp
      match ballocBit sb.size b data BPB 0 with
      | some bi => do
        setData bp (setBit data bi)
        brelease me bp
        pure (b + bi)
      | none => do
        brelease me bp
        ballocFrom me dev sb fuel (b + BPB)
    else throw (.panic "balloc panic...\n")

def balloc (me dev : ℕ) (sb : Superblock) : Bio ℕ :=
  ballocFrom me dev sb (sb.size / BPB + 1) 0

def bfree (me dev : ℕ) (sb : Superblock) (b : ℕ) : Bio Unit := do
  let bp ← bread me dev (BBLOCK b sb)
  let data ← bufData bp
  stopIf (bitSet data (b % BPB) = false) (.panic "freeing free block")
  setData bp (clearBit data (b % BPB))
  brelease me bp

/-- A returned bit is clear, in range, and the first such. -/
theorem ballocBit_some {size b : ℕ} {data : Block} {fuel bi r : ℕ}
    (found : ballocBit size b data fuel bi = some r) :
    bi ≤ r ∧ r < bi + fuel ∧ b + r < size ∧ bitSet data r = false ∧
      ∀ k, bi ≤ k → k < r → bitSet data k = true := by
  induction fuel generalizing bi with
  | zero => simp [ballocBit] at found
  | succ fuel ih =>
    unfold ballocBit at found
    by_cases inside : b + bi < size
    · by_cases clear : bitSet data bi = false
      · simp only [inside, clear, ↓reduceIte, Option.some.injEq] at found
        subst found
        exact ⟨le_refl _, by omega, inside, clear, fun k low high => absurd high (by omega)⟩
      · simp only [inside, clear, ↓reduceIte] at found
        obtain ⟨low, high, bound, bit, first⟩ := ih found
        refine ⟨by omega, by omega, bound, bit, ?_⟩
        intro k start stop
        by_cases here : k = bi
        · subst here
          simpa using clear
        · exact first k (by omega) stop
    · simp [inside] at found

section Safety

/-- The bit of block `b` as the cache presents it. -/
def bitOf (sb : Superblock) (c : Bcache) (b : ℕ) : Bool :=
  bitSet (c.block ROOTDEV (BBLOCK b sb)) (b % BPB)

/-- Serving this `bread` throws away no set bit: if it recycles a valid buffer of a
bitmap block, every bit set in that buffer is also set on disk. -/
def KeepsBits (sb : Superblock) (c : Bcache) (dev n : ℕ) : Prop :=
  ∀ i b, c.recycled dev n = some i → (c.bufs i).dev = ROOTDEV →
    (c.bufs i).blockno = BBLOCK b sb → (c.bufs i).vaild = true →
    bitSet (c.bufs i).data (b % BPB) = true →
    bitSet (c.disk (BBLOCK b sb)) (b % BPB) = true

/-- Every `bread` that `balloc` makes on its way keeps the set bits. -/
def BallocKeepsBits (me : ℕ) (sb : Superblock) : ℕ → ℕ → Bcache → Prop
  | 0, _, _ => True
  | fuel + 1, b, c =>
    KeepsBits sb c ROOTDEV (BBLOCK b sb) ∧
    ∀ bp c₁ c₂ u, bread me ROOTDEV (BBLOCK b sb) c = .ok (bp, c₁) →
      ballocBit sb.size b (c₁.bufs bp).data BPB 0 = none →
      brelease me bp c₁ = .ok (u, c₂) → BallocKeepsBits me sb fuel (b + BPB) c₂

/-- A call of the run, with its arguments and result. -/
inductive BitmapEvent where
  | balloc (me b : ℕ)
  | bfree (me b : ℕ)
  | bread (me dev n : ℕ)
  | brelease (me : ℕ) (i : Fin NBUF)

/-- One returning call on the cache. -/
def BitmapStep (sb : Superblock) (c : Bcache) : BitmapEvent → Bcache → Prop
  | .balloc me b, c' => balloc me ROOTDEV sb c = .ok (b, c')
  | .bfree me b, c' => bfree me ROOTDEV sb b c = .ok ((), c')
  | .bread me dev n, c' => ∃ i, bread me dev n c = .ok (i, c')
  | .brelease me i, c' => brelease me i c = .ok ((), c')

/-- No `bread` of the call recycles a bitmap buffer with a bit the disk lacks. -/
def StepKeepsBits (sb : Superblock) (c : Bcache) : BitmapEvent → Prop
  | .balloc me _ => BallocKeepsBits me sb (sb.size / BPB + 1) 0 c
  | .bfree _ b => KeepsBits sb c ROOTDEV (BBLOCK b sb)
  | .bread _ dev n => KeepsBits sb c dev n
  | .brelease _ _ => True

/-- The blocks in use after a history: set in the initial bitmap or returned by
`balloc`, and not freed since. -/
def inUse (initial : Set ℕ) (past : List BitmapEvent) : Set ℕ :=
  past.foldl (fun used event => match event with
    | .balloc _ b => insert b used
    | .bfree _ b => used \ {b}
    | .bread _ _ _ => used
    | .brelease _ _ => used) initial

/-- The blocks whose bit is set in the bitmap on disk. -/
def diskUsed (sb : Superblock) (disk : ℕ → Block) : Set ℕ :=
  { b | bitSet (disk (BBLOCK b sb)) (b % BPB) = true }

/-- Every block of `used` has its bit set as the cache presents it. -/
def Marked (sb : Superblock) (used : Set ℕ) (c : Bcache) : Prop :=
  c.Wf ∧ ∀ b ∈ used, bitOf sb c b = true

variable {sb : Superblock} {used : Set ℕ} {c c' : Bcache} {me : ℕ}

theorem marked_bread {dev n : ℕ} {i : Fin NBUF} (marked : Marked sb used c)
    (kept : KeepsBits sb c dev n) (returned : bread me dev n c = .ok (i, c')) :
    Marked sb used c' := by
  obtain ⟨wf, bits⟩ := marked
  refine ⟨wf_bread wf returned, ?_⟩
  intro b member
  have before := bits b member
  unfold bitOf at before ⊢
  rcases block_bread wf returned (d := ROOTDEV) (by decide) (BBLOCK b sb) with
    same | ⟨chosen, dev_eq, n_eq, vaild, fallen⟩
  · rwa [same]
  · rw [fallen]
    have cached := wf.block_of_tag (i := i) (by rw [dev_eq]; decide)
    rw [dev_eq, n_eq, if_pos vaild] at cached
    exact kept i b chosen dev_eq n_eq vaild (by rwa [← cached])

theorem marked_brelease {i : Fin NBUF} {u : Unit} (marked : Marked sb used c)
    (returned : brelease me i c = .ok (u, c')) : Marked sb used c' := by
  obtain ⟨wf, bits⟩ := marked
  refine ⟨wf_brelease wf returned, ?_⟩
  intro b member
  unfold bitOf
  rw [block_brelease wf returned (by decide)]
  exact bits b member

/-- After `bread` the buffer holds the block and its bits. -/
private theorem bitOf_loaded {n : ℕ} {bp : Fin NBUF}
    (wf : c.Wf) (returned : bread me ROOTDEV n c = .ok (bp, c')) {b : ℕ}
    (here : BBLOCK b sb = n) : bitOf sb c' b = bitSet (c'.bufs bp).data (b % BPB) := by
  have wf' := wf_bread wf returned
  obtain ⟨refs, rfl, _, _⟩ := bread_ok returned
  have cached := wf'.block_of_tag (i := bp)
    (by simp [Bcache.setBuf, loaded, ROOTDEV])
  unfold bitOf
  rw [here]
  simp only [Bcache.setBuf, loaded, Function.update_self, ↓reduceIte] at cached ⊢
  rw [cached]

private theorem loaded_tag {n : ℕ} {bp : Fin NBUF}
    (returned : bread me ROOTDEV n c = .ok (bp, c')) :
    (c'.bufs bp).vaild = true ∧ (c'.bufs bp).dev = ROOTDEV ∧
      (c'.bufs bp).blockno = n := by
  obtain ⟨refs, rfl, _, _⟩ := bread_ok returned
  simp [Bcache.setBuf, loaded]

theorem BBLOCK_add (sb : Superblock) {b bi : ℕ} (aligned : BPB ∣ b) (inside : bi < BPB) :
    BBLOCK (b + bi) sb = BBLOCK b sb := by
  obtain ⟨k, rfl⟩ := aligned
  unfold BBLOCK
  rw [Nat.mul_add_div (by decide), Nat.div_eq_of_lt inside,
    Nat.mul_div_cancel_left _ (by decide)]
  rfl

theorem mod_BPB_add {b bi : ℕ} (aligned : BPB ∣ b) (inside : bi < BPB) :
    (b + bi) % BPB = bi := by
  obtain ⟨k, rfl⟩ := aligned
  rw [Nat.mul_add_mod, Nat.mod_eq_of_lt inside]

theorem eq_of_bit {a b : ℕ} (block : BBLOCK a sb = BBLOCK b sb)
    (bit : a % BPB = b % BPB) : a = b := by
  unfold BBLOCK at block
  have quotient : a / BPB = b / BPB := by omega
  calc a = BPB * (a / BPB) + a % BPB := (Nat.div_add_mod a BPB).symm
    _ = BPB * (b / BPB) + b % BPB := by rw [quotient, bit]
    _ = b := Nat.div_add_mod b BPB

/-- What a store of one changed bit does to every bit the cache presents. -/
private theorem bitOf_setData (wf : c.Wf) {bp : Fin NBUF} {b : ℕ}
    (vaild : (c.bufs bp).vaild = true) (dev : (c.bufs bp).dev = ROOTDEV)
    (blockno : (c.bufs bp).blockno = BBLOCK b sb) (data : Block) (a : ℕ) :
    bitOf sb (c.setBuf bp ({ · with data })) a =
      if BBLOCK a sb = BBLOCK b sb then bitSet data (a % BPB) else bitOf sb c a := by
  unfold bitOf
  rw [block_setData wf vaild data (by decide), dev, blockno]
  by_cases here : BBLOCK a sb = BBLOCK b sb
  · simp [here]
  · simp [here, Ne.symm here]

/-- A returned block was not in use, and is marked from then on. -/
theorem marked_ballocFrom {fuel b r : ℕ} (aligned : BPB ∣ b) (marked : Marked sb used c)
    (kept : BallocKeepsBits me sb fuel b c)
    (returned : ballocFrom me ROOTDEV sb fuel b c = .ok (r, c')) :
    r ∉ used ∧ Marked sb (insert r used) c' := by
  induction fuel generalizing b c with
  | zero => simp [ballocFrom] at returned
  | succ fuel ih =>
    unfold ballocFrom at returned
    by_cases inside : b < sb.size
    swap
    · simp [inside] at returned
    simp only [inside, ↓reduceIte] at returned
    rw [bind_ok] at returned
    obtain ⟨bp, c₁, read, rest⟩ := returned
    rw [bind_ok] at rest
    obtain ⟨data, c₂, got, rest⟩ := rest
    obtain ⟨rfl, rfl⟩ := gets_ok.mp got
    have marked₁ := marked_bread marked kept.1 read
    obtain ⟨vaild, dev, blockno⟩ := loaded_tag read
    cases found : ballocBit sb.size b (c₁.bufs bp).data BPB 0 with
    | none =>
      simp only [found] at rest
      rw [bind_ok] at rest
      obtain ⟨_, c₃, released, rest⟩ := rest
      exact ih (Nat.dvd_add aligned (dvd_refl _)) (marked_brelease marked₁ released)
        (kept.2 bp c₁ c₃ _ read found released) rest
    | some bi =>
      simp only [found] at rest
      rw [bind_ok] at rest
      obtain ⟨_, c₃, stored, rest⟩ := rest
      obtain rfl := update_ok.mp stored
      rw [bind_ok] at rest
      obtain ⟨_, c₄, released, rest⟩ := rest
      obtain ⟨rfl, rfl⟩ := pure_ok.mp rest
      obtain ⟨_, small, _, clear, _⟩ := ballocBit_some found
      have block := BBLOCK_add sb aligned (by omega : bi < BPB)
      have bit := mod_BPB_add aligned (by omega : bi < BPB)
      constructor
      · intro member
        have set := marked₁.2 _ member
        rw [bitOf_loaded marked.1 read block, bit, clear] at set
        cases set
      · refine marked_brelease ⟨wf_setData marked₁.1 bp _, ?_⟩ released
        intro a member
        rw [bitOf_setData marked₁.1 vaild dev blockno]
        split
        · rename_i same
          rw [bitSet_setBit]
          rcases member with rfl | old
          · simp [bit]
          · have set := marked₁.2 a old
            rw [bitOf_loaded marked.1 read same] at set
            simp [set]
        · rename_i away
          rcases member with rfl | old
          · exact absurd block away
          · exact marked₁.2 a old

/-- `bfree` unmarks the block it names and no other. -/
theorem marked_bfree {b : ℕ} {u : Unit} (marked : Marked sb used c)
    (kept : KeepsBits sb c ROOTDEV (BBLOCK b sb))
    (returned : bfree me ROOTDEV sb b c = .ok (u, c')) : Marked sb (used \ {b}) c' := by
  rw [bfree, bind_ok] at returned
  obtain ⟨bp, c₁, read, rest⟩ := returned
  rw [bind_ok] at rest
  obtain ⟨data, c₂, got, rest⟩ := rest
  obtain ⟨rfl, rfl⟩ := gets_ok.mp got
  rw [bind_ok] at rest
  obtain ⟨_, _, checked, rest⟩ := rest
  obtain ⟨_, rfl⟩ := stopIf_ok.mp checked
  rw [bind_ok] at rest
  obtain ⟨_, c₃, stored, released⟩ := rest
  obtain rfl := update_ok.mp stored
  have marked₁ := marked_bread marked kept read
  obtain ⟨vaild, dev, blockno⟩ := loaded_tag read
  refine marked_brelease ⟨wf_setData marked₁.1 bp _, ?_⟩ released
  intro a ⟨old, other⟩
  rw [bitOf_setData marked₁.1 vaild dev blockno]
  have set := marked₁.2 a old
  split
  · rename_i same
    rw [bitOf_loaded marked.1 read same] at set
    have apart : a % BPB ≠ b % BPB := fun bit => other (eq_of_bit same bit)
    rw [bitSet_clearBit]
    simp [apart, set]
  · exact set

/-- The step lemma: a call that keeps the set bits keeps every block in use marked,
and a `balloc` returns a block that is not in use. -/
theorem marked_step {initial : Set ℕ} {past : List BitmapEvent} {event : BitmapEvent}
    (marked : Marked sb (inUse initial past) c) (kept : StepKeepsBits sb c event)
    (step : BitmapStep sb c event c') :
    Marked sb (inUse initial (past ++ [event])) c' ∧
      ∀ me b, event = .balloc me b → b ∉ inUse initial past := by
  unfold inUse at marked ⊢
  rw [List.foldl_append]
  cases event with
  | balloc me b =>
    obtain ⟨fresh, after⟩ := marked_ballocFrom (dvd_zero _) marked kept step
    refine ⟨after, ?_⟩
    rintro _ _ ⟨⟩
    exact fresh
  | bfree me b => exact ⟨marked_bfree marked kept step, fun _ _ other => by cases other⟩
  | bread me dev n =>
    obtain ⟨i, returned⟩ := step
    exact ⟨marked_bread marked kept returned, fun _ _ other => by cases other⟩
  | brelease me i => exact ⟨marked_brelease marked step, fun _ _ other => by cases other⟩

theorem marked_initBcache (sb : Superblock) (disk : ℕ → Block) :
    Marked sb (diskUsed sb disk) (initBcache disk) := by
  refine ⟨wf_initBcache disk, ?_⟩
  intro b member
  unfold bitOf
  rw [block_initBcache disk (by decide)]
  exact member

/-- In every run from a fresh cache whose calls throw away no set bit, `balloc`
never returns a block that is in use. -/
theorem balloc_unused_of_keepsBits (sb : Superblock) (disk : ℕ → Block)
    {events : List BitmapEvent} {c : Bcache}
    (run : Trace (fun c e c' => StepKeepsBits sb c e ∧ BitmapStep sb c e c')
      (initBcache disk) events c) :
    ∀ past me b rest, events = past ++ .balloc me b :: rest →
      b ∉ inUse (diskUsed sb disk) past := by
  intro past me b rest split
  obtain ⟨before, after, earlier, ⟨kept, taken⟩, _⟩ := run.split split
  have marked : Marked sb (inUse (diskUsed sb disk) past) before :=
    earlier.invariant (fun past c => Marked sb (inUse (diskUsed sb disk) past) c)
      (marked_initBcache sb disk)
      (fun _ _ _ _ holds step => (marked_step holds step.1 step.2).1)
  exact (marked_step marked kept taken).2 me b rfl

/-- Replay a list of calls, checking the result each one is said to have. -/
def replayBitmap (sb : Superblock) : List BitmapEvent → Bcache → Option Bcache
  | [], c => some c
  | .balloc me b :: rest, c =>
    match balloc me ROOTDEV sb c with
    | .ok (r, c') => if r = b then replayBitmap sb rest c' else none
    | .error _ => none
  | .bfree me b :: rest, c =>
    match bfree me ROOTDEV sb b c with
    | .ok (_, c') => replayBitmap sb rest c'
    | .error _ => none
  | .bread me dev n :: rest, c =>
    match bread me dev n c with
    | .ok (_, c') => replayBitmap sb rest c'
    | .error _ => none
  | .brelease me i :: rest, c =>
    match brelease me i c with
    | .ok (_, c') => replayBitmap sb rest c'
    | .error _ => none

theorem replayBitmap_trace {events : List BitmapEvent}
    (replayed : replayBitmap sb events c = some c') :
    Trace (BitmapStep sb) c events c' := by
  induction events generalizing c with
  | nil =>
    obtain rfl : c = c' := by simpa [replayBitmap] using replayed
    exact .nil
  | cons event rest ih =>
    have next : ∃ c₁, BitmapStep sb c event c₁ ∧ replayBitmap sb rest c₁ = some c' := by
      cases event with
      | balloc me b =>
        unfold replayBitmap at replayed
        split at replayed
        · rename_i r c₁ returned
          by_cases same : r = b
          · exact ⟨c₁, same ▸ returned, by simpa [same] using replayed⟩
          · simp [same] at replayed
        · cases replayed
      | bfree me b =>
        unfold replayBitmap at replayed
        split at replayed
        · exact ⟨_, by assumption, replayed⟩
        · cases replayed
      | bread me dev n =>
        unfold replayBitmap at replayed
        split at replayed
        · exact ⟨_, ⟨_, by assumption⟩, replayed⟩
        · cases replayed
      | brelease me i =>
        unfold replayBitmap at replayed
        split at replayed
        · exact ⟨_, by assumption, replayed⟩
        · cases replayed
    obtain ⟨c₁, step, later⟩ := next
    exact (Trace.single step).append (ih later)

/-- The geometry `mkfs` writes. -/
def mkfsSuperblock : Superblock :=
  { magic := 0x10203040, size := 2000, nblocks := 1954, ninodes := 200, nlog := 30,
    logstart := 2, inodestart := 32, bmapstart := 45 }

/-- A disk whose bitmap block marks the 46 metadata blocks. -/
def metadataDisk : ℕ → Block := fun n =>
  if n = 45 then fun k => if k < 5 then 0xff#8 else if k = 5 then 0x3f#8 else 0 else fun _ => 0

private theorem keepsBits_of_hit {n : ℕ} (hit : c.recycled ROOTDEV n = none) :
    KeepsBits sb c ROOTDEV n := by
  intro i b chosen
  rw [hit] at chosen
  cases chosen

private theorem keepsBits_initBcache (disk : ℕ → Block) (dev n : ℕ) :
    KeepsBits sb (initBcache disk) dev n := by
  intro i b _ tagged
  simp [initBcache, ROOTDEV] at tagged

/-- Two allocations in a row on a fresh image return 46 and then 47. -/
theorem balloc_unused_second :
    47 ∉ inUse (diskUsed mkfsSuperblock metadataDisk) [.balloc 1 46] := by
  have evaluated : (replayBitmap mkfsSuperblock [.balloc 1 46] (initBcache metadataDisk)).any
      (fun c => (c.recycled ROOTDEV 45).isNone &&
        (replayBitmap mkfsSuperblock [.balloc 1 47] c).isSome) = true := by
    decide +kernel
  obtain ⟨c, first, rest⟩ := (Option.any_eq_true _ _).mp evaluated
  obtain ⟨hit, second⟩ := Bool.and_eq_true_iff.mp rest
  obtain ⟨c', second⟩ := Option.isSome_iff_exists.mp second
  have one := (replayBitmap_trace first).of_single
  have two := (replayBitmap_trace second).of_single
  have kept : StepKeepsBits mkfsSuperblock (initBcache metadataDisk) (.balloc 1 46) :=
    ⟨keepsBits_initBcache metadataDisk ROOTDEV 45, fun _ _ _ _ _ _ _ => trivial⟩
  have keptNext : StepKeepsBits mkfsSuperblock c (.balloc 1 47) :=
    ⟨keepsBits_of_hit (Option.isNone_iff_eq_none.mp hit), fun _ _ _ _ _ _ _ => trivial⟩
  exact balloc_unused_of_keepsBits mkfsSuperblock metadataDisk
    (((Trace.nil.snoc ⟨kept, one⟩).snoc ⟨keptNext, two⟩)) [.balloc 1 46] 1 47 [] rfl

/-- Sixteen reads of other blocks, each released at once. -/
def sweep : List BitmapEvent :=
  (List.finRange NBUF).flatMap fun k =>
    [.bread 2 ROOTDEV (101 + k.val), .brelease 2 (k + 1)]

/-- Block 46 is handed out twice: sixteen other reads recycle the bitmap's buffer
between the two calls, and its bit was never written back. -/
theorem balloc_repeats_after_sweep :
    ¬ ∀ (sb : Superblock) (disk : ℕ → Block) (events : List BitmapEvent) (c : Bcache),
      Trace (BitmapStep sb) (initBcache disk) events c →
      ∀ past me b rest, events = past ++ .balloc me b :: rest →
        b ∉ inUse (diskUsed sb disk) past := by
  intro claim
  have replayed : (replayBitmap mkfsSuperblock
      ((.balloc 1 46 :: sweep) ++ [.balloc 1 46]) (initBcache metadataDisk)).isSome = true := by
    decide +kernel
  obtain ⟨c, ran⟩ := Option.isSome_iff_exists.mp replayed
  refine claim _ _ _ c (replayBitmap_trace ran) (.balloc 1 46 :: sweep) 1 46 [] rfl ?_
  have kept : ∀ (events : List BitmapEvent) (used : Set ℕ), 46 ∈ used →
      (∀ e ∈ events, ∃ me dev n i, e = .bread me dev n ∨ e = .brelease me i) →
      46 ∈ inUse used events := by
    intro events
    induction events with
    | nil => exact fun _ member _ => member
    | cons e rest ih =>
      intro used member traffic
      obtain ⟨me, dev, n, i, rfl | rfl⟩ := traffic e (by simp)
      · exact ih used member (fun e' later => traffic e' (by simp [later]))
      · exact ih used member (fun e' later => traffic e' (by simp [later]))
  apply kept sweep (insert 46 (diskUsed mkfsSuperblock metadataDisk)) (by simp)
  intro e member
  obtain ⟨k, _, choice⟩ := List.mem_flatMap.mp member
  rcases List.mem_pair.mp choice with rfl | rfl
  · exact ⟨2, ROOTDEV, 101 + k.val, 0, .inl rfl⟩
  · exact ⟨2, 0, 0, k + 1, .inr rfl⟩

end Safety

end HaloOS
