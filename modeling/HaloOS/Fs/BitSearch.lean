import HaloOS.Fs.Resting

/-! The bitmap as a set of numbers. `balloc` finds the least free block by two nested loops, and
`bfree` computes the place of a bit from its number; both address the same bits. -/

namespace HaloOS

open Lib

variable {sb : Superblock} {c c' : Bcache} {me dev n b : ℕ} {E : Stop → Prop}

/-- Without a clear bit in range every bit in range is set. -/
theorem ballocBit_none {size : ℕ} {data : Block} {fuel bi k : ℕ} (none : ballocBit size b data fuel bi = none)
    (low : bi ≤ k) (high : k < bi + fuel) (inside : b + k < size) : bitSet data k = true := by
  induction fuel generalizing bi with
  | zero => omega
  | succ fuel ih =>
    unfold ballocBit at none
    rw [if_pos (by omega)] at none
    cases bit : bitSet data bi with
    | false => simp [bit] at none
    | true =>
      simp only [bit, Bool.true_eq_false, ↓reduceIte] at none
      by_cases here : k = bi
      · rw [here, bit]
      · exact ih none (by omega) (by omega)

/-- The blocks that hold the bits of the numbers below the size. -/
def Superblock.bitmapBlocks (sb : Superblock) : Set ℕ := {n | ∃ b < sb.size, n = BBLOCK b sb}

/-- The bit of a number, as the cache presents it. -/
def Bcache.bit (dev : ℕ) (sb : Superblock) (c : Bcache) (b : ℕ) : Bool :=
  bitSet (c.block dev (BBLOCK b sb)) (b % BPB)

/-- The numbers with a bit in a bitmap block; those past the size are in the rest of the last one. -/
def Superblock.InBitmap (sb : Superblock) (a : ℕ) : Prop := BBLOCK a sb ∈ sb.bitmapBlocks

theorem inBitmap_of_lt (inside : b < sb.size) : sb.InBitmap b := ⟨b, inside, rfl⟩

/-- Every bit of the bitmap is presented the same. -/
def SameBits (dev : ℕ) (sb : Superblock) (c c' : Bcache) : Prop :=
  ∀ a, sb.InBitmap a → c'.bit dev sb a = c.bit dev sb a

/-- Reading block `n` recycles no bitmap buffer that differs from the disk. -/
def KeepsBitmap (dev : ℕ) (sb : Superblock) (c : Bcache) (n : ℕ) : Prop :=
  ∀ i, c.recycled dev n = some i → (c.bufs i).dev = dev → (c.bufs i).blockno ∈ sb.bitmapBlocks →
    (c.bufs i).vaild = true → (c.bufs i).data = c.disk (c.bufs i).blockno

/-- No read of `balloc` does. -/
def BallocKeepsBitmap (me dev : ℕ) (sb : Superblock) : ℕ → ℕ → Bcache → Prop
  | 0, _, _ => True
  | fuel + 1, b, c => KeepsBitmap dev sb c (BBLOCK b sb) ∧
    ∀ bp c₁ c₂, bread me dev (BBLOCK b sb) c = .ok (bp, c₁) → brelease me bp c₁ = .ok ((), c₂) →
      BallocKeepsBitmap me dev sb fuel (b + BPB) c₂

section Lending

/-- The bitmap can be read: no buffer with a block of it is locked, and some buffer is unused. Other
buffers may be in use, as that of an indirect block is when `bmap` calls `balloc`. -/
structure Bcache.Lendable (dev : ℕ) (sb : Superblock) (c : Bcache) : Prop where
  wf : c.Wf
  free : ∀ i, (c.bufs i).dev = dev → (c.bufs i).blockno ∈ sb.bitmapBlocks → (c.bufs i).sk.locked = false
  spare : ∃ i, (c.bufs i).refcnt = 0

theorem Bcache.Resting.lendable (resting : c.Resting) (dev : ℕ) (sb : Superblock) : c.Lendable dev sb :=
  ⟨resting.wf, fun i _ _ => resting.unlocked i, 0, resting.free 0⟩

/-- Process `me` holds buffer `bp` with block `n`; its release makes the cache lendable. -/
structure Bcache.Taken (me dev n : ℕ) (sb : Superblock) (bp : Fin NBUF) (c : Bcache) : Prop where
  wf : c.Wf
  held : holdingsleep me (c.bufs bp).sk = true
  vaild : (c.bufs bp).vaild = true
  tag : (c.bufs bp).dev = dev ∧ (c.bufs bp).blockno = n
  back : (unref bp (c.setBuf bp fun b => { b with sk := sleepUnlock b.sk })).Lendable dev sb

variable {bp : Fin NBUF}

theorem bread_lendable (me : ℕ) (lendable : c.Lendable dev sb) (member : n ∈ sb.bitmapBlocks) :
    ∃ r, bread me dev n c = .ok r := by
  have got : ∃ r, bget me dev n c = .ok r := by
    unfold bget
    rw [bind_run, gets_run]
    cases found : c.lookup dev n with
    | some i =>
      obtain ⟨device, rfl⟩ := Bcache.lookup_tag found
      simp only [id_eq, found, bind_run, update_run]
      rw [lockBuf_run (by simpa [Bcache.setBuf] using lendable.free i device member)]
      exact ⟨_, rfl⟩
    | none =>
      cases chosen : c.victim with
      | none =>
        obtain ⟨i, unused⟩ := lendable.spare
        have busy := List.find?_eq_none.mp chosen i (by simpa using lendable.wf.complete i)
        simp [unused] at busy
      | some i =>
        have unlocked : (c.bufs i).sk.locked = false := by
          by_contra locked
          have referenced := lendable.wf.held i (by simpa using locked)
          have unused := Bcache.victim_refcnt chosen
          omega
        simp only [id_eq, found, chosen, bind_run, update_run]
        rw [lockBuf_run (by simpa [Bcache.setBuf] using unlocked)]
        exact ⟨_, rfl⟩
  obtain ⟨⟨i, t⟩, got⟩ := got
  unfold bread
  cases vaild : (t.bufs i).vaild with
  | true => exact ⟨_, by simp [bind_run, got, vaild]; rfl⟩
  | false => exact ⟨_, by simp [bind_run, got, vaild, diskRead]; rfl⟩

/-- `bread` of a bitmap block that recycles no modified one. -/
theorem bread_keepsBitmap (me : ℕ) (lendable : c.Lendable dev sb) (real : dev ≠ 0) (member : n ∈ sb.bitmapBlocks)
    (kept : KeepsBitmap dev sb c n) :
    ∃ bp c', bread me dev n c = .ok (bp, c') ∧ c'.Taken me dev n sb bp ∧ (c'.bufs bp).data = c.block dev n ∧
      ∀ m ∈ sb.bitmapBlocks, c'.block dev m = c.block dev m := by
  obtain ⟨⟨bp, c'⟩, returned⟩ := bread_lendable me lendable member
  refine ⟨bp, c', returned, ?_, ?_, fun m member => ?_⟩
  · have wf' := wf_bread lendable.wf returned
    obtain ⟨refs, rfl, unlocked, how⟩ := bread_ok returned
    have held : holdingsleep me ((c.setBuf bp fun _ => loaded me dev n refs (c.block dev n)).bufs bp).sk = true := by
      simp [Bcache.setBuf, loaded, holdingsleep]
    refine ⟨wf', held, by simp [Bcache.setBuf, loaded], by simp [Bcache.setBuf, loaded],
      wf_brelease wf' (brelease_run held), fun i => ?_, ?_⟩
    · by_cases here : i = bp
      · subst here
        simp [unref_bufs, Bcache.setBuf, sleepUnlock]
      · simpa [unref_bufs, Bcache.setBuf, here] using lendable.free i
    · rcases how with ⟨-, rfl⟩ | ⟨-, -, rfl⟩
      · obtain ⟨i, unused⟩ := lendable.spare
        refine ⟨i, ?_⟩
        by_cases here : i = bp
        · subst here
          simp [unref_bufs, Bcache.setBuf, loaded, unused]
        · simpa [unref_bufs, Bcache.setBuf, here] using unused
      · exact ⟨bp, by simp [unref_bufs, Bcache.setBuf, loaded]⟩
  · obtain ⟨refs, rfl, -⟩ := bread_ok returned
    simp [Bcache.setBuf, loaded]
  · rcases block_bread lendable.wf returned real m with same | ⟨chosen, tag, rfl, vaild, fallen⟩
    · exact same
    · have cached := lendable.wf.block_of_tag (i := bp) (by rwa [tag])
      rw [tag, if_pos vaild] at cached
      rw [fallen, cached, kept bp chosen tag member vaild]

theorem setData_taken (taken : c.Taken me dev n sb bp) (real : dev ≠ 0) (data : Block) :
    Sat (setData bp data) c E fun _ c' => c'.Taken me dev n sb bp ∧
      ∀ m, c'.block dev m = if m = n then data else c.block dev m := by
  have same : unref bp ((c.setBuf bp ({ · with data })).setBuf bp fun b => { b with sk := sleepUnlock b.sk }) =
      (unref bp (c.setBuf bp fun b => { b with sk := sleepUnlock b.sk })).setBuf bp ({ · with data }) := by
    simp [unref, Bcache.setBuf]
  refine Sat.update ⟨⟨wf_setData taken.wf bp data, by simpa [Bcache.setBuf] using taken.held,
    by simpa [Bcache.setBuf] using taken.vaild, by simpa [Bcache.setBuf] using taken.tag, ?_⟩, fun m => ?_⟩
  · rw [same]
    refine ⟨wf_setData taken.back.wf bp data, fun i => ?_, ?_⟩
    · have free := taken.back.free i
      by_cases here : i = bp
      · subst here
        simpa [Bcache.setBuf] using free
      · simpa [Bcache.setBuf, here] using free
    · obtain ⟨i, unused⟩ := taken.back.spare
      refine ⟨i, ?_⟩
      by_cases here : i = bp
      · subst here
        simpa [Bcache.setBuf] using unused
      · simpa [Bcache.setBuf, here] using unused
  · rw [block_setData taken.wf taken.vaild data real, taken.tag.1, taken.tag.2]
    by_cases here : m = n
    · simp [here]
    · simp [here, Ne.symm here]

theorem brelease_taken (taken : c.Taken me dev n sb bp) (real : dev ≠ 0) :
    Sat (brelease me bp) c E fun _ c' => c'.Lendable dev sb ∧ ∀ m, c'.block dev m = c.block dev m := by
  have returned := brelease_run taken.held
  have blocks := block_brelease taken.wf returned real
  unfold Sat
  rw [returned]
  exact ⟨taken.back, blocks⟩

end Lending

/-- Presented blocks determine the bits. -/
theorem sameBits_of_blocks (blocks : ∀ m ∈ sb.bitmapBlocks, c'.block dev m = c.block dev m) :
    SameBits dev sb c c' := by
  intro a member
  unfold Bcache.bit
  rw [blocks _ member]

/-- A store into the lent bitmap buffer changes the bits of its block. -/
theorem bit_stored {data : Block} {c'' : Bcache}
    (kept : ∀ m ∈ sb.bitmapBlocks, c'.block dev m = c.block dev m)
    (stored : ∀ m, c''.block dev m = if m = BBLOCK b sb then data else c'.block dev m) {a : ℕ}
    (member : sb.InBitmap a) :
    c''.bit dev sb a = if BBLOCK a sb = BBLOCK b sb then bitSet data (a % BPB) else c.bit dev sb a := by
  unfold Bcache.bit
  rw [stored]
  split
  · rfl
  · rw [kept _ member]

/-- What `balloc` does: the least number with a clear bit is taken. -/
structure AllocatesBit (dev : ℕ) (sb : Superblock) (c : Bcache) (r : ℕ) (c' : Bcache) : Prop where
  lendable : c'.Lendable dev sb
  inside : r < sb.size
  clear : c.bit dev sb r = false
  least : ∀ a < r, c.bit dev sb a = true
  bits : ∀ a, sb.InBitmap a → c'.bit dev sb a = (decide (a = r) || c.bit dev sb a)

/-- Every bit below the size is set. -/
def Full (dev : ℕ) (sb : Superblock) (c : Bcache) : Prop := ∀ a < sb.size, c.bit dev sb a = true

theorem ballocFrom_allocates (real : dev ≠ 0) (fuel b : ℕ) (aligned : BPB ∣ b) (enough : sb.size ≤ b + fuel * BPB)
    (lendable : c.Lendable dev sb) (kept : BallocKeepsBitmap me dev sb fuel b c)
    (below : ∀ a < b, a < sb.size → c.bit dev sb a = true) :
    Sat (ballocFrom me dev sb fuel b) c (fun e => e = .panic "balloc panic...\n" ∧ Full dev sb c)
      fun r c' => AllocatesBit dev sb c r c' := by
  induction fuel generalizing b c with
  | zero => exact Sat.throw ⟨rfl, fun a inside => below a (by omega) inside⟩
  | succ fuel ih =>
    unfold ballocFrom
    by_cases inside : b < sb.size
    swap
    · rw [if_neg inside]
      exact Sat.throw ⟨rfl, fun a small => below a (by omega) small⟩
    rw [if_pos inside]
    obtain ⟨bp, c₁, read, taken, data, blocks⟩ := bread_keepsBitmap me lendable real (inBitmap_of_lt inside) kept.1
    refine Sat.bind (Q := fun a t => bp = a ∧ c₁ = t) (by unfold Sat; rw [read]; exact ⟨rfl, rfl⟩) ?_
    rintro _ _ ⟨rfl, rfl⟩
    refine Sat.bind (Sat.gets (Q := fun a t => c.block dev (BBLOCK b sb) = a ∧ c₁ = t) ⟨data.symm, rfl⟩) ?_
    rintro _ _ ⟨rfl, rfl⟩
    cases found : ballocBit sb.size b (c.block dev (BBLOCK b sb)) BPB 0 with
    | none =>
      dsimp only
      have spec : Sat (brelease me bp) c₁ (fun _ => False) _ := brelease_taken taken real
      obtain ⟨_, c₂, released, lendable₂, blocks₂⟩ := spec.returns
      have same : SameBits dev sb c c₂ :=
        sameBits_of_blocks fun m member => (blocks₂ m).trans (blocks m member)
      refine Sat.bind (Q := fun _ t => c₂ = t) (by unfold Sat; rw [released]) ?_
      rintro _ _ rfl
      have rest := ih (b + BPB) (Nat.dvd_add aligned (dvd_refl _)) (by rw [Nat.succ_mul] at enough; omega) lendable₂
        (kept.2 bp c₁ c₂ read released) fun a small inside' => ?_
      · refine (rest.mono ?_).weaken ?_
        · rintro r c' ⟨lendable', inside', clear, least, bits⟩
          refine ⟨lendable', inside', ?_, fun a less => ?_, fun a member => ?_⟩
          · rw [← clear, same r (inBitmap_of_lt inside')]
          · rw [← least a less, same a (inBitmap_of_lt (by omega))]
          · rw [bits a member, same a member]
        · rintro e ⟨rfl, full⟩
          refine ⟨rfl, fun a less => ?_⟩
          rw [← full a less, same a (inBitmap_of_lt less)]
      · -- the bits of this block were all found set
        rw [same a (inBitmap_of_lt inside')]
        by_cases earlier : a < b
        · exact below a earlier inside'
        · obtain ⟨bi, rfl⟩ : ∃ bi, a = b + bi := ⟨a - b, by omega⟩
          unfold Bcache.bit
          rw [BBLOCK_add sb aligned (by omega), mod_BPB_add aligned (by omega)]
          exact ballocBit_none found (by omega) (by omega) inside'
    | some bi =>
      dsimp only
      obtain ⟨-, small, bound, clear, least⟩ := ballocBit_some found
      have block := BBLOCK_add sb aligned (show bi < BPB by omega)
      have place := mod_BPB_add aligned (show bi < BPB by omega)
      refine Sat.bind (setData_taken taken real _) ?_
      rintro _ c₂ ⟨taken₂, stored⟩
      refine Sat.bind (brelease_taken taken₂ real) ?_
      rintro _ c₃ ⟨lendable₃, blocks₃⟩
      refine Sat.pure ⟨lendable₃, bound, ?_, fun a less => ?_, fun a member => ?_⟩
      · unfold Bcache.bit
        rw [block, place, clear]
      · by_cases earlier : a < b
        · exact below a earlier (by omega)
        · obtain ⟨bj, rfl⟩ : ∃ bj, a = b + bj := ⟨a - b, by omega⟩
          unfold Bcache.bit
          rw [BBLOCK_add sb aligned (by omega), mod_BPB_add aligned (by omega)]
          exact least bj (by omega) (by omega)
      · rw [bit_stored blocks (fun m => (blocks₃ m).trans (stored m)) member]
        split
        · rename_i here
          have number : a % BPB = bi ↔ a = b + bi := by
            constructor
            · exact fun same => eq_of_bit (here.trans block.symm) (same.trans place.symm)
            · rintro rfl
              exact place
          rw [bitSet_setBit]
          unfold Bcache.bit
          simp only [number, here]
        · rename_i away
          have other : a ≠ b + bi := by
            rintro rfl
            exact away block
          simp [other]

theorem balloc_allocates (me : ℕ) (real : dev ≠ 0) (lendable : c.Lendable dev sb)
    (kept : BallocKeepsBitmap me dev sb (sb.size / BPB + 1) 0 c) :
    Sat (balloc me dev sb) c (fun e => e = .panic "balloc panic...\n" ∧ Full dev sb c)
      fun r c' => AllocatesBit dev sb c r c' := by
  refine ballocFrom_allocates real _ 0 (dvd_zero _) ?_ lendable kept fun a less => absurd less (Nat.not_lt_zero a)
  have split := Nat.div_add_mod sb.size BPB
  have rest : sb.size % BPB < BPB := Nat.mod_lt _ (by decide)
  rw [Nat.succ_mul, Nat.mul_comm]
  omega

/-- What `bfree` does. -/
structure FreesBit (dev : ℕ) (sb : Superblock) (c : Bcache) (b : ℕ) (c' : Bcache) : Prop where
  lendable : c'.Lendable dev sb
  bits : ∀ a, sb.InBitmap a → c'.bit dev sb a = (!decide (a = b) && c.bit dev sb a)

theorem bfree_frees (me : ℕ) (real : dev ≠ 0) (lendable : c.Lendable dev sb) (member : sb.InBitmap b)
    (set : c.bit dev sb b = true)
    (kept : KeepsBitmap dev sb c (BBLOCK b sb)) : ∃ c', bfree me dev sb b c = .ok ((), c') ∧ FreesBit dev sb c b c' := by
  obtain ⟨bp, c₁, read, taken, data, blocks⟩ := bread_keepsBitmap me lendable real member kept
  have spec : Sat (bfree me dev sb b) c (fun _ => False) fun _ c' => FreesBit dev sb c b c' := by
    unfold bfree
    refine Sat.bind (Q := fun a t => bp = a ∧ c₁ = t) (by unfold Sat; rw [read]; exact ⟨rfl, rfl⟩) ?_
    rintro _ _ ⟨rfl, rfl⟩
    refine Sat.bind (Sat.gets (Q := fun a t => c.block dev (BBLOCK b sb) = a ∧ c₁ = t) ⟨data.symm, rfl⟩) ?_
    rintro _ _ ⟨rfl, rfl⟩
    refine Sat.bind (Sat.stopIf (Q := fun _ t => c₁ = t) (fun bad => ?_) fun _ => rfl) ?_
    · unfold Bcache.bit at set
      rw [set] at bad
      cases bad
    rintro _ _ rfl
    refine Sat.bind (setData_taken taken real _) ?_
    rintro _ c₂ ⟨taken₂, stored⟩
    refine (brelease_taken taken₂ real).mono ?_
    rintro _ c₃ ⟨lendable₃, blocks₃⟩
    refine ⟨lendable₃, fun a member => ?_⟩
    rw [bit_stored blocks (fun m => (blocks₃ m).trans (stored m)) member]
    split
    · rename_i here
      have number : a % BPB = b % BPB ↔ a = b := ⟨eq_of_bit here, fun same => by rw [same]⟩
      rw [bitSet_clearBit]
      unfold Bcache.bit
      simp only [number, here]
    · rename_i away
      have other : a ≠ b := by
        rintro rfl
        exact away rfl
      simp [other]
  obtain ⟨_, c', returned, frees⟩ := spec.returns
  exact ⟨c', returned, frees⟩

/-- The search of the bitmap, for every superblock and all contents that the cache presents. `balloc`
takes the least number whose bit is clear and panics exactly when there is none below the size;
`bfree` of a number whose bit is set clears that bit. When the two calls are compared, anything may
happen between them that leaves the bitmap as it is presented. -/
theorem bitmap_search (dev : ℕ) (sb : Superblock) (c : Bcache) (real : dev ≠ 0) (lendable : c.Lendable dev sb) :
    (∀ me, BallocKeepsBitmap me dev sb (sb.size / BPB + 1) 0 c →
      (balloc me dev sb c = .error (.panic "balloc panic...\n") ↔ Full dev sb c) ∧
      (¬ Full dev sb c → ∃ r c', balloc me dev sb c = .ok (r, c') ∧ AllocatesBit dev sb c r c' ∧
        ∀ me' c₁, c₁.Lendable dev sb → SameBits dev sb c' c₁ → KeepsBitmap dev sb c₁ (BBLOCK r sb) →
          ∃ c₂, bfree me' dev sb r c₁ = .ok ((), c₂) ∧ SameBits dev sb c c₂)) ∧
    ∀ me b, sb.InBitmap b → c.bit dev sb b = true → KeepsBitmap dev sb c (BBLOCK b sb) →
      ∃ c', bfree me dev sb b c = .ok ((), c') ∧ FreesBit dev sb c b c' ∧
        (b < sb.size → ∀ me' c₁, c₁.Lendable dev sb → SameBits dev sb c' c₁ →
          BallocKeepsBitmap me' dev sb (sb.size / BPB + 1) 0 c₁ →
          ∃ r c₂, balloc me' dev sb c₁ = .ok (r, c₂) ∧ r ≤ b) := by
  refine ⟨fun me kept => ?_, fun me b member set kept => ?_⟩
  · have spec := balloc_allocates me real lendable kept
    cases result : balloc me dev sb c with
    | error e =>
      obtain ⟨rfl, full⟩ := spec.error result
      exact ⟨iff_of_true rfl full, fun partly => absurd full partly⟩
    | ok pair =>
      obtain ⟨r, c'⟩ := pair
      have allocates := spec.ok result
      have partly : ¬ Full dev sb c := by
        intro full
        have set := full r allocates.inside
        rw [allocates.clear] at set
        cases set
      refine ⟨iff_of_false (by simp) partly, fun _ => ⟨r, c', rfl, allocates, fun me' c₁ lendable₁ same kept₁ => ?_⟩⟩
      have here := inBitmap_of_lt allocates.inside
      have taken : c₁.bit dev sb r = true := by
        rw [same r here, allocates.bits r here]
        simp
      obtain ⟨c₂, freed, frees⟩ := bfree_frees me' real lendable₁ here taken kept₁
      refine ⟨c₂, freed, fun a member => ?_⟩
      rw [frees.bits a member, same a member, allocates.bits a member]
      by_cases self : a = r
      · rw [self, allocates.clear]
        simp
      · simp [self]
  · obtain ⟨c', freed, frees⟩ := bfree_frees me real lendable member set kept
    refine ⟨c', freed, frees, fun inside me' c₁ lendable₁ same kept₁ => ?_⟩
    have clear : c₁.bit dev sb b = false := by
      rw [same b member, frees.bits b member]
      simp
    have spec := balloc_allocates me' real lendable₁ kept₁
    cases result : balloc me' dev sb c₁ with
    | error e =>
      obtain ⟨-, full⟩ := spec.error result
      have set' := full b inside
      rw [clear] at set'
      cases set'
    | ok pair =>
      have allocates := spec.ok result
      refine ⟨pair.1, pair.2, rfl, ?_⟩
      by_contra larger
      have set' := allocates.least b (by omega)
      rw [clear] at set'
      cases set'

/-- On a fresh image block 46 is taken, and freeing it restores the bitmap. -/
theorem bitmap_search_metadata : ∃ c' c₂,
    balloc 1 ROOTDEV mkfsSuperblock (initBcache metadataDisk) = .ok (46, c') ∧
    bfree 1 ROOTDEV mkfsSuperblock 46 c' = .ok ((), c₂) ∧
    SameBits ROOTDEV mkfsSuperblock (initBcache metadataDisk) c₂ := by
  have evaluated : ((balloc 1 ROOTDEV mkfsSuperblock (initBcache metadataDisk)).toOption.any fun p =>
      p.1 == 46 && (p.2.recycled ROOTDEV 45).isNone) = true := by
    decide +kernel
  have lendable := (resting_initBcache metadataDisk).lendable ROOTDEV mkfsSuperblock
  obtain ⟨search, -⟩ := bitmap_search ROOTDEV mkfsSuperblock (initBcache metadataDisk) (by decide) lendable
  have kept : BallocKeepsBitmap 1 ROOTDEV mkfsSuperblock (mkfsSuperblock.size / BPB + 1) 0
      (initBcache metadataDisk) :=
    ⟨fun i _ tag => absurd tag (by simp [initBcache, ROOTDEV]), fun _ _ _ _ _ => trivial⟩
  obtain ⟨panics, allocates⟩ := search 1 kept
  have partly : ¬ Full ROOTDEV mkfsSuperblock (initBcache metadataDisk) := by
    intro full
    rw [panics.mpr full] at evaluated
    cases evaluated
  obtain ⟨r, c', returned, taken, restores⟩ := allocates partly
  rw [returned] at evaluated
  obtain ⟨number, hit⟩ := Bool.and_eq_true_iff.mp evaluated
  obtain rfl : r = 46 := by simpa using number
  obtain ⟨c₂, freed, same⟩ := restores 1 c' taken.lendable (fun _ _ => rfl) fun i chosen => by
    rw [show BBLOCK 46 mkfsSuperblock = 45 from rfl, Option.isNone_iff_eq_none.mp hit] at chosen
    cases chosen
  exact ⟨c', c₂, returned, freed, same⟩

end HaloOS
