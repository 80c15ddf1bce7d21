import HaloOS.Fs.Clean

/-! The buffer cache as one process uses it between the calls of others. What the cache
presents is a map from block numbers to contents; a buffer may hold a store that the disk
has not seen, as long as it is not among the next ones to be recycled. -/

namespace HaloOS

open Lib

variable {V : ℕ → Block} {c : Bcache} {me k n : ℕ} {H : List (Fin NBUF)} {b : Fin NBUF}
  {E : Stop → Prop}

/-- The process `me` holds the buffers `H` and nobody any other. The cache presents `V`, and
the buffers from place `k` of the list on are saved: they hold what the disk has. -/
structure Rest (V : ℕ → Block) (me k : ℕ) (H : List (Fin NBUF)) (c : Bcache) : Prop where
  wf : c.Wf
  free : ∀ i ∉ H, (c.bufs i).refcnt = 0
  held : ∀ i ∈ H, (c.bufs i).refcnt = 1 ∧ (c.bufs i).sk = ⟨true, me⟩ ∧
    (c.bufs i).vaild = true ∧ (c.bufs i).dev = ROOTDEV
  view : ∀ n, c.block ROOTDEV n = V n
  saved : ∀ i ∈ c.lru.drop k, i ∉ H → (c.bufs i).vaild = true → (c.bufs i).dev = ROOTDEV →
    (c.bufs i).data = c.disk (c.bufs i).blockno

/-- The block has a buffer among the first `k`, which the next recycling spares. -/
def Near (n k : ℕ) (c : Bcache) : Prop :=
  ∃ i ∈ c.lru.take k, (c.bufs i).dev = ROOTDEV ∧ (c.bufs i).blockno = n

theorem Near.mono {k' : ℕ} (near : Near n k c) (le : k ≤ k') : Near n k' c := by
  obtain ⟨i, member, tag⟩ := near
  exact ⟨i, (List.take_sublist_take_left le).subset member, tag⟩

namespace Rest

theorem mono {k' : ℕ} (rest : Rest V me k H c) (le : k ≤ k') : Rest V me k' H c :=
  { rest with saved := fun i member => rest.saved i ((List.drop_sublist_drop_left c.lru le).subset member) }

theorem length_lru (rest : Rest V me k H c) : c.lru.length = NBUF := by
  have same : c.lru.Perm (List.finRange NBUF) :=
    (List.perm_ext_iff_of_nodup rest.wf.nodup (List.nodup_finRange NBUF)).mpr fun i => by
      simp [rest.wf.complete i]
  rw [same.length_eq, List.length_finRange]

theorem unlocked (rest : Rest V me k H c) {i : Fin NBUF} (outside : i ∉ H) :
    (c.bufs i).sk.locked = false := by
  by_contra locked
  have referenced := rest.wf.held i (by simpa using locked)
  have free := rest.free i outside
  omega

/-- The buffer that is recycled next is a saved one. -/
theorem victim (rest : Rest V me k H c) (room : k + H.length < NBUF) :
    ∃ i ∈ c.lru.drop k, i ∉ H ∧ c.victim = some i := by
  have length := rest.length_lru
  -- the list from place `k` on is longer than `H`
  have spare : ∃ x ∈ c.lru.drop k, (c.bufs x).refcnt = 0 := by
    by_contra none
    have within : c.lru.drop k ⊆ H := by
      intro x member
      by_contra outside
      exact none ⟨x, member, rest.free x outside⟩
    have short := (List.subperm_of_subset (rest.wf.nodup.sublist (List.drop_sublist k _)) within).length_le
    rw [List.length_drop] at short
    omega
  obtain ⟨x, place, zero⟩ := spare
  have found : ((c.lru.drop k).reverse.find? fun i => (c.bufs i).refcnt == 0).isSome := by
    rw [List.find?_isSome]
    exact ⟨x, by simpa using place, by simp [zero]⟩
  obtain ⟨i, chosen⟩ := Option.isSome_iff_exists.mp found
  have here : i ∈ c.lru.drop k := by simpa using List.mem_of_find?_eq_some chosen
  have idle : (c.bufs i).refcnt = 0 := by simpa using List.find?_some chosen
  refine ⟨i, here, fun member => ?_, ?_⟩
  · rw [(rest.held i member).1] at idle
    cases idle
  · unfold Bcache.victim
    rw [← List.take_append_drop k c.lru, List.reverse_append, List.find?_append, chosen]
    rfl

end Rest

/-- `bread` of a block that the caller does not hold. -/
theorem bread_rest (rest : Rest V me k H c) (room : k + H.length < NBUF)
    (apart : ∀ i ∈ H, (c.bufs i).blockno ≠ n) :
    Sat (bread me ROOTDEV n) c E fun b c' => b ∉ H ∧ Rest V me k (b :: H) c' ∧
      (c'.bufs b).blockno = n ∧ (c'.bufs b).data = V n ∧ (∀ i ≠ b, c'.bufs i = c.bufs i) ∧
      c'.disk = c.disk ∧ c'.lru = c.lru ∧ ∀ m, Near m k c → Near m k c' := by
  have lock : ∀ (i : Fin NBUF) (f : Buf → Buf), (f (c.bufs i)).sk.locked = false →
      ∃ c', lockBuf me i (c.setBuf i f) = .ok ((), c') := by
    intro i f free
    exact ⟨_, lockBuf_run (by simpa [Bcache.setBuf] using free)⟩
  have got : ∃ r, bget me ROOTDEV n c = .ok r := by
    unfold bget
    rw [bind_run, gets_run]
    cases found : c.lookup ROOTDEV n with
    | some i =>
      obtain ⟨dev, blockno⟩ := Bcache.lookup_tag found
      have outside : i ∉ H := fun member => apart i member blockno
      obtain ⟨c', locked⟩ := lock i (fun b => { b with refcnt := b.refcnt + 1 }) (rest.unlocked outside)
      simp only [id_eq, found, bind_run, update_run, locked]
      exact ⟨_, rfl⟩
    | none =>
      obtain ⟨i, -, outside, chosen⟩ := rest.victim room
      obtain ⟨c', locked⟩ := lock i (fun b => { b with refcnt := 1, vaild := false, dev := ROOTDEV, blockno := n })
        (rest.unlocked outside)
      simp only [id_eq, found, chosen, bind_run, update_run, locked]
      exact ⟨_, rfl⟩
  have total : ∃ r, bread me ROOTDEV n c = .ok r := by
    obtain ⟨⟨i, t⟩, got⟩ := got
    unfold bread
    cases vaild : (t.bufs i).vaild with
    | true => exact ⟨_, by simp [bind_run, got, vaild]; rfl⟩
    | false => exact ⟨_, by simp [bind_run, got, vaild, diskRead]; rfl⟩
  obtain ⟨⟨b, c'⟩, returned⟩ := total
  have wf' := wf_bread rest.wf returned
  have blocks := block_bread rest.wf returned (d := ROOTDEV) (by decide)
  obtain ⟨refs, rfl, unlocked, how⟩ := bread_ok returned
  unfold Sat
  rw [returned]
  have outside : b ∉ H := by
    intro member
    rw [(rest.held b member).2.1] at unlocked
    cases unlocked
  have one : refs = 1 := by
    rcases how with ⟨-, rfl⟩ | ⟨-, -, rfl⟩
    · rw [rest.free b outside]
    · rfl
  subst one
  -- a recycled buffer is one from place `k` on
  have recycled : c.recycled ROOTDEV n = some b → b ∈ c.lru.drop k := by
    intro chosen
    obtain ⟨i, place, -, first⟩ := rest.victim room
    unfold Bcache.recycled at chosen
    split at chosen
    · cases chosen
    · obtain rfl : i = b := by simpa [first] using chosen
      exact place
  have others : ∀ i ≠ b, (c.setBuf b fun _ => loaded me ROOTDEV n 1 (c.block ROOTDEV n)).bufs i = c.bufs i :=
    fun i other => by simp [Bcache.setBuf, other]
  refine ⟨outside, ⟨wf', ?_, ?_, ?_, ?_⟩, ?_, ?_, others, rfl, rfl, ?_⟩
  · intro i away
    rw [List.mem_cons, not_or] at away
    rw [others i away.1]
    exact rest.free i away.2
  · intro i member
    by_cases self : i = b
    · subst self
      simp [Bcache.setBuf, loaded]
    · rw [others i self]
      exact rest.held i ((List.mem_cons.mp member).resolve_left self)
  · intro m
    rcases blocks m with same | ⟨chosen, dev, blockno, vaild, fallen⟩
    · rw [same, rest.view m]
    · have kept := rest.saved b (recycled chosen) outside vaild dev
      have old := rest.wf.block_of_tag (i := b) (by rw [dev]; decide)
      rw [dev, blockno, if_pos vaild, kept, blockno, rest.view m] at old
      rw [fallen, old]
  · intro i place away
    rw [List.mem_cons, not_or] at away
    rw [others i away.1]
    exact rest.saved i place away.2
  · simp [Bcache.setBuf, loaded]
  · simp [Bcache.setBuf, loaded, rest.view n]
  · rintro m ⟨i, place, dev, blockno⟩
    refine ⟨i, place, ?_⟩
    by_cases self : i = b
    · subst self
      rcases how with ⟨found, -⟩ | ⟨chosen, -, -⟩
      · have tag := (Bcache.lookup_tag found).2
        simp [Bcache.setBuf, loaded, ← tag, blockno]
      · exact absurd (recycled chosen) (List.disjoint_take_drop rest.wf.nodup (le_refl k) place)
    · rw [others i self]
      exact ⟨dev, blockno⟩

/-- A store into a held buffer. -/
theorem setData_rest (rest : Rest V me k (b :: H) c) (data : Block) :
    Sat (setData b data) c E fun _ c' =>
      Rest (Function.update V (c.bufs b).blockno data) me k (b :: H) c' ∧
      (c'.bufs b).blockno = (c.bufs b).blockno ∧ (c'.bufs b).data = data ∧
      (∀ i ≠ b, c'.bufs i = c.bufs i) ∧ c'.disk = c.disk ∧ c'.lru = c.lru ∧
      ∀ m, Near m k c → Near m k c' := by
  obtain ⟨refcnt, sk, vaild, dev⟩ := rest.held b List.mem_cons_self
  have others : ∀ i ≠ b, (c.setBuf b ({ · with data })).bufs i = c.bufs i :=
    fun i other => by simp [Bcache.setBuf, other]
  have here : (c.setBuf b ({ · with data })).bufs b = { c.bufs b with data } := by simp [Bcache.setBuf]
  refine Sat.update ⟨⟨wf_setData rest.wf b data, ?_, ?_, ?_, ?_⟩, by rw [here], by rw [here], others, rfl,
    rfl, ?_⟩
  · intro i away
    rw [others i fun same => away (same ▸ List.mem_cons_self)]
    exact rest.free i away
  · intro i member
    by_cases self : i = b
    · subst self
      rw [here]
      exact ⟨refcnt, sk, vaild, dev⟩
    · rw [others i self]
      exact rest.held i member
  · intro m
    rw [block_setData rest.wf vaild data (by decide), dev]
    by_cases self : (c.bufs b).blockno = m
    · subst self
      simp
    · rw [if_neg fun both => self both.2, Function.update_of_ne (Ne.symm self), rest.view m]
  · intro i place away
    rw [others i fun same => away (same ▸ List.mem_cons_self)]
    exact rest.saved i place away
  · rintro m ⟨i, place, tag⟩
    refine ⟨i, place, ?_⟩
    by_cases self : i = b
    · subst self
      rwa [here]
    · rwa [others i self]

/-- `bwrite` saves a held buffer. -/
theorem bwrite_rest (rest : Rest V me k (b :: H) c) :
    Sat (bwrite me b) c E fun _ c' => Rest V me k (b :: H) c' ∧ c'.bufs = c.bufs ∧ c'.lru = c.lru ∧
      c'.disk = Function.update c.disk (c.bufs b).blockno (c.bufs b).data := by
  obtain ⟨refcnt, sk, vaild, dev⟩ := rest.held b List.mem_cons_self
  unfold bwrite
  refine Sat.bind (Sat.gets (Q := fun a t => c = a ∧ c = t) ⟨rfl, rfl⟩) ?_
  rintro _ _ ⟨rfl, rfl⟩
  refine Sat.bind (Sat.stopIf (Q := fun _ t => c = t) (fun bad => ?_) fun _ => rfl) ?_
  · simp [holdingsleep, sk] at bad
  rintro _ _ rfl
  refine Sat.update ⟨⟨⟨rest.wf.nodup, rest.wf.complete, rest.wf.tags, rest.wf.held⟩, rest.free, rest.held,
    ?_, ?_⟩, rfl, rfl, rfl⟩
  · intro m
    rw [← rest.view m]
    unfold Bcache.block Bcache.lookup
    dsimp only
    -- only the block of `b` changed on the disk, and its contents come from the buffer
    cases found : c.lookup ROOTDEV m with
    | some i =>
      unfold Bcache.lookup at found
      rw [found]
      dsimp only
      by_cases valid : (c.bufs i).vaild
      · rw [if_pos valid, if_pos valid]
      · rw [if_neg valid, if_neg valid]
        refine Function.update_of_ne ?_ _ _
        rintro rfl
        have tag := Bcache.lookup_tag found
        obtain rfl := rest.wf.tags i b (by rw [tag.1]; decide) (tag.1.trans dev.symm) tag.2
        exact valid vaild
    | none =>
      have absent := rest.wf.lookup_none found b
      unfold Bcache.lookup at found
      rw [found]
      refine Function.update_of_ne ?_ _ _
      rintro rfl
      exact absent ⟨dev, rfl⟩
  · intro i place away valid real
    dsimp only
    have other : (c.bufs i).blockno ≠ (c.bufs b).blockno := by
      intro same
      obtain rfl := rest.wf.tags i b (by rw [real]; decide) (real.trans dev.symm) same
      exact away List.mem_cons_self
    rw [Function.update_of_ne other]
    exact rest.saved i place away valid real

section Touch

/-! Putting a buffer first. -/

variable {l : List (Fin NBUF)} {i : Fin NBUF}

private theorem drop_touch (member : i ∈ (b :: l.erase b).drop (k + 1)) : i ∈ l.drop k := by
  rw [List.drop_succ_cons] at member
  exact (List.erase_sublist.drop k).subset member

private theorem erase_near (near : b ∈ l.take k) :
    l.erase b = (l.take k).erase b ++ l.drop k ∧ ((l.take k).erase b).length + 1 ≤ k := by
  constructor
  · conv_lhs => rw [← List.take_append_drop k l]
    exact List.erase_append_left _ near
  · have positive := List.length_pos_of_mem near
    rw [List.length_erase_of_mem near]
    have bound := List.length_take_le k l
    omega

private theorem drop_touch_near (near : b ∈ l.take k) (member : i ∈ (b :: l.erase b).drop k) :
    i ∈ l.drop k := by
  obtain ⟨split, short⟩ := erase_near near
  obtain ⟨j, rfl⟩ : ∃ j, k = j + 1 := ⟨k - 1, by omega⟩
  rw [List.drop_succ_cons, split, List.drop_append, List.drop_of_length_le (by omega),
    List.nil_append] at member
  exact List.mem_of_mem_drop member

private theorem take_touch (member : i ∈ l.take k) : i ∈ (b :: l.erase b).take (k + 1) := by
  rw [List.take_succ_cons, List.mem_cons]
  by_cases self : i = b
  · exact .inl self
  right
  by_cases near : b ∈ l.take k
  · obtain ⟨split, short⟩ := erase_near near
    rw [split, List.take_append, List.take_of_length_le (by omega), List.mem_append]
    exact .inl ((List.mem_erase_of_ne self).mpr member)
  · have split : l.erase b = l.take k ++ (l.drop k).erase b := by
      conv_lhs => rw [← List.take_append_drop k l]
      exact List.erase_append_right _ near
    rw [split, List.take_append, List.take_take, Nat.min_self, List.mem_append]
    exact .inl member

private theorem take_touch_near (near : b ∈ l.take k) (member : i ∈ l.take k) :
    i ∈ (b :: l.erase b).take k := by
  obtain ⟨split, short⟩ := erase_near near
  obtain ⟨j, rfl⟩ : ∃ j, k = j + 1 := ⟨k - 1, by omega⟩
  rw [List.take_succ_cons, List.mem_cons]
  by_cases self : i = b
  · exact .inl self
  right
  rw [split, List.take_append, List.take_of_length_le (by omega), List.mem_append]
  exact .inl ((List.mem_erase_of_ne self).mpr member)

end Touch

/-- A held buffer holds what the cache presents. -/
theorem Rest.data_of_held (rest : Rest V me k H c) (member : b ∈ H) :
    (c.bufs b).data = V (c.bufs b).blockno := by
  obtain ⟨-, -, vaild, dev⟩ := rest.held b member
  have shown := rest.wf.block_of_tag (i := b) (by rw [dev]; decide)
  rw [dev, if_pos vaild, rest.view] at shown
  exact shown.symm

/-- The buffer of a near block is near. -/
theorem Near.place (near : Near n k c) (rest : Rest V me k (b :: H) c) (tag : (c.bufs b).blockno = n) :
    b ∈ c.lru.take k := by
  obtain ⟨i, member, dev, blockno⟩ := near
  have real := (rest.held b List.mem_cons_self).2.2.2
  obtain rfl := rest.wf.tags i b (by rw [dev]; decide) (dev.trans real.symm) (blockno.trans tag.symm)
  exact member

/-- The last reference to a held buffer is given back. -/
private theorem brelease_to (rest : Rest V me k (b :: H) c) (outside : b ∉ H) {j : ℕ}
    (back : ∀ i ∈ (b :: c.lru.erase b).drop j, i ∈ c.lru.drop k ∧ i ≠ b) :
    Sat (brelease me b) c E fun _ c' => Rest V me j H c' ∧ c'.disk = c.disk ∧
      c'.lru = b :: c.lru.erase b ∧
      ∀ i, (c'.bufs i).blockno = (c.bufs i).blockno ∧ (c'.bufs i).dev = (c.bufs i).dev := by
  obtain ⟨refcnt, sk, vaild, dev⟩ := rest.held b List.mem_cons_self
  have returned : brelease me b c =
      .ok ((), unref b (c.setBuf b fun b => { b with sk := sleepUnlock b.sk })) :=
    brelease_run (by simp [sk, holdingsleep])
  have wf' := wf_brelease rest.wf returned
  have blocks := block_brelease rest.wf returned (d := ROOTDEV) (by decide)
  unfold Sat
  rw [returned]
  have others : ∀ i ≠ b, (unref b (c.setBuf b fun b => { b with sk := sleepUnlock b.sk })).bufs i =
      c.bufs i := fun i other => by simp [unref_bufs, Bcache.setBuf, other]
  have here : (unref b (c.setBuf b fun b => { b with sk := sleepUnlock b.sk })).bufs b =
      { c.bufs b with sk := ⟨false, 0⟩, refcnt := 0 } := by
    simp [unref_bufs, Bcache.setBuf, refcnt, sleepUnlock]
  have lru : (unref b (c.setBuf b fun b => { b with sk := sleepUnlock b.sk })).lru =
      b :: c.lru.erase b := by simp [unref, Bcache.setBuf, refcnt]
  refine ⟨⟨wf', ?_, ?_, ?_, ?_⟩, rfl, lru, ?_⟩
  · intro i away
    by_cases self : i = b
    · rw [self, here]
    · rw [others i self]
      exact rest.free i fun member => away ((List.mem_cons.mp member).resolve_left self)
  · intro i member
    rw [others i fun same => outside (same ▸ member)]
    exact rest.held i (List.mem_cons_of_mem b member)
  · intro m
    rw [blocks m, rest.view m]
  · intro i place away
    rw [lru] at place
    obtain ⟨old, other⟩ := back i place
    rw [others i other]
    refine rest.saved i old fun member => ?_
    exact away ((List.mem_cons.mp member).resolve_left other)
  · intro i
    by_cases self : i = b
    · rw [self, here]
      exact ⟨rfl, rfl⟩
    · rw [others i self]
      exact ⟨rfl, rfl⟩

theorem brelease_rest (rest : Rest V me k (b :: H) c) (outside : b ∉ H) :
    Sat (brelease me b) c E fun _ c' => Rest V me (k + 1) H c' ∧ c'.disk = c.disk ∧
      (∀ i, (c'.bufs i).blockno = (c.bufs i).blockno) ∧ Near (c.bufs b).blockno (k + 1) c' ∧
      ∀ m, Near m k c → Near m (k + 1) c' := by
  have first : b ∉ c.lru.erase b := rest.wf.nodup.not_mem_erase
  refine (brelease_to rest outside fun i member => ⟨drop_touch member, ?_⟩).mono ?_
  · rintro rfl
    rw [List.drop_succ_cons] at member
    exact first (List.mem_of_mem_drop member)
  rintro _ c' ⟨rest', disk, lru, tags⟩
  refine ⟨rest', disk, fun i => (tags i).1, ⟨b, by simp [lru], ?_⟩, ?_⟩
  · rw [(tags b).1, (tags b).2]
    exact ⟨(rest.held b List.mem_cons_self).2.2.2, rfl⟩
  · rintro m ⟨i, place, dev, blockno⟩
    refine ⟨i, ?_, (tags i).2.trans dev, (tags i).1.trans blockno⟩
    rw [lru]
    exact take_touch place

/-- The release of a buffer that is near pushes no other back. -/
theorem brelease_near (rest : Rest V me k (b :: H) c) (outside : b ∉ H) (near : b ∈ c.lru.take k) :
    Sat (brelease me b) c E fun _ c' => Rest V me k H c' ∧ c'.disk = c.disk ∧
      (∀ i, (c'.bufs i).blockno = (c.bufs i).blockno) ∧ ∀ m, Near m k c → Near m k c' := by
  refine (brelease_to rest outside (j := k) fun i member => ?_).mono ?_
  · have old := drop_touch_near near member
    refine ⟨old, ?_⟩
    rintro rfl
    exact List.disjoint_take_drop rest.wf.nodup (le_refl k) near old
  rintro _ c' ⟨rest', disk, lru, tags⟩
  refine ⟨rest', disk, fun i => (tags i).1, ?_⟩
  rintro m ⟨i, place, dev, blockno⟩
  refine ⟨i, ?_, (tags i).2.trans dev, (tags i).1.trans blockno⟩
  rw [lru]
  exact take_touch_near near place

/-- A call that used the buffer of block `n` and gave it back: the cache presents `V` now, and
the disk and the buffers held throughout are as before. -/
structure Used (V : ℕ → Block) (me k : ℕ) (H : List (Fin NBUF)) (n : ℕ) (c c' : Bcache) : Prop where
  rest : Rest V me k H c'
  disk : c'.disk = c.disk
  tags : ∀ i ∈ H, (c'.bufs i).blockno = (c.bufs i).blockno
  near : Near n k c'

theorem Used.after {c₁ c₂ : Bcache} (used : Used V me k H n c₁ c₂) (disk : c₁.disk = c.disk)
    (tags : ∀ i ∈ H, (c₁.bufs i).blockno = (c.bufs i).blockno) : Used V me k H n c c₂ :=
  ⟨used.rest, used.disk.trans disk, fun i member => (used.tags i member).trans (tags i member), used.near⟩

section Bits

variable {sb : Superblock} {x : ℕ}

/-- The contents after the bit of block `x` is cleared, or set. -/
def freed (sb : Superblock) (V : ℕ → Block) (x : ℕ) : ℕ → Block :=
  Function.update V (BBLOCK x sb) (clearBit (V (BBLOCK x sb)) (x % BPB))

def taken (sb : Superblock) (V : ℕ → Block) (x : ℕ) : ℕ → Block :=
  Function.update V (BBLOCK x sb) (setBit (V (BBLOCK x sb)) (x % BPB))

/-- The last two steps of `balloc` and `bfree`. -/
private theorem store_used (rest : Rest V me k (b :: H) c) (outside : b ∉ H)
    (tag : (c.bufs b).blockno = n) (data : Block) :
    Sat (setData b data >>= fun _ => brelease me b) c E fun _ c' =>
      Used (Function.update V n data) me (k + 1) H n c c' ∧
      (Near n k c → Used (Function.update V n data) me k H n c c') := by
  subst tag
  by_cases close : Near (c.bufs b).blockno k c
  · refine Sat.bind (setData_rest rest data) ?_
    rintro _ c₁ ⟨rest₁, tag₁, -, others₁, disk₁, lru₁, near₁⟩
    have place := (near₁ _ close).place rest₁ tag₁
    refine (brelease_near rest₁ outside place).mono ?_
    rintro _ c₂ ⟨rest₂, disk₂, tags₂, near₂⟩
    have used : Used (Function.update V (c.bufs b).blockno data) me k H (c.bufs b).blockno c c₂ := by
      refine ⟨rest₂, disk₂.trans disk₁, fun i member => ?_, near₂ _ (near₁ _ close)⟩
      rw [tags₂ i, others₁ i fun same => outside (same ▸ member)]
    exact ⟨⟨rest₂.mono (Nat.le_succ k), used.disk, used.tags, used.near.mono (Nat.le_succ k)⟩, fun _ => used⟩
  · refine Sat.bind (setData_rest rest data) ?_
    rintro _ c₁ ⟨rest₁, tag₁, -, others₁, disk₁, lru₁, near₁⟩
    refine (brelease_rest rest₁ outside).mono ?_
    rintro _ c₂ ⟨rest₂, disk₂, tags₂, near₂, -⟩
    refine ⟨⟨rest₂, disk₂.trans disk₁, fun i member => ?_, tag₁ ▸ near₂⟩, fun near => absurd near close⟩
    rw [tags₂ i, others₁ i fun same => outside (same ▸ member)]

/-- `bfree` of a block that is marked. -/
theorem bfree_used (rest : Rest V me k H c) (room : k + H.length < NBUF)
    (apart : ∀ i ∈ H, (c.bufs i).blockno ≠ BBLOCK x sb)
    (marked : bitSet (V (BBLOCK x sb)) (x % BPB) = true) :
    Sat (bfree me ROOTDEV sb x) c E fun _ c' => Used (freed sb V x) me (k + 1) H (BBLOCK x sb) c c' ∧
      (Near (BBLOCK x sb) k c → Used (freed sb V x) me k H (BBLOCK x sb) c c') := by
  unfold bfree
  refine Sat.bind (bread_rest rest room apart) ?_
  rintro b c₁ ⟨outside, rest₁, tag₁, data₁, others₁, disk₁, lru₁, near₁⟩
  refine Sat.bind (Sat.gets (Q := fun a t => V (BBLOCK x sb) = a ∧ c₁ = t) ⟨data₁.symm, rfl⟩) ?_
  rintro _ _ ⟨rfl, rfl⟩
  refine Sat.bind (Sat.stopIf (Q := fun _ t => c₁ = t)
    (fun bad => by rw [marked] at bad; cases bad) fun _ => rfl) ?_
  rintro _ _ rfl
  refine (store_used rest₁ outside tag₁ _).mono ?_
  rintro _ c₂ ⟨far, close⟩
  have tags : ∀ i ∈ H, (c₁.bufs i).blockno = (c.bufs i).blockno :=
    fun i member => by rw [others₁ i fun same => outside (same ▸ member)]
  exact ⟨far.after disk₁ tags, fun near => (close (near₁ _ near)).after disk₁ tags⟩

/-- The block that `balloc` takes next, if there is one: the first that is not marked. -/
def firstFree (sb : Superblock) (V : ℕ → Block) : Option ℕ :=
  ballocBit sb.size 0 (V sb.bmapstart) BPB 0

theorem BBLOCK_small (small : x < BPB) : BBLOCK x sb = sb.bmapstart := by
  unfold BBLOCK
  rw [Nat.div_eq_of_lt small, Nat.zero_add]

theorem firstFree_some (first : firstFree sb V = some x) :
    x < sb.size ∧ x < BPB ∧ bitSet (V sb.bmapstart) x = false := by
  obtain ⟨-, high, inside, clear, -⟩ := ballocBit_some first
  exact ⟨by omega, by omega, clear⟩

/-- `balloc` on an image with one bitmap block. -/
theorem balloc_used (rest : Rest V me k H c) (room : k + H.length < NBUF)
    (apart : ∀ i ∈ H, (c.bufs i).blockno ≠ sb.bmapstart) (first : firstFree sb V = some x) :
    Sat (balloc me ROOTDEV sb) c E fun r c' => x = r ∧
      Used (taken sb V x) me (k + 1) H sb.bmapstart c c' := by
  obtain ⟨inside, small, clear⟩ := firstFree_some first
  have block : BBLOCK 0 sb = sb.bmapstart := BBLOCK_small (by decide)
  unfold balloc ballocFrom
  rw [if_pos (by omega), block]
  refine Sat.bind (bread_rest rest room apart) ?_
  rintro b c₁ ⟨outside, rest₁, tag₁, data₁, others₁, disk₁, lru₁, near₁⟩
  refine Sat.bind (Sat.gets (Q := fun a t => V sb.bmapstart = a ∧ c₁ = t) ⟨data₁.symm, rfl⟩) ?_
  rintro _ _ ⟨rfl, rfl⟩
  unfold firstFree at first
  simp only [first, Nat.zero_add]
  rw [← bind_assoc]
  refine Sat.bind (store_used rest₁ outside tag₁ _) ?_
  rintro _ c₂ ⟨far, -⟩
  refine Sat.pure ⟨rfl, ?_⟩
  unfold taken
  rw [BBLOCK_small small, Nat.mod_eq_of_lt small]
  exact far.after disk₁ fun i member => by rw [others₁ i fun same => outside (same ▸ member)]

theorem balloc_full (rest : Rest V me k H c) (room : k + H.length < NBUF)
    (apart : ∀ i ∈ H, (c.bufs i).blockno ≠ sb.bmapstart) (one : sb.size ≤ BPB)
    (full : firstFree sb V = none) :
    Sat (balloc me ROOTDEV sb) c (fun e => e = .panic "balloc panic...\n") fun _ _ => False := by
  have block : BBLOCK 0 sb = sb.bmapstart := BBLOCK_small (by decide)
  unfold balloc ballocFrom
  refine Sat.ite (fun _ => ?_) fun _ => Sat.throw rfl
  rw [block]
  refine Sat.bind (bread_rest rest room apart) ?_
  rintro b c₁ ⟨outside, rest₁, tag₁, data₁, others₁, disk₁, lru₁, near₁⟩
  refine Sat.bind (Sat.gets (Q := fun a t => V sb.bmapstart = a ∧ c₁ = t) ⟨data₁.symm, rfl⟩) ?_
  rintro _ _ ⟨rfl, rfl⟩
  unfold firstFree at full
  simp only [full]
  refine Sat.bind (brelease_rest rest₁ outside) ?_
  rintro _ c₂ -
  generalize sb.size / BPB = fuel
  cases fuel with
  | zero => exact Sat.throw rfl
  | succ fuel =>
    unfold ballocFrom
    rw [if_neg (by omega)]
    exact Sat.throw rfl

end Bits

end HaloOS
