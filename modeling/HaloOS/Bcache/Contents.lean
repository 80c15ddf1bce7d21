import HaloOS.Bcache.Model

/-! What a reader of the cache sees. `Bcache.block` is the contents of a block as
the next `bread` will deliver it; the lemmas below say how each cache operation
changes it, and in particular when recycling a buffer does. -/

namespace HaloOS

open Lib

namespace Bcache

/-- The contents `bread` delivers: the valid cached copy, else the disk's. -/
def block (c : Bcache) (dev n : ℕ) : Block :=
  match c.lookup dev n with
  | some i => if (c.bufs i).vaild then (c.bufs i).data else c.disk n
  | none => c.disk n

/-- The buffer that `bget` takes away from its block to serve a miss. -/
def recycled (c : Bcache) (dev n : ℕ) : Option (Fin NBUF) :=
  match c.lookup dev n with
  | some _ => none
  | none => c.victim

/-- The list holds every buffer once, a tag names one buffer, and a lock is only
held together with a reference. -/
structure Wf (c : Bcache) : Prop where
  nodup : c.lru.Nodup
  complete : ∀ i, i ∈ c.lru
  tags : ∀ i j, (c.bufs i).dev ≠ 0 → (c.bufs i).dev = (c.bufs j).dev →
    (c.bufs i).blockno = (c.bufs j).blockno → i = j
  held : ∀ i, (c.bufs i).sk.locked = true → 0 < (c.bufs i).refcnt

theorem lookup_tag {c : Bcache} {dev n : ℕ} {i : Fin NBUF}
    (found : c.lookup dev n = some i) :
    (c.bufs i).dev = dev ∧ (c.bufs i).blockno = n := by
  simpa using List.find?_some found

theorem victim_refcnt {c : Bcache} {i : Fin NBUF} (found : c.victim = some i) :
    (c.bufs i).refcnt = 0 := by
  simpa using List.find?_some found

theorem Wf.lookup_iff {c : Bcache} (wf : c.Wf) {dev n : ℕ} (real : dev ≠ 0)
    {i : Fin NBUF} :
    c.lookup dev n = some i ↔ (c.bufs i).dev = dev ∧ (c.bufs i).blockno = n := by
  refine ⟨lookup_tag, ?_⟩
  rintro ⟨rfl, rfl⟩
  cases found : c.lookup (c.bufs i).dev (c.bufs i).blockno with
  | none =>
    have absent := List.find?_eq_none.mp found i (wf.complete i)
    simp at absent
  | some j =>
    obtain ⟨dev, blockno⟩ := lookup_tag found
    rw [wf.tags i j real dev.symm blockno.symm]

theorem Wf.lookup_none {c : Bcache} (wf : c.Wf) {dev n : ℕ}
    (missing : c.lookup dev n = none) (i : Fin NBUF) :
    ¬ ((c.bufs i).dev = dev ∧ (c.bufs i).blockno = n) := by
  have absent := List.find?_eq_none.mp missing i (wf.complete i)
  simpa using absent

/-- With unique tags, a block's contents are those of the buffer that carries it. -/
theorem Wf.block_of_tag {c : Bcache} (wf : c.Wf) {i : Fin NBUF}
    (real : (c.bufs i).dev ≠ 0) :
    c.block (c.bufs i).dev (c.bufs i).blockno =
      if (c.bufs i).vaild then (c.bufs i).data else c.disk (c.bufs i).blockno := by
  unfold block
  rw [(wf.lookup_iff real).mpr ⟨rfl, rfl⟩]

theorem Wf.block_of_untagged {c : Bcache} (wf : c.Wf) {dev n : ℕ} (real : dev ≠ 0)
    (untagged : ∀ i, ¬ ((c.bufs i).dev = dev ∧ (c.bufs i).blockno = n)) :
    c.block dev n = c.disk n := by
  unfold block
  cases found : c.lookup dev n with
  | none => rfl
  | some i => exact absurd ((wf.lookup_iff real).mp found) (untagged i)

end Bcache

theorem wf_initBcache (disk : ℕ → Block) : (initBcache disk).Wf where
  nodup := by simpa [initBcache] using List.nodup_finRange NBUF
  complete := by simp [initBcache]
  tags := by simp [initBcache]
  held := by simp [initBcache]

theorem block_initBcache (disk : ℕ → Block) {dev : ℕ} (real : dev ≠ 0) (n : ℕ) :
    (initBcache disk).block dev n = disk n := by
  apply (wf_initBcache disk).block_of_untagged real
  intro i tagged
  exact real tagged.1.symm

/-- The buffer `bread` hands out: tagged, valid, locked by the caller. -/
def loaded (me dev blockno refcnt : ℕ) (data : Block) : Buf :=
  { vaild := true, dev, blockno, sk := ⟨true, me⟩, refcnt, data }

private theorem lockBuf_ok {me : ℕ} {i : Fin NBUF} {c c' : Bcache} {u : Unit}
    (returned : lockBuf me i c = .ok (u, c')) :
    (c.bufs i).sk.locked = false ∧ c' = c.setBuf i ({ · with sk := ⟨true, me⟩ }) := by
  unfold lockBuf sleepLock at returned
  cases locked : (c.bufs i).sk.locked with
  | true => simp [locked] at returned
  | false =>
    simp [locked] at returned
    exact ⟨rfl, returned.symm⟩

/-- Everything a returning `bget` can do: a hit adds a reference, a miss takes over
the victim. -/
theorem bget_ok {me dev n : ℕ} {i : Fin NBUF} {c c' : Bcache}
    (returned : bget me dev n c = .ok (i, c')) :
    (c.bufs i).sk.locked = false ∧
    ((c.lookup dev n = some i ∧
      c' = c.setBuf i fun b => { b with refcnt := b.refcnt + 1, sk := ⟨true, me⟩ }) ∨
     (c.recycled dev n = some i ∧ c.lookup dev n = none ∧
      c' = c.setBuf i fun b =>
        { b with refcnt := 1, vaild := false, dev, blockno := n, sk := ⟨true, me⟩ })) := by
  rw [bget, bind_ok] at returned
  obtain ⟨_, _, read, rest⟩ := returned
  obtain ⟨rfl, rfl⟩ := gets_ok.mp read
  simp only [id_eq] at rest
  cases found : c.lookup dev n with
  | some j =>
    simp only [found] at rest
    rw [bind_ok] at rest
    obtain ⟨_, mid, referenced, rest⟩ := rest
    obtain rfl := update_ok.mp referenced
    rw [bind_ok] at rest
    obtain ⟨_, last, locking, rest⟩ := rest
    obtain ⟨rfl, rfl⟩ := pure_ok.mp rest
    obtain ⟨free, rfl⟩ := lockBuf_ok locking
    refine ⟨by simpa [Bcache.setBuf] using free, .inl ⟨rfl, ?_⟩⟩
    simp [Bcache.setBuf]
  | none =>
    simp only [found] at rest
    cases chosen : c.victim with
    | none => simp [chosen] at rest
    | some j =>
      simp only [chosen] at rest
      rw [bind_ok] at rest
      obtain ⟨_, mid, tagged, rest⟩ := rest
      obtain rfl := update_ok.mp tagged
      rw [bind_ok] at rest
      obtain ⟨_, last, locking, rest⟩ := rest
      obtain ⟨rfl, rfl⟩ := pure_ok.mp rest
      obtain ⟨free, rfl⟩ := lockBuf_ok locking
      refine ⟨by simpa [Bcache.setBuf] using free, .inr ⟨?_, rfl, ?_⟩⟩
      · simp [Bcache.recycled, found, chosen]
      · simp [Bcache.setBuf]

/-- `bread` returns a loaded buffer with the block's contents and touches nothing
else. The references are counted on a hit and start at one on a miss. -/
theorem bread_ok {me dev n : ℕ} {i : Fin NBUF} {c c' : Bcache}
    (returned : bread me dev n c = .ok (i, c')) :
    ∃ refs, c' = c.setBuf i (fun _ => loaded me dev n refs (c.block dev n)) ∧
      (c.bufs i).sk.locked = false ∧
      ((c.lookup dev n = some i ∧ refs = (c.bufs i).refcnt + 1) ∨
        (c.recycled dev n = some i ∧ c.lookup dev n = none ∧ refs = 1)) := by
  rw [bread, bind_ok] at returned
  obtain ⟨r, c₁, got, rest⟩ := returned
  rw [bind_ok] at rest
  obtain ⟨vaild, c₂, read, rest⟩ := rest
  obtain ⟨rfl, rfl⟩ := gets_ok.mp read
  rw [bind_ok] at rest
  obtain ⟨_, c₃, filled, rest⟩ := rest
  obtain ⟨rfl, rfl⟩ := pure_ok.mp rest
  rw [onlyIf_run] at filled
  obtain ⟨free, hit | miss⟩ := bget_ok got
  · obtain ⟨found, rfl⟩ := hit
    obtain ⟨rfl, rfl⟩ := Bcache.lookup_tag found
    refine ⟨(c.bufs r).refcnt + 1, ?_, free, .inl ⟨found, rfl⟩⟩
    cases vaild : (c.bufs r).vaild with
    | true =>
      simp [Bcache.setBuf, vaild] at filled
      subst filled
      simp [Bcache.setBuf, loaded, Bcache.block, found, vaild]
    | false =>
      simp [Bcache.setBuf, vaild, bind_run, diskRead] at filled
      subst filled
      simp [Bcache.setBuf, loaded, Bcache.block, found, vaild]
  · obtain ⟨chosen, missing, rfl⟩ := miss
    refine ⟨1, ?_, free, .inr ⟨chosen, missing, rfl⟩⟩
    simp [Bcache.setBuf, bind_run, diskRead] at filled
    subst filled
    simp [Bcache.setBuf, loaded, Bcache.block, missing]

/-- `brelease` by the holder unlocks and drops one reference. -/
theorem brelease_ok {me : ℕ} {i : Fin NBUF} {c c' : Bcache} {u : Unit}
    (returned : brelease me i c = .ok (u, c')) :
    holdingsleep me (c.bufs i).sk = true ∧
      c' = unref i (c.setBuf i fun b => { b with sk := sleepUnlock b.sk }) := by
  rw [brelease, bind_ok] at returned
  obtain ⟨_, _, read, rest⟩ := returned
  obtain ⟨rfl, rfl⟩ := gets_ok.mp read
  rw [bind_ok] at rest
  obtain ⟨_, _, checked, rest⟩ := rest
  obtain ⟨holding, rfl⟩ := stopIf_ok.mp checked
  rw [bind_ok] at rest
  obtain ⟨_, _, unlocked, rest⟩ := rest
  obtain rfl := update_ok.mp unlocked
  obtain rfl := update_ok.mp rest
  exact ⟨by simpa using holding, rfl⟩

@[simp] theorem unref_disk (i : Fin NBUF) (c : Bcache) : (unref i c).disk = c.disk := rfl

theorem unref_bufs (i : Fin NBUF) (c : Bcache) :
    (unref i c).bufs =
      Function.update c.bufs i { c.bufs i with refcnt := (c.bufs i).refcnt - 1 } := rfl

theorem mem_unref_lru {i j : Fin NBUF} {c : Bcache} (complete : ∀ i, i ∈ c.lru) :
    j ∈ (unref i c).lru := by
  unfold unref Bcache.setBuf
  split
  · by_cases same : j = i
    · simp [same]
    · simp [same, List.mem_erase_of_ne same, complete j]
  · exact complete j

theorem nodup_unref_lru {i : Fin NBUF} {c : Bcache} (nodup : c.lru.Nodup) :
    (unref i c).lru.Nodup := by
  unfold unref Bcache.setBuf
  split
  · exact List.nodup_cons.mpr ⟨nodup.not_mem_erase, nodup.erase i⟩
  · exact nodup

section Preservation

variable {me dev n : ℕ} {i : Fin NBUF} {c c' : Bcache}

theorem wf_bread (wf : c.Wf) (returned : bread me dev n c = .ok (i, c')) : c'.Wf := by
  obtain ⟨refs, rfl, free, how⟩ := bread_ok returned
  refine ⟨wf.nodup, wf.complete, ?_, ?_⟩
  · -- The new tag clashes with no other buffer: a hit keeps it, a miss found none.
    have fresh : ∀ j, j ≠ i → dev ≠ 0 →
        ¬ ((c.bufs j).dev = dev ∧ (c.bufs j).blockno = n) := by
      intro j other real tagged
      rcases how with ⟨found, _⟩ | ⟨_, missing, _⟩
      · obtain ⟨dev_eq, n_eq⟩ := Bcache.lookup_tag found
        exact other (wf.tags j i (tagged.1 ▸ real) (tagged.1.trans dev_eq.symm)
          (tagged.2.trans n_eq.symm))
      · exact wf.lookup_none missing j tagged
    intro j k real sameDev sameBlock
    by_cases left : j = i <;> by_cases right : k = i
    · rw [left, right]
    · subst left
      simp [Bcache.setBuf, right, loaded] at real sameDev sameBlock
      exact absurd ⟨sameDev.symm, sameBlock.symm⟩ (fresh k right real)
    · subst right
      simp [Bcache.setBuf, left, loaded] at real sameDev sameBlock
      exact absurd ⟨sameDev, sameBlock⟩ (fresh j left (sameDev ▸ real))
    · simp [Bcache.setBuf, left, right] at real sameDev sameBlock
      exact wf.tags j k real sameDev sameBlock
  · intro j
    by_cases same : j = i
    · subst same
      rcases how with ⟨_, rfl⟩ | ⟨_, _, rfl⟩ <;> simp [Bcache.setBuf, loaded]
    · simpa [Bcache.setBuf, same] using wf.held j

theorem wf_brelease {u : Unit} (wf : c.Wf) (returned : brelease me i c = .ok (u, c')) :
    c'.Wf := by
  obtain ⟨holding, rfl⟩ := brelease_ok returned
  refine ⟨nodup_unref_lru wf.nodup, fun j => mem_unref_lru wf.complete, ?_, ?_⟩
  · intro j k
    have tag : ∀ l, ((unref i (c.setBuf i fun b =>
        { b with sk := sleepUnlock b.sk })).bufs l).dev = (c.bufs l).dev ∧
        ((unref i (c.setBuf i fun b =>
        { b with sk := sleepUnlock b.sk })).bufs l).blockno = (c.bufs l).blockno := by
      intro l
      rw [unref_bufs]
      by_cases same : l = i
      · subst same
        simp [Bcache.setBuf]
      · simp [Bcache.setBuf, same]
    rw [(tag j).1, (tag j).2, (tag k).1, (tag k).2]
    exact wf.tags j k
  · intro j locked
    rw [unref_bufs] at locked ⊢
    by_cases same : j = i
    · subst same
      simp [Bcache.setBuf, sleepUnlock] at locked
    · simpa [Bcache.setBuf, same] using wf.held j (by simpa [Bcache.setBuf, same] using locked)

/-- Reading changes no block's contents, except that the recycled buffer's own
block falls back to what the disk holds. -/
theorem block_bread (wf : c.Wf) (returned : bread me dev n c = .ok (i, c'))
    {d : ℕ} (real : d ≠ 0) (m : ℕ) :
    c'.block d m = c.block d m ∨
      (c.recycled dev n = some i ∧ (c.bufs i).dev = d ∧ (c.bufs i).blockno = m ∧
        (c.bufs i).vaild = true ∧ c'.block d m = c.disk m) := by
  have wf' := wf_bread wf returned
  obtain ⟨refs, rfl, free, how⟩ := bread_ok returned
  by_cases asked : d = dev ∧ m = n
  · -- The block that was read is now cached with the contents it had.
    obtain ⟨rfl, rfl⟩ := asked
    left
    have tagged := wf'.block_of_tag (i := i) (by simpa [Bcache.setBuf, loaded] using real)
    simpa [Bcache.setBuf, loaded] using tagged
  by_cases owner : ∃ j, (c.bufs j).dev = d ∧ (c.bufs j).blockno = m
  · obtain ⟨j, rfl, rfl⟩ := owner
    by_cases same : j = i
    · -- The block's own buffer was taken for another tag.
      subst same
      rcases how with ⟨found, _⟩ | ⟨chosen, missing, _⟩
      · obtain ⟨dev_eq, n_eq⟩ := Bcache.lookup_tag found
        exact absurd ⟨dev_eq, n_eq⟩ asked
      · have gone : (c.setBuf j fun _ => loaded me dev n refs (c.block dev n)).block
            (c.bufs j).dev (c.bufs j).blockno = c.disk (c.bufs j).blockno := by
          apply wf'.block_of_untagged real
          intro k tagged
          by_cases self : k = j
          · subst self
            simp [Bcache.setBuf, loaded] at tagged
            exact asked ⟨tagged.1.symm, tagged.2.symm⟩
          · simp [Bcache.setBuf, self] at tagged
            exact self (wf.tags k j (tagged.1 ▸ real) tagged.1 tagged.2)
        cases vaild : (c.bufs j).vaild with
        | true => exact .inr ⟨chosen, rfl, rfl, rfl, gone⟩
        | false =>
          left
          rw [gone, wf.block_of_tag real]
          simp [vaild]
    · left
      have tagged := wf'.block_of_tag (i := j) (by simpa [Bcache.setBuf, same] using real)
      rw [wf.block_of_tag real]
      simpa [Bcache.setBuf, same] using tagged
  · left
    have free' : ∀ j, ¬ ((c.bufs j).dev = d ∧ (c.bufs j).blockno = m) :=
      fun j tagged => owner ⟨j, tagged⟩
    rw [wf.block_of_untagged real free']
    apply wf'.block_of_untagged real
    intro j tagged
    by_cases same : j = i
    · subst same
      simp [Bcache.setBuf, loaded] at tagged
      exact asked ⟨tagged.1.symm, tagged.2.symm⟩
    · exact free' j (by simpa [Bcache.setBuf, same] using tagged)

/-- The contents depend only on tags, valid copies and the disk. -/
theorem Bcache.Wf.block_congr (wf : c.Wf) (wf' : c'.Wf) {d : ℕ} (real : d ≠ 0)
    (disk : c'.disk = c.disk)
    (same : ∀ j, (c'.bufs j).dev = (c.bufs j).dev ∧
      (c'.bufs j).blockno = (c.bufs j).blockno ∧
      (c'.bufs j).vaild = (c.bufs j).vaild ∧ (c'.bufs j).data = (c.bufs j).data) (m : ℕ) :
    c'.block d m = c.block d m := by
  by_cases owner : ∃ j, (c.bufs j).dev = d ∧ (c.bufs j).blockno = m
  · obtain ⟨j, rfl, rfl⟩ := owner
    obtain ⟨dev, blockno, vaild, data⟩ := same j
    have after := wf'.block_of_tag (i := j) (by rw [dev]; exact real)
    rw [dev, blockno, vaild, data, disk] at after
    rw [after, wf.block_of_tag real]
  · rw [wf.block_of_untagged real (fun j tagged => owner ⟨j, tagged⟩), ← disk]
    apply wf'.block_of_untagged real
    intro j tagged
    obtain ⟨dev, blockno, _, _⟩ := same j
    exact owner ⟨j, by rw [← dev, ← blockno]; exact tagged⟩

theorem block_brelease {u : Unit} (wf : c.Wf) (returned : brelease me i c = .ok (u, c'))
    {d : ℕ} (real : d ≠ 0) (m : ℕ) : c'.block d m = c.block d m := by
  have wf' := wf_brelease wf returned
  obtain ⟨holding, rfl⟩ := brelease_ok returned
  apply wf.block_congr wf' real rfl
  intro j
  rw [unref_bufs]
  by_cases same : j = i
  · subst same
    simp [Bcache.setBuf]
  · simp [Bcache.setBuf, same]

theorem wf_setData (wf : c.Wf) (i : Fin NBUF) (data : Block) :
    (c.setBuf i ({ · with data })).Wf := by
  have same : ∀ j, ((c.setBuf i ({ · with data })).bufs j).dev = (c.bufs j).dev ∧
      ((c.setBuf i ({ · with data })).bufs j).blockno = (c.bufs j).blockno ∧
      ((c.setBuf i ({ · with data })).bufs j).sk = (c.bufs j).sk ∧
      ((c.setBuf i ({ · with data })).bufs j).refcnt = (c.bufs j).refcnt := by
    intro j
    by_cases here : j = i
    · subst here
      simp [Bcache.setBuf]
    · simp [Bcache.setBuf, here]
  refine ⟨wf.nodup, wf.complete, ?_, ?_⟩
  · intro j k
    obtain ⟨devj, blockj, _, _⟩ := same j
    obtain ⟨devk, blockk, _, _⟩ := same k
    rw [devj, devk, blockj, blockk]
    exact wf.tags j k
  · intro j
    obtain ⟨_, _, sk, refcnt⟩ := same j
    rw [sk, refcnt]
    exact wf.held j

/-- A store by the holder changes the contents of its own block only. -/
theorem block_setData (wf : c.Wf) {i : Fin NBUF} (vaild : (c.bufs i).vaild = true)
    (data : Block) {d : ℕ} (real : d ≠ 0) (m : ℕ) :
    (c.setBuf i ({ · with data })).block d m =
      if (c.bufs i).dev = d ∧ (c.bufs i).blockno = m then data else c.block d m := by
  have wf' := wf_setData wf i data
  split
  · rename_i tagged
    obtain ⟨rfl, rfl⟩ := tagged
    have here := wf'.block_of_tag (i := i) (by simpa [Bcache.setBuf] using real)
    simpa [Bcache.setBuf, vaild] using here
  · rename_i elsewhere
    by_cases owner : ∃ j, (c.bufs j).dev = d ∧ (c.bufs j).blockno = m
    · obtain ⟨j, rfl, rfl⟩ := owner
      have other : j ≠ i := by rintro rfl; exact elsewhere ⟨rfl, rfl⟩
      have there := wf'.block_of_tag (i := j) (by simpa [Bcache.setBuf, other] using real)
      rw [wf.block_of_tag real]
      simpa [Bcache.setBuf, other] using there
    · rw [wf.block_of_untagged real (fun j tagged => owner ⟨j, tagged⟩)]
      apply wf'.block_of_untagged real
      intro j tagged
      apply owner
      refine ⟨j, ?_⟩
      by_cases same : j = i
      · subst same
        simpa [Bcache.setBuf] using tagged
      · simpa [Bcache.setBuf, same] using tagged

end Preservation

end HaloOS
