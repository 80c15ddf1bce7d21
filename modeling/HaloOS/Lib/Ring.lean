import Mathlib.Data.Fin.Basic
import Mathlib.Data.Nat.ModEq
import Mathlib.Logic.Function.Basic
import Mathlib.Tactic.Common

/-! A ring of `N` slots addressed by free-running counters that wrap at `M`, a
multiple of `N`. The queue a ring holds lies between a consumer's counter and a
producer's; the counters may wrap any number of times. -/

namespace HaloOS.Lib

variable {α : Type} {N M : ℕ} [NeZero N] {ring : Fin N → α} {base top : ℕ} {q : List α}

/-- The slot a counter addresses. -/
def slotOf (N : ℕ) [NeZero N] (counter : ℕ) : Fin N := Fin.ofNat N counter

/-- Between `base` and `top` the ring holds exactly `q`, oldest first. -/
structure RingHolds (M : ℕ) (ring : Fin N → α) (base top : ℕ) (q : List α) : Prop where
  base_lt : base < M
  top_eq : top = (base + q.length) % M
  slot : ∀ k (inside : k < q.length), ring (slotOf N (base + k)) = q[k]

theorem slotOf_mod (divides : N ∣ M) (counter : ℕ) :
    slotOf N (counter % M) = slotOf N counter := by
  apply Fin.ext
  simp only [slotOf, Fin.val_ofNat]
  exact Nat.mod_mod_of_dvd counter divides

theorem slotOf_inj {a j k : ℕ} (left : j < N) (right : k < N)
    (same : slotOf N (a + j) = slotOf N (a + k)) : j = k := by
  have values := congrArg Fin.val same
  simp only [slotOf, Fin.val_ofNat] at values
  have equal : j ≡ k [MOD N] := Nat.ModEq.add_left_cancel' a values
  rwa [Nat.ModEq, Nat.mod_eq_of_lt left, Nat.mod_eq_of_lt right] at equal

theorem RingHolds.empty (M : ℕ) (ring : Fin N → α) (inside : base < M) :
    RingHolds M ring base base [] where
  base_lt := inside
  top_eq := by simp [Nat.mod_eq_of_lt inside]
  slot := by simp

/-- While the ring is not full the producer's slot is none of the queue's. -/
theorem RingHolds.slot_apart (holds : RingHolds M ring base top q) (divides : N ∣ M)
    (room : q.length < N) {k : ℕ} (inside : k < q.length) :
    slotOf N (base + k) ≠ slotOf N top := by
  rw [holds.top_eq, slotOf_mod divides]
  intro same
  have := slotOf_inj (inside.trans room) room same
  omega

/-- The counters' difference is what the ring holds. -/
theorem RingHolds.length_eq (holds : RingHolds M ring base top q) (small : q.length < M) :
    (top + M - base) % M = q.length := by
  have inside := holds.base_lt
  rw [holds.top_eq]
  by_cases wraps : base + q.length < M
  · rw [Nat.mod_eq_of_lt wraps, show base + q.length + M - base = q.length + M by omega,
      Nat.add_mod_right, Nat.mod_eq_of_lt small]
  · have wrapped : (base + q.length) % M = base + q.length - M := by
      rw [Nat.mod_eq_sub_mod (by omega), Nat.mod_eq_of_lt (by omega)]
    rw [wrapped, show base + q.length - M + M - base = q.length by omega, Nat.mod_eq_of_lt small]

/-- A producer writes its slot and advances; a ring that is not full keeps the rest. -/
theorem RingHolds.push (holds : RingHolds M ring base top q) (divides : N ∣ M)
    (room : q.length < N) (x : α) :
    RingHolds M (Function.update ring (slotOf N top) x) base ((top + 1) % M) (q ++ [x]) where
  base_lt := holds.base_lt
  top_eq := by
    rw [holds.top_eq, Nat.mod_add_mod, List.length_append, List.length_singleton, Nat.add_assoc]
  slot := by
    intro k inside
    by_cases last : k = q.length
    · subst last
      rw [holds.top_eq, slotOf_mod divides]
      simp
    · have before : k < q.length := by simp at inside; omega
      rw [Function.update_of_ne (holds.slot_apart divides room before), holds.slot k before,
        List.getElem_append_left before]

/-- A slot outside the queue may be written ahead of publishing it. -/
theorem RingHolds.write_ahead (holds : RingHolds M ring base top q) (divides : N ∣ M)
    (room : q.length < N) (x : α) :
    RingHolds M (Function.update ring (slotOf N top) x) base top q where
  base_lt := holds.base_lt
  top_eq := holds.top_eq
  slot := by
    intro k inside
    rw [Function.update_of_ne (holds.slot_apart divides room inside), holds.slot k inside]

/-- Publishing the slot that was written ahead. -/
theorem RingHolds.publish (holds : RingHolds M ring base top q) (divides : N ∣ M)
    {x : α} (written : ring (slotOf N top) = x) :
    RingHolds M ring base ((top + 1) % M) (q ++ [x]) where
  base_lt := holds.base_lt
  top_eq := by
    rw [holds.top_eq, Nat.mod_add_mod, List.length_append, List.length_singleton, Nat.add_assoc]
  slot := by
    intro k inside
    by_cases last : k = q.length
    · subst last
      rw [holds.top_eq, slotOf_mod divides] at written
      simpa using written
    · have before : k < q.length := by simp at inside; omega
      rw [holds.slot k before, List.getElem_append_left before]

/-- A consumer finds the oldest entry in its slot and advances past it. -/
theorem RingHolds.pop {x : α} (holds : RingHolds M ring base top (x :: q))
    (divides : N ∣ M) :
    ring (slotOf N base) = x ∧ RingHolds M ring ((base + 1) % M) top q := by
  refine ⟨(holds.slot 0 (Nat.zero_lt_succ _)).trans (List.getElem_cons_zero ..), ?_, ?_, ?_⟩
  · exact Nat.mod_lt _ (Nat.lt_of_le_of_lt (Nat.zero_le _) holds.base_lt)
  · rw [holds.top_eq, Nat.mod_add_mod, List.length_cons]
    congr 1
    omega
  · intro k inside
    have next := holds.slot (k + 1) (by simpa using inside)
    have same : slotOf N ((base + 1) % M + k) = slotOf N (base + (k + 1)) := by
      rw [← slotOf_mod divides, Nat.mod_add_mod, slotOf_mod divides]
      congr 1
      omega
    rw [same, next]
    simp

/-- The counters agree exactly when nothing is queued. -/
theorem RingHolds.eq_iff (holds : RingHolds M ring base top q) (small : q.length < M) :
    base = top ↔ q = [] := by
  constructor
  · intro same
    have equal : (base + q.length) % M = base % M := by
      rw [← holds.top_eq, ← same, Nat.mod_eq_of_lt holds.base_lt]
    have zero : q.length ≡ 0 [MOD M] := Nat.ModEq.add_left_cancel' base equal
    rw [Nat.ModEq, Nat.mod_eq_of_lt small, Nat.zero_mod] at zero
    exact List.eq_nil_of_length_eq_zero zero
  · rintro rfl
    rw [holds.top_eq]
    simp [Nat.mod_eq_of_lt holds.base_lt]

/-- A producer takes its newest entry back. -/
theorem RingHolds.unpush {x : α} (holds : RingHolds M ring base top (q ++ [x]))
    (divides : N ∣ M) :
    ring (slotOf N ((top + M - 1) % M)) = x ∧
      RingHolds M ring base ((top + M - 1) % M) q := by
  have inside := holds.base_lt
  have back : (top + M - 1) % M = (base + q.length) % M := by
    rw [holds.top_eq, List.length_append, List.length_singleton, Nat.add_sub_assoc (by omega),
      Nat.mod_add_mod, show base + (q.length + 1) + (M - 1) = base + q.length + M by omega,
      Nat.add_mod_right]
  refine ⟨?_, inside, back, ?_⟩
  · rw [back, slotOf_mod divides, holds.slot q.length (by simp)]
    simp
  · intro k before
    rw [holds.slot k (by simp; omega), List.getElem_append_left before]

/-- What a counter inside the queue has behind it. -/
theorem RingHolds.front {later : List α} {mark : ℕ}
    (holds : RingHolds M ring base top (q ++ later)) (marked : mark = (base + q.length) % M) :
    RingHolds M ring base mark q := by
  refine ⟨holds.base_lt, marked, ?_⟩
  intro k inside
  rw [holds.slot k (by simp; omega), List.getElem_append_left inside]

end HaloOS.Lib
