import HaloOS.Param
import Mathlib.Data.Int.Notation
import Mathlib.Logic.Function.Basic
import Mathlib.Order.Basic
import Mathlib.Tactic.Common

/-! `strncpy` and `strncmp` of `kernel/util.c`. A string is the memory from a pointer on; the
comparison records which bytes of its second argument it reads. -/

namespace HaloOS.Util

/-- `while (n-- > 0) *s++ = 0`, from place `k` on. -/
def zeroLoop : ℕ → ℕ → (ℕ → Byte) → ℕ → Byte
  | 0, _, s => s
  | n + 1, k, s => zeroLoop n (k + 1) (Function.update s k 0)

/-- `while (n-- > 0 && (*s++ = *t++) != 0)` from place `k` on, and the loop behind it. -/
def copyLoop (t : ℕ → Byte) : ℕ → ℕ → (ℕ → Byte) → ℕ → Byte
  | 0, _, s => s
  | n + 1, k, s =>
    let s := Function.update s k (t k)
    if t k ≠ 0 then copyLoop t n (k + 1) s else zeroLoop n (k + 1) s

/-- `strncpy`: what stands at `s` afterwards. -/
def strncpy (s t : ℕ → Byte) (n : ℕ) : ℕ → Byte := copyLoop t n 0 s

/-- The loop of `strncmp` from place `k` on, and the `return` behind it. -/
def compareLoop (p q : ℕ → Byte) : ℕ → ℕ → ℤ × List ℕ
  | 0, _ => (0, [])
  | n + 1, k =>
    if p k = 0 then ((p k).toNat - (q k).toNat, [k])
    else if p k = q k then
      let (r, reads) := compareLoop p q n (k + 1)
      (r, k :: reads)
    else ((p k).toNat - (q k).toNat, [k, k])

/-- `strncmp`: its result, and the places of `q` that it reads. -/
def strncmp (p q : ℕ → Byte) (n : ℕ) : ℤ × List ℕ := compareLoop p q n 0

/-- The first `n` characters of a string, padded with zeros behind its NUL. -/
def padded (t : ℕ → Byte) (k : ℕ) : Byte := if ∀ j < k, t j ≠ 0 then t k else 0

/-- Two strings agree on their first `n` characters, up to and with a NUL. -/
def Agree (p t : ℕ → Byte) (n : ℕ) : Prop := ∀ k < n, (∀ j < k, p j ≠ 0) → p k = t k

instance (p t : ℕ → Byte) (n : ℕ) : Decidable (Agree p t n) :=
  inferInstanceAs (Decidable (∀ k < n, (∀ j < k, p j ≠ 0) → p k = t k))

section Copying

variable {s t : ℕ → Byte} {n k o : ℕ}

theorem zeroLoop_at (n k : ℕ) (s : ℕ → Byte) (o : ℕ) :
    zeroLoop n k s o = if k ≤ o ∧ o < k + n then 0 else s o := by
  induction n generalizing k s with
  | zero => rw [zeroLoop, if_neg (by omega)]
  | succ n ih =>
    rw [zeroLoop, ih]
    by_cases here : o = k
    · subst here
      rw [if_neg (by omega), if_pos (by omega), Function.update_self]
    · rw [Function.update_of_ne here]
      by_cases inside : k ≤ o ∧ o < k + (n + 1)
      · rw [if_pos (by omega), if_pos inside]
      · rw [if_neg (by omega), if_neg inside]

/-- From place `k` on the characters are copied, as long as no NUL stood before. -/
theorem copyLoop_at (earlier : ∀ j < k, t j ≠ 0) :
    copyLoop t n k s o = if k ≤ o ∧ o < k + n then padded t o else s o := by
  induction n generalizing k s with
  | zero => rw [copyLoop, if_neg (by omega)]
  | succ n ih =>
    unfold copyLoop
    dsimp only
    by_cases more : t k ≠ 0
    · have further : ∀ j < k + 1, t j ≠ 0 := fun j below => by
        rcases Nat.lt_succ_iff_lt_or_eq.mp below with before | rfl
        · exact earlier j before
        · exact more
      rw [if_pos more, ih further]
      by_cases here : o = k
      · subst here
        rw [if_neg (by omega), if_pos (by omega), Function.update_self, padded, if_pos earlier]
      · rw [Function.update_of_ne here]
        by_cases inside : k ≤ o ∧ o < k + (n + 1)
        · rw [if_pos (by omega), if_pos inside]
        · rw [if_neg (by omega), if_neg inside]
    · rw [if_neg more, zeroLoop_at]
      have zero : t k = 0 := not_not.mp more
      by_cases here : o = k
      · subst here
        rw [if_neg (by omega), if_pos (by omega), Function.update_self, padded, if_pos earlier]
      · rw [Function.update_of_ne here]
        by_cases inside : k ≤ o ∧ o < k + (n + 1)
        · rw [if_pos (by omega), if_pos inside, padded, if_neg fun all => all k (by omega) zero]
        · rw [if_neg (by omega), if_neg inside]

/-- Whatever stood there before, the first `n` places hold the padded characters. -/
theorem strncpy_at (s t : ℕ → Byte) (n k : ℕ) :
    strncpy s t n k = if k < n then padded t k else s k := by
  rw [strncpy, copyLoop_at fun j below => absurd below (Nat.not_lt_zero j)]
  simp

end Copying

section Comparing

variable {p q t : ℕ → Byte} {n k : ℕ}

theorem difference_zero (a b : Byte) : (a.toNat : ℤ) - b.toNat = 0 ↔ a = b := by
  constructor
  · intro zero
    exact BitVec.eq_of_toNat_eq (by omega)
  · rintro rfl
    omega

theorem compareLoop_zero (p q : ℕ → Byte) (n k : ℕ) : (compareLoop p q n k).1 = 0 ↔
    ∀ j < n, (∀ o < j, p (k + o) ≠ 0) → p (k + j) = q (k + j) := by
  induction n generalizing k with
  | zero => simp [compareLoop]
  | succ n ih =>
    unfold compareLoop
    by_cases stop : p k = 0
    · rw [if_pos stop, difference_zero]
      constructor
      · intro same j _ earlier
        cases j with
        | zero => exact same
        | succ j => exact absurd stop (earlier 0 (by omega))
      · intro all
        exact all 0 (by omega) fun o less => absurd less (Nat.not_lt_zero o)
    rw [if_neg stop]
    by_cases same : p k = q k
    · rw [if_pos same, ih]
      constructor
      · intro rest j small earlier
        cases j with
        | zero => exact same
        | succ j =>
          have next := rest j (by omega) fun o less => by
            have some := earlier (o + 1) (by omega)
            rwa [show k + (o + 1) = k + 1 + o by omega] at some
          rwa [show k + 1 + j = k + (j + 1) by omega] at next
      · intro all j small earlier
        have next := all (j + 1) (by omega) fun o less => by
          cases o with
          | zero => exact stop
          | succ o =>
            have some := earlier o (by omega)
            rwa [show k + 1 + o = k + (o + 1) by omega] at some
        rwa [show k + (j + 1) = k + 1 + j by omega] at next
    · rw [if_neg same, difference_zero]
      exact iff_of_false same fun all =>
        same (all 0 (by omega) fun o less => absurd less (Nat.not_lt_zero o))

theorem compareLoop_reads (p q : ℕ → Byte) (n k : ℕ) : ∀ o ∈ (compareLoop p q n k).2, o < k + n := by
  induction n generalizing k with
  | zero => exact fun o member => absurd member List.not_mem_nil
  | succ n ih =>
    intro o member
    unfold compareLoop at member
    by_cases stop : p k = 0
    · rw [if_pos stop, List.mem_singleton] at member
      omega
    rw [if_neg stop] at member
    by_cases same : p k = q k
    · rw [if_pos same] at member
      rcases List.mem_cons.mp member with rfl | later
      · omega
      · have below := ih (k + 1) o later
        omega
    · rw [if_neg same] at member
      simp only [List.mem_cons, List.not_mem_nil, or_false, or_self] at member
      omega

theorem strncmp_zero (p q : ℕ → Byte) (n : ℕ) : (strncmp p q n).1 = 0 ↔ Agree p q n := by
  rw [strncmp, compareLoop_zero]
  simp only [Nat.zero_add]
  rfl

/-- No byte behind the first `n` is read, wherever the NUL of `q` is. -/
theorem strncmp_reads (p q : ℕ → Byte) (n : ℕ) : ∀ o ∈ (strncmp p q n).2, o < n := by
  intro o member
  have below := compareLoop_reads p q n 0 o member
  omega

/-- Padding does not matter: a string agrees with the padded characters when it agrees with the
string that they are from. -/
theorem agree_strncpy (p s t : ℕ → Byte) (n : ℕ) : Agree p (strncpy s t n) n ↔ Agree p t n := by
  have copied : ∀ k < n, strncpy s t n k = padded t k := fun k small => by
    rw [strncpy_at, if_pos small]
  constructor
  · intro agree k small
    induction k using Nat.strongRecOn with
    | ind k ih =>
      intro earlier
      have before : ∀ j < k, t j ≠ 0 := fun j below => by
        rw [← ih j below (by omega) fun o less => earlier o (by omega)]
        exact earlier j below
      rw [agree k small earlier, copied k small, padded, if_pos before]
  · intro agree k small earlier
    have before : ∀ j < k, t j ≠ 0 := fun j below => by
      rw [← agree j (by omega) fun o less => earlier o (by omega)]
      exact earlier j below
    rw [copied k small, padded, if_pos before]
    exact agree k small earlier

end Comparing

end HaloOS.Util
