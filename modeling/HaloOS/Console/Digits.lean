import HaloOS.Console.Printf

/-! Signed integers under `%d`: what `printInt` emits, against the decimal text of its argument,
and the places of `nums` that it reads. -/

namespace HaloOS.Printf

open Lib

/-- A character as a byte. -/
def code (c : Char) : Byte := BitVec.ofNat 8 c.toNat

/-- The decimal text of a number, with a leading `-` when it is negative. -/
def decimal (val : ℤ) : List Byte := (toString val).toList.map code

/-- The indices at which `intLoop` reads `nums`, the first one first. -/
def numsIndices : ℕ → ℤ → List ℤ
  | 0, _ => []
  | room + 1, val =>
    val.tmod 10 :: if val.tdiv 10 > 0 then numsIndices room (val.tdiv 10) else []

/-- The call returns, the decimal text of its argument goes out, and `nums` is read inside of the
array. A store behind `buf` would stop the call. -/
structure Shows (call : Pio Unit) (val : ℤ) : Prop where
  emits : Emits call (decimal val)
  inside : ∀ k ∈ numsIndices 16 val, 0 ≤ k ∧ k < 16

section Digits

variable {P : Program}

/-- What stays in `buf` are the bytes of `nums` at the indices that were read. -/
theorem intLoop_indices (P : Program) {room : ℕ} {val : ℤ} {buf buf' : List Byte} {t t' : Term}
    (run : intLoop P room val buf t = .ok (buf', t')) :
    buf' = ((numsIndices room val).map P.nums).reverse ++ buf := by
  induction room generalizing val buf with
  | zero => cases run
  | succ room ih =>
    unfold intLoop at run
    unfold numsIndices
    dsimp only at run
    by_cases more : val.tdiv 10 > 0
    · rw [if_pos more] at run ⊢
      rw [ih run]
      simp
    · rw [if_neg more] at run ⊢
      obtain ⟨rfl, -⟩ := pure_ok.mp run
      rfl

/-- The digits of a number that is not negative are those of its value. -/
theorem decimal_natCast (n : ℕ) : decimal n = (Nat.toDigits 10 n).map code := by
  unfold decimal
  rw [Int.toString_eq_repr, Int.repr_eq_if, if_pos (Int.natCast_nonneg n), Int.toNat_natCast,
    Nat.toList_repr]

/-- A negative number takes a sign and a digit at least. -/
theorem decimal_negative {val : ℤ} (negative : val < 0) : 2 ≤ (decimal val).length := by
  have digits := Nat.length_toDigits_pos (b := 10) (n := (-val).toNat)
  unfold decimal
  rw [Int.toString_eq_repr, Int.repr_eq_if, if_neg (by omega), List.length_map,
    String.toList_append, List.length_append, Nat.toList_repr]
  have sign : "-".toList.length = 1 := rfl
  omega

/-- `nums` holds the digit of every remainder. -/
theorem nums_digit (P : Program) {d : ℕ} (small : d < 10) : P.nums d = code (Nat.digitChar d) := by
  have entry : ∀ k < 10, hexDigits[k]? = some (code (Nat.digitChar k)) := by decide
  have held := P.table d (by omega)
  rw [entry d small] at held
  exact (Option.some.inj held).symm

/-- The loop puts the decimal digits in front of what `buf` holds. -/
theorem intLoop_decimal (P : Program) {room n : ℕ} (small : n < 10 ^ (room + 1))
    (buf : List Byte) (t : Term) :
    intLoop P (room + 1) n buf t = .ok (decimal n ++ buf, t) := by
  induction room generalizing n buf with
  | zero =>
    have digit : n < 10 := by simpa using small
    have stop : ¬ (n : ℤ).tdiv 10 > 0 := by
      rw [Int.tdiv_eq_ediv_of_nonneg (Int.natCast_nonneg n)]
      omega
    have last : (n : ℤ).tmod 10 = n := Int.tmod_eq_of_lt (Int.natCast_nonneg n) (by omega)
    rw [intLoop, if_neg stop, last, nums_digit P digit, decimal_natCast, Nat.toDigits_of_lt_base digit]
    rfl
  | succ room ih =>
    have quotient : (n : ℤ).tdiv 10 = (n / 10 : ℕ) := by
      rw [Int.tdiv_eq_ediv_of_nonneg (Int.natCast_nonneg n)]
      rfl
    have remainder : (n : ℤ).tmod 10 = (n % 10 : ℕ) := by
      rw [Int.tmod_eq_emod_of_nonneg (Int.natCast_nonneg n)]
      rfl
    have digit := nums_digit P (Nat.mod_lt n (by omega : 10 > 0))
    rw [intLoop, quotient, remainder, digit, decimal_natCast]
    by_cases one : n < 10
    · rw [if_neg (by omega), Nat.toDigits_of_lt_base one, Nat.mod_eq_of_lt one]
      rfl
    · have shorter : n / 10 < 10 ^ (room + 1) := by
        rw [Nat.pow_succ] at small
        omega
      rw [if_pos (by omega), ih shorter, decimal_natCast,
        Nat.toDigits_of_base_le (by omega) (by omega : 10 ≤ n)]
      simp

/-- A number that is not negative is divided down to zero, with digits for remainders. -/
theorem numsIndices_inside (room : ℕ) {val : ℤ} (positive : 0 ≤ val) :
    ∀ k ∈ numsIndices room val, 0 ≤ k ∧ k < 16 := by
  induction room generalizing val with
  | zero => exact fun k member => absurd member List.not_mem_nil
  | succ room ih =>
    intro k member
    unfold numsIndices at member
    rcases List.mem_cons.mp member with rfl | later
    · rw [Int.tmod_eq_emod_of_nonneg positive]
      omega
    · by_cases more : val.tdiv 10 > 0
      · rw [if_pos more] at later
        exact ih (Int.le_of_lt more) k later
      · rw [if_neg more] at later
        exact absurd later List.not_mem_nil

/-- Every quotient of a negative number ends the loop: one byte is put into `buf`. -/
theorem intLoop_negative (P : Program) {room : ℕ} {val : ℤ} (negative : val < 0) (t : Term) :
    intLoop P (room + 1) val [] t = .ok ([P.nums (val.tmod 10)], t) := by
  have stop : ¬ val.tdiv 10 > 0 := by
    have opposite := Int.tdiv_nonneg (Int.neg_nonneg_of_nonpos (Int.le_of_lt negative))
      (show (0 : ℤ) ≤ 10 by decide)
    rw [Int.neg_tdiv] at opposite
    omega
  rw [intLoop, if_neg stop]
  rfl

/-- A number that is not negative is shown, as long as `buf` has room for its digits. -/
theorem shows_natural (P : Program) {n : ℕ} (small : n < 10 ^ 16) :
    Shows (printInt P emit n) n := by
  refine ⟨fun t => ?_, numsIndices_inside 16 (Int.natCast_nonneg n)⟩
  rw [printInt, bind_run, intLoop_decimal P small, List.append_nil]
  exact emits_putAll (decimal n) t

/-- Of a negative number one byte goes out, the one at an index below the array or at its start. -/
theorem printInt_negative (P : Program) {val : ℤ} (negative : val < 0) :
    Emits (printInt P emit val) [P.nums (val.tmod 10)] := by
  intro t
  rw [printInt, bind_run, intLoop_negative P negative]
  exact emits_putAll [P.nums (val.tmod 10)] t

theorem not_shows_negative (P : Program) {val : ℤ} (negative : val < 0) :
    ¬ Shows (printInt P emit val) val := by
  intro shows
  have both := (shows.emits {}).symm.trans (printInt_negative P negative {})
  simp only [Except.ok.injEq, Prod.mk.injEq, Term.mk.injEq] at both
  have single := congrArg List.length both.2.1
  have longer := decimal_negative negative
  simp only [List.nil_append, List.length_singleton] at single
  omega

theorem shows_iff (P : Program) (v : BitVec 32) :
    Shows (printInt P emit v.toInt) v.toInt ↔ 0 ≤ v.toInt := by
  constructor
  · intro shows
    by_contra negative
    exact not_shows_negative P (by omega) shows
  · intro positive
    obtain ⟨n, value⟩ := Int.eq_ofNat_of_zero_le positive
    have bound := v.toInt_lt
    rw [value]
    exact shows_natural P (by omega)

/-- A kernel that has panicked spins at the first byte. -/
theorem not_shows_panicked (P : Program) (val : BitVec 32) :
    ¬ Shows (printInt P (Kernel.uart_putc true) val.toInt) val.toInt := by
  intro shows
  have small : val.toInt < 10 ^ 16 := by
    have := val.toInt_lt
    omega
  obtain ⟨buf, run⟩ := intLoop_run (P := P) small (.inr (by decide)) []
  have filled := intLoop_indices P (run {})
  have spins : printInt P (Kernel.uart_putc true) val.toInt {} = .error .spin := by
    rw [printInt, bind_run, run]
    dsimp only
    cases buf with
    | nil => simp [numsIndices] at filled
    | cons c buf =>
      rw [putAll, bind_run]
      have stops : Kernel.uart_putc true c {} = .error .spin := by
        unfold Kernel.uart_putc Kernel.consputc
        split <;> rfl
      rw [stops]
  have returned := shows.emits {}
  rw [spins] at returned
  cases returned

/-- Both copies of `printInt` show an `int` exactly when it is not negative; the copy of the kernel
does as long as the kernel runs. -/
theorem printInt_shows_iff (P : Program) (v : BitVec 32) :
    (∀ panicked, Shows (printInt P (Kernel.uart_putc panicked) v.toInt) v.toInt ↔
        0 ≤ v.toInt ∧ panicked = false) ∧
      (Shows (printInt P (User.putc 1) v.toInt) v.toInt ↔ 0 ≤ v.toInt) := by
  constructor
  · intro panicked
    cases panicked with
    | false =>
      rw [uart_putc_emit, shows_iff P v]
      exact ⟨fun positive => ⟨positive, rfl⟩, And.left⟩
    | true =>
      refine ⟨fun shows => absurd shows (not_shows_panicked P v), fun ⟨_, running⟩ => ?_⟩
      cases running
  · exact shows_iff P v

/-- `printf("%d", -1)`: one byte goes out, and it is read in front of `nums`. -/
theorem printInt_minus_one :
    decimal (-1 : BitVec 32).toInt = [0x2d, 0x31] ∧
      numsIndices 16 (-1 : BitVec 32).toInt = [-1] ∧
      ¬ Shows (printInt (withText []) (Kernel.uart_putc false) (-1 : BitVec 32).toInt)
        (-1 : BitVec 32).toInt ∧
      ¬ Shows (printInt (withText []) (User.putc 1) (-1 : BitVec 32).toInt)
        (-1 : BitVec 32).toInt := by
  have never : ¬ Shows (printInt (withText []) emit (-1 : BitVec 32).toInt)
      (-1 : BitVec 32).toInt := not_shows_negative _ (by decide)
  refine ⟨by decide, by decide, ?_, never⟩
  rwa [uart_putc_emit]

end Digits

end HaloOS.Printf
