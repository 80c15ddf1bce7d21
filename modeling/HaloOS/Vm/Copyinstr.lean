import HaloOS.Lib.Logged
import HaloOS.Vm.Bytes

/-! Reading a string of the user: `copyinstr` stops behind the NUL or after `max` bytes, whichever
comes first, and looks at no page beyond. -/

namespace HaloOS

open Lib

/-- The inner loop of `copyinstr`: the bytes it stores from `dst` on, and whether the last of them
is the NUL. -/
def scanLoop (v : Vm) : ℕ → ℕ → Bool × List Byte
  | 0, _ => (false, [])
  | n + 1, p =>
    if v.byteAt p = 0 then (true, [0])
    else ((scanLoop v n (p + 1)).1, v.byteAt p :: (scanLoop v n (p + 1)).2)

/-- The outer loop of `copyinstr`; every round takes a byte or more from `max`. -/
def copyinstrLoop (pagetable : ℕ) : ℕ → ℕ → ℕ → Mio (Bool × List Byte)
  | 0, _, _ => pure (false, [])
  | fuel + 1, srcva, max =>
    if max = 0 then pure (false, [])
    else do
      let va0 := PGROUNDDOWN srcva
      let pa0 ← walkaddr pagetable va0
      if pa0 = 0 then pure (false, [])
      else do
        let n := min (PGSIZE - (srcva - va0)) max
        let v ← gets id
        let (gotNull, bytes) := scanLoop v n (pa0 + (srcva - va0))
        if gotNull then pure (true, bytes)
        else do
          let (gotNull, rest) ← copyinstrLoop pagetable fuel (va0 + PGSIZE) (max - n)
          pure (gotNull, bytes ++ rest)

/-- `copyinstr`: whether it returns 0 rather than -1, and the bytes stored from `dst` on. -/
def copyinstr (pagetable srcva max : ℕ) : Mio (Bool × List Byte) :=
  copyinstrLoop pagetable max srcva max

/-- `strlen`, in a buffer that starts with the given bytes. -/
def strlen (buf : List Byte) : ℕ := buf.findIdx (· = 0)

/-- `fetchstr` with the page table of the process: the length and the bytes of the buffer. -/
def fetchstr (pagetable addr max : ℕ) : Mio (ℕ × List Byte) := do
  let (ok, buf) ← copyinstr pagetable addr max
  stopIf (ok = false) (.panic "fetchstr err < 0")
  pure (strlen buf, buf)

namespace Noted

/-- `copyinstrLoop` with a note of every page it looks up, and of where and how many bytes it reads
there. -/
def copyinstrLoop (pagetable : ℕ) : ℕ → ℕ → ℕ → Logged Stop Vm (ℕ × ℕ × ℕ) (Bool × List Byte)
  | 0, _, _ => pure (false, [])
  | fuel + 1, srcva, max =>
    if max = 0 then pure (false, [])
    else do
      let va0 := PGROUNDDOWN srcva
      let pa0 ← plain (walkaddr pagetable va0)
      if pa0 = 0 then pure (false, [])
      else do
        let n := min (PGSIZE - (srcva - va0)) max
        let v ← plain (gets id)
        note (va0, pa0 + (srcva - va0), (scanLoop v n (pa0 + (srcva - va0))).2.length)
        let (gotNull, bytes) := scanLoop v n (pa0 + (srcva - va0))
        if gotNull then pure (true, bytes)
        else do
          let (gotNull, rest) ← copyinstrLoop pagetable fuel (va0 + PGSIZE) (max - n)
          pure (gotNull, bytes ++ rest)

def copyinstr (pagetable srcva max : ℕ) : Logged Stop Vm (ℕ × ℕ × ℕ) (Bool × List Byte) :=
  copyinstrLoop pagetable max srcva max

end Noted

variable {v : Vm} {pagetable srcva max fuel n a p : ℕ} {f : ℕ → Byte}

theorem copyinstrLoop_erases (pagetable fuel srcva max : ℕ) :
    Erases (Noted.copyinstrLoop pagetable fuel srcva max)
      (copyinstrLoop pagetable fuel srcva max) := by
  induction fuel generalizing srcva max with
  | zero => exact .pure _
  | succ fuel ih =>
    unfold Noted.copyinstrLoop copyinstrLoop
    by_cases none : max = 0
    · rw [if_pos none, if_pos none]
      exact .pure _
    · rw [if_neg none, if_neg none]
      refine .bind (.plain _) fun pa0 => ?_
      by_cases unmapped : pa0 = 0
      · rw [if_pos unmapped, if_pos unmapped]
        exact .pure _
      · rw [if_neg unmapped, if_neg unmapped]
        refine .bind (.plain _) fun v => .note _ ?_
        dsimp only
        split
        · exact .pure _
        · exact .bind (ih _ _) fun rest => .pure _

/-- The bytes of a string up to its NUL and with it, but no more than `max`. -/
def scanned (f : ℕ → Byte) : ℕ → ℕ → ℕ
  | 0, _ => 0
  | max + 1, a => if f a = 0 then 1 else scanned f max (a + 1) + 1

def hasNul (f : ℕ → Byte) (max a : ℕ) : Bool := decide (∃ j < max, f (a + j) = 0)

/-- The byte that the table translates a user address to. -/
def stringByte (v : Vm) (pagetable a : ℕ) : Byte := v.byteAt (physical v pagetable a)

theorem scanned_succ (f : ℕ → Byte) (max a : ℕ) :
    scanned f (max + 1) a = if f a = 0 then 1 else scanned f max (a + 1) + 1 := rfl

theorem scanned_le (f : ℕ → Byte) (max a : ℕ) : scanned f max a ≤ max := by
  induction max generalizing a with
  | zero => exact le_rfl
  | succ max ih =>
    rw [scanned_succ]
    have rest := ih (a + 1)
    split <;> omega

theorem hasNul_succ (f : ℕ → Byte) (max a : ℕ) :
    hasNul f (max + 1) a = if f a = 0 then true else hasNul f max (a + 1) := by
  unfold hasNul
  by_cases here : f a = 0
  · rw [if_pos here]
    exact decide_eq_true ⟨0, by omega, here⟩
  · rw [if_neg here]
    refine decide_eq_decide.mpr ⟨?_, ?_⟩
    · rintro ⟨j, low, nul⟩
      obtain ⟨k, rfl⟩ : ∃ k, j = k + 1 := by
        refine ⟨j - 1, ?_⟩
        by_contra first
        obtain rfl : j = 0 := by omega
        exact here nul
      exact ⟨k, by omega, by rwa [Nat.add_right_comm, Nat.add_assoc]⟩
    · rintro ⟨j, low, nul⟩
      exact ⟨j + 1, by omega, by rwa [← Nat.add_assoc, Nat.add_right_comm]⟩

/-- A string cut after `n` bytes: its NUL is among them, or it goes on behind them. -/
theorem scanned_cut (few : n ≤ max) : (hasNul f n a = true ∧ hasNul f max a = true ∧
      scanned f max a = scanned f n a) ∨
    (hasNul f n a = false ∧ hasNul f max a = hasNul f (max - n) (a + n) ∧ scanned f n a = n ∧
      scanned f max a = n + scanned f (max - n) (a + n)) := by
  induction n generalizing max a with
  | zero => exact .inr ⟨rfl, rfl, rfl, by simp⟩
  | succ n ih =>
    obtain ⟨m, rfl⟩ : ∃ m, max = m + 1 := ⟨max - 1, by omega⟩
    rw [hasNul_succ, hasNul_succ, scanned_succ, scanned_succ, Nat.add_sub_add_right,
      show a + (n + 1) = a + 1 + n by omega]
    by_cases here : f a = 0
    · simp only [if_pos here]
      exact .inl ⟨trivial, trivial, trivial⟩
    · simp only [if_neg here]
      rcases ih (a := a + 1) (show n ≤ m by omega) with ⟨found, all, same⟩ |
        ⟨none, all, whole, rest⟩
      · exact .inl ⟨found, all, by rw [same]⟩
      · exact .inr ⟨none, all, by rw [whole], by omega⟩

/-- Where there is a NUL, the last byte is the only one. -/
theorem scanned_string {max a : ℕ} (found : hasNul f max a = true) :
    ∃ k, scanned f max a = k + 1 ∧ f (a + k) = 0 ∧ ∀ j < k, f (a + j) ≠ 0 := by
  induction max generalizing a with
  | zero => exact nomatch found
  | succ max ih =>
    rw [hasNul_succ] at found
    rw [scanned_succ]
    by_cases here : f a = 0
    · rw [if_pos here]
      exact ⟨0, rfl, here, fun j low => absurd low (Nat.not_lt_zero j)⟩
    · rw [if_neg here] at found ⊢
      obtain ⟨k, length, nul, before⟩ := ih found
      refine ⟨k + 1, by rw [length], by rwa [← Nat.add_assoc, Nat.add_right_comm], ?_⟩
      intro j low
      cases j with
      | zero => exact here
      | succ j =>
        rw [← Nat.add_assoc, Nat.add_right_comm]
        exact before j (by omega)

/-- The inner loop on memory that holds the string. -/
theorem scanLoop_eq (same : ∀ j < scanned f n a, v.byteAt (p + j) = f (a + j)) :
    scanLoop v n p = (hasNul f n a, (List.range (scanned f n a)).map fun j => f (a + j)) := by
  induction n generalizing a p with
  | zero => rfl
  | succ n ih =>
    rw [scanned_succ] at same ⊢
    have first := same 0 (by split <;> omega)
    rw [Nat.add_zero, Nat.add_zero] at first
    unfold scanLoop
    rw [first, hasNul_succ]
    by_cases here : f a = 0
    · simp only [if_pos here]
      simp [here]
    · simp only [if_neg here] at same ⊢
      rw [ih (a := a + 1) fun j low => ?_]
      · rw [List.range_succ_eq_map, List.map_cons, List.map_map]
        refine congrArg (Prod.mk _) (congrArg (List.cons _) (List.map_congr_left fun j _ => ?_))
        simp only [Function.comp]
        congr 1
        omega
      · have next := same (j + 1) (by omega)
        rwa [show p + (j + 1) = p + 1 + j by omega, show a + (j + 1) = a + 1 + j by omega] at next

/-- The pages that have been looked up hold a byte of the string, and what is read there is what the
table translates bytes of the string to. -/
def WithinString (v : Vm) (pagetable srcva len : ℕ) (reads : List (ℕ × ℕ × ℕ)) : Prop :=
  ∀ read ∈ reads, (∃ a, srcva ≤ a ∧ a < srcva + len ∧ read.1 = PGROUNDDOWN a) ∧
    ∀ i < read.2.2, ∃ a, srcva ≤ a ∧ a < srcva + len ∧ read.2.1 + i = physical v pagetable a

/-- The loop of `copyinstr` returns the string, and reads nothing else. -/
theorem MappedRange.copyinstrLoop (log : List (ℕ × ℕ × ℕ))
    (mapped : MappedRange v pagetable srcva (scanned (stringByte v pagetable) max srcva))
    (enough : max ≤ fuel) : ∃ reads,
    Noted.copyinstrLoop pagetable fuel srcva max (v, log) =
      .ok ((hasNul (stringByte v pagetable) max srcva,
        (List.range (scanned (stringByte v pagetable) max srcva)).map fun j =>
          stringByte v pagetable (srcva + j)), v, reads ++ log) ∧
      WithinString v pagetable srcva (scanned (stringByte v pagetable) max srcva) reads := by
  induction fuel generalizing srcva max log with
  | zero =>
    obtain rfl : max = 0 := by omega
    exact ⟨[], rfl, fun read member => nomatch member⟩
  | succ fuel ih =>
    by_cases none : max = 0
    · subst none
      exact ⟨[], by unfold Noted.copyinstrLoop; rfl, fun read member => nomatch member⟩
    have some : 0 < scanned (stringByte v pagetable) max srcva := by
      obtain ⟨m, rfl⟩ : ∃ m, max = m + 1 := ⟨max - 1, by omega⟩
      rw [scanned_succ]
      split <;> omega
    obtain ⟨pa0, walks, nonzero, -, place⟩ := mapped.walkaddr le_rfl (by omega)
    have whole : PGROUNDDOWN srcva + srcva % PGSIZE = srcva := Nat.div_add_mod' srcva PGSIZE
    have offset : srcva - PGROUNDDOWN srcva = srcva % PGSIZE := by omega
    have inside : srcva % PGSIZE < PGSIZE := Nat.mod_lt _ (by decide)
    unfold Noted.copyinstrLoop
    rw [if_neg none]
    simp only [bind_run, plain, zoom, walks, if_neg nonzero, note, update_run, gets_run, offset, id]
    generalize count : min (PGSIZE - srcva % PGSIZE) max = n
    have few : n ≤ max ∧ srcva % PGSIZE + n ≤ PGSIZE ∧ 0 < n := by omega
    have cut := scanned_cut (f := stringByte v pagetable) (a := srcva) few.1
    have part : scanned (stringByte v pagetable) n srcva ≤ scanned (stringByte v pagetable) max srcva := by
      rcases cut with ⟨-, -, same⟩ | ⟨-, -, piece, total⟩ <;> omega
    have short := scanned_le (stringByte v pagetable) n srcva
    have piece : ∀ j < scanned (stringByte v pagetable) n srcva,
        pa0 + srcva % PGSIZE + j = physical v pagetable (srcva + j) := by
      intro j low
      rw [mapped.physical_add le_rfl (by omega) (by omega), place]
    have scan := scanLoop_eq (v := v) (p := pa0 + srcva % PGSIZE) (n := n)
      (f := stringByte v pagetable) (a := srcva) fun j low => by rw [piece j low]; rfl
    -- what this round looks up
    have here : WithinString v pagetable srcva (scanned (stringByte v pagetable) max srcva)
        [(PGROUNDDOWN srcva, pa0 + srcva % PGSIZE, scanned (stringByte v pagetable) n srcva)] := by
      intro read member
      obtain rfl := List.mem_singleton.mp member
      exact ⟨⟨srcva, le_rfl, by omega, rfl⟩, fun i low =>
        ⟨srcva + i, by omega, by dsimp only at low; omega, piece i low⟩⟩
    rw [scan]
    simp only [List.length_map, List.length_range]
    rcases cut with ⟨found, all, same⟩ | ⟨absent, all, full, total⟩
    · rw [found, all, same]
      rw [same] at here
      exact ⟨_, rfl, here⟩
    · simp only [absent, Bool.false_eq_true, if_false]
      rw [all, total, full, bind_run]
      rw [full, total] at here
      have next : max - n = 0 ∨ PGROUNDDOWN srcva + PGSIZE = srcva + n := by omega
      have last : ∀ address log', Noted.copyinstrLoop pagetable fuel address 0 (v, log') =
          .ok ((false, []), v, log') := by
        intro address log'
        cases fuel <;> rfl
      rcases next with done | next
      · rw [done, last]
        rw [done] at here
        exact ⟨_, by simp [scanned, hasNul], here⟩
      · rw [next]
        have mapped' : MappedRange v pagetable (srcva + n)
            (scanned (stringByte v pagetable) (max - n) (srcva + n)) :=
          mapped.sub (by omega) (by omega)
        obtain ⟨reads, run, within⟩ := ih ((PGROUNDDOWN srcva, pa0 + srcva % PGSIZE, n) :: log)
          mapped' (by omega)
        refine ⟨reads ++ [(PGROUNDDOWN srcva, pa0 + srcva % PGSIZE, n)], ?_, ?_⟩
        · rw [run]
          simp only [pure_run, List.append_assoc, List.singleton_append, List.range_add,
            List.map_append, List.map_map]
          have shift : (fun j => stringByte v pagetable (srcva + j)) ∘ (fun j => n + j) =
              fun j => stringByte v pagetable (srcva + n + j) := by
            funext j
            rw [Function.comp, Nat.add_assoc]
          rw [shift]
        · intro read member
          rcases List.mem_append.mp member with later | now
          · obtain ⟨⟨a, low, high, page⟩, bytes⟩ := within read later
            refine ⟨⟨a, by omega, by omega, page⟩, fun i small => ?_⟩
            obtain ⟨b, low', high', byte⟩ := bytes i small
            exact ⟨b, by omega, by omega, byte⟩
          · exact here read now

/-- The bytes that `copyinstr` stores. -/
def stringBytes (v : Vm) (pagetable max srcva : ℕ) : List Byte :=
  (List.range (scanned (stringByte v pagetable) max srcva)).map fun j =>
    stringByte v pagetable (srcva + j)

theorem stringBytes_length :
    (stringBytes v pagetable max srcva).length = scanned (stringByte v pagetable) max srcva := by
  simp [stringBytes]

theorem stringBytes_nul (found : hasNul (stringByte v pagetable) max srcva = true) :
    ∃ string, stringBytes v pagetable max srcva = string ++ [0] ∧ 0 ∉ string := by
  obtain ⟨k, count, nul, before⟩ := scanned_string found
  refine ⟨(List.range k).map fun j => stringByte v pagetable (srcva + j), ?_, ?_⟩
  · rw [stringBytes, count, List.range_succ, List.map_append, List.map_singleton, nul]
  · intro member
    obtain ⟨j, low, zero⟩ := List.mem_map.mp member
    exact before j (List.mem_range.mp low) zero

section Mapped

variable (mapped : MappedRange v pagetable srcva (scanned (stringByte v pagetable) max srcva))
include mapped

theorem MappedRange.copyinstr_run : ∃ reads,
    copyinstr pagetable srcva max v = .ok ((hasNul (stringByte v pagetable) max srcva,
      stringBytes v pagetable max srcva), v) ∧
    Noted.copyinstr pagetable srcva max (v, []) = .ok ((hasNul (stringByte v pagetable) max srcva,
      stringBytes v pagetable max srcva), v, reads) ∧
    WithinString v pagetable srcva (scanned (stringByte v pagetable) max srcva) reads := by
  obtain ⟨reads, run, within⟩ := mapped.copyinstrLoop [] le_rfl
  rw [List.append_nil] at run
  refine ⟨reads, ?_, run, within⟩
  have erased := copyinstrLoop_erases pagetable max srcva max v []
  rw [run] at erased
  exact erased.symm

/-- `copyinstr` returns 0 exactly when there is a NUL among the first `max` bytes, and then it has
stored the string with its NUL; in any case it stores at most `max` bytes and looks at no page
behind the last of them. -/
theorem copyinstr_exact :
    ∃ ok bytes reads, copyinstr pagetable srcva max v = .ok ((ok, bytes), v) ∧
      Noted.copyinstr pagetable srcva max (v, []) = .ok ((ok, bytes), v, reads) ∧
      (ok = true ↔ ∃ j < max, stringByte v pagetable (srcva + j) = 0) ∧
      bytes.length ≤ max ∧
      (∀ j < bytes.length, bytes[j]? = some (stringByte v pagetable (srcva + j))) ∧
      (ok = true → ∃ string, bytes = string ++ [0] ∧ 0 ∉ string) ∧
      WithinString v pagetable srcva bytes.length reads := by
  obtain ⟨reads, plainly, run, within⟩ := mapped.copyinstr_run
  refine ⟨_, _, reads, plainly, run, decide_eq_true_iff, ?_, ?_, stringBytes_nul, ?_⟩
  · rw [stringBytes_length]
    exact scanned_le _ _ _
  · intro j low
    rw [stringBytes_length] at low
    simp [stringBytes, low]
  · rwa [stringBytes_length]

/-- `fetchstr` returns the length of the string, and panics where there is no NUL in time. -/
theorem fetchstr_string :
    (∃ string, 0 ∉ string ∧
      fetchstr pagetable srcva max v = .ok ((string.length, string ++ [0]), v)) ∨
    ((∀ j < max, stringByte v pagetable (srcva + j) ≠ 0) ∧
      fetchstr pagetable srcva max v = .error (.panic "fetchstr err < 0")) := by
  obtain ⟨-, plainly, -⟩ := mapped.copyinstr_run
  unfold fetchstr
  rw [bind_run, plainly]
  dsimp only
  rw [bind_run, stopIf_run]
  cases nul : hasNul (stringByte v pagetable) max srcva with
  | true =>
    obtain ⟨string, bytes, before⟩ := stringBytes_nul nul
    have length : strlen (string ++ [0]) = string.length := by
      have none : string.findIdx (· = 0) = string.length := by
        refine List.findIdx_eq_length.mpr fun b member => ?_
        exact decide_eq_false fun zero => before (zero ▸ member)
      rw [strlen, List.findIdx_append, none, if_neg (lt_irrefl _)]
      simp
    refine .inl ⟨string, before, ?_⟩
    rw [bytes, length]
    rfl
  | false =>
    refine .inr ⟨fun j low zero => ?_, rfl⟩
    exact of_decide_eq_false nul ⟨j, low, zero⟩

end Mapped

/-- A string of one byte at the start of a page. -/
theorem copyinstr_exact_scattered :
    MappedRange scattered (PGSIZE * 524288) (2 * PGSIZE)
      (scanned (stringByte scattered (PGSIZE * 524288)) 5 (2 * PGSIZE)) ∧
    ∃ bytes, copyinstr (PGSIZE * 524288) (2 * PGSIZE) 5 scattered = .ok ((true, bytes), scattered) ∧
      ∃ string, bytes = string ++ [0] ∧ 0 ∉ string := by
  have mapped : MappedRange scattered (PGSIZE * 524288) (2 * PGSIZE)
      (scanned (stringByte scattered (PGSIZE * 524288)) 5 (2 * PGSIZE)) := by
    refine scattered_mapped (by decide) ?_
    have few := scanned_le (stringByte scattered (PGSIZE * 524288)) 5 (2 * PGSIZE)
    simp only [PGSIZE] at few ⊢
    omega
  obtain ⟨ok, bytes, reads, returned, -, nul, -, -, whole, -⟩ := copyinstr_exact mapped
  obtain rfl := nul.mpr ⟨1, by omega, by decide +kernel⟩
  exact ⟨mapped, bytes, returned, whole rfl⟩

end HaloOS
