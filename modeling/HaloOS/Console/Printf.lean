import HaloOS.Lib.Exec
import HaloOS.Param
import Mathlib.Data.Int.Notation

/-! Formatted output: the two copies of `printf`, of `print.c` and of the user library, with the
bytes they emit and the places of the format string that they read. -/

namespace HaloOS.Printf

open Lib

/-- Why a call of `printf` does not return. -/
inductive Halt where
  /-- The endless loop of a kernel that has panicked. -/
  | spin
  /-- `va_arg` without an argument left. -/
  | noArgument
  /-- A store behind the buffer of `printInt`. -/
  | buffer
  /-- The bound on the rounds of a loop is used up. -/
  | rounds
  deriving DecidableEq, Repr

/-- The bytes emitted so far, and the addresses of the format that were read. -/
structure Term where
  out : List Byte := []
  reads : List ℕ := []
  deriving DecidableEq, Repr

abbrev Pio := Exec Halt Term

/-- The digits of the array `nums`. -/
def hexDigits : List Byte := "0123456789abcdef".toList.map fun c => BitVec.ofNat 8 c.toNat

/-- The memory that `printf` reads. `nums` gives the byte at every index of the array, inside and
outside of it. -/
structure Program where
  mem : ℕ → Byte
  nums : ℤ → Byte
  table : ∀ k : ℕ, k < 16 → hexDigits[k]? = some (nums k)

def percent : Byte := 0x25
def letterD : Byte := 0x64
def letterS : Byte := 0x73
def letterP : Byte := 0x70

/-- A byte goes out. -/
def emit (c : Byte) : Pio Unit := update fun t => { t with out := t.out ++ [c] }

/-- `s[i]` of the format. -/
def formatAt (P : Program) (a : ℕ) : Pio Byte := fun t =>
  .ok (P.mem a, { t with reads := t.reads ++ [a] })

def vaArg : List (BitVec 64) → Pio (BitVec 64 × List (BitVec 64))
  | [] => throw .noArgument
  | a :: ap => pure (a, ap)

section Conversions

variable (P : Program) (putc : Byte → Pio Unit)

/-- The digits that `printInt` leaves in `buf`, the last one first, with `room` places left. -/
def intLoop : ℕ → ℤ → List Byte → Pio (List Byte)
  | 0, _, _ => throw .buffer
  | room + 1, val, buf =>
    let buf := P.nums (val.tmod 10) :: buf
    let val := val.tdiv 10
    if val > 0 then intLoop room val buf else pure buf

def putAll : List Byte → Pio Unit
  | [] => pure ()
  | c :: buf => do
    putc c
    putAll buf

def printInt (val : ℤ) : Pio Unit := do
  let buf ← intLoop P 16 val []
  putAll putc buf

def ptrLoop : ℕ → BitVec 64 → Pio Unit
  | 0, _ => pure ()
  | n + 1, ptr => do
    putc (P.nums (ptr >>> 60).toNat)
    ptrLoop n (ptr <<< 4)

def printPtr (ptr : BitVec 64) : Pio Unit := do
  putc 0x30
  putc 0x78
  ptrLoop P putc 16 ptr

/-- `while (*s) putc(*s++)`, for at most the given number of rounds. -/
def strLoop : ℕ → ℕ → Pio Unit
  | 0, _ => throw .rounds
  | n + 1, a =>
    if P.mem a = 0 then pure ()
    else do
      putc (P.mem a)
      strLoop n (a + 1)

/-- The `switch` over the byte behind a `%`; `print` is the one of the copy. -/
def convert (print : ℕ → Pio Unit) (next : Byte) (ap : List (BitVec 64)) :
    Pio (List (BitVec 64)) :=
  if next = letterD then do
    let (val, ap) ← vaArg ap
    printInt P putc (val.setWidth 32).toInt
    pure ap
  else if next = letterS then do
    let (str, ap) ← vaArg ap
    onlyIf (str ≠ 0) (print str.toNat)
    pure ap
  else if next = letterP then do
    let (ptr, ap) ← vaArg ap
    printPtr P putc ptr
    pure ap
  else do
    putc next
    pure ap

/-- The loop of both copies of `printf`, from index `i` on. -/
def printfLoop (print : ℕ → Pio Unit) (s : ℕ) : ℕ → ℕ → List (BitVec 64) → Pio Unit
  | 0, _, _ => throw .rounds
  | n + 1, i, ap => do
    let c ← formatAt P (s + i)
    if c = 0 then pure ()
    else if c ≠ percent then do
      putc c
      printfLoop print s n (i + 1) ap
    else do
      let next ← formatAt P (s + (i + 1))
      if next = 0 then do
        putc c
        -- `continue` steps over the terminator
        printfLoop print s n (i + 2) ap
      else do
        let ap ← convert P putc print next ap
        printfLoop print s n (i + 2) ap

end Conversions

namespace Kernel

def BACKSPACE : ℕ := 0x100

def uartputc_sync (panicked : Bool) (c : ℕ) : Pio Unit := do
  stopIf (panicked = true) .spin
  emit (BitVec.ofNat 8 c)

def consputc (panicked : Bool) (c : ℕ) : Pio Unit :=
  if c = BACKSPACE then do
    uartputc_sync panicked 8
    uartputc_sync panicked 0x20
    uartputc_sync panicked 8
  else uartputc_sync panicked c

def uart_putc (panicked : Bool) (c : Byte) : Pio Unit := consputc panicked c.toNat

def uart_putstr (P : Program) (panicked : Bool) (n s : ℕ) : Pio Unit := do
  stopIf (panicked = true) .spin
  strLoop P (uart_putc panicked) n s

/-- `printf` of `print.c`, with at most `n` rounds of any of its loops over strings. -/
def printf (P : Program) (panicked : Bool) (n s : ℕ) (ap : List (BitVec 64)) : Pio Unit :=
  printfLoop P (uart_putc panicked) (uart_putstr P panicked n) s n 0 ap

end Kernel

namespace User

/-- `write(fd, &c, 1)`, as the reader of descriptor 1 sees it. -/
def putc (fd : ℕ) (c : Byte) : Pio Unit := onlyIf (fd = 1) (emit c)

def print (P : Program) (n s : ℕ) : Pio Unit := strLoop P (putc 1) n s

/-- `printf` of `user/printf.c`. -/
def printf (P : Program) (n s : ℕ) (ap : List (BitVec 64)) : Pio Unit :=
  if s = 0 then pure () else printfLoop P (putc 1) (print P n) s n 0 ap

end User

/-- A piece of a format: a byte that stands for itself, or a conversion. -/
inductive Piece where
  | char (c : Byte)
  | int
  | str
  | ptr
  deriving DecidableEq, Repr

def conversion (next : Byte) : Piece :=
  if next = letterD then .int
  else if next = letterS then .str
  else if next = letterP then .ptr
  else .char next

/-- The pieces of a format; a `%` that nothing follows stands for itself. -/
def pieces : List Byte → List Piece
  | [] => []
  | [c] => [.char c]
  | c :: next :: rest =>
    if c ≠ percent then .char c :: pieces (next :: rest) else conversion next :: pieces rest

/-- The string `s` and its NUL stand at `a`. -/
def StringAt (mem : ℕ → Byte) : ℕ → List Byte → Prop
  | a, [] => mem a = 0
  | a, c :: s => mem a = c ∧ c ≠ 0 ∧ StringAt mem (a + 1) s

/-- What `printInt` emits. -/
def shownInt (P : Program) (val : ℤ) : List Byte :=
  match printInt P emit val {} with
  | .ok (_, t) => t.out
  | .error _ => []

/-- `0x` and the sixteen digits of a word. -/
def shownPtr (ptr : BitVec 64) : List Byte :=
  [0x30, 0x78] ++ (List.range 16).map fun k => hexDigits.getD (ptr.toNat / 16 ^ (15 - k) % 16) 0

/-- The arguments match the pieces, and the pieces with them come to `out`. -/
inductive Renders (P : Program) : List Piece → List (BitVec 64) → List Byte → Prop
  | done (ap : List (BitVec 64)) : Renders P [] ap []
  | char {ps ap out} (c : Byte) : Renders P ps ap out → Renders P (.char c :: ps) ap (c :: out)
  | int {ps ap out} (a : BitVec 64) : Renders P ps ap out →
      Renders P (.int :: ps) (a :: ap) (shownInt P (a.setWidth 32).toInt ++ out)
  | null {ps ap out} : Renders P ps ap out → Renders P (.str :: ps) (0 :: ap) out
  | str {ps ap out} (a : BitVec 64) (s : List Byte) : a ≠ 0 → StringAt P.mem a.toNat s →
      Renders P ps ap out → Renders P (.str :: ps) (a :: ap) (s ++ out)
  | ptr {ps ap out} (a : BitVec 64) : Renders P ps ap out →
      Renders P (.ptr :: ps) (a :: ap) (shownPtr a ++ out)

/-- With enough rounds the call returns, has emitted `out`, and has read no byte of the format
behind `last`. -/
def Formats (call : ℕ → Pio Unit) (out : List Byte) (last : ℕ) : Prop :=
  ∃ enough, ∀ n ≥ enough, ∃ t, call n {} = .ok ((), t) ∧ t.out = out ∧ ∀ a ∈ t.reads, a ≤ last

/-- How many `%` end the format. -/
def trailing (fmt : List Byte) : ℕ := (fmt.reverse.takeWhile (· = percent)).length

/-- An odd number of `%` ends the format: the last one begins a conversion that is not there. -/
def LoneEnd (fmt : List Byte) : Prop := trailing fmt % 2 = 1

instance (fmt : List Byte) : Decidable (LoneEnd fmt) := inferInstanceAs (Decidable (_ = _))

section Runs

variable {P : Program} {t : Term} {n i s : ℕ} {ap : List (BitVec 64)} {out bytes : List Byte}

/-- The computation emits the given bytes and reads nothing of the format. -/
def Emits (m : Pio Unit) (bytes : List Byte) : Prop :=
  ∀ t, m t = .ok ((), { t with out := t.out ++ bytes })

theorem emits_emit (c : Byte) : Emits (emit c) [c] := fun _ => rfl

theorem Emits.bind {m m' : Pio Unit} (first : Emits m out) (rest : Emits m' bytes) :
    Emits (do m; m') (out ++ bytes) := by
  intro t
  rw [bind_run, first t]
  change m' _ = _
  rw [rest]
  simp

theorem emits_nothing (m : Pio Unit) : Emits (onlyIf ((0 : BitVec 64) ≠ 0) m) [] := by
  intro t
  rw [onlyIf, if_neg (not_not.mpr rfl), List.append_nil]
  rfl

theorem Emits.returns {α : Type} {m : Pio Unit} (emits : Emits m bytes) (a : α) (t : Term) :
    (do m; pure a : Pio α) t = .ok (a, { t with out := t.out ++ bytes }) := by
  rw [bind_run, emits t]
  rfl

theorem emits_putAll (buf : List Byte) : Emits (putAll emit buf) buf := by
  induction buf with
  | nil => exact fun t => by simp [putAll]
  | cons c buf ih => exact (emits_emit c).bind ih

/-- Ten to the power of the places that are left bounds the values for which they suffice. -/
theorem intLoop_run {room : ℕ} {val : ℤ} (small : val < 10 ^ room) (some : 0 < val ∨ 0 < room)
    (buf : List Byte) : ∃ buf', ∀ t, intLoop P room val buf t = .ok (buf', t) := by
  induction room generalizing val buf with
  | zero =>
    rw [Int.pow_zero] at small
    omega
  | succ room ih =>
    unfold intLoop
    dsimp only
    by_cases more : val.tdiv 10 > 0
    · simp only [if_pos more]
      refine ih ?_ (.inl more) _
      rw [Int.pow_succ] at small
      have sign : Int.sign 10 = 1 := rfl
      rw [Int.tdiv_eq_ediv, sign] at more ⊢
      by_cases positive : 0 ≤ val
      · rw [if_pos (.inl positive)]
        omega
      · split at more <;> omega
    · simp only [if_neg more]
      exact ⟨_, fun _ => rfl⟩

/-- Every `int` is printed; `buf` has room for its digits. -/
theorem printInt_emits (val : BitVec 32) : Emits (printInt P emit val.toInt) (shownInt P val.toInt) := by
  have small : val.toInt < 10 ^ 16 := by
    have := val.toInt_lt
    omega
  obtain ⟨buf, run⟩ := intLoop_run (P := P) small (.inr (by decide)) []
  have prints : Emits (printInt P emit val.toInt) buf := by
    intro t
    rw [printInt, bind_run, run]
    exact emits_putAll buf t
  have shown : shownInt P val.toInt = buf := by
    rw [shownInt, prints]
    rfl
  rwa [shown]

/-- The digit at place `k`, when the places before it are shifted out. -/
theorem top_digit (ptr : BitVec 64) {k : ℕ} (small : k < 16) :
    ((ptr <<< (4 * k)) >>> 60).toNat = ptr.toNat / 16 ^ (15 - k) % 16 := by
  rw [BitVec.toNat_ushiftRight, BitVec.toNat_shiftLeft, Nat.shiftLeft_eq, Nat.shiftRight_eq_div_pow]
  have width : 2 ^ 64 = 2 ^ (4 * k) * 2 ^ (4 * (16 - k)) := by
    rw [← Nat.pow_add, show 4 * k + 4 * (16 - k) = 64 by omega]
  have high : 2 ^ 60 = 2 ^ (4 * k) * 2 ^ (4 * (15 - k)) := by
    rw [← Nat.pow_add, show 4 * k + 4 * (15 - k) = 60 by omega]
  have step : 2 ^ (4 * (16 - k)) = 2 ^ (4 * (15 - k)) * 16 := by
    rw [show 4 * (16 - k) = 4 * (15 - k) + 4 by omega, Nat.pow_add]
  rw [width, high, Nat.mul_comm, Nat.mul_mod_mul_left, Nat.mul_div_mul_left _ _ (Nat.two_pow_pos _),
    step, Nat.mod_mul_right_div_self, Nat.pow_mul]

theorem emits_ptrLoop (ptr : BitVec 64) (n : ℕ) : Emits (ptrLoop P emit n ptr)
    ((List.range n).map fun k => P.nums ((ptr <<< (4 * k)) >>> 60).toNat) := by
  induction n generalizing ptr with
  | zero => exact fun t => by simp [ptrLoop]
  | succ n ih =>
    have shifted : ∀ k, ptr <<< 4 <<< (4 * k) = ptr <<< (4 * (k + 1)) := by
      intro k
      rw [← BitVec.shiftLeft_add, Nat.mul_add, Nat.add_comm]
    have rest := ih (ptr <<< 4)
    simp only [shifted] at rest
    have digits := (emits_emit (P.nums (ptr >>> 60).toNat)).bind rest
    rw [List.range_succ_eq_map, List.map_cons, List.map_map, Nat.mul_zero, BitVec.shiftLeft_zero]
    exact digits

theorem printPtr_emits (ptr : BitVec 64) : Emits (printPtr P emit ptr) (shownPtr ptr) := by
  have digits : ((List.range 16).map fun k => P.nums ((ptr <<< (4 * k)) >>> 60).toNat) =
      (List.range 16).map fun k => hexDigits.getD (ptr.toNat / 16 ^ (15 - k) % 16) 0 := by
    refine List.map_congr_left fun k member => ?_
    rw [top_digit ptr (List.mem_range.mp member)]
    rw [List.getD_eq_getElem?_getD, P.table _ (Nat.mod_lt _ (by omega))]
    rfl
  have run := (emits_emit 0x30).bind ((emits_emit 0x78).bind (emits_ptrLoop (P := P) ptr 16))
  rwa [digits] at run

/-- The bytes of a string go out. -/
theorem strLoop_emits {a : ℕ} {str : List Byte} (text : StringAt P.mem a str)
    (enough : str.length < n) : Emits (strLoop P emit n a) str := by
  induction str generalizing a n with
  | nil =>
    obtain ⟨n, rfl⟩ : ∃ m, n = m + 1 := ⟨n - 1, by simp at enough; omega⟩
    intro t
    rw [strLoop, if_pos (show P.mem a = 0 from text)]
    simp
  | cons c str ih =>
    obtain ⟨here, nonzero, rest⟩ := text
    obtain ⟨n, rfl⟩ : ∃ m, n = m + 1 := ⟨n - 1, by simp at enough; omega⟩
    have run := (emits_emit c).bind (ih rest (by simpa using enough))
    intro t
    rw [strLoop, here, if_neg nonzero]
    exact run t

/-- What both copies of `printf` do to a format that is there. -/
def shared (P : Program) (n s : ℕ) (ap : List (BitVec 64)) : Pio Unit :=
  printfLoop P emit (strLoop P emit n) s n 0 ap

theorem uart_putc_emit : Kernel.uart_putc false = emit := by
  funext c
  have small := c.isLt
  unfold Kernel.uart_putc Kernel.consputc Kernel.uartputc_sync
  rw [if_neg (by rw [Kernel.BACKSPACE]; omega), BitVec.ofNat_toNat, BitVec.setWidth_eq]
  rfl

theorem kernel_shared (ap : List (BitVec 64)) : Kernel.printf P false n s ap = shared P n s ap := by
  unfold Kernel.printf shared
  rw [uart_putc_emit]
  congr 1
  funext a
  unfold Kernel.uart_putstr
  rw [uart_putc_emit]
  rfl

theorem user_shared (nonnull : s ≠ 0) (ap : List (BitVec 64)) :
    User.printf P n s ap = shared P n s ap := by
  have putc : User.putc 1 = emit := rfl
  unfold User.printf User.print shared
  rw [if_neg nonnull, putc]

section Rounds

variable {print : ℕ → Pio Unit} {c next : Byte}

theorem round_stop (here : P.mem (s + i) = 0) : printfLoop P emit print s (n + 1) i ap t =
    .ok ((), { t with reads := t.reads ++ [s + i] }) := by
  unfold printfLoop
  rw [bind_run, formatAt, here]
  rfl

theorem round_char (here : P.mem (s + i) = c) (nonzero : c ≠ 0) (plain : c ≠ percent) :
    printfLoop P emit print s (n + 1) i ap t =
      printfLoop P emit print s n (i + 1) ap
        { out := t.out ++ [c], reads := t.reads ++ [s + i] } := by
  rw [printfLoop, bind_run, formatAt, here]
  dsimp only
  rw [if_neg nonzero, if_pos plain]
  rfl

theorem round_lone (here : P.mem (s + i) = percent) (stop : P.mem (s + (i + 1)) = 0) :
    printfLoop P emit print s (n + 1) i ap t =
      printfLoop P emit print s n (i + 2) ap
        { out := t.out ++ [percent], reads := t.reads ++ [s + i] ++ [s + (i + 1)] } := by
  rw [printfLoop, bind_run, formatAt, here]
  dsimp only
  rw [if_neg (by decide), if_neg (not_not.mpr rfl), bind_run, formatAt, stop]
  rfl

theorem round_convert (here : P.mem (s + i) = percent) (there : P.mem (s + (i + 1)) = next)
    (nonzero : next ≠ 0) :
    printfLoop P emit print s (n + 1) i ap t =
      (do
        let ap ← convert P emit print next ap
        printfLoop P emit print s n (i + 2) ap : Pio Unit)
        { t with reads := t.reads ++ [s + i] ++ [s + (i + 1)] } := by
  rw [printfLoop, bind_run, formatAt, here]
  dsimp only
  rw [if_neg (by decide), if_neg (not_not.mpr rfl), bind_run, formatAt, there]
  dsimp only
  rw [if_neg nonzero]

end Rounds

/-- A conversion emits what its piece shows, and goes on with the arguments that are left. -/
theorem convert_renders {ps : List Piece} {next : Byte}
    (renders : Renders P (conversion next :: ps) ap out) :
    ∃ bytes ap' out' enough, out = bytes ++ out' ∧ Renders P ps ap' out' ∧
      ∀ n ≥ enough, ∀ t, convert P emit (strLoop P emit n) next ap t =
        .ok (ap', { t with out := t.out ++ bytes }) := by
  unfold conversion at renders
  unfold convert
  by_cases int : next = letterD
  · rw [if_pos int] at renders
    obtain _ | _ | @⟨_, ap', out', a, rest⟩ := renders
    refine ⟨_, ap', out', 0, rfl, rest, fun n _ t => ?_⟩
    rw [if_pos int]
    exact (printInt_emits (a.setWidth 32)).returns ap' t
  rw [if_neg int] at renders
  by_cases str : next = letterS
  · rw [if_pos str] at renders
    cases renders with
    | @null _ ap' _ rest =>
      refine ⟨[], ap', out, 0, rfl, rest, fun n _ t => ?_⟩
      rw [if_neg int, if_pos str]
      exact (emits_nothing (strLoop P emit n 0)).returns ap' t
    | @str _ ap' out' a bytes nonnull text rest =>
      refine ⟨bytes, ap', out', bytes.length + 1, rfl, rest, fun n enough t => ?_⟩
      rw [if_neg int, if_pos str]
      have run : Emits (onlyIf (a ≠ 0) (strLoop P emit n a.toNat)) bytes := by
        rw [onlyIf, if_pos nonnull]
        exact strLoop_emits text enough
      exact run.returns ap' t
  rw [if_neg str] at renders
  by_cases ptr : next = letterP
  · rw [if_pos ptr] at renders
    cases renders with
    | @ptr _ ap' out' a rest =>
      refine ⟨_, ap', out', 0, rfl, rest, fun n _ t => ?_⟩
      rw [if_neg int, if_neg str, if_pos ptr]
      exact (printPtr_emits a).returns ap' t
  · rw [if_neg ptr] at renders
    cases renders with
    | @char _ _ out' _ rest =>
      refine ⟨[next], ap, out', 0, rfl, rest, fun n _ t => ?_⟩
      rw [if_neg int, if_neg str, if_neg ptr]
      exact (emits_emit next).returns ap t

theorem pieces_char {c : Byte} (plain : c ≠ percent) (rest : List Byte) :
    pieces (c :: rest) = .char c :: pieces rest := by
  cases rest with
  | nil => rfl
  | cons next rest => rw [pieces, if_pos plain]

theorem trailing_cons (c : Byte) (rest : List Byte) : trailing (c :: rest) =
    if trailing rest = rest.length then rest.length + (if c = percent then 1 else 0)
    else trailing rest := by
  unfold trailing
  rw [List.reverse_cons, List.takeWhile_append, List.length_reverse]
  by_cases all : (rest.reverse.takeWhile (· = percent)).length = rest.length
  · rw [if_pos all, if_pos all, List.length_append, List.length_reverse]
    by_cases same : c = percent <;> simp [same]
  · rw [if_neg all, if_neg all]

theorem trailing_le (fmt : List Byte) : trailing fmt ≤ fmt.length := by
  unfold trailing
  have bound := (List.takeWhile_prefix (l := fmt.reverse) (· = percent)).length_le
  rwa [List.length_reverse] at bound

theorem loneEnd_char {c : Byte} (plain : c ≠ percent) (rest : List Byte) :
    LoneEnd (c :: rest) ↔ LoneEnd rest := by
  unfold LoneEnd
  rw [trailing_cons, if_neg plain]
  split <;> omega

theorem loneEnd_pair (next : Byte) (rest : List Byte) :
    LoneEnd (percent :: next :: rest) ↔ LoneEnd rest := by
  have bound := trailing_le rest
  unfold LoneEnd
  rw [trailing_cons, trailing_cons, if_pos rfl, List.length_cons]
  by_cases all : trailing rest = rest.length
  · rw [if_pos all]
    by_cases same : next = percent
    · rw [if_pos same, if_pos rfl]
      omega
    · rw [if_neg same, if_neg (by omega)]
      omega
  · rw [if_neg all, if_neg (by omega)]

/-- From index `i` on, the format and its NUL are read and no byte more, and the rest is emitted. -/
theorem printfLoop_renders {fmt : List Byte} (text : StringAt P.mem (s + i) fmt)
    (renders : Renders P (pieces fmt) ap out) (whole : ¬ LoneEnd fmt) :
    ∃ enough, ∀ m ≥ enough, ∀ n ≥ enough, ∀ t, ∃ t',
      printfLoop P emit (strLoop P emit m) s n i ap t = .ok ((), t') ∧ t'.out = t.out ++ out ∧
        ∀ a ∈ t'.reads, a ∈ t.reads ∨ a ≤ s + i + fmt.length := by
  induction fmt using pieces.induct generalizing i ap out with
  | case1 =>
    cases renders
    refine ⟨1, fun m _ n enough t => ?_⟩
    obtain ⟨n, rfl⟩ : ∃ k, n = k + 1 := ⟨n - 1, by omega⟩
    refine ⟨_, round_stop text, by simp, fun a member => ?_⟩
    rcases List.mem_append.mp member with old | new
    · exact .inl old
    · exact .inr (Nat.le_of_eq (List.mem_singleton.mp new))
  | case2 c =>
    have plain : c ≠ percent := by
      rintro rfl
      exact whole (by decide)
    obtain ⟨here, nonzero, stop⟩ := text
    cases renders with
    | char _ rest =>
      cases rest
      refine ⟨2, fun m _ n enough t => ?_⟩
      obtain ⟨n, rfl⟩ : ∃ k, n = k + 2 := ⟨n - 2, by omega⟩
      rw [round_char here nonzero plain,
        round_stop (show P.mem (s + (i + 1)) = 0 by rw [← Nat.add_assoc]; exact stop)]
      refine ⟨_, rfl, rfl, fun a member => ?_⟩
      simp only [List.mem_append, List.mem_singleton, or_assoc] at member
      rcases member with old | rfl | rfl
      · exact .inl old
      · exact .inr (by simp)
      · exact .inr (by simp [Nat.add_assoc])
  | case3 c next rest plain ih =>
    obtain ⟨here, nonzero, text⟩ := text
    rw [pieces_char plain] at renders
    cases renders with
    | @char _ _ out' _ renders =>
      obtain ⟨enough, run⟩ := ih (i := i + 1) (by simpa [Nat.add_assoc] using text) renders
        fun lone => whole ((loneEnd_char plain _).mpr lone)
      refine ⟨enough + 1, fun m large n more t => ?_⟩
      obtain ⟨n, rfl⟩ : ∃ k, n = k + 1 := ⟨n - 1, by omega⟩
      rw [round_char here nonzero plain]
      obtain ⟨t', returned, shown, read⟩ := run m (by omega) n (by omega)
        { out := t.out ++ [c], reads := t.reads ++ [s + i] }
      refine ⟨t', returned, by simp [shown], fun a member => ?_⟩
      rcases read a member with old | low
      · rcases List.mem_append.mp old with old | new
        · exact .inl old
        · rw [List.mem_singleton.mp new]
          exact .inr (by omega)
      · simp only [List.length_cons] at low ⊢
        exact .inr (by omega)
  | case4 c next rest same ih =>
    obtain rfl : c = percent := not_not.mp same
    obtain ⟨here, -, there, nonzero, text⟩ := text
    rw [pieces, if_neg same] at renders
    obtain ⟨bytes, ap', out', first, rfl, renders, convert⟩ := convert_renders renders
    obtain ⟨enough, run⟩ := ih (i := i + 2) (by simpa [Nat.add_assoc] using text) renders
      fun lone => whole ((loneEnd_pair next _).mpr lone)
    refine ⟨enough + first + 1, fun m large n more t => ?_⟩
    obtain ⟨n, rfl⟩ : ∃ k, n = k + 1 := ⟨n - 1, by omega⟩
    rw [round_convert here there nonzero, bind_run, convert m (by omega)]
    obtain ⟨t', returned, shown, read⟩ := run m (by omega) n (by omega)
      { out := t.out ++ bytes, reads := t.reads ++ [s + i] ++ [s + (i + 1)] }
    refine ⟨t', returned, by simp [shown], fun a member => ?_⟩
    simp only [List.length_cons]
    rcases read a member with old | low
    · simp only [List.mem_append, List.mem_singleton, or_assoc] at old
      rcases old with old | rfl | rfl
      · exact .inl old
      · exact .inr (by omega)
      · exact .inr (by omega)
    · exact .inr (by omega)

/-- The computation reads nothing of the format. -/
def Quiet {α : Type} (m : Pio α) : Prop := ∀ t, Sat m t anyStop fun _ t' => t'.reads = t.reads

theorem Emits.quiet {m : Pio Unit} (emits : Emits m bytes) : Quiet m := fun t =>
  Sat.ofRun (emits t) rfl

theorem Quiet.bind {α β : Type} {m : Pio α} {f : α → Pio β} (first : Quiet m)
    (rest : ∀ a, Quiet (f a)) : Quiet (m >>= f) := fun t =>
  Sat.bind (first t) fun a t' same => (rest a t').mono fun _ _ same' => same'.trans same

theorem Quiet.pure {α : Type} (a : α) : Quiet (pure a) := fun _ => Sat.pure rfl

theorem strLoop_quiet (n a : ℕ) : Quiet (strLoop P emit n a) := by
  induction n generalizing a with
  | zero => exact fun _ => Sat.throw trivial
  | succ n ih =>
    unfold strLoop
    split
    · exact Quiet.pure ()
    · exact (emits_emit _).quiet.bind fun _ => ih (a + 1)

theorem vaArg_quiet (ap : List (BitVec 64)) : Quiet (vaArg ap) := by
  cases ap with
  | nil => exact fun _ => Sat.throw trivial
  | cons a ap => exact Quiet.pure _

theorem convert_quiet {print : ℕ → Pio Unit} (quiet : ∀ a, Quiet (print a)) (next : Byte)
    (ap : List (BitVec 64)) : Quiet (convert P emit print next ap) := by
  unfold convert
  split
  · exact (vaArg_quiet ap).bind fun arg => (printInt_emits _).quiet.bind fun _ => Quiet.pure _
  · split
    · refine (vaArg_quiet ap).bind fun arg => Quiet.bind ?_ fun _ => Quiet.pure _
      unfold onlyIf
      split
      · exact quiet _
      · exact Quiet.pure ()
    · split
      · exact (vaArg_quiet ap).bind fun arg => (printPtr_emits _).quiet.bind fun _ => Quiet.pure _
      · exact (emits_emit next).quiet.bind fun _ => Quiet.pure _

/-- The loop forgets no read, and starts with one. -/
theorem printfLoop_reads {print : ℕ → Pio Unit} (quiet : ∀ a, Quiet (print a)) :
    Sat (printfLoop P emit print s n i ap) t anyStop fun _ t' =>
      (∀ a ∈ t.reads, a ∈ t'.reads) ∧ s + i ∈ t'.reads := by
  induction n generalizing i ap t with
  | zero => exact Sat.throw trivial
  | succ n ih =>
    by_cases stop : P.mem (s + i) = 0
    · exact Sat.ofRun (round_stop stop) ⟨by simp +contextual, by simp⟩
    by_cases plain : P.mem (s + i) = percent
    · by_cases lone : P.mem (s + (i + 1)) = 0
      · unfold Sat
        rw [round_lone plain lone]
        exact Sat.mono ih fun _ t' ⟨kept, _⟩ =>
          ⟨fun a member => kept a (by simp [member]), kept _ (by simp)⟩
      · unfold Sat
        rw [round_convert plain rfl lone]
        refine Sat.bind (convert_quiet quiet _ ap _) fun ap' t₁ same => ?_
        refine Sat.mono ih fun _ t' ⟨kept, _⟩ => ?_
        rw [same] at kept
        exact ⟨fun a member => kept a (by simp [member]), kept _ (by simp)⟩
    · unfold Sat
      rw [round_char rfl stop plain]
      exact Sat.mono ih fun _ t' ⟨kept, _⟩ =>
        ⟨fun a member => kept a (by simp [member]), kept _ (by simp)⟩

/-- Behind a lone `%` the byte after the NUL is read. -/
theorem printfLoop_beyond {print : ℕ → Pio Unit} (quiet : ∀ a, Quiet (print a)) {fmt : List Byte}
    (text : StringAt P.mem (s + i) fmt) (lone : LoneEnd fmt) :
    Sat (printfLoop P emit print s n i ap) t anyStop fun _ t' =>
      s + i + fmt.length + 1 ∈ t'.reads := by
  induction fmt using pieces.induct generalizing n i ap t with
  | case1 => exact absurd lone (by decide)
  | case2 c =>
    cases n with
    | zero => exact Sat.throw trivial
    | succ n =>
      have same : c = percent := by
        by_contra plain
        exact absurd ((loneEnd_char plain []).mp lone) (by decide)
      obtain ⟨here, -, stop⟩ := text
      rw [same] at here
      unfold Sat
      rw [round_lone here (by rw [← Nat.add_assoc]; exact stop)]
      exact Sat.mono (printfLoop_reads quiet) fun _ t' ⟨_, read⟩ => by
        simpa [Nat.add_assoc] using read
  | case3 c next rest plain ih =>
    cases n with
    | zero => exact Sat.throw trivial
    | succ n =>
      obtain ⟨here, nonzero, text⟩ := text
      unfold Sat
      rw [round_char here nonzero plain]
      exact Sat.mono (ih (by simpa [Nat.add_assoc] using text)
          ((loneEnd_char plain _).mp lone)) fun _ t' read => by
        rwa [List.length_cons, show s + i + ((next :: rest).length + 1) + 1 =
          s + (i + 1) + (next :: rest).length + 1 by omega]
  | case4 c next rest same ih =>
    cases n with
    | zero => exact Sat.throw trivial
    | succ n =>
      obtain rfl : c = percent := not_not.mp same
      obtain ⟨here, -, there, nonzero, text⟩ := text
      unfold Sat
      rw [round_convert here there nonzero]
      refine Sat.bind (convert_quiet quiet _ ap _) fun ap' t₁ _ => ?_
      exact Sat.mono (ih (by simpa [Nat.add_assoc] using text)
          ((loneEnd_pair next _).mp lone)) fun _ t' read => by
        rwa [List.length_cons, List.length_cons, show s + i + (rest.length + 1 + 1) + 1 =
          s + (i + 2) + rest.length + 1 by omega]

/-- A call that scans as both copies do keeps to the format exactly when no lone `%` ends it. -/
theorem shared_formats_iff {fmt : List Byte} (text : StringAt P.mem s fmt)
    (renders : Renders P (pieces fmt) ap out) :
    Formats (fun n => shared P n s ap) out (s + fmt.length) ↔ ¬ LoneEnd fmt := by
  constructor
  · rintro ⟨enough, run⟩ lone
    obtain ⟨t, returned, -, read⟩ := run enough (Nat.le_refl enough)
    have beyond := (printfLoop_beyond (i := 0) (strLoop_quiet enough) text lone).ok returned
    have bound := read _ beyond
    omega
  · intro whole
    obtain ⟨enough, run⟩ := printfLoop_renders (i := 0) text renders whole
    refine ⟨enough, fun n more => ?_⟩
    obtain ⟨t, returned, shown, read⟩ := run n more n more {}
    refine ⟨t, returned, by simpa using shown, fun a member => ?_⟩
    simpa using read a member

/-- Both copies of `printf` read the format and its NUL only, and emit what the pieces show,
exactly when no lone `%` ends the format. The kernel's copy is that of a kernel that runs. -/
theorem printf_formats_iff {fmt : List Byte} (text : StringAt P.mem s fmt)
    (renders : Renders P (pieces fmt) ap out) :
    (Formats (fun n => Kernel.printf P false n s ap) out (s + fmt.length) ↔ ¬ LoneEnd fmt) ∧
      (s ≠ 0 →
        (Formats (fun n => User.printf P n s ap) out (s + fmt.length) ↔ ¬ LoneEnd fmt)) := by
  constructor
  · simp only [kernel_shared]
    exact shared_formats_iff text renders
  · intro nonnull
    simp only [user_shared nonnull]
    exact shared_formats_iff text renders

end Runs

/-- Memory with the given bytes from address 1 on. -/
def withText (bytes : List Byte) : Program where
  mem a := if a = 0 then 0 else bytes.getD (a - 1) 0
  nums k := hexDigits.getD k.toNat 0
  table := by decide

/-- `printf("%d%%", 7)`. -/
theorem printf_formats_iff_seven :
    Formats (fun n => Kernel.printf (withText [0x25, 0x64, 0x25, 0x25]) false n 1 [7])
        [0x37, 0x25] 5 ∧
      Formats (fun n => User.printf (withText [0x25, 0x64, 0x25, 0x25]) n 1 [7])
        [0x37, 0x25] 5 := by
  have text : StringAt (withText [0x25, 0x64, 0x25, 0x25]).mem 1 [0x25, 0x64, 0x25, 0x25] := by
    simp only [StringAt]
    decide
  have renders : Renders (withText [0x25, 0x64, 0x25, 0x25]) (pieces [0x25, 0x64, 0x25, 0x25]) [7]
      [0x37, 0x25] := .int 7 (.char 0x25 (.done []))
  have both := printf_formats_iff text renders
  exact ⟨both.1.mpr (by decide), (both.2 (by decide)).mpr (by decide)⟩

/-- `printf("%")` reads the byte behind the NUL. -/
theorem printf_reads_past :
    StringAt (withText [0x25]).mem 1 [0x25] ∧
      Renders (withText [0x25]) (pieces [0x25]) [] [0x25] ∧
      ¬ Formats (fun n => Kernel.printf (withText [0x25]) false n 1 []) [0x25] 2 ∧
      ¬ Formats (fun n => User.printf (withText [0x25]) n 1 []) [0x25] 2 := by
  have text : StringAt (withText [0x25]).mem 1 [0x25] := by
    simp only [StringAt]
    decide
  have renders : Renders (withText [0x25]) (pieces [0x25]) [] [0x25] := .char 0x25 (.done [])
  have never : ¬ Formats (fun n => shared (withText [0x25]) n 1 []) [0x25] 2 := fun formats =>
    (shared_formats_iff text renders).mp formats (by decide)
  refine ⟨text, renders, ?_, ?_⟩
  · simpa only [kernel_shared] using never
  · simpa only [user_shared (show 1 ≠ 0 by decide)] using never

end HaloOS.Printf
