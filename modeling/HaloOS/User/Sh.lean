import HaloOS.Console.Printf

/-! The shell reads a line into a buffer on its stack and hands the buffer to `exec`. The terminator
goes one place behind the end of the line. -/

namespace HaloOS.Sh

open Printf

/-- What a `read(0, &c, 1)` comes to. -/
inductive Read where
  /-- It returns 1 and has stored a byte. -/
  | byte (b : Byte)
  /-- It returns 0, as the console does for `^D`. -/
  | nothing
  /-- It returns a negative number. -/
  | failed
  deriving DecidableEq, Repr

/-- The value of `c` after a read. -/
def Read.into (c : Byte) : Read → Byte
  | .byte b => b
  | _ => c

/-- The variables of `main` between two commands: the bytes from the start of `buf` on, those of the
array and those behind it, and `c`. The reads are counted, and the writes of a command are listed. -/
structure State where
  buf : ℕ → Byte
  c : Byte
  pos : ℕ := 0
  writes : List ℕ := []

def lineFeed : Byte := 0x0a
def carriageReturn : Byte := 0x0d

/-- The bytes that end a line. -/
def EndsLine (c : Byte) : Prop := c = lineFeed ∨ c = carriageReturn

instance (c : Byte) : Decidable (EndsLine c) := inferInstanceAs (Decidable (_ ∨ _))

variable (reads : ℕ → Read)

/-- `for (i = 0; i + 1 < 100; i++)`, with `n` rounds to go: the last `i` and the state. -/
def lineLoop : ℕ → ℕ → State → ℕ × State
  | 0, i, s => (i, s)
  | n + 1, i, s =>
    let r := reads s.pos
    let s := { s with c := r.into s.c, pos := s.pos + 1 }
    if r = .failed then (i, s)
    else if EndsLine s.c then (i, s)
    else lineLoop n (i + 1) { s with buf := Function.update s.buf i s.c, writes := s.writes ++ [i] }

/-- A round of `main`, up to the `fork`: `buf` is what `exec` is called with. -/
def mainRound (s : State) : State :=
  let (i, s) := lineLoop reads 99 0 { s with writes := [] }
  { s with buf := Function.update s.buf (i + 1) 0, writes := s.writes ++ [i + 1] }

/-- The characters of the line at `pos`, `n` at most: the bytes that are delivered up to one that
ends the line, or to a read that delivers none. -/
def lineAt : ℕ → ℕ → List Byte
  | 0, _ => []
  | n + 1, pos =>
    match reads pos with
    | .byte b => if EndsLine b then [] else b :: lineAt n (pos + 1)
    | _ => []

/-- All writes of the round are inside of `buf`, and `exec` is called with the line, cut to 99
characters, if it has no NUL. -/
structure RoundRight (s : State) : Prop where
  inside : ∀ k ∈ (mainRound reads s).writes, k < 100
  passed : (0 : Byte) ∉ lineAt reads 99 s.pos →
    StringAt (mainRound reads s).buf 0 (lineAt reads 99 s.pos)

/-- The value of `c` after `n` reads from `pos` on. -/
def held (c : Byte) (pos : ℕ) : ℕ → Byte
  | 0 => c
  | n + 1 => (reads (pos + n)).into (held c pos n)

/-- The read with number `n` ends the loop. -/
def Stops (c : Byte) (pos n : ℕ) : Prop :=
  reads (pos + n) = .failed ∨ EndsLine (held reads c pos (n + 1))

/-- The loop is ended by one of its reads, number `n`, and a NUL gets behind the characters of the
line: it stood there before the command, or, where a read that delivers nothing did not end the
loop, it stood in `c`. Or the line has a NUL of its own. -/
def Terminated (s : State) : Prop :=
  ∃ n < 99, Stops reads s.c s.pos n ∧ (∀ j < n, ¬ Stops reads s.c s.pos j) ∧
    ((0 : Byte) ∈ lineAt reads 99 s.pos ∨
      (if (lineAt reads 99 s.pos).length = n then s.buf n
        else held reads s.c s.pos ((lineAt reads 99 s.pos).length + 1)) = 0)

section Loop

theorem held_next (c : Byte) (pos n : ℕ) :
    held reads ((reads pos).into c) (pos + 1) n = held reads c pos (n + 1) := by
  induction n with
  | zero => rfl
  | succ n ih =>
    rw [held, ih, show pos + 1 + n = pos + (n + 1) by omega]
    rfl

theorem stops_next (c : Byte) (pos n : ℕ) :
    Stops reads ((reads pos).into c) (pos + 1) n ↔ Stops reads c pos (n + 1) := by
  unfold Stops
  rw [held_next, show pos + 1 + n = pos + (n + 1) by omega]

/-- The loop goes on to its first read that ends it, or through all of its rounds, and stores the
values of `c` on its way. -/
theorem lineLoop_runs (fuel i : ℕ) (s : State) : ∃ n ≤ fuel, (∀ j < n, ¬ Stops reads s.c s.pos j) ∧
    (n < fuel → Stops reads s.c s.pos n) ∧ (lineLoop reads fuel i s).1 = i + n ∧
    (lineLoop reads fuel i s).2.writes = s.writes ++ List.range' i n ∧
    ∀ k, (lineLoop reads fuel i s).2.buf k =
      if i ≤ k ∧ k < i + n then held reads s.c s.pos (k - i + 1) else s.buf k := by
  induction fuel generalizing i s with
  | zero =>
    refine ⟨0, Nat.le_refl 0, fun j below => absurd below (Nat.not_lt_zero j),
      fun below => absurd below (Nat.lt_irrefl 0), rfl, by simp [lineLoop], fun k => ?_⟩
    rw [if_neg (by omega)]
    rfl
  | succ fuel ih =>
    unfold lineLoop
    dsimp only
    by_cases stop : Stops reads s.c s.pos 0
    · have ended : ∀ {next : ℕ × State}, (if reads s.pos = .failed then
          (i, { s with c := (reads s.pos).into s.c, pos := s.pos + 1 })
          else if EndsLine ((reads s.pos).into s.c) then
            (i, { s with c := (reads s.pos).into s.c, pos := s.pos + 1 }) else next) =
          (i, { s with c := (reads s.pos).into s.c, pos := s.pos + 1 }) := by
        intro next
        rcases stop with failed | ends
        · rw [if_pos (show reads s.pos = .failed from failed)]
        · rw [if_pos (show EndsLine ((reads s.pos).into s.c) from ends), ite_self]
      rw [ended]
      refine ⟨0, Nat.zero_le _, fun j below => absurd below (Nat.not_lt_zero j), fun _ => stop, rfl,
        by simp, fun k => ?_⟩
      rw [if_neg (by omega)]
    · have goes : reads s.pos ≠ .failed ∧ ¬ EndsLine ((reads s.pos).into s.c) :=
        ⟨fun failed => stop (.inl failed), fun ends => stop (.inr ends)⟩
      rw [if_neg goes.1, if_neg goes.2]
      obtain ⟨n, le, before, last, index, writes, buf⟩ := ih (i + 1)
        { s with
          c := (reads s.pos).into s.c
          pos := s.pos + 1
          buf := Function.update s.buf i ((reads s.pos).into s.c)
          writes := s.writes ++ [i] }
      refine ⟨n + 1, by omega, fun j below => ?_, fun below => ?_, by rw [index]; omega, ?_, fun k => ?_⟩
      · cases j with
        | zero => exact stop
        | succ j => exact fun stops => before j (by omega) ((stops_next reads _ _ j).mpr stops)
      · exact (stops_next reads _ _ n).mp (last (by omega))
      · rw [writes, List.range'_succ]
        simp
      · rw [buf k]
        by_cases here : k = i
        · subst here
          rw [if_neg (by omega), if_pos (by omega), Nat.sub_self]
          exact Function.update_self ..
        · by_cases inside : i ≤ k ∧ k < i + (n + 1)
          · rw [if_pos (by omega), if_pos inside, held_next, show k - (i + 1) + 1 = k - i by omega]
          · rw [if_neg (by omega), if_neg inside]
            exact Function.update_of_ne here _ _

/-- The round in terms of the number of the read that ends its loop, 99 if none does. -/
theorem mainRound_runs (s : State) : ∃ n ≤ 99, (∀ j < n, ¬ Stops reads s.c s.pos j) ∧
    (n < 99 → Stops reads s.c s.pos n) ∧ (mainRound reads s).writes = List.range' 0 n ++ [n + 1] ∧
    ∀ k, (mainRound reads s).buf k =
      if k = n + 1 then 0 else if k < n then held reads s.c s.pos (k + 1) else s.buf k := by
  obtain ⟨n, le, before, last, index, writes, buf⟩ := lineLoop_runs reads 99 0
    { s with writes := [] }
  refine ⟨n, le, before, last, ?_, fun k => ?_⟩
  · unfold mainRound
    dsimp only
    rw [writes, index]
    simp
  · unfold mainRound
    dsimp only
    rw [index, Nat.zero_add]
    by_cases here : k = n + 1
    · subst here
      rw [if_pos rfl, Function.update_self]
    · rw [if_neg here, Function.update_of_ne here, buf k]
      simp

end Loop

section Line

/-- The characters of a line are delivered one by one, and what follows them ends the line. -/
theorem lineAt_runs (n pos : ℕ) : (lineAt reads n pos).length ≤ n ∧
    (∀ j b, (lineAt reads n pos)[j]? = some b → reads (pos + j) = .byte b ∧ ¬ EndsLine b) ∧
    ((lineAt reads n pos).length < n → ∀ b, reads (pos + (lineAt reads n pos).length) = .byte b →
      EndsLine b) := by
  induction n generalizing pos with
  | zero =>
    refine ⟨Nat.le_refl 0, fun j b there => ?_, fun less => absurd less (Nat.lt_irrefl 0)⟩
    simp [lineAt] at there
  | succ n ih =>
    unfold lineAt
    cases read : reads pos with
    | byte c =>
      dsimp only
      by_cases ends : EndsLine c
      · rw [if_pos ends]
        refine ⟨Nat.zero_le _, fun j b there => by simp at there, fun _ b there => ?_⟩
        obtain rfl : c = b := by simpa [read] using there
        exact ends
      · rw [if_neg ends]
        obtain ⟨le, chars, last⟩ := ih (pos + 1)
        refine ⟨by simpa using le, fun j b there => ?_, fun less b there => ?_⟩
        · cases j with
          | zero =>
            obtain rfl : c = b := by simpa using there
            exact ⟨read, ends⟩
          | succ j =>
            have char := chars j b (by simpa using there)
            rwa [show pos + 1 + j = pos + (j + 1) by omega] at char
        · simp only [List.length_cons] at less there
          refine last (by omega) b ?_
          rwa [show pos + 1 + (lineAt reads n (pos + 1)).length =
            pos + ((lineAt reads n (pos + 1)).length + 1) by omega]
    | nothing =>
      refine ⟨Nat.zero_le _, fun j b there => by simp at there, fun _ b there => ?_⟩
      simp [read] at there
    | failed =>
      refine ⟨Nat.zero_le _, fun j b there => by simp at there, fun _ b there => ?_⟩
      simp [read] at there

theorem stringAt_iff (mem : ℕ → Byte) (a : ℕ) (str : List Byte) : StringAt mem a str ↔
    (∀ j b, str[j]? = some b → mem (a + j) = b) ∧ (0 : Byte) ∉ str ∧ mem (a + str.length) = 0 := by
  induction str generalizing a with
  | nil => simp [StringAt]
  | cons c str ih =>
    rw [StringAt, ih]
    simp only [List.mem_cons, not_or, List.length_cons, Nat.add_right_comm a 1, Nat.add_assoc]
    constructor
    · rintro ⟨here, nonzero, chars, others, stop⟩
      refine ⟨fun j b there => ?_, ⟨Ne.symm nonzero, others⟩, stop⟩
      cases j with
      | zero =>
        obtain rfl : c = b := by simpa using there
        exact here
      | succ j =>
        exact chars j b (by simpa using there)
    · rintro ⟨chars, ⟨nonzero, others⟩, stop⟩
      refine ⟨chars 0 c rfl, Ne.symm nonzero, fun j b there => ?_, others, stop⟩
      exact chars (j + 1) b (by simpa using there)

end Line

/-- The bytes are typed, and the console fails behind them. -/
def typed (keys : List Byte) (k : ℕ) : Read := (keys[k]?.map Read.byte).getD .failed

/-- What `cat` and its line feed leave behind. -/
def afterCat : State where
  buf k := [0x63, 0x61, 0x74, 0].getD k 0
  c := lineFeed

end HaloOS.Sh
