import HaloOS.Kernel.Model
import HaloOS.Lib.Ring
import HaloOS.Lib.Trace

/-! The line discipline of the console, `console.c`. The interrupt handler edits and
commits lines, readers take committed bytes; what happens under `cons.slock` without a
sleep in between is one step. A reader that sleeps goes on at any later time. -/

namespace HaloOS.Cons

open Lib

instance : NeZero INPUT_MAX := ⟨by decide⟩

theorem input_dvd_uint : INPUT_MAX ∣ UINT := by decide

/-- `'\n'` and `C('D')`: where a read ends. -/
def Ends (key : Byte) : Prop := key = 0x0a ∨ key = C 0x44

instance : DecidablePred Ends := fun _ => inferInstanceAs (Decidable (_ ∨ _))

/-- How a run of the loop of `consoleread` under the lock comes to its end. -/
inductive Outcome where
  /-- The call returns, with `left` of its bytes not delivered. -/
  | returned (left : ℕ)
  /-- It sleeps, with `left` bytes to go. -/
  | sleeps (left : ℕ)
  deriving DecidableEq

/-- The loop of `consoleread` with `n` bytes to go and a valid destination, up to its
return or to a sleep, with the keys it takes: the bytes delivered, and a consumed `^D`. -/
def readLoop (target : ℕ) : ℕ → Console → Console × List Byte × Outcome
  | 0, c => (c, [], .returned 0)
  | n + 1, c =>
    if c.r = c.w then (c, [], .sleeps (n + 1))
    else
      let key := c.buf (c.r % INPUT_MAX)
      let next := { c with r := (c.r + 1) % UINT }
      if key = C 0x44 then
        if n + 1 < target then
          ({ next with r := (next.r + UINT - 1) % UINT }, [], .returned (n + 1))
        else (next, [key], .returned (n + 1))
      else if key = 0x0a then (next, [key], .returned n)
      else
        let (last, keys, outcome) := readLoop target n next
        (last, key :: keys, outcome)

/-- What typing comes to, key by key: the committed input and the line being edited. -/
structure Editor where
  committed : List Byte := []
  line : List Byte := []

/-- A key typed while `unread` bytes of the committed input wait for a reader. -/
def Editor.type (unread : ℕ) (key : Byte) (ed : Editor) : Editor :=
  if key = C 0x55 then { ed with line := [] }
  else if key = C 0x48 ∨ key = 0x7f then { ed with line := ed.line.dropLast }
  else if key ≠ 0 ∧ unread + ed.line.length < INPUT_MAX then
    let key := if key = 0x0d then 0x0a else key
    let line := ed.line ++ [key]
    if key = 0x0a ∨ key = C 0x44 ∨ unread + line.length = INPUT_MAX then
      { committed := ed.committed ++ line, line := [] }
    else { ed with line }
  else ed

/-- A key that a call of `consoleread` has taken. -/
structure Taken where
  call : ℕ
  key : Byte
  deriving DecidableEq

/-- A call of `consoleread` that sleeps. -/
structure Reader where
  call : ℕ
  target : ℕ
  left : ℕ
  deriving DecidableEq

/-- The console, the sleeping calls by process, and the history: what was typed, and what
was taken, in order. Calls are numbered as they come. -/
structure State where
  cons : Console := {}
  readers : ℕ → Option Reader := fun _ => none
  calls : ℕ := 0
  editor : Editor := {}
  log : List Taken := []

/-- The committed input that nobody has taken. -/
def State.unread (s : State) : List Byte := s.editor.committed.drop s.log.length

/-- `consoleintr(key)`. -/
def State.type (s : State) (key : Byte) : State :=
  { s with
    cons := consoleintr key s.cons
    editor := s.editor.type s.unread.length key }

/-- Process `p` runs the loop of its call, new or woken. -/
def State.read (s : State) (p : ℕ) (reader : Reader) : State :=
  let (cons, keys, outcome) := readLoop reader.target reader.left s.cons
  { s with
    cons
    log := s.log ++ keys.map (Taken.mk reader.call)
    readers := Function.update s.readers p (match outcome with
      | .returned _ => none
      | .sleeps left => some { reader with left }) }

/-- `consoleread` is called for `target` bytes. -/
def State.call (s : State) (p target : ℕ) : State :=
  { s with calls := s.calls + 1 }.read p ⟨s.calls, target, target⟩

/-- What a step shows of itself. -/
inductive Event where
  | key (key : Byte)
  | call (p target : ℕ)
  | resume (p : ℕ)

/-- One step under `cons.slock`. -/
inductive Step : State → Event → State → Prop where
  | type {s : State} {key : Byte} : Step s (.key key) (s.type key)
  | call {s : State} {p target : ℕ} (idle : s.readers p = none) :
      Step s (.call p target) (s.call p target)
  /-- A sleeping call has been woken. -/
  | resume {s : State} {p : ℕ} {reader : Reader} (waiting : s.readers p = some reader) :
      Step s (.resume p) (s.read p reader)

/-- The keys that the given call has taken. -/
def keysOf (call : ℕ) (log : List Taken) : List Byte :=
  (log.filter (·.call = call)).map (·.key)

/-- `cons.buf` by slot. -/
def ring (c : Console) : Fin INPUT_MAX → Byte := fun i => c.buf i

/-- Between `r` and `w` the ring holds the unread bytes, between `w` and `e` the line. -/
structure Rep (c : Console) (unread line : List Byte) : Prop where
  holds : RingHolds UINT (ring c) c.r c.e (unread ++ line)
  mark : c.w = (c.r + unread.length) % UINT
  room : (unread ++ line).length ≤ INPUT_MAX
  plain : ∀ x ∈ line, x ≠ 0x0a

theorem slotOf_val (a : ℕ) : (slotOf INPUT_MAX a : ℕ) = a % INPUT_MAX := by
  simp [slotOf]

theorem input_lt_uint : INPUT_MAX < UINT := by decide

/-- Counters that stand at different places of the queue differ. -/
theorem place_iff (r : ℕ) {a b : ℕ} (first : a ≤ INPUT_MAX) (second : b ≤ INPUT_MAX) :
    (r + a) % UINT = (r + b) % UINT ↔ a = b := by
  have small := input_lt_uint
  constructor
  · intro same
    have equal : a ≡ b [MOD UINT] := Nat.ModEq.add_left_cancel' r same
    rwa [Nat.ModEq, Nat.mod_eq_of_lt (by omega), Nat.mod_eq_of_lt (by omega)] at equal
  · rintro rfl
    rfl

section

variable {c : Console} {unread line : List Byte}

theorem Rep.short (rep : Rep c unread line) : (unread ++ line).length < UINT :=
  lt_of_le_of_lt rep.room input_lt_uint

theorem Rep.edited (rep : Rep c unread line) : c.e = c.w ↔ line = [] := by
  have room := rep.room
  rw [List.length_append] at room
  rw [rep.holds.top_eq, rep.mark, place_iff c.r (by simpa using room) (by omega),
    List.length_append]
  simp

theorem Rep.empty (rep : Rep c unread line) : c.r = c.w ↔ unread = [] := by
  have room := rep.room
  rw [List.length_append] at room
  have zero : c.r = (c.r + 0) % UINT := by
    rw [Nat.add_zero, Nat.mod_eq_of_lt rep.holds.base_lt]
  rw [rep.mark]
  nth_rewrite 1 [zero]
  rw [place_iff c.r (by omega) (by omega), eq_comm, List.length_eq_zero_iff]

theorem ring_back {U : ℕ} {q : List Byte} {x : Byte} (divides : INPUT_MAX ∣ U)
    (holds : RingHolds U (ring c) c.r c.e (q ++ [x])) :
    c.buf ((c.e + U - 1) % U % INPUT_MAX) = x ∧
      RingHolds U (ring { c with e := (c.e + U - 1) % U }) c.r ((c.e + U - 1) % U) q := by
  obtain ⟨last, before⟩ := holds.unpush divides
  rw [ring, slotOf_val] at last
  exact ⟨last, before⟩

/-- One key of the line is taken back. -/
theorem Rep.back {x : Byte} (rep : Rep c unread (line ++ [x])) :
    c.buf ((c.e + UINT - 1) % UINT % INPUT_MAX) = x ∧
      Rep { c with e := (c.e + UINT - 1) % UINT } unread line := by
  have holds := rep.holds
  rw [← List.append_assoc] at holds
  obtain ⟨last, before⟩ := ring_back input_dvd_uint holds
  refine ⟨last, before, rep.mark, ?_, ?_⟩
  · have room := rep.room
    simp only [List.length_append, List.length_singleton] at room ⊢
    omega
  · exact fun y member => rep.plain y (by simp [member])

/-- Control-U takes the line back. -/
theorem Rep.erase (fuel : ℕ) : ∀ {c : Console} {line : List Byte}, Rep c unread line →
    line.length ≤ fuel → Rep (eraseLine fuel c) unread [] ∧ (eraseLine fuel c).r = c.r := by
  induction fuel with
  | zero =>
    intro c line rep short
    obtain rfl : line = [] := List.length_eq_zero_iff.mp (by omega)
    exact ⟨rep, rfl⟩
  | succ fuel ih =>
    intro c line rep short
    rcases List.eq_nil_or_concat line with rfl | ⟨front, x, rfl⟩
    · have stop : ¬ (c.e ≠ c.w ∧ c.buf ((c.e + UINT - 1) % UINT % INPUT_MAX) ≠ 0x0a) :=
        fun busy => busy.1 (rep.edited.mpr rfl)
      rw [eraseLine, if_neg stop]
      exact ⟨rep, rfl⟩
    · rw [List.concat_eq_append] at rep short
      obtain ⟨last, before⟩ := rep.back
      have more : c.e ≠ c.w ∧ c.buf ((c.e + UINT - 1) % UINT % INPUT_MAX) ≠ 0x0a := by
        refine ⟨fun same => by simpa using rep.edited.mp same, ?_⟩
        rw [last]
        exact rep.plain x (by simp)
      rw [eraseLine, if_pos more]
      exact ih before (by simpa using short)

/-- A key is added to the line. -/
theorem Rep.add (rep : Rep c unread line) (key : Byte) (space : (unread ++ line).length < INPUT_MAX) :
    RingHolds UINT (ring { c with buf := Function.update c.buf (c.e % INPUT_MAX) key }) c.r
      ((c.e + 1) % UINT) (unread ++ (line ++ [key])) := by
  have pushed := rep.holds.push input_dvd_uint space key
  rw [List.append_assoc] at pushed
  convert pushed using 1
  funext i
  simp only [ring, Function.update_apply, Fin.ext_iff, slotOf_val]

/-- A key that is neither an editing key nor dropped. -/
theorem Rep.insert (rep : Rep c unread line) (key : Byte)
    (space : (unread ++ line).length < INPUT_MAX) :
    let e := (c.e + 1) % UINT
    let buf := Function.update c.buf (c.e % INPUT_MAX) key
    if key = 0x0a ∨ key = C 0x44 ∨ unread.length + (line ++ [key]).length = INPUT_MAX then
      Rep { c with buf, e, w := e } (unread ++ (line ++ [key])) []
    else Rep { c with buf, e } unread (line ++ [key]) := by
  have added := rep.add key space
  have short : (unread ++ (line ++ [key])).length ≤ INPUT_MAX := by
    simp only [List.length_append, List.length_singleton] at space ⊢
    omega
  simp only
  split
  · refine ⟨?_, ?_, ?_, by simp⟩
    · rw [List.append_nil]
      exact added
    · exact added.top_eq
    · rwa [List.append_nil]
  · rename_i other
    refine ⟨added, rep.mark, short, ?_⟩
    intro x member
    rcases List.mem_append.mp member with old | new
    · exact rep.plain x old
    · rw [List.mem_singleton.mp new]
      exact fun newline => other (.inl newline)

/-- The handler does to the ring what typing does to the line. -/
theorem Rep.type (rep : Rep c unread line) (key : Byte) (committed : List Byte) :
    ∃ more, (Editor.type unread.length key ⟨committed, line⟩).committed = committed ++ more ∧
      Rep (consoleintr key c) (unread ++ more)
        (Editor.type unread.length key ⟨committed, line⟩).line ∧
      (consoleintr key c).r = c.r := by
  have room := rep.room
  rw [List.length_append] at room
  unfold Editor.type consoleintr
  by_cases kill : key = C 0x55
  · obtain ⟨erased, same⟩ := rep.erase INPUT_MAX (by omega)
    simp only [kill, if_true]
    exact ⟨[], by simp, by simpa using erased, same⟩
  simp only [kill, if_false]
  by_cases back : key = C 0x48 ∨ key = 0x7f
  · simp only [back, if_true]
    refine ⟨[], by simp, ?_⟩
    rw [List.append_nil]
    rcases List.eq_nil_or_concat line with rfl | ⟨front, x, rfl⟩
    · rw [if_neg (not_not.mpr (rep.edited.mpr rfl))]
      exact ⟨rep, rfl⟩
    · rw [List.concat_eq_append] at rep ⊢
      rw [if_pos fun same => by simpa using rep.edited.mp same, List.dropLast_concat]
      exact ⟨rep.back.2, rfl⟩
  simp only [back, if_false]
  have count : (c.e + UINT - c.r) % UINT = unread.length + line.length := by
    rw [rep.holds.length_eq rep.short, List.length_append]
  rw [count]
  by_cases kept : key ≠ 0 ∧ unread.length + line.length < INPUT_MAX
  swap
  · rw [if_neg kept, if_neg kept]
    exact ⟨[], by simp, by simpa using rep, rfl⟩
  rw [if_pos kept, if_pos kept]
  generalize (if key = 0x0d then (0x0a : Byte) else key) = typed
  have inserted := rep.insert typed (by simpa using kept.2)
  have full : (c.e + 1) % UINT = (c.r + INPUT_MAX) % UINT ↔
      unread.length + (line ++ [typed]).length = INPUT_MAX := by
    rw [rep.holds.top_eq, Nat.mod_add_mod, Nat.add_assoc, place_iff c.r _ le_rfl]
    · simp [Nat.add_assoc]
    · simp only [List.length_append]
      omega
  simp only [full]
  simp only at inserted
  split at inserted
  · rename_i commit
    rw [if_pos commit, if_pos commit]
    exact ⟨line ++ [typed], rfl, inserted, rfl⟩
  · rename_i other
    rw [if_neg other, if_neg other]
    exact ⟨[], by simp, by simpa using inserted, rfl⟩

/-- `r--` undoes `r++`. -/
theorem push_back {U r : ℕ} (inside : r < U) : ((r + 1) % U + U - 1) % U = r := by
  rw [Nat.add_sub_assoc (by omega), Nat.mod_add_mod, show r + 1 + (U - 1) = r + U by omega,
    Nat.add_mod_right, Nat.mod_eq_of_lt inside]

/-- A reader takes the first of the unread bytes. -/
theorem Rep.take {x : Byte} (rep : Rep c (x :: unread) line) :
    c.buf (c.r % INPUT_MAX) = x ∧ Rep { c with r := (c.r + 1) % UINT } unread line := by
  obtain ⟨first, popped⟩ := rep.holds.pop input_dvd_uint
  rw [ring, slotOf_val] at first
  refine ⟨first, popped, ?_, ?_, rep.plain⟩
  · rw [rep.mark, List.length_cons, Nat.mod_add_mod]
    congr 1
    omega
  · have room := rep.room
    simp only [List.length_append, List.length_cons] at room ⊢
    omega

/-- The loop of `consoleread` takes the first unread bytes, up to the first key that ends
a read, and sleeps only when it has taken them all. -/
theorem Rep.read (target n : ℕ) : ∀ {c : Console} {unread : List Byte}, Rep c unread line →
    ∃ keys rest, unread = keys ++ rest ∧ (readLoop target n c).2.1 = keys ∧
      Rep (readLoop target n c).1 rest line ∧ (∀ x ∈ keys.dropLast, ¬ Ends x) ∧
      ∀ left, (readLoop target n c).2.2 = .sleeps left → ∀ x ∈ keys, ¬ Ends x := by
  induction n with
  | zero =>
    intro c unread rep
    exact ⟨[], unread, rfl, rfl, rep, by simp, by simp⟩
  | succ n ih =>
    intro c unread rep
    unfold readLoop
    cases unread with
    | nil =>
      rw [if_pos (rep.empty.mpr rfl)]
      exact ⟨[], [], rfl, rfl, rep, by simp, by simp⟩
    | cons x rest =>
      rw [if_neg fun same => by simpa using rep.empty.mp same]
      obtain ⟨first, popped⟩ := rep.take
      simp only [first]
      by_cases mark : x = C 0x44
      · rw [if_pos mark]
        by_cases some_ : n + 1 < target
        · rw [if_pos some_]
          refine ⟨[], x :: rest, rfl, rfl, ?_, by simp, by simp⟩
          rw [push_back rep.holds.base_lt]
          exact rep
        · rw [if_neg some_]
          exact ⟨[x], rest, rfl, rfl, popped, by simp, by simp⟩
      rw [if_neg mark]
      by_cases newline : x = 0x0a
      · rw [if_pos newline]
        exact ⟨[x], rest, rfl, rfl, popped, by simp, by simp⟩
      rw [if_neg newline]
      obtain ⟨keys, later, split, taken, after, inner, asleep⟩ := ih popped
      have plain : ¬ Ends x := by
        rintro (one | two)
        · exact newline one
        · exact mark two
      refine ⟨x :: keys, later, by simp [split], by simp [taken], after, ?_, ?_⟩
      · intro y member
        cases keys with
        | nil => simp at member
        | cons z more =>
          rw [List.dropLast_cons_of_ne_nil (by simp)] at member
          rcases List.mem_cons.mp member with rfl | old
          · exact plain
          · exact inner y old
      · intro left sleeps y member
        rcases List.mem_cons.mp member with rfl | old
        · exact plain
        · exact asleep left sleeps y old

end

structure Inv (s : State) : Prop where
  rep : Rep s.cons s.unread s.editor.line
  log : s.log.map (·.key) <+: s.editor.committed
  calls : ∀ k, ∀ x ∈ (keysOf k s.log).dropLast, ¬ Ends x
  waiting : ∀ p reader, s.readers p = some reader →
    reader.call < s.calls ∧ ∀ x ∈ keysOf reader.call s.log, ¬ Ends x
  numbered : ∀ entry ∈ s.log, entry.call < s.calls
  distinct : ∀ p q one two, s.readers p = some one → s.readers q = some two →
    one.call = two.call → p = q

theorem inv_init : Inv {} where
  rep := by
    refine ⟨?_, rfl, by decide, by simp⟩
    exact .empty _ _ (by decide)
  log := by simp
  calls := by simp [keysOf]
  waiting := by simp
  numbered := by simp
  distinct := by simp

theorem keysOf_append (k : ℕ) (log more : List Taken) :
    keysOf k (log ++ more) = keysOf k log ++ keysOf k more := by
  simp [keysOf]

theorem keysOf_map (k call : ℕ) (keys : List Byte) :
    keysOf k (keys.map (Taken.mk call)) = if call = k then keys else [] := by
  unfold keysOf
  by_cases same : call = k
  · simp [same, List.filter_map, Function.comp_def]
  · simp [same, List.filter_map, Function.comp_def]

/-- The editor only adds to what it has committed. -/
theorem Inv.type {s : State} (inv : Inv s) (key : Byte) : Inv (s.type key) := by
  obtain ⟨more, grown, rep, _⟩ := inv.rep.type key s.editor.committed
  have unread : (s.type key).unread = s.unread ++ more := by
    have long : s.log.length ≤ s.editor.committed.length := by
      simpa using inv.log.length_le
    change ((s.editor.type s.unread.length key).committed).drop s.log.length = _
    rw [grown, List.drop_append_of_le_length long]
    rfl
  refine ⟨?_, ?_, inv.calls, inv.waiting, inv.numbered, inv.distinct⟩
  · rw [unread]
    exact rep
  · change _ <+: (s.editor.type s.unread.length key).committed
    rw [grown]
    exact inv.log.trans (List.prefix_append _ _)

/-- A call that has not met the end of its read takes what its loop takes. -/
theorem Inv.read {s : State} (inv : Inv s) {p : ℕ} {reader : Reader}
    (mine : reader.call < s.calls) (going : ∀ x ∈ keysOf reader.call s.log, ¬ Ends x)
    (only : ∀ q other, s.readers q = some other → other.call = reader.call → q = p) :
    Inv (s.read p reader) := by
  obtain ⟨keys, rest, split, taken, rep, ended, asleep⟩ :=
    inv.rep.read reader.target reader.left
  have log : (s.read p reader).log = s.log ++ keys.map (Taken.mk reader.call) := by
    simp [State.read, taken]
  obtain ⟨tail, committed⟩ := inv.log
  have whole : s.editor.committed = s.log.map (·.key) ++ s.unread := by
    rw [State.unread, ← committed]
    simp
  have ours : keysOf reader.call (s.read p reader).log = keysOf reader.call s.log ++ keys := by
    rw [log, keysOf_append, keysOf_map, if_pos rfl]
  have theirs : ∀ k, k ≠ reader.call → keysOf k (s.read p reader).log = keysOf k s.log := by
    intro k other
    rw [log, keysOf_append, keysOf_map, if_neg (Ne.symm other), List.append_nil]
  have left : (s.read p reader).unread = rest := by
    change s.editor.committed.drop (s.read p reader).log.length = rest
    rw [whole, split, log, ← List.append_assoc, List.drop_append_of_le_length (by simp)]
    simp
  have asks : ∀ q other, (s.read p reader).readers q = some other →
      (q = p ∧ other.call = reader.call ∧ ∀ x ∈ keys, ¬ Ends x) ∨
        (q ≠ p ∧ s.readers q = some other ∧ other.call ≠ reader.call) := by
    intro q other waits
    by_cases same : q = p
    · subst same
      simp only [State.read, Function.update_self] at waits
      cases outcome : (readLoop reader.target reader.left s.cons).2.2 with
      | returned _ => simp [outcome] at waits
      | sleeps m =>
        simp only [outcome, Option.some.injEq] at waits
        subst waits
        exact .inl ⟨rfl, rfl, asleep m outcome⟩
    · simp only [State.read, Function.update_of_ne same] at waits
      exact .inr ⟨same, waits, fun equal => same (only q other waits equal)⟩
  refine ⟨?_, ?_, ?_, ?_, ?_, ?_⟩
  · rw [left]
    exact rep
  · change _ <+: s.editor.committed
    rw [log, whole, split, List.map_append, ← List.append_assoc]
    simp [Function.comp_def]
  · intro k
    by_cases same : k = reader.call
    · subst same
      rw [ours]
      intro x member
      rcases List.eq_nil_or_concat keys with rfl | ⟨front, last, rfl⟩
      · rw [List.append_nil] at member
        exact going x (List.dropLast_subset _ member)
      · rw [List.concat_eq_append, ← List.append_assoc, List.dropLast_concat] at member
        rcases List.mem_append.mp member with old | new
        · exact going x old
        · exact ended x (by rwa [List.concat_eq_append, List.dropLast_concat])
    · rw [theirs k same]
      exact inv.calls k
  · intro q other waits
    rcases asks q other waits with ⟨_, call, plain⟩ | ⟨_, before, another⟩
    · rw [call, ours]
      refine ⟨mine, ?_⟩
      intro x member
      rcases List.mem_append.mp member with old | new
      · exact going x old
      · exact plain x new
    · rw [theirs _ another]
      exact inv.waiting q other before
  · rw [log]
    intro entry member
    rcases List.mem_append.mp member with old | new
    · exact inv.numbered entry old
    · obtain ⟨x, _, rfl⟩ := List.mem_map.mp new
      exact mine
  · intro q q' one two first second equal
    rcases asks q one first with ⟨rfl, call, _⟩ | ⟨_, before, another⟩ <;>
      rcases asks q' two second with ⟨rfl, call', _⟩ | ⟨_, before', another'⟩
    · rfl
    · exact absurd (equal.symm.trans call) another'
    · exact absurd (equal.trans call') another
    · exact inv.distinct q q' one two before before' equal

theorem Inv.step {s t : State} {e : Event} (inv : Inv s) (taken : Step s e t) : Inv t := by
  cases taken with
  | type => exact inv.type _
  | @call p target idle =>
    have fresh : ∀ x ∈ keysOf s.calls s.log, ¬ Ends x := by
      intro x member
      simp only [keysOf, List.mem_map, List.mem_filter, decide_eq_true_eq] at member
      obtain ⟨entry, ⟨old, same⟩, _⟩ := member
      exact absurd same (inv.numbered entry old).ne
    have begun : Inv { s with calls := s.calls + 1 } :=
      ⟨inv.rep, inv.log, inv.calls,
        fun q other waits => ⟨(inv.waiting q other waits).1.trans (Nat.lt_succ_self _),
          (inv.waiting q other waits).2⟩,
        fun entry member => (inv.numbered entry member).trans (Nat.lt_succ_self _),
        inv.distinct⟩
    refine begun.read (Nat.lt_succ_self _) fresh ?_
    intro q other waits same
    exact absurd same (inv.waiting q other waits).1.ne
  | @resume p reader waiting =>
    obtain ⟨mine, going⟩ := inv.waiting p reader waiting
    exact inv.read mine going fun q other waits same =>
      inv.distinct q p other reader waits waiting same

/-- The console delivers the committed input in order, whatever the order of keys and
reads, and a read ends at the first newline or end-of-file mark that it takes. -/
theorem console_correct {s : State} (reached : Reachable Step {} s) :
    (s.cons.w + UINT - s.cons.r) % UINT ≤ (s.cons.e + UINT - s.cons.r) % UINT ∧
    (s.cons.e + UINT - s.cons.r) % UINT ≤ INPUT_MAX ∧
    s.log.map (·.key) <+: s.editor.committed ∧
    RingHolds UINT (ring s.cons) s.cons.r s.cons.w s.unread ∧
    (∀ e t, Step s e t → s.editor.committed <+: t.editor.committed ∧ s.log <+: t.log) ∧
    ∀ k, ∀ x ∈ (keysOf k s.log).dropLast, ¬ Ends x := by
  have inv := reached.invariant Inv inv_init fun _ _ _ inv taken => inv.step taken
  have queue := inv.rep.holds.front inv.rep.mark
  have short := inv.rep.short
  have room := inv.rep.room
  rw [List.length_append] at short room
  refine ⟨?_, ?_, inv.log, queue, ?_, inv.calls⟩
  · rw [queue.length_eq (by omega), inv.rep.holds.length_eq inv.rep.short, List.length_append]
    omega
  · rw [inv.rep.holds.length_eq inv.rep.short]
    exact inv.rep.room
  · intro e t taken
    cases taken with
    | @type key =>
      obtain ⟨more, grown, _⟩ := inv.rep.type key s.editor.committed
      refine ⟨?_, List.prefix_rfl⟩
      change _ <+: (s.editor.type s.unread.length key).committed
      rw [grown]
      exact List.prefix_append _ _
    | call idle => exact ⟨List.prefix_rfl, List.prefix_append _ _⟩
    | resume waiting => exact ⟨List.prefix_rfl, List.prefix_append _ _⟩

/-- One read takes nothing on both sides of a newline or an end-of-file mark. -/
def Unbroken (log : List Taken) : Prop :=
  ∀ (i j m : ℕ) (a b c : Taken), log[i]? = some a → log[j]? = some b → log[m]? = some c →
    a.call = b.call → i ≤ m → m < j → ¬ Ends c.key

theorem reachable_iterate (key : Byte) (n : ℕ) :
    Reachable Step {} ((fun s => State.type s key)^[n] {}) := by
  induction n with
  | zero => exact .refl _
  | succ n ih =>
    rw [Function.iterate_succ_apply']
    exact ih.tail .type

/-- A full buffer without a newline. -/
def brimful : State := (fun s => State.type s 0x61)^[128] {}

/-- Process 0 empties it and sleeps in its read; `^D` is typed. -/
def interrupted : State := (brimful.call 0 130).type (C 0x44)

/-- Process 1 takes the mark as its end of file; a line is typed and process 0 goes on. -/
def overlapped : State := (((interrupted.call 1 1).type 0x62).type 0x0a).read 0 ⟨0, 130, 2⟩

theorem reachable_overlapped : Reachable Step {} overlapped := by
  have started : Reachable Step {} (brimful.call 0 130) :=
    (reachable_iterate 0x61 128).tail (.call (by decide +kernel))
  have marked : Reachable Step {} interrupted := started.tail .type
  have taken : Reachable Step {} (interrupted.call 1 1) :=
    marked.tail (.call (by decide +kernel))
  have typed : Reachable Step {} (((interrupted.call 1 1).type 0x62).type 0x0a) :=
    (taken.tail .type).tail .type
  exact typed.tail (.resume (by decide +kernel))

/-- A read that empties a full buffer sleeps; another read takes the end-of-file mark that
is typed then, and the first one goes on behind it. -/
theorem read_passes_mark : ∃ s, Reachable Step {} s ∧ ¬ Unbroken s.log := by
  refine ⟨overlapped, reachable_overlapped, ?_⟩
  intro unbroken
  exact unbroken 127 129 128 ⟨0, 0x61⟩ ⟨0, 0x62⟩ ⟨1, C 0x44⟩ (by decide +kernel)
    (by decide +kernel) (by decide +kernel) rfl (by decide) (by decide) (.inr rfl)

theorem console_correct_overlapped :
    overlapped.log.map (·.key) <+: overlapped.editor.committed ∧
    ∀ x ∈ (keysOf 0 overlapped.log).dropLast, ¬ Ends x := by
  obtain ⟨_, _, delivered, _, _, ends⟩ := console_correct reachable_overlapped
  exact ⟨delivered, ends 0⟩

end HaloOS.Cons
