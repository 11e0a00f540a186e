import LineCalc.Proofs.Following

/-! # Any use of a cursor

A cursor is asked for the next token, to step back, whether the next token agrees with a given one, for the
tokens that are left and for their number (`Cursor.Use`).  An evaluation may ask in any order: it may step
back without having read, read past the end, and go on after a reading that has failed.

Whatever it does, the row of tokens stays (`tokens_afterUses`), and the number of tokens that are left says
what the next reading gives: a token as long as it is positive, none where it is zero, and a fault where it
is one less (`uses_faithful`). -/

namespace LineCalc

namespace Cursor

/-- What can be asked of a cursor. -/
inductive Use where
  | next
  | back
  | peekIs (token : Token)
  | remaining
  | remainingCount

/-- What is answered. -/
inductive Answer where
  | token (token? : Option Token)
  | done
  | agrees (agrees : Bool)
  | tokens (tokens : List Token)
  | count (count : Int)

/-! ### The number of tokens that are left -/

theorem length_remaining_eq_max (c : Cursor) : (c.remaining.length : Int) = max 0 c.remainingCount := by
  obtain ⟨before, _ | after⟩ := c
  · rfl
  · simp only [remaining, remainingCount, Option.getD_some]
    omega

theorem remaining_suffix_tokens (c : Cursor) : c.remaining <:+ c.tokens :=
  List.suffix_append c.before.reverse c.remaining

theorem position_le (c : Cursor) : c.position ≤ c.tokens.length + 1 := by
  obtain ⟨before, _ | after⟩ := c
  · simp [position, tokens, remaining]
  · simp only [position, tokens, remaining, Option.getD_some, List.length_append, List.length_reverse]
    omega

/-- At most one reading at the end has been counted. -/
theorem neg_one_le_remainingCount (c : Cursor) : -1 ≤ c.remainingCount := by
  have few := c.position_le
  rw [remainingCount_eq]
  omega

theorem remainingCount_le (c : Cursor) : c.remainingCount ≤ c.tokens.length := by
  rw [remainingCount_eq]
  omega

/-! ### What a reading gives -/

theorem next_some_iff {c : Cursor} : (∃ t d, c.next = .ok (some t, d)) ↔ 0 < c.remainingCount := by
  obtain ⟨before, _ | _ | ⟨t, after⟩⟩ := c
  · simp [next, remainingCount]
  · simp [next, remainingCount]
  · exact ⟨fun _ => Int.natCast_pos.mpr (Nat.succ_pos _), fun _ => ⟨t, _, rfl⟩⟩

theorem next_none_iff {c : Cursor} : (∃ d, c.next = .ok (none, d)) ↔ c.remainingCount = 0 := by
  obtain ⟨before, _ | _ | ⟨t, after⟩⟩ := c
  · simp [next, remainingCount]
  · simp [next, remainingCount]
  · simp only [next, remainingCount, List.length_cons]
    constructor
    · rintro ⟨d, e⟩
      cases e
    · intro zero
      omega

theorem next_error_iff {c : Cursor} : c.next = .error .endOfInput ↔ c.remainingCount = -1 := by
  obtain ⟨before, _ | _ | ⟨t, after⟩⟩ := c
  · simp [next, remainingCount]
  · simp [next, remainingCount]
  · simp only [next, remainingCount, List.length_cons]
    constructor
    · intro e
      cases e
    · intro less
      omega

/-- A reading that succeeds leaves one token less, or one less than none. -/
theorem remainingCount_of_next {c d : Cursor} {t : Option Token} (h : c.next = .ok (t, d)) :
    d.remainingCount = c.remainingCount - 1 := by
  rw [remainingCount_eq, remainingCount_eq, tokens_of_next h, position_of_next h]
  omega

/-- There is nothing to undo at the start. -/
theorem back_of_remainingCount {c : Cursor} (h : c.remainingCount = c.tokens.length) : c.back = c := by
  have start : c.position = 0 := by
    rw [remainingCount_eq] at h
    omega
  obtain ⟨_ | ⟨t, before⟩, _ | after⟩ := c
  · cases start
  · rfl
  · cases start
  · cases start

end Cursor

namespace Eval

open Cursor (Use Answer)

/-- Asks the cursor of the machine. -/
def use : Use → Eval Answer
  | .next => return .token (← read)
  | .back => do
    unread
    return .done
  | .peekIs token => return .agrees ((← get).cursor.peekIs token)
  | .remaining => return .tokens (← get).cursor.remaining
  | .remainingCount => return .count (← get).cursor.remainingCount

/-- The machine after its cursor has been asked many things, one after the other.  Where one of them has
failed, the next one is asked nevertheless. -/
def afterUses (m : Machine) (uses : List Use) : Machine := uses.foldl (fun m u => after (use u) m) m

/-! ### A single use -/

theorem use_next_of_next {m : Machine} {t : Option Token} {c : Cursor} (h : m.cursor.next = .ok (t, c)) :
    use .next m = .ok (.token t) { m with cursor := c } := by
  rw [use, bind_apply, read_of_next h]
  rfl

theorem use_next_of_error {m : Machine} {fault : Fault} (h : m.cursor.next = .error fault) :
    use .next m = .error (.fault fault) m := by
  rw [use, bind_apply, read_of_error h]

theorem use_back (m : Machine) : use .back m = .ok .done { m with cursor := m.cursor.back } := rfl

/-- What a reading gives, read off from what is given. -/
theorem next_of_use_next {m m' : Machine} {a : Answer} (h : use .next m = .ok a m') :
    ∃ t c, m.cursor.next = .ok (t, c) ∧ a = .token t ∧ m' = { m with cursor := c } := by
  cases e : m.cursor.next with
  | error fault =>
      rw [use_next_of_error e] at h
      cases h
  | ok next =>
      obtain ⟨t, c⟩ := next
      rw [use_next_of_next e] at h
      cases h
      exact ⟨t, c, rfl, rfl, rfl⟩

/-- Stepping back right after a reading restores the machine. -/
theorem use_back_of_use_next {m m' : Machine} {a : Answer} (h : use .next m = .ok a m') :
    use .back m' = .ok .done m := by
  obtain ⟨t, c, e, -, rfl⟩ := next_of_use_next h
  rw [use_back, Cursor.back_of_next e]

theorem use_peekIs (m : Machine) (t : Token) :
    use (.peekIs t) m = .ok (.agrees (m.cursor.remaining.head?.any (·.agrees t))) m := by
  show EStateM.Result.ok (Answer.agrees (m.cursor.peekIs t)) m = _
  unfold Cursor.peekIs
  cases m.cursor.remaining <;> rfl

/-! ### The row of tokens -/

theorem tokens_after_use (m : Machine) (u : Use) : (after (use u) m).cursor.tokens = m.cursor.tokens := by
  cases u with
  | next =>
      cases e : m.cursor.next with
      | error fault => rw [after_of_error (use_next_of_error e)]
      | ok next =>
          rw [after_of_ok (use_next_of_next e)]
          exact Cursor.tokens_of_next e
  | back => exact Cursor.tokens_back m.cursor
  | peekIs t => rfl
  | remaining => rfl
  | remainingCount => rfl

theorem tokens_afterUses (m : Machine) (uses : List Use) :
    (afterUses m uses).cursor.tokens = m.cursor.tokens := by
  induction uses generalizing m with
  | nil => rfl
  | cons u uses ih => exact (ih (after (use u) m)).trans (tokens_after_use m u)

/-- **A cursor is faithful under any use.**  Whatever has been asked of a cursor that stood before a row of
tokens, it is still on the same row, and what is left of the row is an end of it with as many tokens as are
counted, or none where the count is one less than that.  The next reading gives the first of these tokens and
leaves the others; where there is none it gives none, once, and then fails and leaves the cursor as it is.
Stepping back undoes a reading, and does nothing at the start.  Asking for anything else changes nothing. -/
theorem uses_faithful (m : Machine) (tokens : List Token) (uses : List Use) :
    let m' := afterUses { m with cursor := .ofTokens tokens } uses
    let count := m'.cursor.remainingCount
    m'.cursor.tokens = tokens ∧
    (-1 ≤ count ∧ count ≤ tokens.length) ∧
    (m'.cursor.remaining <:+ tokens ∧ (m'.cursor.remaining.length : Int) = max 0 count) ∧
    (0 < count ↔ ∃ t m'', use .next m' = .ok (.token (some t)) m'' ∧
      m'.cursor.remaining = t :: m''.cursor.remaining ∧ m''.cursor.remainingCount = count - 1) ∧
    (count = 0 ↔ ∃ m'', use .next m' = .ok (.token none) m'' ∧
      m''.cursor.remaining = [] ∧ m''.cursor.remainingCount = -1) ∧
    (count = -1 ↔ use .next m' = .error (.fault .endOfInput) m') ∧
    (∀ a m'', use .next m' = .ok a m'' → use .back m'' = .ok .done m') ∧
    (count = tokens.length → use .back m' = .ok .done m') ∧
    (∀ t, use (.peekIs t) m' = .ok (.agrees (m'.cursor.remaining.head?.any (·.agrees t))) m') ∧
    use .remaining m' = .ok (.tokens m'.cursor.remaining) m' ∧
    use .remainingCount m' = .ok (.count count) m' := by
  intro m' count
  have row : m'.cursor.tokens = tokens := tokens_afterUses _ uses
  clear_value m'
  subst row
  refine ⟨rfl, ⟨m'.cursor.neg_one_le_remainingCount, m'.cursor.remainingCount_le⟩,
    ⟨m'.cursor.remaining_suffix_tokens, m'.cursor.length_remaining_eq_max⟩, ?some, ?none, ?past, ?undone,
    ?start, use_peekIs m', rfl, rfl⟩
  case some =>
    constructor
    · intro positive
      obtain ⟨t, c, e⟩ := Cursor.next_some_iff.mpr positive
      exact ⟨t, _, use_next_of_next e, Cursor.remaining_of_next e, Cursor.remainingCount_of_next e⟩
    · rintro ⟨t, m'', e, -, -⟩
      obtain ⟨-, c, e, ⟨⟩, -⟩ := next_of_use_next e
      exact Cursor.next_some_iff.mp ⟨t, c, e⟩
  case none =>
    constructor
    · intro zero
      obtain ⟨c, e⟩ := Cursor.next_none_iff.mpr zero
      have less : c.remainingCount = -1 := by
        rw [Cursor.remainingCount_of_next e]
        omega
      have nothing : c.remaining.length = 0 := by
        have counted := c.length_remaining_eq_max
        omega
      exact ⟨_, use_next_of_next e, List.eq_nil_of_length_eq_zero nothing, less⟩
    · rintro ⟨m'', e, -, -⟩
      obtain ⟨-, c, e, ⟨⟩, -⟩ := next_of_use_next e
      exact Cursor.next_none_iff.mp ⟨c, e⟩
  case past =>
    constructor
    · intro past
      exact use_next_of_error (Cursor.next_error_iff.mpr past)
    · intro e
      cases h : m'.cursor.next with
      | error fault =>
          obtain rfl := Cursor.eq_endOfInput_of_next h
          exact Cursor.next_error_iff.mp h
      | ok next =>
          rw [use_next_of_next h] at e
          cases e
  case undone =>
    intro a m'' e
    exact use_back_of_use_next e
  case start =>
    intro start
    rw [use_back, Cursor.back_of_remainingCount start]

/-- Readings past the end fail and leave nothing to undo, so two steps back lead before the last token.  More
steps back than there are tokens lead to the start. -/
theorem uses_faithful_back_and_forth :
    let tokens := Token.ofText "1 + x"
    let m := { Machine.start (.empty 9) with cursor := .ofTokens tokens }
    let past := afterUses m [.next, .next, .back, .next, .next, .next, .next, .next]
    let last := afterUses m [.next, .next, .next, .next, .next, .peekIs .plus, .back, .back]
    let start := afterUses m [.next, .next, .next, .next, .back, .back, .back, .back, .back, .remaining]
    (past.cursor.remainingCount = -1 ∧ use .next past = .error (.fault .endOfInput) past) ∧
    (last.cursor.remainingCount = 1 ∧ ∃ t m', use .next last = .ok (.token (some t)) m' ∧
      last.cursor.remaining = t :: m'.cursor.remaining ∧ use .back m' = .ok .done last) ∧
    (start.cursor.remainingCount = 3 ∧ use .back start = .ok .done start) := by
  intro tokens m past last start
  obtain ⟨-, -, -, -, -, failing, -⟩ := uses_faithful (.start (.empty 9)) tokens
    [.next, .next, .back, .next, .next, .next, .next, .next]
  obtain ⟨-, -, -, reading, -, -, undone, -⟩ := uses_faithful (.start (.empty 9)) tokens
    [.next, .next, .next, .next, .next, .peekIs .plus, .back, .back]
  obtain ⟨-, -, -, -, -, -, -, stays, -⟩ := uses_faithful (.start (.empty 9)) tokens
    [.next, .next, .next, .next, .back, .back, .back, .back, .back, .remaining]
  have atPast : past.cursor.remainingCount = -1 := by decide +kernel
  have atLast : last.cursor.remainingCount = 1 := by decide +kernel
  have atStart : start.cursor.remainingCount = 3 := by decide +kernel
  obtain ⟨t, m', next, remaining, -⟩ := reading.mp (atLast ▸ Int.one_pos)
  refine ⟨⟨atPast, failing.mp atPast⟩, ⟨atLast, t, m', next, remaining, undone _ _ next⟩, atStart, ?_⟩
  exact stays (atStart.trans (by decide +kernel))

end Eval

end LineCalc
