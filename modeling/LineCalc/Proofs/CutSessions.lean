import Mathlib.Data.List.DropRight
import LineCalc.Proofs.Sessions
import LineCalc.Proofs.Lines

/-! # Sessions that are cut

A session may be cut in two, and it may be cut short.

* *At the end of a line* it can be ended and started again with what is remembered: the two sessions say
  what the one says, except for the prompt with which the first one ends (`run_append`).  Nothing else
  survives a line: what has been written and recorded before plays no part (`Progress.foldl_after`).
* *A source that breaks* is as good as one that ends after the last line feed that has been delivered,
  except that the session fails (`run_of_breaks`).
* *A sink with room for `n` bytes* takes the first `n` bytes of what would be written, and the session
  fails if there are more.  The lines that are evaluated are those up to whose prompts everything fits
  (`run_of_room`).  A session in which this happens is followed beside one that could write everything:
  `Progress.Limited` says of the first what the second has written and remembers. -/

namespace LineCalc

namespace Lines

variable {α : Type} {isEnd : α → Bool}

/-- The row is empty or ends in an end of a line. -/
def Whole (isEnd : α → Bool) (row : List α) : Prop := ∀ a ∈ row.getLast?, isEnd a = true

instance : DecidablePred (Whole isEnd) := fun row =>
  inferInstanceAs (Decidable (∀ a ∈ row.getLast?, isEnd a = true))

/-- A row up to and with the last end of a line. -/
def ended (isEnd : α → Bool) (row : List α) : List α := row.rdropWhile fun a => !isEnd a

theorem Whole.of_append {row more : List α} (h : Whole isEnd (row ++ more)) : Whole isEnd more := by
  intro a ha
  apply h
  rw [List.getLast?_append, ha]
  rfl

/-- A whole row has an end or nothing. -/
theorem Whole.eq_nil {row : List α} (h : Whole isEnd row) (none : ∀ a ∈ row, isEnd a = false) :
    row = [] := by
  by_contra hne
  have last := h (row.getLast hne) (List.getLast?_eq_some_getLast hne)
  rw [none _ (List.getLast_mem hne)] at last
  cases last

theorem whole_iff_ended {row : List α} : Whole isEnd row ↔ ended isEnd row = row := by
  unfold ended
  rw [List.rdropWhile_eq_self_iff]
  constructor
  · intro h hne
    have last := h (row.getLast hne) (List.getLast?_eq_some_getLast hne)
    simp [last]
  · intro h a ha
    obtain ⟨before, rfl⟩ := List.getLast?_eq_some_iff.mp ha
    simpa using h (by simp)

theorem whole_ended (row : List α) : Whole isEnd (ended isEnd row) :=
  whole_iff_ended.mpr (List.rdropWhile_idempotent _ _)

theorem ended_append {row : List α} (h : Whole isEnd row) (more : List α) :
    ended isEnd (row ++ more) = row ++ ended isEnd more := by
  have whole := whole_iff_ended.mp h
  unfold ended List.rdropWhile at whole ⊢
  rw [List.reverse_append, List.dropWhile_append]
  split
  · rename_i nothing
    rw [List.isEmpty_iff] at nothing
    rw [whole, nothing, List.reverse_nil, List.append_nil]
  · rw [List.reverse_append, List.reverse_reverse]

/-- No other part from the start on that is whole is longer. -/
theorem prefix_ended {row part : List α} (h : Whole isEnd part) (hp : part <+: row) :
    part <+: ended isEnd row := by
  obtain ⟨more, rfl⟩ := hp
  rw [ended_append h]
  exact List.prefix_append _ _

/-- A row is cut line by line. -/
theorem cut_append {row : List α} (h : Whole isEnd row) (more : List α) :
    cut isEnd (row ++ more) = cut isEnd row ++ cut isEnd more := by
  refine line_induction isEnd (P := fun row => Whole isEnd row →
    cut isEnd (row ++ more) = cut isEnd row ++ cut isEnd more) ?last ?line row h
  case last =>
      intro row none h
      rw [h.eq_nil none]
      rfl
  case line =>
      intro line e rest none he ih h
      have whole : Whole isEnd rest := by
        have h : Whole isEnd ((line ++ [e]) ++ rest) := by simpa using h
        exact h.of_append
      rw [List.append_assoc, List.cons_append, cut_append_cons none he, cut_append_cons none he,
        ih whole, List.cons_append]

/-- The lines of a row that have an end are those up to the last end. -/
theorem cut_ended (row : List α) :
    cut isEnd (ended isEnd row) = (cut isEnd row).filter fun line => line.getLast?.any isEnd := by
  refine line_induction isEnd (P := fun row => cut isEnd (ended isEnd row) =
    (cut isEnd row).filter fun line => line.getLast?.any isEnd) ?last ?line row
  case last =>
      intro row none
      have nothing : ended isEnd row = [] := by
        apply (whole_ended row).eq_nil
        intro a ha
        exact none a ((List.rdropWhile_prefix _ row).subset ha)
      rw [nothing]
      by_cases hne : row = []
      · subst hne
        rfl
      · rw [cut_of_not_isEnd none hne, List.filter_cons_of_neg, List.filter_nil, cut_nil]
        simp [List.getLast?_eq_some_getLast hne, none _ (List.getLast_mem hne)]
  case line =>
      intro line e rest none he ih
      have whole : Whole isEnd (line ++ [e]) := by
        intro a ha
        rw [List.getLast?_concat] at ha
        cases ha
        exact he
      have split : ended isEnd (line ++ e :: rest) = line ++ e :: ended isEnd rest := by
        have h := ended_append whole rest
        simpa using h
      rw [split, cut_append_cons none he, cut_append_cons none he, ih, List.filter_cons_of_pos]
      simp [he]

end Lines

namespace Session

namespace Progress

/-! ### What has been written and recorded before -/

@[simp] theorem calculator_write (p : Progress) (bytes : List UInt8) :
    (p.write bytes).calculator = p.calculator := by
  unfold write
  split <;> rfl

@[simp] theorem trace_write (p : Progress) (bytes : List UInt8) :
    (p.write bytes).trace = p.trace := by
  unfold write
  split <;> rfl

/-- A session that goes on after another one has written and recorded something. -/
def after (done p : Progress) : Progress :=
  { p with
    trace := done.trace ++ p.trace
    sink := ⟨done.sink.written ++ p.sink.written, p.sink.room?⟩ }

theorem write_after (done p : Progress) (bytes : List UInt8) :
    (after done p).write bytes = after done (p.write bytes) := by
  obtain ⟨calculator, trace, ⟨written, room?⟩, failure?⟩ := p
  have joined (bytes : List UInt8) :
      done.sink.written ++ written ++ bytes = done.sink.written ++ (written ++ bytes) := by
    simp [← Array.toList_inj]
  cases failure? with
  | some failure => rfl
  | none =>
      cases room? with
      | none => simp [write, Sink.write, after, joined]
      | some room =>
          by_cases fits : bytes.length ≤ room
          · simp [write, Sink.write, after, fits, joined]
          · simp [write, Sink.write, after, fits, joined]

theorem evaluate_after (done p : Progress) (line : List UInt8) :
    (after done p).evaluate line = after done (p.evaluate line) := by
  obtain ⟨calculator, trace, sink, failure?⟩ := p
  cases failure? with
  | some failure => rfl
  | none =>
      unfold evaluate
      dsimp only [after]
      generalize answer calculator line = report
      rw [Array.append_assoc]
      exact write_after done ⟨_, trace ++ report.trace, sink, none⟩ _

theorem step_after (prompt : List UInt8) (done p : Progress) (line : List UInt8) :
    (after done p).step prompt line = after done (p.step prompt line) := by
  unfold step
  rw [write_after, evaluate_after]

theorem foldl_after (prompt : List UInt8) (done p : Progress) (lines : List (List UInt8)) :
    lines.foldl (step prompt) (after done p) = after done (lines.foldl (step prompt) p) := by
  induction lines generalizing p with
  | nil => rfl
  | cons line lines ih => rw [List.foldl_cons, step_after, ih, List.foldl_cons]

theorem finish_after (prompt : List UInt8) (breaks : Bool) (done p : Progress) :
    (after done p).finish prompt breaks = after done (p.finish prompt breaks) := by
  unfold finish
  rw [write_after]
  rfl

/-- A session that goes on is one that starts after what it has done. -/
theorem Going.eq_after {p : Progress} {c : Calculator} {written : List UInt8}
    (h : p.Going c written) : p = after p (start c none) := by
  obtain ⟨calculator, trace, ⟨bytes, room?⟩, failure?⟩ := p
  obtain ⟨rfl, -, rfl, rfl⟩ := h
  simp [after, start]

end Progress

/-! ### What a session says -/

/-- What is written for lines, each with the prompt before it. -/
def dialogue (prompt : List UInt8) (c : Calculator) (lines : List (List UInt8)) : List UInt8 :=
  (c.evaluateAll (lines.map lineText)).flatMap fun report => prompt ++ outputLine report.outcome

theorem dialogue_append (prompt : List UInt8) (c : Calculator) (lines more : List (List UInt8)) :
    dialogue prompt c (lines ++ more) =
      dialogue prompt c lines ++ dialogue prompt (c.afterLines (lines.map lineText)) more := by
  unfold dialogue
  rw [List.map_append, Calculator.evaluateAll_append, List.flatMap_append]

theorem dialogue_singleton (prompt : List UInt8) (c : Calculator) (line : List UInt8) :
    dialogue prompt c [line] = prompt ++ outputLine (c.evaluate (lineText line)).outcome := by
  simp [dialogue, Calculator.evaluateAll]

theorem length_dialogue_take_le (prompt : List UInt8) (c : Calculator) (lines : List (List UInt8))
    (i : Nat) : (dialogue prompt c (lines.take i)).length ≤ (dialogue prompt c lines).length := by
  have h := dialogue_append prompt c (lines.take i) (lines.drop i)
  rw [List.take_append_drop] at h
  rw [h, List.length_append]
  exact Nat.le_add_right _ _

namespace Progress

section Going

variable {p : Progress} {c : Calculator} {written : List UInt8}

theorem Going.calculator_foldl (h : p.Going c written) (prompt : List UInt8)
    (lines : List (List UInt8)) :
    (lines.foldl (Progress.step prompt) p).calculator = c.afterLines (lines.map lineText) := by
  induction lines generalizing p c written with
  | nil => exact h.calculator
  | cons line lines ih =>
      rw [List.foldl_cons, List.map_cons, Calculator.afterLines_cons]
      exact ih (h.step prompt line)

/-- A session with room for everything, after some lines. -/
theorem Going.foldl (h : p.Going c written) (prompt : List UInt8) (lines : List (List UInt8)) :
    (lines.foldl (Progress.step prompt) p).Going (c.afterLines (lines.map lineText))
      (written ++ dialogue prompt c lines) := by
  obtain ⟨c', going⟩ := h.foldl_step prompt lines
  rwa [← going.calculator, h.calculator_foldl] at going

end Going

theorem going_start (c : Calculator) : (start c none).Going c [] := ⟨rfl, rfl, rfl, rfl⟩

end Progress

theorem lines_of_ends (bytes : List UInt8) :
    Source.lines ⟨bytes, false⟩ = Lines.cut isLineFeed bytes := rfl

/-- How far a session with room for everything has come when lines have been answered. -/
def answered (c : Calculator) (prompt : String) (lines : List (List UInt8)) : Progress :=
  lines.foldl (Progress.step (Utf8.encode prompt)) (.start c none)

theorem going_answered (c : Calculator) (prompt : String) (lines : List (List UInt8)) :
    (answered c prompt lines).Going (c.afterLines (lines.map lineText))
      (dialogue (Utf8.encode prompt) c lines) := by
  have h := (Progress.going_start c).foldl (Utf8.encode prompt) lines
  rwa [List.nil_append] at h

theorem run_eq_finish (c : Calculator) (source : Source) (prompt : String) :
    run c source prompt none =
      (answered c prompt source.lines).finish (Utf8.encode prompt) source.breaks := rfl

/-- A session with room for everything fails only with its source. -/
theorem failure?_run (c : Calculator) (source : Source) (prompt : String) :
    (run c source prompt none).failure? = if source.breaks then some .read else none := by
  have h := ((going_answered c prompt source.lines).write (Utf8.encode prompt)).failure
  rw [run_eq_finish]
  show Option.or _ _ = _
  rw [h, Option.none_or]

theorem calculator_run (c : Calculator) (source : Source) (prompt : String) :
    (run c source prompt none).calculator = c.afterLines (source.lines.map lineText) :=
  ((going_answered c prompt source.lines).write (Utf8.encode prompt)).calculator

theorem written_run (c : Calculator) (source : Source) (prompt : String) :
    (run c source prompt none).sink.written.toList =
      dialogue (Utf8.encode prompt) c source.lines ++ Utf8.encode prompt :=
  ((going_answered c prompt source.lines).write (Utf8.encode prompt)).written

/-! ### At the end of a line -/

/-- A session goes on as one that starts with what it remembers then. -/
theorem run_append_eq_after (c : Calculator) {first : List UInt8} (h : Lines.Whole isLineFeed first)
    (second : List UInt8) (prompt : String) :
    run c ⟨first ++ second, false⟩ prompt none =
      .after (answered c prompt (Lines.cut isLineFeed first))
        (run (run c ⟨first, false⟩ prompt none).calculator ⟨second, false⟩ prompt none) := by
  have going := going_answered c prompt (Lines.cut isLineFeed first)
  calc run c ⟨first ++ second, false⟩ prompt none
      = ((Lines.cut isLineFeed second).foldl (Progress.step (Utf8.encode prompt))
          (answered c prompt (Lines.cut isLineFeed first))).finish (Utf8.encode prompt) false := by
        show Progress.finish _ _ (List.foldl _ _ (Lines.cut isLineFeed (first ++ second))) = _
        rw [Lines.cut_append h, List.foldl_append]
        rfl
    _ = ((Lines.cut isLineFeed second).foldl (Progress.step (Utf8.encode prompt))
          (.after (answered c prompt (Lines.cut isLineFeed first))
            (.start (run c ⟨first, false⟩ prompt none).calculator none))).finish
              (Utf8.encode prompt) false := by
        rw [calculator_run, lines_of_ends, ← going.eq_after]
    _ = _ := by
        rw [Progress.foldl_after, Progress.finish_after]
        rfl

/-- **A session can be cut at the end of a line.**  The second session starts with what the first one
remembers.  Together they remember, say and record what one session does, except for the prompt with
which the first one ends. -/
theorem run_append (c : Calculator) {first : List UInt8} (h : Lines.Whole isLineFeed first)
    (second : List UInt8) (prompt : String) :
    let once := run c ⟨first ++ second, false⟩ prompt none
    let before := run c ⟨first, false⟩ prompt none
    let after := run before.calculator ⟨second, false⟩ prompt none
    once.failure? = none ∧ before.failure? = none ∧ after.failure? = none ∧
    once.calculator = after.calculator ∧
    (∃ said, before.sink.written.toList = said ++ Utf8.encode prompt ∧
      once.sink.written.toList = said ++ after.sink.written.toList) ∧
    once.trace = before.trace ++ after.trace := by
  intro once before after
  have cut : once = .after (answered c prompt (Lines.cut isLineFeed first)) after :=
    run_append_eq_after c h second prompt
  have going := going_answered c prompt (Lines.cut isLineFeed first)
  have failure (c : Calculator) (bytes : List UInt8) :
      (run c ⟨bytes, false⟩ prompt none).failure? = none := failure?_run c ⟨bytes, false⟩ prompt
  have said := written_run c ⟨first, false⟩ prompt
  rw [lines_of_ends, ← going.written] at said
  refine ⟨failure _ _, failure _ _, failure _ _, ?_, ⟨_, said, ?_⟩, ?_⟩
  · rw [cut]
    rfl
  · rw [cut]
    exact Array.toList_append
  · have trace : before.trace = (answered c prompt (Lines.cut isLineFeed first)).trace :=
      Progress.trace_write _ _
    rw [cut, trace]
    rfl

/-- Two sessions of one line each, the second of which needs what the first has left. -/
theorem run_append_assigned :
    let first := Utf8.encode "x = 1\n"
    let before := run (.empty 9) ⟨first, false⟩ "> " none
    let after := run before.calculator ⟨Utf8.encode "x + 1", false⟩ "> " none
    Lines.Whole isLineFeed first ∧
    before.sink.written.toList = Utf8.encode "> 1\n" ++ Utf8.encode "> " ∧
    after.sink.written.toList = Utf8.encode "> 2\n> " ∧
    (run (.empty 9) ⟨first ++ Utf8.encode "x + 1", false⟩ "> " none).sink.written.toList =
      Utf8.encode "> 1\n> 2\n> " := by
  intro first before after
  have whole : Lines.Whole isLineFeed first := by decide +kernel
  have one : before.sink.written.toList = Utf8.encode "> 1\n" ++ Utf8.encode "> " := by
    decide +kernel
  have two : after.sink.written.toList = Utf8.encode "> 2\n> " := by decide +kernel
  obtain ⟨said, hsaid, once⟩ : ∃ said, before.sink.written.toList = said ++ Utf8.encode "> " ∧
      (run (.empty 9) ⟨first ++ Utf8.encode "x + 1", false⟩ "> " none).sink.written.toList =
        said ++ after.sink.written.toList :=
    (run_append (.empty 9) whole (Utf8.encode "x + 1") "> ").2.2.2.2.1
  refine ⟨whole, one, two, ?_⟩
  -- nothing further is evaluated
  clear_value after before
  have line : said = Utf8.encode "> 1\n" := List.append_cancel_right (hsaid.symm.trans one)
  rw [once, line, two]
  decide

/-! ### A source that breaks -/

/-- The lines that can be read completely are those of the bytes up to the last line feed. -/
theorem lines_of_breaks (bytes : List UInt8) :
    Source.lines ⟨bytes, true⟩ = Source.lines ⟨Lines.ended isLineFeed bytes, false⟩ :=
  (Lines.cut_ended bytes).symm

theorem run_breaks_eq (c : Calculator) (bytes : List UInt8) (prompt : String) (room? : Option Nat) :
    run c ⟨bytes, true⟩ prompt room? =
      { run c ⟨Lines.ended isLineFeed bytes, false⟩ prompt room? with
        failure? :=
          (run c ⟨Lines.ended isLineFeed bytes, false⟩ prompt room?).failure?.or (some .read) } := by
  unfold run Progress.finish
  dsimp only
  rw [lines_of_breaks]
  simp

/-- **A source that breaks loses the unfinished line only.**  The session fails, and otherwise does what
one does over the bytes up to the last line feed, the longest of all whole parts from the start on. -/
theorem run_of_breaks (c : Calculator) (bytes : List UInt8) (n : Nat) (prompt : String) :
    let delivered := bytes.take n
    let kept := Lines.ended isLineFeed delivered
    let broken := run c ⟨delivered, true⟩ prompt none
    let whole := run c ⟨kept, false⟩ prompt none
    (kept <+: delivered ∧ Lines.Whole isLineFeed kept ∧
      ∀ part, part <+: delivered → Lines.Whole isLineFeed part → part <+: kept) ∧
    whole.failure? = none ∧ broken = { whole with failure? := some .read } := by
  intro delivered kept broken whole
  refine ⟨⟨List.rdropWhile_prefix _ _, Lines.whole_ended delivered, ?_⟩,
    failure?_run c ⟨kept, false⟩ prompt, ?_⟩
  · intro part hp h
    exact Lines.prefix_ended h hp
  · have unfailed : whole.failure? = none := failure?_run c ⟨kept, false⟩ prompt
    have same := run_breaks_eq c delivered prompt none
    rwa [show (run c ⟨kept, false⟩ prompt none).failure? = none from unfailed] at same

/-- The second line is broken off, so it is not evaluated. -/
theorem run_of_breaks_second :
    let delivered := (Utf8.encode "x = 1\ny = 2\n").take 8
    let kept := Lines.ended isLineFeed delivered
    let broken := run (.empty 9) ⟨delivered, true⟩ "> " none
    kept = Utf8.encode "x = 1\n" ∧
    ([] <+: delivered ∧ Lines.Whole isLineFeed [] ∧ [] <+: kept) ∧
    broken = { run (.empty 9) ⟨kept, false⟩ "> " none with failure? := some .read } ∧
    broken.sink.written.toList = Utf8.encode "> 1\n> " := by
  intro delivered kept broken
  have first : kept = Utf8.encode "x = 1\n" := by decide +kernel
  have none : Lines.Whole isLineFeed [] := by decide
  have written : broken.sink.written.toList = Utf8.encode "> 1\n> " := by decide +kernel
  obtain ⟨⟨-, -, longest⟩, -, same⟩ := run_of_breaks (.empty 9) (Utf8.encode "x = 1\ny = 2\n") 8 "> "
  exact ⟨first, ⟨List.nil_prefix, none, longest [] List.nil_prefix none⟩, same, written⟩

/-! ### A sink without room -/

namespace Progress

/-- A session with room for `n` bytes, where one with room for everything would have come to a
calculator and written some bytes.  It has failed if these do not fit. -/
structure Limited (n : Nat) (p : Progress) (c : Calculator) (written : List UInt8) : Prop where
  failure : p.failure? = if written.length ≤ n then none else some .write
  calculator : written.length ≤ n → p.calculator = c
  room : written.length ≤ n → p.sink.room? = some (n - written.length)
  written : p.sink.written.toList = written.take n

variable {n : Nat} {p : Progress} {c : Calculator} {written : List UInt8}

theorem Limited.of_failed (h : p.Limited n c written) (full : n < written.length) (bytes : List UInt8)
    (c' : Calculator) : p.Limited n c' (written ++ bytes) := by
  have longer : n < (written ++ bytes).length := by
    rw [List.length_append]
    omega
  constructor
  · rw [h.failure, if_neg (Nat.not_le.mpr full), if_neg (Nat.not_le.mpr longer)]
  · exact fun fits => absurd fits (Nat.not_le.mpr longer)
  · exact fun fits => absurd fits (Nat.not_le.mpr longer)
  · rw [h.written, List.take_append_of_le_length full.le]

theorem Limited.write (h : p.Limited n c written) (bytes : List UInt8) :
    (p.write bytes).Limited n c (written ++ bytes) := by
  by_cases fits : written.length ≤ n
  · have failure : p.failure? = none := by rw [h.failure, if_pos fits]
    have all : p.sink.written.toList = written := by rw [h.written, List.take_of_length_le fits]
    unfold Progress.write Sink.write
    rw [failure, h.room fits]
    dsimp only
    by_cases room : bytes.length ≤ n - written.length
    · rw [if_pos room]
      have longer : (written ++ bytes).length ≤ n := by
        rw [List.length_append]
        omega
      constructor
      · rw [if_pos longer]
        rfl
      · exact fun _ => h.calculator fits
      · intro _
        rw [List.length_append, ← Nat.sub_sub]
      · rw [Array.toList_appendList, all, List.take_of_length_le longer]
    · rw [if_neg room]
      have longer : n < (written ++ bytes).length := by
        rw [List.length_append]
        omega
      constructor
      · rw [if_neg (Nat.not_le.mpr longer)]
        rfl
      · exact fun fits => absurd fits (Nat.not_le.mpr longer)
      · exact fun fits => absurd fits (Nat.not_le.mpr longer)
      · rw [Array.toList_appendList, all, List.take_append, List.take_of_length_le fits]
  · have failure : p.failure? = some .write := by rw [h.failure, if_neg fits]
    have same : p.write bytes = p := by
      unfold Progress.write
      rw [failure]
    rw [same]
    exact h.of_failed (Nat.not_le.mp fits) bytes c

theorem Limited.evaluate (h : p.Limited n c written) (line : List UInt8) :
    (p.evaluate line).Limited n (c.evaluate (lineText line)).calculator
      (written ++ outputLine (c.evaluate (lineText line)).outcome) := by
  by_cases fits : written.length ≤ n
  · have failure : p.failure? = none := by rw [h.failure, if_pos fits]
    obtain rfl := h.calculator fits
    unfold Progress.evaluate
    rw [failure]
    dsimp only
    rw [← outcome_answer, ← calculator_answer]
    generalize answer p.calculator line = report
    apply Limited.write
    exact ⟨by rw [if_pos fits], fun _ => rfl, h.room, h.written⟩
  · have failure : p.failure? = some .write := by rw [h.failure, if_neg fits]
    have same : p.evaluate line = p := by
      unfold Progress.evaluate
      rw [failure]
    rw [same]
    exact h.of_failed (Nat.not_le.mp fits) _ _

theorem Limited.step (h : p.Limited n c written) (prompt line : List UInt8) :
    (p.step prompt line).Limited n (c.evaluate (lineText line)).calculator
      (written ++ (prompt ++ outputLine (c.evaluate (lineText line)).outcome)) := by
  rw [← List.append_assoc]
  exact (h.write prompt).evaluate line

/-- A line is evaluated if everything fits up to its prompt. -/
theorem Limited.calculator_step (h : p.Limited n c written) (prompt line : List UInt8) :
    (p.step prompt line).calculator =
      if (written ++ prompt).length ≤ n then (c.evaluate (lineText line)).calculator
      else p.calculator := by
  have prompted := h.write prompt
  unfold Progress.step Progress.evaluate
  by_cases fits : (written ++ prompt).length ≤ n
  · rw [prompted.failure, if_pos fits, if_pos fits]
    dsimp only
    rw [calculator_write, calculator_answer, prompted.calculator fits]
  · rw [prompted.failure, if_neg fits, if_neg fits]
    exact calculator_write p prompt

theorem Limited.foldl (h : p.Limited n c written) (prompt : List UInt8) (lines : List (List UInt8)) :
    (lines.foldl (Progress.step prompt) p).Limited n (c.afterLines (lines.map lineText))
      (written ++ dialogue prompt c lines) := by
  induction lines using List.reverseRecOn with
  | nil =>
      show p.Limited n c (written ++ [])
      rwa [List.append_nil]
  | append_singleton lines line ih =>
      have last := ih.step prompt line
      rw [List.foldl_append, List.map_append, Calculator.afterLines_append, dialogue_append,
        dialogue_singleton, ← List.append_assoc]
      exact last

/-- The lines that are evaluated are those up to whose prompts everything fits. -/
theorem Limited.calculator_foldl (h : p.Limited n c written) (hc : p.calculator = c)
    (prompt : List UInt8) (lines : List (List UInt8)) :
    ∃ k ≤ lines.length,
      (lines.foldl (Progress.step prompt) p).calculator =
        c.afterLines ((lines.take k).map lineText) ∧
      ∀ i < lines.length,
        i < k ↔ (written ++ dialogue prompt c (lines.take i) ++ prompt).length ≤ n := by
  induction lines using List.reverseRecOn with
  | nil => exact ⟨0, Nat.le_refl 0, hc, by simp⟩
  | append_singleton lines line ih =>
      obtain ⟨k, hk, calculator, evaluated⟩ := ih
      have before (i : Nat) (hi : i ≤ lines.length) : (lines ++ [line]).take i = lines.take i :=
        List.take_append_of_le_length hi
      rw [List.foldl_append, List.foldl_cons, List.foldl_nil,
        (h.foldl prompt lines).calculator_step]
      by_cases fits : (written ++ dialogue prompt c lines ++ prompt).length ≤ n
      · rw [if_pos fits]
        refine ⟨lines.length + 1, by simp, ?_, ?_⟩
        · rw [List.take_of_length_le (by simp), List.map_append, Calculator.afterLines_append]
          rfl
        · intro i hi
          have hi : i ≤ lines.length := by simpa [Nat.lt_succ_iff] using hi
          have shorter := length_dialogue_take_le prompt c lines i
          rw [before i hi]
          simp only [List.length_append] at fits ⊢
          omega
      · rw [if_neg fits]
        refine ⟨k, by simp; omega, ?_, ?_⟩
        · rw [before k hk, calculator]
        · intro i hi
          have hi : i ≤ lines.length := by simpa [Nat.lt_succ_iff] using hi
          rw [before i hi]
          obtain hlt | rfl := Nat.lt_or_eq_of_le hi
          · exact evaluated i hlt
          · rw [List.take_length]
            exact iff_of_false (Nat.not_lt.mpr hk) fits

theorem limited_start (c : Calculator) (n : Nat) : (start c (some n)).Limited n c [] := by
  constructor
  · exact (if_pos (Nat.zero_le n)).symm
  · exact fun _ => rfl
  · exact fun _ => rfl
  · exact List.take_nil.symm

end Progress

/-- **A sink without room cuts the output cleanly.**  What is written is the part for which there is
room, and the session fails if it is not all.  A line is evaluated if there is room for everything that
is written up to its prompt. -/
theorem run_of_room (c : Calculator) (source : Source) (prompt : String) (n : Nat) :
    let lines := source.lines
    let full := run c source prompt none
    let limited := run c source prompt (some n)
    full.failure? = (if source.breaks then some .read else none) ∧
    full.sink.written.toList =
      dialogue (Utf8.encode prompt) c lines ++ Utf8.encode prompt ∧
    limited.sink.written.toList = full.sink.written.toList.take n ∧
    limited.failure? = (if n < full.sink.written.size then some .write else full.failure?) ∧
    ∃ k ≤ lines.length,
      limited.calculator = c.afterLines ((lines.take k).map lineText) ∧
      ∀ i < lines.length,
        i < k ↔
          (dialogue (Utf8.encode prompt) c (lines.take i) ++ Utf8.encode prompt).length ≤ n := by
  intro lines full limited
  have said : full.sink.written.toList =
      dialogue (Utf8.encode prompt) c lines ++ Utf8.encode prompt := written_run c source prompt
  have failure : full.failure? = if source.breaks then some .read else none :=
    failure?_run c source prompt
  have started := Progress.limited_start c n
  have last := (started.foldl (Utf8.encode prompt) lines).write (Utf8.encode prompt)
  rw [List.nil_append, ← said] at last
  obtain ⟨k, hk, calculator, evaluated⟩ :=
    started.calculator_foldl rfl (Utf8.encode prompt) lines
  refine ⟨failure, said, last.written, ?_, k, hk, ?_, ?_⟩
  · show Option.or _ _ = _
    rw [last.failure, failure, Array.length_toList]
    by_cases fits : full.sink.written.size ≤ n
    · rw [if_pos fits, if_neg (Nat.not_lt.mpr fits), Option.none_or]
    · rw [if_neg fits, if_pos (Nat.not_le.mp fits), Option.some_or]
  · exact (Progress.calculator_write _ _).trans calculator
  · simpa only [List.nil_append] using evaluated

/-- There is room for what the first line gives, but not for the line feed: the second line is not
evaluated. -/
theorem run_of_room_one :
    let source : Source := ⟨Utf8.encode "x = 1\ny = 2\n", false⟩
    let full := run (.empty 9) source "" none
    let limited := run (.empty 9) source "" (some 1)
    source.lines.length = 2 ∧ full.sink.written.toList = Utf8.encode "1\n2\n" ∧
    limited.sink.written.toList = Utf8.encode "1" ∧ limited.failure? = some .write ∧
    limited.calculator = (Calculator.empty 9).afterLines ["x = 1"] := by
  intro source
  have lines : source.lines = [Utf8.encode "x = 1\n", Utf8.encode "y = 2\n"] := by decide +kernel
  have text : lineText (Utf8.encode "x = 1\n") = "x = 1" := by decide +kernel
  have all : (run (.empty 9) source "" none).sink.written.toList = Utf8.encode "1\n2\n" := by
    decide +kernel
  have before : (dialogue (Utf8.encode "") (.empty 9) (source.lines.take 0) ++
      Utf8.encode "").length ≤ 1 := by decide +kernel
  have after : ¬ (dialogue (Utf8.encode "") (.empty 9) (source.lines.take 1) ++
      Utf8.encode "").length ≤ 1 := by decide +kernel
  have room := run_of_room (.empty 9) source "" 1
  -- nothing further is evaluated
  generalize run (.empty 9) source "" none = full at all room ⊢
  generalize run (.empty 9) source "" (some 1) = limited at room ⊢
  obtain ⟨-, -, written, failure, k, -, calculator, evaluated⟩ := room
  have first := (evaluated 0 (by rw [lines]; decide)).mpr before
  have second := mt (evaluated 1 (by rw [lines]; decide)).mp after
  obtain rfl : k = 1 := by omega
  refine ⟨by rw [lines]; rfl, all, ?_, ?_, ?_⟩
  · rw [written, all]
    decide
  · rw [failure, ← Array.length_toList, all]
    rfl
  · rw [calculator, lines, List.take_succ_cons, List.take_zero, List.map_singleton, text]

end Session

end LineCalc
