import LineCalc.Script
import LineCalc.Proofs.Decoding

/-! # Sessions say what scripts give

A session over bytes, with no bound on its output and a source that does not break, writes what the
script of the decoded bytes gives, each with the prompt before it, and the prompt once more
(`run_eq_outcomes`).

* The lines that a session reads are those of the script (`ofText_decode`).
* A session that has not failed and has room for everything goes on so: it evaluates its lines one
  after the other, like a script, and writes what each of them gives (`Going.foldl_step`). -/

namespace LineCalc

namespace Utf8

theorem encode_append (first second : String) :
    encode (first ++ second) = encode first ++ encode second := by
  unfold encode
  rw [String.toList_append, List.flatMap_append]

end Utf8

namespace Session

/-- A script has the lines that a session reads. -/
theorem ofText_decode (bytes : List UInt8) :
    Lines.ofText (Utf8.decode bytes) = (Lines.cut isLineFeed bytes).map lineText := by
  unfold Lines.ofText lineText
  rw [Utf8.cut_toList_decode, List.map_map]
  rfl

theorem outcome_answer (c : Calculator) (line : List UInt8) :
    (answer c line).outcome = (c.evaluate (lineText line)).outcome := by
  unfold answer
  dsimp only
  generalize c.evaluate (lineText line) = report
  split <;> rfl

theorem calculator_answer (c : Calculator) (line : List UInt8) :
    (answer c line).calculator = (c.evaluate (lineText line)).calculator := by
  unfold answer
  dsimp only
  generalize c.evaluate (lineText line) = report
  split <;> rfl

/-- What is written for a line, from the prompt on. -/
theorem encode_prompt_append (prompt : String) (outcome : Outcome) :
    Utf8.encode prompt ++ outputLine outcome = Utf8.encode (prompt ++ outcome.text ++ "\n") := by
  rw [String.append_assoc, Utf8.encode_append]
  rfl

namespace Progress

/-- A session that goes on, with a calculator and all that has been written, and has room for
everything. -/
structure Going (p : Progress) (c : Calculator) (written : List UInt8) : Prop where
  calculator : p.calculator = c
  written : p.sink.written.toList = written
  room : p.sink.room? = none
  failure : p.failure? = none

variable {p : Progress} {c : Calculator} {written : List UInt8}

theorem Going.write (h : p.Going c written) (bytes : List UInt8) :
    (p.write bytes).Going c (written ++ bytes) := by
  obtain ⟨calculator, sink, room, failure⟩ := h
  unfold Progress.write Sink.write
  rw [failure, room]
  constructor
  · exact calculator
  · simp [sink]
  · rfl
  · rfl

theorem Going.evaluate (h : p.Going c written) (line : List UInt8) :
    (p.evaluate line).Going (c.evaluate (lineText line)).calculator
      (written ++ outputLine (c.evaluate (lineText line)).outcome) := by
  obtain ⟨rfl, sink, room, failure⟩ := h
  unfold Progress.evaluate
  rw [failure]
  dsimp only
  rw [← outcome_answer, ← calculator_answer]
  generalize answer p.calculator line = report
  apply Going.write
  exact ⟨rfl, sink, room, rfl⟩

theorem Going.step (h : p.Going c written) (prompt line : List UInt8) :
    (p.step prompt line).Going (c.evaluate (lineText line)).calculator
      (written ++ (prompt ++ outputLine (c.evaluate (lineText line)).outcome)) := by
  rw [← List.append_assoc]
  exact (h.write prompt).evaluate line

/-- A session writes, for each of its lines, the prompt and what the line gives. -/
theorem Going.foldl_step (h : p.Going c written) (prompt : List UInt8) (lines : List (List UInt8)) :
    ∃ c', (lines.foldl (Progress.step prompt) p).Going c'
      (written ++ (c.evaluateAll (lines.map lineText)).flatMap fun report =>
        prompt ++ outputLine report.outcome) := by
  induction lines generalizing p c written with
  | nil => exact ⟨c, by simpa [Calculator.evaluateAll] using h⟩
  | cons line lines ih =>
      have hrest := ih (h.step prompt line)
      rw [List.append_assoc] at hrest
      exact hrest

end Progress

/-- **A session says what the script of its bytes gives.** -/
theorem run_eq_outcomes (bytes : List UInt8) (prompt : String) :
    let progress := run (.empty Calculator.defaultLimit) ⟨bytes, false⟩ prompt none
    progress.failure? = none ∧
      progress.sink.written.toList =
        (Script.outcomes (Utf8.decode bytes)).flatMap (fun outcome =>
          Utf8.encode (prompt ++ outcome.text ++ "\n")) ++ Utf8.encode prompt := by
  have started : (Progress.start (.empty Calculator.defaultLimit) none).Going
      (.empty Calculator.defaultLimit) [] := ⟨rfl, rfl, rfl, rfl⟩
  obtain ⟨c, going⟩ := started.foldl_step (Utf8.encode prompt) (Lines.cut isLineFeed bytes)
  obtain ⟨-, written, -, failure⟩ := going.write (Utf8.encode prompt)
  constructor
  · show Option.or _ none = none
    rw [Option.or_none]
    exact failure
  · show Array.toList _ = _
    refine written.trans ?_
    unfold Script.outcomes
    rw [ofText_decode, List.flatMap_map]
    simp only [encode_prompt_append, List.nil_append]

end Session

end LineCalc
