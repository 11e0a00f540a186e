import LineCalc.Proofs.Lines
import LineCalc.Proofs.Definitions

/-! # What is remembered is what the records tell

The trace of a line is enough to work out what is remembered after it from what was remembered
before (`evaluate_replay`).

* An `assigned` record is applied to the variables by writing its name.  Assignments are made in the
  middle of expressions, in arguments and in the bodies of functions, and the line may fail at any
  later token; the variables are still those that the records give, in their order.
* A `defined` record is applied to the functions by storing its parameters and the body, which is
  what stands after the arrow of the line (`Definition.bodyOf`).  There is at most one, and only in a
  line that does not fail. -/

namespace LineCalc

namespace Record

/-- The variables after what a record tells of. -/
def applyToVariables (values : Table Float) : Record → Table Float
  | assigned name x => values.insert name x
  | _ => values

/-- The functions after what a record tells of, where `body` is the body of a definition. -/
def applyToFunctions (body : List Token) (functions : Table Definition) : Record → Table Definition
  | defined name parameters => functions.insert name ⟨parameters, body⟩
  | _ => functions

theorem foldl_applyToVariables (records : List Record) (c : Calculator) :
    records.foldl applyToVariables c.variableTable =
      (c.assignAll (assignments records)).variableTable := by
  induction records generalizing c with
  | nil => rfl
  | cons r records ih =>
      cases r with
      | assigned name x => exact ih (c.assign name x)
      | _ => exact ih c

theorem foldl_applyToFunctions (body : List Token) (records : List Record)
    (functions : Table Definition) :
    records.foldl (applyToFunctions body) functions =
      (definitions records).foldl (fun functions d => functions.insert d.1 ⟨d.2, body⟩) functions := by
  induction records generalizing functions with
  | nil => rfl
  | cons r records ih =>
      cases r with
      | defined name parameters => exact ih (functions.insert name ⟨parameters, body⟩)
      | _ => exact ih functions

end Record

namespace Calculator

/-- The functions after a line are those before it with the definition stored of which the trace
tells, if it does. -/
theorem Change.functionTable {c : Calculator} {text : String} {r : Report} (h : Change c text r) :
    r.calculator.functionTable = (Record.definitions r.trace.toList).foldl (fun functions d =>
      functions.insert d.1 ⟨d.2, Definition.bodyOf (Token.ofText text)⟩) c.functionTable := by
  cases h with
  | assigned h names definitions =>
      rw [definitions, h, functionTable_assignAll]
      rfl
  | @defined rest name f tokens h calculator trace definitions =>
      have body : Definition.bodyOf (Token.ofText text) = f.body := by
        rw [Definition.body_eq_bodyOf h, tokens]
        rfl
      rw [definitions, calculator, body]
      rfl

theorem Change.length_definitions {c : Calculator} {text : String} {r : Report}
    (h : Change c text r) : (Record.definitions r.trace.toList).length ≤ 1 := by
  cases h with
  | assigned h names definitions => simp [definitions]
  | defined tokens h calculator trace definitions => simp [definitions]

/-- A line that fails defines nothing. -/
theorem evaluate_of_error {c : Calculator} {text : String} {fault : Fault}
    (h : (c.evaluate text).outcome = .error fault) :
    (c.evaluate text).calculator =
      c.assignAll (Record.assignments (c.evaluate text).trace.toList) ∧
    Record.definitions (c.evaluate text).trace.toList = [] := by
  cases evaluate_change c text with
  | assigned h names definitions => exact ⟨h, definitions⟩
  | defined tokens hd calculator trace definitions =>
      rw [evaluate_definition tokens hd] at h
      cases h

/-- A definition that fails changes nothing. -/
theorem evaluate_definition_of_error {c : Calculator} {text : String} {fault : Fault}
    {rest : List Token} (tokens : Token.ofText text = .identifier Definition.keyword :: rest)
    (h : (c.evaluate text).outcome = .error fault) :
    (c.evaluate text).calculator = c ∧
    Record.assignments (c.evaluate text).trace.toList = [] := by
  cases hd : Definition.ofTokens c.variableTable.contains rest with
  | error other =>
      rw [evaluate_definition_error tokens hd]
      exact ⟨rfl, rfl⟩
  | ok result =>
      rw [evaluate_definition tokens hd] at h
      cases h

/-- **What is remembered is what the records tell.**  Whether a line succeeds or fails, applying its
records in order gives the variables and the functions after it, and there is at most one definition
among them.  A line that fails has changed nothing but the variables of which its `assigned` records
tell, and a definition that fails has changed nothing at all. -/
theorem evaluate_replay (c : Calculator) (text : String) :
    let report := c.evaluate text
    let records := report.trace.toList
    report.calculator.variableTable = records.foldl Record.applyToVariables c.variableTable ∧
    report.calculator.functionTable =
      records.foldl (Record.applyToFunctions (Definition.bodyOf (Token.ofText text))) c.functionTable ∧
    (Record.definitions records).length ≤ 1 ∧
    (∀ fault, report.outcome = .error fault →
      report.calculator = c.assignAll (Record.assignments records) ∧
      Record.definitions records = []) ∧
    (∀ fault rest, report.outcome = .error fault →
      Token.ofText text = .identifier Definition.keyword :: rest →
      report.calculator = c ∧ Record.assignments records = []) := by
  intro report records
  have change : Change c text report := evaluate_change c text
  refine ⟨?_, ?_, change.length_definitions, ?_, ?_⟩
  · rw [Record.foldl_applyToVariables]
    exact change.variableTable
  · rw [Record.foldl_applyToFunctions]
    exact change.functionTable
  · intro fault failed
    exact evaluate_of_error failed
  · intro fault rest failed tokens
    exact evaluate_definition_of_error tokens failed

end Calculator

end LineCalc
