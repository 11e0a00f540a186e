import LineCalc.Proofs.Definitions
import LineCalc.Proofs.Effect

/-! # What a line does

A line changes what is remembered in one of two ways (`Calculator.Change`): it writes variables that
are not functions, or it defines one function that is not a variable.  `evaluate_change` says that
this is all, whatever the line gives.

A calculator is *reachable* if some lines lead to it from a calculator that remembers nothing.  What
holds of that one and survives every line holds of all that are reachable
(`Reachable.induction_on`). -/

namespace LineCalc

namespace Eval

/-! ### The three kinds of lines -/

theorem line_blank {text : String} (h : Token.ofText text = []) (n : Nat) (m : Machine) :
    line text n m = .ok none (m.note (.lexed text 0)) := by
  simp [line, bind_apply, h]

theorem line_definition {text : String} {rest : List Token} {name : String} {f : Definition}
    {m : Machine} (h : Token.ofText text = .identifier Definition.keyword :: rest)
    (hd : Definition.ofTokens m.calculator.variableTable.contains rest = .ok (name, f)) (n : Nat) :
    line text n m =
      .ok none (after (define name f) (m.note (.lexed text (rest.length + 1)))) := by
  simp only [line, definition, bind_apply, lex_apply, h, get_apply, List.length_cons, if_true,
    Machine.note, hd, ofExcept_ok, pure_apply]
  rfl

theorem line_definition_error {text : String} {rest : List Token} {fault : Fault} {m : Machine}
    (h : Token.ofText text = .identifier Definition.keyword :: rest)
    (hd : Definition.ofTokens m.calculator.variableTable.contains rest = .error fault) (n : Nat) :
    line text n m = .error (.fault fault) (m.note (.lexed text (rest.length + 1))) := by
  simp only [line, definition, bind_apply, lex_apply, h, get_apply, List.length_cons, if_true,
    Machine.note, hd, ofExcept_error, fail_apply]

theorem line_expression {text : String} {first : Token} {rest : List Token}
    (h : Token.ofText text = first :: rest) (hf : first ≠ .identifier Definition.keyword) (n : Nat)
    (m : Machine) :
    line text n m =
      (do return some (← within (first :: rest) (wholeExpression text n)) : Eval (Option Float))
        (m.note (.lexed text (rest.length + 1))) := by
  simp only [line, bind_apply, lex_apply, h, if_neg hf, List.length_cons]

theorem Orderly.wholeExpression (text : String) (n : Nat) : Orderly (wholeExpression text n) := by
  apply (expression n []).bind
  intro x
  apply get.bind
  intro m
  split
  · exact pure x
  · exact fail _

/-- A line that is no definition does what an expression may do. -/
theorem effect_line {text : String} (h : ∀ rest, Token.ofText text ≠ .identifier Definition.keyword :: rest)
    (n : Nat) (m : Machine) : Effect m (after (line text n) m) := by
  cases ht : Token.ofText text with
  | nil =>
      unfold after
      rw [line_blank ht]
      exact Effect.noted m rfl
  | cons first rest =>
      have hf : first ≠ .identifier Definition.keyword := by
        rintro rfl
        exact h rest ht
      have ho : Orderly (do
          let x ← within (first :: rest) (wholeExpression text n)
          return some x : Eval (Option Float)) :=
        ((Orderly.wholeExpression text n).within _).bind fun x => Orderly.pure (some x)
      unfold after
      rw [line_expression ht hf]
      exact (Effect.noted m rfl).trans (ho.effect _)

end Eval

namespace Report

/-- What is reported of a result. -/
def ofResult (limit : Nat) : EStateM.Result Stop Machine (Option Float) → Report
  | .ok value m => ⟨.ok value, m.calculator, m.trace⟩
  | .error (.fault fault) m => ⟨.error fault, m.calculator, m.trace⟩
  | .error .exhausted m => ⟨.error (.depthExceeded limit), m.calculator, m.trace⟩

variable (limit : Nat) (r : EStateM.Result Stop Machine (Option Float))

@[simp] theorem calculator_ofResult :
    (ofResult limit r).calculator = (Eval.machineOf r).calculator := by
  rcases r with _ | ⟨_ | _, _⟩ <;> rfl

@[simp] theorem trace_ofResult : (ofResult limit r).trace = (Eval.machineOf r).trace := by
  rcases r with _ | ⟨_ | _, _⟩ <;> rfl

end Report

namespace Calculator

/-- The calculator with another limit. -/
def withLimit (c : Calculator) (limit : Nat) : Calculator := { c with limit := limit }

theorem evaluate_eq (c : Calculator) (text : String) :
    c.evaluate text = .ofResult c.limit (Eval.line text (c.budget text) (.start c)) := rfl

/-- How a line may change what is remembered; the assignments and definitions are those that the trace
tells of. -/
inductive Change (c : Calculator) (text : String) (r : Report) : Prop where
  | assigned (h : r.calculator = c.assignAll (Record.assignments r.trace.toList))
      (names : ∀ w ∈ Record.assignments r.trace.toList, c.functionOf? w.1 = none)
      (definitions : Record.definitions r.trace.toList = [])
  | defined {rest : List Token} {name : String} {f : Definition}
      (tokens : Token.ofText text = .identifier Definition.keyword :: rest)
      (h : Definition.ofTokens c.variableTable.contains rest = .ok (name, f))
      (calculator : r.calculator = c.define name f)
      (trace : Record.assignments r.trace.toList = [])
      (definitions : Record.definitions r.trace.toList = [(name, f.parameters)])

theorem Change.of_effect {c : Calculator} {text : String} {r : Report} {m : Machine}
    (h : Effect (.start c) m) (hc : r.calculator = m.calculator) (ht : r.trace = m.trace) :
    Change c text r := by
  obtain ⟨records, trace, calculator, names, definitions⟩ := h.records
  have e : r.trace.toList = records := by
    rw [ht, trace]
    rfl
  apply Change.assigned
  · rw [e, hc, calculator]
    rfl
  · rw [e]
    exact names
  · rw [e]
    exact definitions

/-- A definition that is accepted. -/
theorem evaluate_definition {c : Calculator} {text : String} {rest : List Token} {name : String}
    {f : Definition} (h : Token.ofText text = .identifier Definition.keyword :: rest)
    (hd : Definition.ofTokens c.variableTable.contains rest = .ok (name, f)) :
    c.evaluate text = ⟨.ok none, c.define name f,
      #[.lexed text (rest.length + 1), .defined name f.parameters]⟩ := by
  rw [evaluate_eq, Eval.line_definition (m := .start c) h hd]
  rfl

/-- A definition that is refused. -/
theorem evaluate_definition_error {c : Calculator} {text : String} {rest : List Token} {fault : Fault}
    (h : Token.ofText text = .identifier Definition.keyword :: rest)
    (hd : Definition.ofTokens c.variableTable.contains rest = .error fault) :
    c.evaluate text = ⟨.error fault, c, #[.lexed text (rest.length + 1)]⟩ := by
  rw [evaluate_eq, Eval.line_definition_error (m := .start c) h hd]
  rfl

/-- Why a definition fails. -/
theorem refused_of_evaluate {c : Calculator} {text : String} {rest : List Token} {fault : Fault}
    (h : Token.ofText text = .identifier Definition.keyword :: rest)
    (failed : (c.evaluate text).outcome = .error fault) :
    Definition.Refused c.variableTable.contains rest fault := by
  cases hd : Definition.ofTokens c.variableTable.contains rest with
  | error other =>
      rw [evaluate_definition_error h hd] at failed
      cases failed
      exact Definition.refused_ofTokens hd
  | ok result =>
      rw [evaluate_definition h hd] at failed
      cases failed

/-- What a line does to what is remembered. -/
theorem evaluate_change (c : Calculator) (text : String) : Change c text (c.evaluate text) := by
  by_cases h : ∃ rest, Token.ofText text = .identifier Definition.keyword :: rest
  · obtain ⟨rest, ht⟩ := h
    cases hd : Definition.ofTokens c.variableTable.contains rest with
    | error fault =>
        rw [evaluate_definition_error ht hd]
        exact .of_effect (Effect.noted (.start c) rfl) rfl rfl
    | ok result =>
        rw [evaluate_definition ht hd]
        exact .defined ht hd rfl rfl rfl
  · have h' := Eval.effect_line (not_exists.mp h) (c.budget text) (.start c)
    rw [evaluate_eq]
    exact .of_effect h' (Report.calculator_ofResult ..) (Report.trace_ofResult ..)

@[simp] theorem limit_evaluate (c : Calculator) (text : String) :
    (c.evaluate text).calculator.limit = c.limit := by
  cases evaluate_change c text with
  | assigned h names => rw [h, limit_assignAll]
  | defined tokens h calculator trace => rw [calculator, define]

/-- The variables after a line are those before it with the assignments written of which the trace
tells. -/
theorem Change.variableTable {c : Calculator} {text : String} {r : Report} (h : Change c text r) :
    r.calculator.variableTable =
      (c.assignAll (Record.assignments r.trace.toList)).variableTable := by
  cases h with
  | assigned h names => rw [← h]
  | defined tokens h calculator trace =>
      rw [calculator, trace]
      rfl

/-! ### Many lines -/

/-- What is remembered after lines have been evaluated, one after the other. -/
def afterLines (c : Calculator) (lines : List String) : Calculator :=
  lines.foldl (fun c text => (c.evaluate text).calculator) c

@[simp] theorem afterLines_cons (c : Calculator) (text : String) (lines : List String) :
    c.afterLines (text :: lines) = (c.evaluate text).calculator.afterLines lines := rfl

theorem afterLines_append (c : Calculator) (lines more : List String) :
    c.afterLines (lines ++ more) = (c.afterLines lines).afterLines more := by
  simp [afterLines]

/-- Each line is evaluated with what the lines before it leave. -/
theorem evaluateAll_append (c : Calculator) (lines more : List String) :
    c.evaluateAll (lines ++ more) = c.evaluateAll lines ++ (c.afterLines lines).evaluateAll more := by
  induction lines generalizing c with
  | nil => rfl
  | cons text lines ih => simp [evaluateAll, ih]

theorem length_evaluateAll (c : Calculator) (lines : List String) :
    (c.evaluateAll lines).length = lines.length := by
  induction lines generalizing c with
  | nil => rfl
  | cons text lines ih => simp [evaluateAll, ih]

theorem getElem?_evaluateAll (c : Calculator) (lines : List String) (i : Nat) :
    (c.evaluateAll lines)[i]? = lines[i]?.map fun text =>
      (c.afterLines (lines.take i)).evaluate text := by
  induction lines generalizing c i with
  | nil => rfl
  | cons text lines ih =>
      cases i with
      | zero => rfl
      | succ i => exact ih (c.evaluate text).calculator i

/-- Some lines lead here from a calculator that remembers nothing. -/
def Reachable (c : Calculator) : Prop := ∃ limit lines, c = (empty limit).afterLines lines

/-- What survives every line survives all lines. -/
theorem afterLines_induction {P : Calculator → Prop}
    (step : ∀ c text, P c → P (c.evaluate text).calculator) {c : Calculator} (h : P c)
    (lines : List String) : P (c.afterLines lines) := by
  induction lines generalizing c with
  | nil => exact h
  | cons text lines ih => exact ih (step c text h)

theorem Reachable.induction_on {P : Calculator → Prop} {c : Calculator} (h : Reachable c)
    (empty : ∀ limit, P (empty limit)) (step : ∀ c text, P c → P (c.evaluate text).calculator) :
    P c := by
  obtain ⟨limit, lines, rfl⟩ := h
  exact afterLines_induction step (empty limit) lines

end Calculator

end LineCalc
