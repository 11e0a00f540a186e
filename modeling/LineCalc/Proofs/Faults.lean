import LineCalc.Proofs.Policies
import LineCalc.Proofs.Namespaces

/-! # What faults tell

A fault is reported after the line has been evaluated, and by then the line may have assigned variables.
What it says is true nevertheless of what was remembered *before* the line (`Fault.Tells`).

* A name that stands for nothing is carried as a value through the product that it is in, and becomes
  a fault only where a number is needed.  Other operands may have assigned the very name in between.
  What is reported was seen when the name was read, and since variables are never forgotten, the name
  stood for nothing before the line either.
* Tokens that are in the wrong place are tokens of the line or of the text of a stored body.  The texts
  of numbers are read as well, but they are operands and have no `=`.
* Definitions are refused for reasons of their own, expressions never for these.

The policy `telling` has the first two for expressions.  The third is `Definition.refused_ofTokens`. -/

namespace LineCalc

theorem Number.beginsOperand_of_suffix {x : Float} {row : List Token} {t : Token}
    (h : row <:+ Token.ofText (text x)) (ht : Token.operandToken? row = some t) :
    t.beginsOperand = true := by
  obtain ⟨u, e, kind⟩ := ofText_text x
  have operand : u.beginsOperand = true := by
    obtain ⟨n, rfl⟩ | rfl | rfl := kind <;> rfl
  have rows : row = [.minus, u] ∨ row = [u] ∨ row = [] := by
    obtain e | e := e
    · rw [e] at h
      exact .inr (by simpa [List.suffix_cons_iff] using h)
    · rw [e] at h
      simpa [List.suffix_cons_iff] using h
  have first : Token.operandToken? [u] = some u := by
    cases u with
    | minus => cases operand
    | _ => rfl
  obtain rfl | rfl | rfl := rows
  · cases ht
    exact operand
  · rw [first] at ht
    cases ht
    exact operand
  · cases ht

namespace Calculator

/-- The rows of tokens that a line lets the calculator read, the texts of numbers apart: those of the
line and of stored bodies. -/
inductive Reads (c : Calculator) (text : String) : List Token → Prop
  | line : Reads c text (Token.ofText text)
  | body {name : String} {f : Definition} (h : c.functionOf? name = some f) :
      Reads c text (Token.ofText f.joined)

end Calculator

/-- What a fault says of the line that it is reported for, and of what was remembered before it. -/
def Fault.Tells (c : Calculator) (text : String) (fault : Fault) : Prop :=
  let tokens := Token.ofText text
  match fault with
  | .endOfInput => True
  | .trailingTokens line => ¬ Token.IsDefinition tokens ∧ line = text
  | .unexpectedToken found => ¬ Token.IsDefinition tokens ∧
    ∃ row t, c.Reads text row ∧ t ∈ row ∧ t.beginsOperand = false ∧ found = t.text
  | .invalidTarget found => ¬ Token.IsDefinition tokens ∧
    ∃ row t, c.Reads text row ∧ [t, .equals] <:+: row ∧ (∀ name, t ≠ .identifier name) ∧ found = t.text
  | .nameIsFunction name => ¬ Token.IsDefinition tokens ∧ c.IsFunction name
  | .undefinedVariable name => ¬ Token.IsDefinition tokens ∧ ¬ c.IsVariable name ∧ ¬ c.IsFunction name
  | .depthExceeded limit => ¬ Token.IsDefinition tokens ∧ limit = c.limit
  | .nameIsVariable name => Token.IsDefinition tokens ∧
    tokens[1]? = some (.identifier name) ∧ c.IsVariable name
  | .repeatedParameter parameter => Token.IsDefinition tokens ∧ ∃ name, ∃ names : List String, ∃ rest,
    tokens.tail = .identifier name :: (names.map .identifier ++ .identifier parameter :: rest) ∧
      parameter ∈ names
  | .malformedDefinition found => Token.IsDefinition tokens ∧
    ((∃ t ∈ tokens.tail, found = t.text) ∨
      tokens.getLast? = some .equals ∧ found = "end of input")
  | .emptyBody name => Token.IsDefinition tokens ∧
    ∃ parameters, tokens.tail = Definition.written name ⟨parameters, []⟩
  | .unknownIdentifier unknown => Token.IsDefinition tokens ∧
    ∃ name f, tokens.tail = Definition.written name f ∧ .identifier unknown ∈ f.body ∧
      unknown.toList.all Char.isAlpha = true ∧ unknown ∉ f.parameters

namespace Eval

/-- Where an expression is evaluated, the functions are those of before the line, the variables of
before it are still there, and what is read is a part of the line, of a stored body or of the text of a
number. -/
def telling (c : Calculator) {text : String} (hd : ¬ Token.IsDefinition (Token.ofText text)) :
    Policy where
  row r := ∃ source, (c.Reads text source ∨ ∃ x, source = Token.ofText (Number.text x)) ∧ r <:+ source
  kept m := m.calculator.functionTable = c.functionTable ∧ m.calculator.limit = c.limit ∧
    ∀ name, c.IsVariable name → m.calculator.IsVariable name
  fault := Fault.Tells c text
  tail := fun ⟨source, h, suffix⟩ => ⟨source, h, (List.suffix_cons _ _).trans suffix⟩
  body {m name rest f} hm _ stored := by
    have stored' : c.functionOf? name = some f := by
      rw [Calculator.functionOf?, ← hm.1]
      exact stored
    exact ⟨_, .inl (.body stored'), List.suffix_rfl⟩
  number x := ⟨_, .inr ⟨x, rfl⟩, List.suffix_rfl⟩
  moved hm _ := hm
  noted hm _ := hm
  entered hm _ := hm
  left hm := hm
  assigned {m name t rest} hm _ x :=
    ⟨hm.1, hm.2.1, fun other h =>
      (Calculator.Extends.assign m.calculator name x).isVariable other (hm.2.2 other h)⟩
  endOfInput := ⟨⟩
  unexpected {tokens t} row wanted stray := by
    obtain ⟨source, reads | ⟨x, rfl⟩, suffix⟩ := row
    · have mem : t ∈ tokens := Token.mem_of_operandToken? wanted
      exact ⟨hd, source, t, reads, suffix.subset mem, stray, rfl⟩
    · rw [Number.beginsOperand_of_suffix suffix wanted] at stray
      cases stray
  target {t next rest} row other := by
    obtain ⟨source, reads | ⟨x, rfl⟩, suffix⟩ := row
    · have here : [t, .equals] <:+: t :: .equals :: next :: rest := ⟨[], next :: rest, rfl⟩
      exact ⟨hd, source, t, reads, here.trans suffix.isInfix, other, rfl⟩
    · have equals : .equals ∈ Token.ofText (Number.text x) := suffix.subset (by simp)
      exact absurd equals (Number.equals_not_mem_ofText_text x)
  isFunction {m name rest} hm _ stored := ⟨hd, .of_contains (hm.1 ▸ stored)⟩
  undefined {m name rest} hm _ noFunction noValue := by
    refine ⟨hd, fun isVariable => ?_, fun isFunction => ?_⟩
    · exact Calculator.not_isVariable.mpr noValue (hm.2.2 name isVariable)
    · rw [Calculator.functionOf?, hm.1] at noFunction
      exact Calculator.not_isFunction.mpr noFunction isFunction
  tooDeep hm := ⟨hd, hm.2.1⟩

end Eval

/-- The faults of definitions. -/
theorem Fault.Tells.of_refused {c : Calculator} {text : String} {rest : List Token} {fault : Fault}
    (tokens : Token.ofText text = .identifier Definition.keyword :: rest)
    (h : Definition.Refused c.variableTable.contains rest fault) : fault.Tells c text := by
  have hd : Token.IsDefinition (Token.ofText text) := Token.isDefinition_iff.mpr ⟨rest, tokens⟩
  have tail : (Token.ofText text).tail = rest := by
    rw [tokens]
    rfl
  cases h with
  | endOfInput => exact ⟨⟩
  | nameIsVariable h hv =>
      refine ⟨hd, ?_, .of_contains hv⟩
      rw [tokens, List.getElem?_cons_succ, ← List.head?_eq_getElem?]
      exact h
  | repeatedParameter h hp => exact ⟨hd, _, _, _, tail.trans h, hp⟩
  | misplaced h => exact ⟨hd, .inl ⟨_, tail ▸ h, rfl⟩⟩
  | unfinished h =>
      refine ⟨hd, .inr ⟨?_, rfl⟩⟩
      rw [tokens, List.getLast?_cons, h]
      rfl
  | emptyBody h => exact ⟨hd, _, tail.trans h⟩
  | unknownIdentifier h hb plain hp => exact ⟨hd, _, _, tail.trans h, hb, plain, hp⟩

namespace Calculator

/-- **Faults tell the truth.**  What a fault says holds of the line that it is reported for and of what
was remembered before it. -/
theorem evaluate_fault {c : Calculator} {text : String} {fault : Fault}
    (h : (c.evaluate text).outcome = .error fault) : fault.Tells c text := by
  by_cases hd : Token.IsDefinition (Token.ofText text)
  · obtain ⟨rest, tokens⟩ := Token.isDefinition_iff.mp hd
    cases read : Definition.ofTokens c.variableTable.contains rest with
    | error other =>
        rw [evaluate_definition_error tokens read] at h
        cases h
        exact .of_refused tokens (Definition.refused_ofTokens read)
    | ok result =>
        rw [evaluate_definition tokens read] at h
        cases h
  · have row : (Eval.telling c hd).row (Token.ofText text) := ⟨_, .inl .line, List.suffix_rfl⟩
    have start : (Eval.telling c hd).kept (.start c) := ⟨rfl, rfl, fun _ h => h⟩
    exact (evaluate_keeps (Eval.telling c hd) hd row ⟨hd, rfl⟩ start).1 fault h

/-- The first `y` stood for nothing when it was read.  Before that is reported, the other operand has
assigned `y`. -/
theorem evaluate_fault_assigned :
    let c := (empty 9).afterLines ["x = 1", "fn inc => x1 = x1 + 1"]
    (c.evaluate "y * (y = x)").outcome = .error (.undefinedVariable "y") ∧
    ¬ c.IsVariable "y" ∧ ¬ c.IsFunction "y" ∧ (c.evaluate "y * (y = x)").calculator.IsVariable "y" := by
  intro c
  have fails : (c.evaluate "y * (y = x)").outcome = .error (.undefinedVariable "y") := by
    decide +kernel
  have assigned : (c.evaluate "y * (y = x)").calculator.IsVariable "y" := by
    unfold IsVariable
    decide +kernel
  obtain ⟨-, noVariable, noFunction⟩ := evaluate_fault fails
  exact ⟨fails, noVariable, noFunction, assigned⟩

end Calculator

end LineCalc
