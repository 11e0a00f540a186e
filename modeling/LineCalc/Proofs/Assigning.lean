import LineCalc.Proofs.Direct
import LineCalc.Proofs.Lexing
import LineCalc.Proofs.Policies
import LineCalc.Proofs.Raising

/-! # Lines that assign

A line that writes `x = ` before a text does what the text does on its own, one level deeper, and then
writes `x`.  So its limit is one larger than that of the text, and three things make the comparison.

* The right-hand side is read where the line goes on, with the cursor elsewhere and with a larger
  budget; it follows the text on its own (`Eval.Follows`).
* It is evaluated one level deeper, below the larger limit (`Eval.Raises`).
* `x` is written as soon as the right-hand side has a value.  What is left over of the line is looked at
  only afterwards (`evaluate_assignment`). -/

namespace LineCalc

namespace Token

theorem ofText_assignment {x : String} (hx : IsName x) (text : String) :
    ofText (x ++ " = " ++ text) = .identifier x :: .equals :: ofText text := by
  have wellFormed : ∀ t ∈ [identifier x, equals], t.WellFormed := by
    have symbol : WellFormed equals := .symbol (c := '=') rfl
    simpa using ⟨.identifier hx, symbol⟩
  have target : ofText (x ++ " =") = [.identifier x, .equals] := by
    refine ofText_of_spaced wellFormed (by simp [glued]) ?_
    have spaced := spaced_flatMap [([], identifier x), ([' '], equals)] (by simp [isBlank])
    simpa [Token.text] using spaced
  have cut : (x ++ " = " ++ text).toList = (x ++ " =").toList ++ ([' '] ++ text.toList) := by simp
  rw [ofText] at target
  rw [ofText, cut, List.foldl_append, List.foldl_append,
    Scan.finish_foldl_blanks (by simp) (by simp [isBlank]), target]
  rfl

end Token

/-- The faults that an expression may have below a limit: tokens that are left over are none of them,
and no other limit is exceeded. -/
def Fault.OfExpression (limit : Nat) : Fault → Prop
  | trailingTokens _ => False
  | depthExceeded exceeded => exceeded = limit
  | _ => True

theorem Fault.OfExpression.ne_trailingTokens {limit : Nat} {fault : Fault}
    (h : fault.OfExpression limit) (line : String) : fault ≠ .trailingTokens line := by
  rintro rfl
  exact h

theorem Fault.OfExpression.raise_eq {limit : Nat} {fault : Fault} (h : fault.OfExpression limit) :
    fault.raise = if fault = .depthExceeded limit then .depthExceeded (limit + 1) else fault := by
  cases fault with
  | depthExceeded exceeded =>
      obtain rfl : exceeded = limit := h
      rw [if_pos rfl, raise]
  | _ => rfl

namespace Eval

/-! ### What the right-hand side may fail with -/

/-- The limit stays, and the faults are those of an expression below it. -/
def belowLimit (limit : Nat) : Policy where
  row _ := True
  kept m := m.calculator.limit = limit
  fault := Fault.OfExpression limit
  tail _ := trivial
  body _ _ _ := trivial
  number _ := trivial
  moved hm _ := hm
  noted hm _ := hm
  entered hm _ := hm
  left hm := hm
  assigned hm _ _ := hm
  endOfInput := trivial
  unexpected _ _ _ := trivial
  target _ _ := trivial
  isFunction _ _ _ := trivial
  undefined _ _ _ _ := trivial
  tooDeep hm := hm

theorem ofExpression_of_error {n : Nat} {bindings : Bindings} {m m' : Machine} {fault : Fault}
    (h : expression n bindings m = .error (.fault fault) m') :
    fault.OfExpression m.calculator.limit := by
  have allowed := Keeps.expression (p := belowLimit m.calculator.limit) n bindings m ⟨trivial, rfl⟩
  rw [h] at allowed
  cases allowed with
  | fault _ hf => exact hf

/-! ### The steps of an assignment -/

/-- An assignment evaluates its right-hand side one level deeper and writes the value. -/
theorem expression_assignment {m : Machine} (hd : m.depth < m.calculator.limit) {x : String}
    (hx : m.calculator.functionOf? x = none) {before rest : List Token} {first : Token}
    (hc : m.cursor = ⟨before, some (.identifier x :: .equals :: first :: rest)⟩) (n : Nat)
    (bindings : Bindings) :
    expression (n + 1) bindings m = onMachine (fun m => { m with depth := m.depth - 1 })
      ((do let v ← expression n []; assign x v; return v : Eval Float)
        { m with
          depth := m.depth + 1
          cursor := ⟨.equals :: .identifier x :: before, some (first :: rest)⟩ }) := by
  obtain ⟨calculator, depth, cursor, trace⟩ := m
  obtain rfl : cursor = _ := hc
  have free : x ∉ calculator.functionTable := by
    rw [← Std.ExtTreeMap.contains_iff_mem, Calculator.functionOf?_eq_none.mp hx]
    exact Bool.false_ne_true
  rw [expression, nested_of_lt _ hd]
  congr 1
  simp [level, assignment, bind_apply, beginsAssignment, Cursor.remaining, read, Cursor.next,
    discard_apply, free]

end Eval

namespace Calculator

open Eval

/-- The value of the expression with which a line begins, whatever is left over of the line. -/
def leading? (c : Calculator) (text : String) : Option Float :=
  match expression (c.budget text) [] (c.reading text) with
  | .ok x _ => some x
  | .error .. => none

/-- The machine that is about to read the right-hand side of an assignment, as if it had not gone one
level deeper for it. -/
def assigning (c : Calculator) (x text : String) : Machine :=
  { c.reading (x ++ " = " ++ text) with
    cursor := ⟨[.equals, .identifier x], some (Token.ofText text)⟩ }

section Lines

variable {c : Calculator} {x text : String} {first : Token} {rest : List Token}

/-- The right-hand side does what the text does on its own. -/
theorem agree_assigning (c : Calculator) (x : String) {text : String} {n : Nat}
    (hn : c.budget text ≤ n) :
    Agree AnyName (Alike c.functionTable) (· = .exhausted)
      (expression (c.budget text) [] (c.reading text)) (expression n [] (c.assigning x text)) := by
  have follows : DirectlyFollows c.functionTable (expression (c.budget text) []) (expression n []) :=
    Follows.expression lawful_alike hn []
  exact follows.run (.of_after? ⟨rfl, rfl, rfl, rfl⟩ rfl)

theorem budget_lt_assignment (c : Calculator) (x text : String) :
    c.budget text < c.raise.budget (x ++ " = " ++ text) := by
  have length : (x ++ " = " ++ text).length = x.length + 3 + text.length := by
    rw [String.length_append, String.length_append]
    rfl
  show c.limit + text.length + c.bodyLength + 4 <
    c.limit + 1 + (x ++ " = " ++ text).length + c.bodyLength + 4
  omega

variable (hx : Token.IsName x) (hf : c.functionOf? x = none) (ht : Token.ofText text = first :: rest)
include hx hf ht

/-- The line evaluates its right-hand side, on a raised machine, and then writes the variable. -/
theorem expression_reading_assignment : ∃ n, c.budget text ≤ n ∧
    expression (c.raise.budget (x ++ " = " ++ text)) [] (c.raise.reading (x ++ " = " ++ text)) =
      onMachine (fun m => { m with depth := m.depth - 1 })
        ((do let v ← expression n []; Eval.assign x v; return v : Eval Float)
          (c.assigning x text).raise) := by
  have larger := budget_lt_assignment c x text
  obtain ⟨n, hn⟩ : ∃ n, c.raise.budget (x ++ " = " ++ text) = n + 1 :=
    Nat.exists_eq_add_one.mpr (by omega)
  refine ⟨n, by omega, ?_⟩
  have cursor : (c.raise.reading (x ++ " = " ++ text)).cursor =
      ⟨[], some (.identifier x :: .equals :: first :: rest)⟩ := by
    rw [reading, Token.ofText_assignment hx, ht]
    rfl
  rw [hn, expression_assignment (Nat.succ_pos c.limit) hf cursor]
  simp [assigning, Machine.raise, reading, Machine.note, Machine.start, Record.raise, ht]

/-- Where the text has a value on its own, the line has it too, and writes it. -/
theorem expression_assignment_of_ok {v : Float} {m : Machine}
    (h : expression (c.budget text) [] (c.reading text) = .ok v m) :
    ∃ m', expression (c.raise.budget (x ++ " = " ++ text)) []
        (c.raise.reading (x ++ " = " ++ text)) = .ok v m' ∧
      m'.calculator = (m.calculator.assign x v).raise ∧ m'.cursor.after? = m.cursor.after? := by
  obtain ⟨n, hn, line⟩ := expression_reading_assignment hx hf ht
  have agree := agree_assigning c x hn
  rw [line, bind_apply, Raises.expression n [] (c.assigning x text)]
  rw [h] at agree
  generalize expression n [] (c.assigning x text) = r at agree
  cases agree with
  | ok beside =>
      have same := congrArg (fun c => (c.assign x v).raise) beside.rest.calculator
      exact ⟨_, rfl, same, beside.after?⟩

/-- Where the text fails on its own, the line fails too, and writes nothing more. -/
theorem expression_assignment_of_error {fault : Fault} {m : Machine}
    (h : expression (c.budget text) [] (c.reading text) = .error (.fault fault) m) :
    ∃ m', expression (c.raise.budget (x ++ " = " ++ text)) []
        (c.raise.reading (x ++ " = " ++ text)) = .error (.fault fault.raise) m' ∧
      m'.calculator = m.calculator.raise := by
  obtain ⟨n, hn, line⟩ := expression_reading_assignment hx hf ht
  have agree := agree_assigning c x hn
  rw [line, bind_apply, Raises.expression n [] (c.assigning x text)]
  rw [h] at agree
  generalize expression n [] (c.assigning x text) = r at agree
  cases agree with
  | error beside => exact ⟨_, rfl, congrArg Calculator.raise beside.rest.calculator⟩
  | cut hs _ => cases hs

end Lines

theorem raise_eq_withLimit {c : Calculator} {n : Nat} (h : c.limit = n) :
    c.raise = c.withLimit (n + 1) := by
  rw [raise, withLimit, h]

section Reports

variable {c : Calculator} {x text : String} {first : Token} {rest : List Token}
  (hx : Token.IsName x) (hk : x ≠ Definition.keyword) (hf : c.functionOf? x = none)
  (ht : Token.ofText text = first :: rest) (hd : first ≠ .identifier Definition.keyword)
include hx hk hf ht hd

/-- Both reports, where the leading expression of the text has a value. -/
theorem evaluate_assignment_of_ok {v : Float} {m : Machine}
    (h : expression (c.budget text) [] (c.reading text) = .ok v m) :
    let own := c.evaluate text
    let line := x ++ " = " ++ text
    let assigned := c.raise.evaluate line
    assigned.calculator = (own.calculator.assign x v).raise ∧
    (own.outcome = .ok (some v) ∧ assigned.outcome = .ok (some v) ∨
      own.outcome = .error (.trailingTokens text) ∧
        assigned.outcome = .error (.trailingTokens line)) := by
  intro own line assigned
  obtain ⟨m', h', calculator, after?⟩ := expression_assignment_of_ok hx hf ht h
  have target : Token.identifier x ≠ .identifier Definition.keyword := mt Token.identifier.inj hk
  have ownReport := evaluate_of_expression_ok ht hd h
  have report := evaluate_of_expression_ok (Token.ofText_assignment hx text) target h'
  rw [Cursor.remainingCount_congr after?] at report
  rw [ownReport.1, ownReport.2, report.1, report.2]
  refine ⟨calculator, ?_⟩
  split
  · exact .inl ⟨rfl, rfl⟩
  · exact .inr ⟨rfl, rfl⟩

/-- Both reports, where the leading expression of the text fails. -/
theorem evaluate_assignment_of_error {s : Stop} {m : Machine}
    (h : expression (c.budget text) [] (c.reading text) = .error s m) :
    let own := c.evaluate text
    let assigned := c.raise.evaluate (x ++ " = " ++ text)
    ∃ fault, fault.OfExpression c.limit ∧ own.outcome = .error fault ∧
      assigned.outcome = .error fault.raise ∧ assigned.calculator = own.calculator.raise := by
  intro own assigned
  obtain ⟨fault, rfl, outcome, left⟩ := evaluate_of_expression_error ht hd h
  obtain ⟨m', h', calculator⟩ := expression_assignment_of_error hx hf ht h
  have target : Token.identifier x ≠ .identifier Definition.keyword := mt Token.identifier.inj hk
  obtain ⟨other, same, outcome', left'⟩ :=
    evaluate_of_expression_error (Token.ofText_assignment hx text) target h'
  obtain rfl := Stop.fault.inj same
  refine ⟨fault, ofExpression_of_error h, outcome, outcome', ?_⟩
  rw [left, left', calculator]

end Reports

/-- **Assigning what a text gives.**  Let a line write `x = ` before a text, with a limit that is one
larger.  It gives the value that the text gives, and writes it after all that the text writes.  If there
are tokens left over, the line is refused as the text is, but `x` has been written.  If the text fails in
another way, so does the line, and writes nothing more; a limit that is exceeded is the larger one. -/
theorem evaluate_assignment (c : Calculator) (n : Nat) {x text : String} (hx : Token.IsName x)
    (hk : x ≠ Definition.keyword) (hf : c.functionOf? x = none) (hne : Token.ofText text ≠ [])
    (hd : ¬ Token.IsDefinition (Token.ofText text)) :
    let own := (c.withLimit n).evaluate text
    let line := x ++ " = " ++ text
    let assigned := (c.withLimit (n + 1)).evaluate line
    (∀ value, own.outcome = .ok value → ∃ v, value = some v ∧
      assigned.outcome = .ok (some v) ∧
      assigned.calculator = (own.calculator.assign x v).withLimit (n + 1)) ∧
    (∀ quoted, own.outcome = .error (.trailingTokens quoted) → ∃ v,
      (c.withLimit n).leading? text = some v ∧
      assigned.outcome = .error (.trailingTokens line) ∧
      assigned.calculator = (own.calculator.assign x v).withLimit (n + 1)) ∧
    (∀ fault, own.outcome = .error fault → (∀ quoted, fault ≠ .trailingTokens quoted) →
      assigned.outcome =
        .error (if fault = .depthExceeded n then .depthExceeded (n + 1) else fault) ∧
      assigned.calculator = own.calculator.withLimit (n + 1)) := by
  intro own line assigned
  have limit : own.calculator.limit = n := limit_evaluate (c.withLimit n) text
  obtain ⟨first, rest, ht⟩ := List.exists_cons_of_ne_nil hne
  have hd' : first ≠ .identifier Definition.keyword := by
    rintro rfl
    exact hd (Token.isDefinition_iff.mpr ⟨rest, ht⟩)
  have hf' : (c.withLimit n).functionOf? x = none := hf
  cases h : expression ((c.withLimit n).budget text) [] ((c.withLimit n).reading text) with
  | ok v m =>
      obtain ⟨left, outcomes⟩ := evaluate_assignment_of_ok hx hk hf' ht hd' h
      have written : assigned.calculator = (own.calculator.assign x v).withLimit (n + 1) :=
        left.trans (raise_eq_withLimit limit)
      have leading : (c.withLimit n).leading? text = some v := by rw [leading?, h]
      obtain ⟨outcome, outcome'⟩ | ⟨outcome, outcome'⟩ := outcomes
      · rw [outcome]
        refine ⟨?_, ?_, ?_⟩
        · rintro value ⟨⟩
          exact ⟨v, rfl, outcome', written⟩
        · rintro quoted ⟨⟩
        · rintro fault ⟨⟩
      · rw [outcome]
        refine ⟨?_, ?_, ?_⟩
        · rintro value ⟨⟩
        · rintro quoted ⟨⟩
          exact ⟨v, leading, outcome', written⟩
        · rintro fault ⟨⟩ other
          exact absurd rfl (other text)
  | error s m =>
      obtain ⟨fault, possible, outcome, outcome', left⟩ :=
        evaluate_assignment_of_error hx hk hf' ht hd' h
      rw [outcome]
      refine ⟨?_, ?_, ?_⟩
      · rintro value ⟨⟩
      · rintro quoted ⟨⟩
        exact absurd rfl (possible.ne_trailingTokens quoted)
      · rintro fault ⟨⟩ -
        exact ⟨possible.raise_eq ▸ outcome', left.trans (raise_eq_withLimit limit)⟩

/-- The call writes `x1` itself, which the assignment then overwrites although `7` is left over.  With the
limit two the call is nested too deeply, and so is the right-hand side with the limit three. -/
theorem evaluate_assignment_leftover :
    let c := (empty 9).afterLines ["x1 = 0", "fn inc => x1 = x1 + 1"]
    let text := "inc * 5 7"
    (Token.IsName "x1" ∧ "x1" ≠ Definition.keyword ∧ c.functionOf? "x1" = none ∧
      Token.ofText text ≠ [] ∧ ¬ Token.IsDefinition (Token.ofText text)) ∧
    ((c.withLimit 3).evaluate text).calculator.valueOf? "x1" = some (Numeral.ofWhole "1").value ∧
    ((c.withLimit 4).evaluate ("x1 = " ++ text)).outcome = .error (.trailingTokens ("x1 = " ++ text)) ∧
    ((c.withLimit 4).evaluate ("x1 = " ++ text)).calculator.valueOf? "x1" =
      some (Numeral.ofWhole "5").value ∧
    ((c.withLimit 3).evaluate ("x1 = " ++ text)).outcome = .error (.depthExceeded 3) := by
  intro c text
  have hx : Token.IsName "x1" := by decide
  have hk : "x1" ≠ Definition.keyword := by decide
  have hf : c.functionOf? "x1" = none := by decide +kernel
  have hne : Token.ofText text ≠ [] := by decide +kernel
  have hd : ¬ Token.IsDefinition (Token.ofText text) := by decide +kernel
  have leftover : ((c.withLimit 3).evaluate text).outcome = .error (.trailingTokens text) := by
    decide +kernel
  have exceeded : ((c.withLimit 2).evaluate text).outcome = .error (.depthExceeded 2) := by
    decide +kernel
  have five : (c.withLimit 3).leading? text = some (Numeral.ofWhole "5").value := by decide +kernel
  obtain ⟨v, leading, refused, written⟩ :=
    (evaluate_assignment c 3 hx hk hf hne hd).2.1 text leftover
  obtain ⟨tooDeep, -⟩ :=
    (evaluate_assignment c 2 hx hk hf hne hd).2.2 _ exceeded fun quoted e => by cases e
  refine ⟨⟨hx, hk, hf, hne, hd⟩, by decide +kernel, refused, ?_, tooDeep⟩
  obtain rfl : v = (Numeral.ofWhole "5").value := Option.some.inj (leading.symm.trans five)
  have value := congrArg (valueOf? · "x1") written
  exact value.trans (by simp [withLimit, assign, valueOf?])

end Calculator

end LineCalc
