import LineCalc.Proofs.Steps
import LineCalc.Proofs.Budget
import LineCalc.Proofs.Bodies

/-! # Evaluation without texts in between

A call writes the body of a function as a text and reads it again, and so does a parameter with its
value.  The *direct* evaluator takes two shortcuts: a call reads the tokens of the body as they are,
and a parameter is its value if that is a finite number.  If it is not, the name `NaN` or `inf` is
looked up, with nothing else to read.

Both evaluators agree on every line (`evaluate_directly`), provided that no stored body has two glued
neighbours, which its text would make into something else.

The direct evaluator follows the other one.  There are two places to look at: the text of a body has
the tokens of the body, because they come from a text themselves, and the text of a number is read as
the number. -/

namespace LineCalc

namespace Eval

namespace Direct

section Levels

variable (deeper : Bindings → Eval Float)

/-- A call: reads the arguments, then the tokens of the body. -/
def call (f : Definition) : Eval Float := do
  let bindings ← arguments deeper f.parameters
  within f.body (deeper bindings)

/-- What a name stands for that is no parameter. -/
def resolveGlobal (name : String) : Eval Value := globalWith (call deeper) name

/-- The value of a parameter.  What is no finite number is looked up by its name. -/
def parameter (x : Float) : Eval Value :=
  match Shape.ofFloat x with
  | .finite _ _ => return .number x
  | .infinite _ => within [] (resolveGlobal deeper "inf")
  | .nan => within [] (resolveGlobal deeper "NaN")

/-- What a name stands for where `bindings` are in force. -/
def resolve (bindings : Bindings) (name : String) : Eval Value :=
  resolveWith (parameter deeper) (resolveGlobal deeper) bindings name

/-- An expression, given how to evaluate one that is one level deeper. -/
def level (budget : Nat) (bindings : Bindings) : Eval Float :=
  levelWith deeper (resolve deeper bindings) budget bindings

end Levels

/-- An expression. -/
def expression : Nat → Bindings → Eval Float
  | 0, _ => throw .exhausted
  | n + 1, bindings => nested (level (expression n) n bindings)

/-- A line. -/
def line (text : String) (budget : Nat) : Eval (Option Float) := lineWith (expression budget []) text

end Direct

/-! ### The direct evaluator follows the other one -/

/-- The text of a body has the tokens of the body. -/
def Faithful (functions : Table Definition) : Prop :=
  ∀ (name : String) (f : Definition), functions[name]? = some f → Token.ofText f.joined = f.body

/-- Machines that differ in their traces only, and there not in the assignments. -/
structure Alike (functions : Table Definition) (m m' : Machine) : Prop where
  calculator : m'.calculator = m.calculator
  functions : m.calculator.functionTable = functions
  depth : m'.depth = m.depth
  assignments : Record.assignments m.trace.toList = Record.assignments m'.trace.toList

variable {functions : Table Definition}

/-- Records that only one of the evaluators makes. -/
theorem Alike.noted {m m' : Machine} (h : Alike functions m m') {r : Record}
    (hr : r.assignment? = none) : Alike functions (m.note r) m' :=
  ⟨h.calculator, h.functions, h.depth, by rw [Record.assignments_note m hr, h.assignments]⟩

/-- Reading changes nothing that matters. -/
theorem Alike.readTo {m m' m₁ : Machine} {c : Cursor} {rest : List Token}
    (h : Alike functions m m') (r : ReadTo { m with cursor := c } rest m₁) : Alike functions m₁ m' :=
  ⟨h.calculator.trans r.calculator.symm, (congrArg _ r.calculator).trans h.functions,
    h.depth.trans r.depth.symm, r.assignments.trans h.assignments⟩

theorem Alike.push {m m' : Machine} (h : Alike functions m m') (r : Record) :
    Record.assignments (m.note r).trace.toList = Record.assignments (m'.note r).trace.toList := by
  simp only [Machine.note, Array.toList_push, Record.assignments_append, h.assignments]

theorem lawful_alike : Lawful AnyName (Alike functions) (· = .exhausted) where
  exhausted := rfl
  assignments h := h.assignments
  valueOf? h _ := by rw [h.calculator]
  functionOf? h _ := by rw [h.calculator]
  body _ _ _ _ _ := trivial
  number _ _ _ := trivial
  moved h _ _ := ⟨h.calculator, h.functions, h.depth, h.assignments⟩
  noted h _ := ⟨h.calculator, h.functions, h.depth, h.push _⟩
  assigned {_ _ name} h _ x :=
    ⟨congrArg (·.assign name x) h.calculator, h.functions, h.depth, h.push _⟩
  entered {m m'} h hd := by
    have hd' : m'.depth < m'.calculator.limit := by
      rw [h.calculator, h.depth]
      exact hd
    exact ⟨hd', h.calculator, h.functions, congrArg (· + 1) h.depth, h.assignments⟩
  left h := ⟨h.calculator, h.functions, congrArg (· - 1) h.depth, h.assignments⟩
  refused h hd := by
    right
    rw [h.calculator, h.depth]
    exact ⟨hd, rfl⟩

/-- One evaluation follows the other here. -/
abbrev DirectlyFollows (functions : Table Definition) {α : Type} (x y : Eval α) : Prop :=
  Follows AnyName (Alike functions) (· = .exhausted) x y

section Levels

variable {deeper deeper' : Bindings → Eval Float}
  (h : ∀ bindings, DirectlyFollows functions (deeper bindings) (deeper' bindings))
include h

theorem follows_call (name : String) {f : Definition} (hf : Token.ofText f.joined = f.body) :
    DirectlyFollows functions (call deeper name f) (Direct.call deeper' f) := by
  apply (Follows.arguments lawful_alike h f.parameters).bind
  intro bindings
  have mention : Token.MentionOnly AnyName f.body := fun _ _ => trivial
  have body := Follows.within lawful_alike (h bindings) mention
  constructor
  · exact body.grows
  · intro m m' hm
    rw [bind_apply, note_apply]
    dsimp only
    rw [bind_apply, lex_apply]
    dsimp only
    rw [hf]
    exact body.run (.of_after? ((hm.rest.noted rfl).noted rfl) hm.after?)

theorem follows_resolveGlobal (hfaith : Faithful functions) (name : String) :
    DirectlyFollows functions (resolveGlobal deeper name) (Direct.resolveGlobal deeper' name) := by
  apply Follows.globalWith lawful_alike trivial
  · intro f
    apply (Follows.arguments lawful_alike h f.parameters).grows.bind
    intro bindings
    exact (h bindings).grows.within f.body
  · intro m m' f hm hf
    apply follows_call h name
    apply hfaith name f
    rw [← hm.functions]
    exact hf

omit h in
/-- Reading the text of a value again, in terms of reading its tokens as an operand. -/
theorem follows_reread {y : Eval Value} {x : Float}
    (hy : ∀ {m m'}, Beside AnyName (Alike functions) m m' →
      Agree AnyName (Alike functions) (· = .exhausted)
        (within (Token.ofText (Number.text x)) (operand (deeper []) (resolveGlobal deeper)) m) (y m'))
    (grows : Grows y) : DirectlyFollows functions (reread deeper x) y := by
  constructor
  · exact grows
  · intro m m' hm
    unfold reread
    rw [bind_apply, note_apply]
    dsimp only
    rw [bind_apply, lex_apply]
    dsimp only
    exact hy (.of_after? ((hm.rest.noted rfl).noted rfl) hm.after?)

omit h in
/-- The text of a finite number is read as the number. -/
theorem agree_finite {x : Float} (hx : Number.IsFinite x) {m m' : Machine}
    (hm : Beside AnyName (Alike functions) m m') :
    Agree AnyName (Alike functions) (· = .exhausted)
      (within (Token.ofText (Number.text x)) (operand (deeper []) (resolveGlobal deeper)) m)
      ((pure (.number x) : Eval Value) m') := by
  have steps : Steps (operand (deeper []) (resolveGlobal deeper))
      { m with cursor := .ofTokens (Token.ofText (Number.text x)) } (pure (.number x)) [] :=
    Steps.operand_text hx (by rw [List.append_nil]; rfl)
  obtain ⟨m₁, r, e⟩ := steps
  rw [within_apply, e]
  exact .ok (.of_after? (lawful_alike.moved (hm.rest.readTo r) m.cursor m'.cursor) hm.after?)

omit h in
/-- What is read as a name is looked up with nothing else to read. -/
theorem agree_name {x : Float} {name : String} {global : Eval Value}
    (hg : DirectlyFollows functions (resolveGlobal deeper name) global)
    (hx : Token.ofText (Number.text x) = [.identifier name] ∨
      Token.ofText (Number.text x) = [.minus, .identifier name])
    {m m' : Machine} (hm : Beside AnyName (Alike functions) m m') :
    Agree AnyName (Alike functions) (· = .exhausted)
      (within (Token.ofText (Number.text x)) (operand (deeper []) (resolveGlobal deeper)) m)
      (within [] global m') := by
  have steps : Steps (operand (deeper []) (resolveGlobal deeper))
      { m with cursor := .ofTokens (Token.ofText (Number.text x)) } (resolveGlobal deeper name) [] := by
    cases hx with
    | inl hx =>
        rw [hx]
        exact Steps.operand_name rfl
    | inr hx =>
        rw [hx]
        exact Steps.operand_minus_name rfl
  obtain ⟨m₁, r, e⟩ := steps
  rw [within_apply, within_apply, e]
  have beside : Beside AnyName (Alike functions) m₁ { m' with cursor := .ofTokens [] } :=
    .of_after? (lawful_alike.moved (hm.rest.readTo r) m₁.cursor _) r.after?.symm
  apply (hg.run beside).onMachine
  · intro m₂ m₂' h
    exact .of_after? (lawful_alike.moved h.rest _ _) hm.after?
  · intro m₂
    rfl
  · intro m₂
    rfl

theorem follows_parameter (hfaith : Faithful functions) (x : Float) :
    DirectlyFollows functions (reread deeper x) (Direct.parameter deeper' x) := by
  have named (name : String) := follows_resolveGlobal h hfaith name
  unfold Direct.parameter
  cases hx : Shape.ofFloat x with
  | finite negative p =>
      exact follows_reread (agree_finite ⟨negative, p, hx⟩) (Orderly.pure _).grows
  | infinite negative =>
      refine follows_reread (agree_name (named "inf") ?_) ((named "inf").grows.within [])
      have text := Number.ofText_infinite hx
      cases negative with
      | true => exact .inr text
      | false => exact .inl text
  | nan =>
      exact follows_reread (agree_name (named "NaN") (.inl (Number.ofText_nan hx)))
        ((named "NaN").grows.within [])

theorem follows_level (hfaith : Faithful functions) (n : Nat) (bindings : Bindings) :
    DirectlyFollows functions (level deeper n bindings) (Direct.level deeper' n bindings) := by
  have resolve (name : String) :
      DirectlyFollows functions (resolve deeper bindings name) (Direct.resolve deeper' bindings name) :=
    Follows.resolveWith lawful_alike (follows_parameter h hfaith) trivial
      (follows_resolveGlobal h hfaith name) bindings
  exact Follows.levelWith lawful_alike h (fun name => (resolve name).grows) (fun name _ => resolve name)
    (Nat.le_refl n) bindings

end Levels

theorem follows_expression (hfaith : Faithful functions) (n : Nat) (bindings : Bindings) :
    DirectlyFollows functions (expression n bindings) (Direct.expression n bindings) := by
  induction n generalizing bindings with
  | zero => exact Follows.throw _
  | succ n ih => exact Follows.nested lawful_alike (follows_level ih hfaith n bindings)

end Eval

/-- The reports of two results that agree. -/
theorem Report.ofFinished?_of_agree {functions : Table Definition} (limit : Nat)
    {r r' : EStateM.Result Stop Machine (Option Float)}
    (h : Eval.Agree Eval.AnyName (Eval.Alike functions) (· = .exhausted) r r') (hr : Eval.Finished r) :
    (ofFinished? limit r').map (fun report => (report.outcome, report.calculator)) =
      some ((ofResult limit r).outcome, (ofResult limit r).calculator) := by
  obtain ⟨finished, beside, outcome⟩ := h.of_finished hr limit
  rw [ofFinished?_of_finished limit finished, Option.map_some, outcome, calculator_ofResult,
    calculator_ofResult, beside.rest.calculator]

/-- A definition has nothing to do with how expressions are evaluated. -/
theorem Eval.lineWith_definition {text : String} {rest : List Token}
    (h : Token.ofText text = .identifier Definition.keyword :: rest) (value value' : Eval Float) :
    lineWith value text = lineWith value' text := by
  funext m
  simp only [lineWith, bind_apply, lex_apply, h, if_true]

namespace Calculator

/-- Evaluates a line with the direct evaluator; there is no report if the budget is used up. -/
def directly (c : Calculator) (text : String) : Option Report :=
  Report.ofFinished? c.limit (Eval.Direct.line text (c.budget text) (.start c))

/-- **The direct evaluator agrees with the other one.**  Where no stored body has two glued
neighbours, a line gives the same in both and leaves the same variables and functions, with any limit
on nesting. -/
theorem evaluate_directly {c : Calculator} (hc : Reachable c)
    (hg : ∀ name f, c.functionOf? name = some f → f.body.IsChain (Token.glued · · = false))
    (limit : Nat) (text : String) :
    ((c.withLimit limit).directly text).map (fun report => (report.outcome, report.calculator)) =
      some (((c.withLimit limit).evaluate text).outcome,
        ((c.withLimit limit).evaluate text).calculator) := by
  have faithful : Eval.Faithful (c.withLimit limit).functionTable :=
    fun name f hf => Definition.ofText_joined (hc.wellFormed_body hf) (hg name f hf)
  have finished := line_finished (c.withLimit limit) text
  by_cases hd : ∃ rest, Token.ofText text = .identifier Definition.keyword :: rest
  · obtain ⟨rest, ht⟩ := hd
    have same := Eval.lineWith_definition ht (Eval.Direct.expression ((c.withLimit limit).budget text) [])
      (Eval.expression ((c.withLimit limit).budget text) [])
    unfold directly Eval.Direct.line
    rw [same, ← Eval.line_eq, Report.ofFinished?_of_finished _ finished]
    rfl
  · have hd' := not_exists.mp hd
    have start : Eval.Beside Eval.AnyName (Eval.Alike (c.withLimit limit).functionTable)
        (.start (c.withLimit limit)) (.start (c.withLimit limit)) := .of_after? ⟨rfl, rfl, rfl, rfl⟩ rfl
    have follows := Eval.follows_expression faithful ((c.withLimit limit).budget text) []
    have agree := Eval.Follows.lineWith Eval.lawful_alike follows hd' (fun _ _ => trivial) start
    exact Report.ofFinished?_of_agree limit agree finished

/-- A function of an infinite number and of a finite one, where `inf` is a variable. -/
theorem evaluate_directly_infinite :
    (∀ name f, ((empty 9).afterLines ["inf = 7", "fn f x => x*2+.5"]).functionOf? name = some f →
      f.body.IsChain (Token.glued · · = false)) ∧
    ((((empty 9).afterLines ["inf = 7", "fn f x => x*2+.5"]).withLimit 5).evaluate
      "(f (1/0)) + f 3").outcome = .ok (some (Numeral.ofWhole "21").value) ∧
    ((((empty 9).afterLines ["inf = 7", "fn f x => x*2+.5"]).withLimit 5).directly
      "(f (1/0)) + f 3").map (fun report => (report.outcome, report.calculator)) =
      some (((((empty 9).afterLines ["inf = 7", "fn f x => x*2+.5"]).withLimit 5).evaluate
          "(f (1/0)) + f 3").outcome,
        ((((empty 9).afterLines ["inf = 7", "fn f x => x*2+.5"]).withLimit 5).evaluate
          "(f (1/0)) + f 3").calculator) := by
  have reachable : Reachable ((empty 9).afterLines ["inf = 7", "fn f x => x*2+.5"]) :=
    ⟨9, ["inf = 7", "fn f x => x*2+.5"], rfl⟩
  have stored : ∀ e ∈ ((empty 9).afterLines ["inf = 7", "fn f x => x*2+.5"]).functionTable.toList,
      e.2.body.IsChain (Token.glued · · = false) := by decide +kernel
  have hg : ∀ name f, ((empty 9).afterLines ["inf = 7", "fn f x => x*2+.5"]).functionOf? name =
      some f → f.body.IsChain (Token.glued · · = false) :=
    fun name f hf => stored (name, f) (Std.ExtTreeMap.mem_toList_iff_getElem?_eq_some.mpr hf)
  exact ⟨hg, by decide +kernel, evaluate_directly reachable hg 5 "(f (1/0)) + f 3"⟩

end Calculator

end LineCalc
