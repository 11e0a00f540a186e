import LineCalc.Proofs.Bodies
import LineCalc.Proofs.Extent
import LineCalc.Proofs.Nesting

/-! # Calls with arguments in parentheses

A call line is the name of a function and arguments, each of them an adequate printing in parentheses.
No token stands between two arguments: an expression that ends before a parenthesis leaves it where it
is, so the next argument is read from there on.

* `Steps.arguments` reads as many arguments as there are parameters, whatever follows them.  If there
  are fewer, the evaluation fails at the end of the line (`Fails.arguments_missing`); if one of them is
  nested too deeply, it fails there (`Fails.arguments_exceeded`).
* The arguments are followed by the evaluation of the body (`invoke`), which reads other tokens.  So the
  line gives what the body gives, and is not done if arguments are left over (`Invoked`,
  `IsCall.invoked`). -/

namespace LineCalc

namespace Printing

/-- The tokens of arguments: each of them in parentheses. -/
def argumentTokens (arguments : List Printing) : List Token :=
  arguments.flatMap fun e => (group e).tokens

/-- The tokens of a call. -/
def callTokens (name : String) (arguments : List Printing) : List Token :=
  .identifier name :: argumentTokens arguments

theorem argumentTokens_cons (e : Printing) (arguments : List Printing) :
    argumentTokens (e :: arguments) = (group e).tokens ++ argumentTokens arguments :=
  List.flatMap_cons

theorem argumentTokens_append (arguments more : List Printing) :
    argumentTokens (arguments ++ more) = argumentTokens arguments ++ argumentTokens more :=
  List.flatMap_append

theorem argumentTokens_eq_nil {arguments : List Printing} :
    argumentTokens arguments = [] ↔ arguments = [] := by
  cases arguments <;> simp [argumentTokens, tokens]

/-- An expression does not go on with an argument. -/
theorem continues_argumentTokens_append (arguments : List Printing) {rest : List Token}
    (h : ∀ t ∈ rest.head?, t.continues = false) :
    ∀ t ∈ (argumentTokens arguments ++ rest).head?, t.continues = false := by
  cases arguments with
  | nil => exact h
  | cons e arguments => simp [argumentTokens, tokens, Token.continues]

theorem continues_argumentTokens (arguments : List Printing) :
    ∀ t ∈ (argumentTokens arguments).head?, t.continues = false := by
  rw [← List.append_nil (argumentTokens arguments)]
  exact continues_argumentTokens_append arguments (by simp)

theorem isChain_argumentTokens (arguments : List Printing) :
    (argumentTokens arguments).IsChain (Token.glued · · = false) := by
  induction arguments with
  | nil => exact .nil
  | cons e arguments ih =>
      have e' : argumentTokens (e :: arguments) =
          .leftParen :: (e.tokens ++ .rightParen :: argumentTokens arguments) := by
        simp [argumentTokens_cons, tokens]
      rw [e']
      exact isChain_cons rfl (isChain_append_cons rfl e.isChain_tokens ih)

/-- The tokens of a call line, with any blanks between them. -/
theorem ofText_of_spaced_call {name : String} (hn : Token.IsName name) {arguments : List Printing}
    {text : String} (h : Token.Spaced (callTokens name arguments) text.toList) :
    Token.ofText text = callTokens name arguments := by
  refine Token.ofText_of_spaced ?_ ?_ h
  · intro t ht
    obtain rfl | ht := List.mem_cons.mp ht
    · exact .identifier hn
    · obtain ⟨e, -, ht⟩ := List.mem_flatMap.mp ht
      exact (group e).tokens_wellFormed t ht
  · refine List.isChain_cons.mpr ⟨?_, isChain_argumentTokens arguments⟩
    intro t ht
    cases arguments with
    | nil => cases ht
    | cons e arguments =>
        cases ht
        exact Token.glued_of_isSymbol (.inr rfl)

end Printing

open Printing

namespace Eval

/-! ### Arguments -/

section Arguments

variable (c : Calculator) (valueOf : String → Float)

/-- The printing of an argument, the names of which stand for their values. -/
structure Readable (e : Printing) : Prop where
  adequate : e.Adequate
  resolves : Resolves [] c valueOf e.tree.names

/-- The machine is about to read arguments. -/
structure AtArguments (es : List Printing) (n : Nat) (m : Machine) (rest : List Token) : Prop where
  calculator : m.calculator = c
  after? : m.cursor.after? = some (argumentTokens es ++ rest)
  budget : (argumentTokens es).length < n
  ends : ∀ t ∈ rest.head?, t.continues = false

variable {c valueOf} {e : Printing} {es : List Printing} {n : Nat} {m : Machine}
  {rest : List Token} {parameters : List String}

namespace AtArguments

variable (h : AtArguments c (e :: es) n m rest)
include h

theorem after?_cons :
    m.cursor.after? = some ((group e).tokens ++ (argumentTokens es ++ rest)) := by
  rw [h.after?, argumentTokens_cons, List.append_assoc]

theorem length_lt : (group e).tokens.length < n ∧ (argumentTokens es).length < n := by
  have budget := h.budget
  rw [argumentTokens_cons, List.length_append] at budget
  omega

theorem next {m' : Machine} (r : ReadTo m (argumentTokens es ++ rest) m') :
    AtArguments c es n m' rest :=
  ⟨r.calculator.trans h.calculator, r.after?, h.length_lt.2, h.ends⟩

/-- The next argument is read if the limit allows it. -/
theorem steps (he : Readable c valueOf e) (hl : m.depth + (e.nesting + 1) < c.limit) :
    Steps (expression n []) m (pure (e.tree.value valueOf)) (argumentTokens es ++ rest) :=
  (reads_of_adequate (.group e) he.adequate he.resolves).sum.whole h.calculator h.after?_cons
    h.length_lt.1 hl (continues_argumentTokens_append es h.ends)

/-- And if not, the evaluation fails there. -/
theorem fails (he : Readable c valueOf e) (hl : c.limit ≤ m.depth + (e.nesting + 1))
    (hd : m.depth ≤ c.limit) : Fails (expression n []) m (.depthExceeded c.limit) :=
  (exceeds_of_adequate (.group e) he.adequate he.resolves).sum.whole h.calculator h.after?_cons
    h.length_lt.1 hl hd (continues_argumentTokens_append es h.ends)

end AtArguments

/-- Reading an argument leaves the levels that there are for the others. -/
theorem ReadTo.levels {m' : Machine} (r : ReadTo m rest m')
    (hl : ∀ e' ∈ e :: es, m.depth + (e'.nesting + 1) < c.limit) :
    ∀ e' ∈ es, m'.depth + (e'.nesting + 1) < c.limit := by
  intro e' mem
  rw [r.depth]
  exact hl e' (List.mem_cons_of_mem _ mem)

/-- One argument is read for each parameter. -/
theorem Steps.arguments (he : ∀ e ∈ es, Readable c valueOf e)
    (hlen : parameters.length = es.length) (hm : AtArguments c es n m rest)
    (hl : ∀ e ∈ es, m.depth + (e.nesting + 1) < c.limit) :
    Steps (arguments (expression n) parameters) m
      (pure (parameters.zip (es.map (·.tree.value valueOf)))) rest := by
  induction es generalizing parameters m with
  | nil =>
      obtain rfl := List.length_eq_zero_iff.mp hlen
      exact Steps.refl hm.after?
  | cons e es ih =>
      obtain _ | ⟨parameter, parameters⟩ := parameters
      · cases hlen
      · have first := hm.steps (he e List.mem_cons_self) (hl e List.mem_cons_self)
        refine (first.bind_pure _).trans fun r => ?_
        have others := ih (fun e' mem => he e' (List.mem_cons_of_mem _ mem))
          (Nat.succ.inj hlen) (hm.next r) (r.levels hl)
        exact others.bind_pure _

/-- There is no expression at the end. -/
theorem Fails.expression_end (ha : m.cursor.after? = some []) (hd : m.depth < m.calculator.limit)
    (hn : 0 < n) : Fails (Eval.expression n []) m .endOfInput := by
  obtain ⟨n, rfl⟩ : ∃ j, n = j + 1 := ⟨n - 1, by omega⟩
  refine Fails.nested ?_ hd
  have noAssignment : level (Eval.expression n) n [] { m with depth := m.depth + 1 } =
      sum (productAt [] n) n { m with depth := m.depth + 1 } := by
    rw [level_eq, levelWith, bind_apply, atAssignment_apply]
    simp only [Cursor.remaining, ha, Option.getD_some, beginsAssignment]
    rfl
  have operand : Fails (operandAt [] n) { m with depth := m.depth + 1 } .endOfInput :=
    Fails.operand_end ha
  obtain ⟨m', e, same⟩ := (operand.bind _).bind (sumFrom (productAt [] n) n)
  exact ⟨m', noAssignment.trans e, same⟩

/-- If there are fewer arguments than parameters, the end is reached. -/
theorem Fails.arguments_missing (he : ∀ e ∈ es, Readable c valueOf e)
    (hlen : es.length < parameters.length) (hm : AtArguments c es n m [])
    (hl : ∀ e ∈ es, m.depth + (e.nesting + 1) < c.limit) (hd : m.depth < c.limit) :
    Fails (Eval.arguments (Eval.expression n) parameters) m .endOfInput := by
  induction es generalizing parameters m with
  | nil =>
      obtain _ | ⟨parameter, parameters⟩ := parameters
      · cases hlen
      · have hd' : m.depth < m.calculator.limit := by rwa [hm.calculator]
        exact (Fails.expression_end hm.after? hd' hm.budget).bind _
  | cons e es ih =>
      obtain _ | ⟨parameter, parameters⟩ := parameters
      · cases hlen
      · have first := hm.steps (he e List.mem_cons_self) (hl e List.mem_cons_self)
        refine (first.bind_pure _).fails fun r => ?_
        have others := ih (fun e' mem => he e' (List.mem_cons_of_mem _ mem))
          (Nat.lt_of_succ_lt_succ hlen) (hm.next r) (r.levels hl) (r.depth ▸ hd)
        exact others.bind _

/-- The first argument that is nested too deeply and has a parameter ends the evaluation. -/
theorem Fails.arguments_exceeded (he : ∀ e ∈ es, Readable c valueOf e)
    (hm : AtArguments c es n m rest) (hd : m.depth ≤ c.limit)
    (hx : ∃ e ∈ es.take parameters.length, c.limit ≤ m.depth + (e.nesting + 1)) :
    Fails (Eval.arguments (Eval.expression n) parameters) m (.depthExceeded c.limit) := by
  induction es generalizing parameters m with
  | nil => simp at hx
  | cons e es ih =>
      obtain _ | ⟨parameter, parameters⟩ := parameters
      · simp at hx
      · have readable := he e List.mem_cons_self
        by_cases hl : m.depth + (e.nesting + 1) < c.limit
        · refine ((hm.steps readable hl).bind_pure _).fails fun {m'} r => ?_
          have depth := r.depth
          have later : ∃ e ∈ es.take parameters.length,
              c.limit ≤ m'.depth + (e.nesting + 1) := by
            obtain ⟨e', mem, exceeded⟩ := hx
            rw [List.length_cons, List.take_succ_cons, List.mem_cons] at mem
            obtain rfl | mem := mem
            · omega
            · exact ⟨e', mem, by omega⟩
          have others := ih (fun e' mem => he e' (List.mem_cons_of_mem _ mem)) (hm.next r)
            (by omega) later
          exact others.bind _
        · exact (hm.fails readable (by omega) hd).bind _

end Arguments

/-! ### The body -/

/-- The body of a function, with values for its parameters. -/
def invoke (deeper : Bindings → Eval Float) (name : String) (f : Definition) (bindings : Bindings) :
    Eval Float := do
  note (.calling name bindings)
  let tokens ← lex f.joined
  within tokens (deeper bindings)

/-- A call reads the arguments and then evaluates the body. -/
theorem call_eq (deeper : Bindings → Eval Float) (name : String) (f : Definition) :
    call deeper name f = arguments deeper f.parameters >>= invoke deeper name f := rfl

theorem Blind.invoke (deeper : Bindings → Eval Float) (name : String) (f : Definition)
    (bindings : Bindings) : Blind (invoke deeper name f bindings) :=
  (note _).bind fun _ => lex_within _ _

/-- The results are the same and so is what is remembered; `rest` is still to be read. -/
inductive Passes (rest : List Token) :
    EStateM.Result Stop Machine Float → EStateM.Result Stop Machine Float → Prop
  | ok {x : Float} {m m' : Machine} (calculator : m'.calculator = m.calculator)
      (after? : m'.cursor.after? = some rest) : Passes rest (.ok x m) (.ok x m')
  | error {s : Stop} {m m' : Machine} (calculator : m'.calculator = m.calculator) :
      Passes rest (.error s m) (.error s m')

section Call

variable {c : Calculator} {name : String} {f : Definition} {n : Nat} {m : Machine} {rest : List Token}

/-- What follows the operand with which a sum begins. -/
def afterOperand (n : Nat) (x : Value) : Eval Float :=
  (productFrom (operandAt [] n) n x >>= fun y => ofExcept y.toNumber) >>= sumFrom (productAt [] n) n

theorem sum_eq (n : Nat) : sum (productAt [] n) n = operandAt [] n >>= afterOperand n :=
  bind_assoc _ _ _

/-- Nothing follows where an expression does not go on. -/
theorem Steps.afterOperand (x : Float) (hn : 0 < n) (ha : m.cursor.after? = some rest)
    (hr : ∀ t ∈ rest.head?, t.continues = false) :
    Steps (afterOperand n (.number x)) m (pure x) rest := by
  obtain ⟨j, rfl⟩ : ∃ j, n = j + 1 := ⟨n - 1, by omega⟩
  have product : Steps (productFrom (operandAt [] (j + 1)) (j + 1) (.number x)) m (pure (.number x)) rest :=
    productFrom_ends _ ha (ofToken?_head? hr)
  refine ((product.bind_pure fun y => ofExcept y.toNumber).bind_pure _).trans fun r => ?_
  exact sumFrom_ends x r.after? hr

/-- A sum of one operand has the value of the operand. -/
theorem passes_sum {z : Eval Float} (hz : Blind z) (hn : 0 < n)
    (h : Steps (operandAt [] n) m (do return .number (← z) : Eval Value) rest)
    (hr : ∀ t ∈ rest.head?, t.continues = false) :
    ∃ m₁, ReadTo m rest m₁ ∧ Passes rest (z m₁) (sum (productAt [] n) n m) := by
  obtain ⟨m₁, r, e⟩ := h.bind (afterOperand n)
  refine ⟨m₁, r, ?_⟩
  rw [sum_eq, e, bind_apply, bind_apply]
  cases value : z m₁ with
  | error s m₂ => exact .error rfl
  | ok x m₂ =>
      have ha : m₂.cursor.after? = some rest := by
        rw [hz.cursor_eq value]
        exact r.after?
      obtain ⟨m₃, r₃, e₃⟩ := Steps.afterOperand x hn ha hr
      show Passes rest (.ok x m₂) (afterOperand n (.number x) m₂)
      rw [e₃]
      exact .ok r₃.calculator r₃.after?

/-- The name of a function with arguments is no assignment. -/
theorem level_call (name : String) (es : List Printing) (ha : m.cursor.after? = some (callTokens name es)) :
    level (expression n) n [] m = sum (productAt [] n) n m := by
  have begins : beginsAssignment (callTokens name es) = false := by
    cases es with
    | nil => rfl
    | cons e es => rfl
  rw [level_eq, levelWith, bind_apply, atAssignment_apply]
  simp only [Cursor.remaining, ha, Option.getD_some, begins]
  rfl

/-- The operand with which a call line begins is the call. -/
theorem Steps.operand_call {row : List Token} (stored : m.calculator.functionOf? name = some f)
    (ha : m.cursor.after? = some (.identifier name :: row)) :
    Steps (operandAt [] n) m (do return .number (← call (expression n) name f) : Eval Value) row := by
  refine (Steps.operand_name ha).trans fun {m'} r => ⟨m', .refl r.after?, ?_⟩
  apply resolve_of_function
  rw [r.calculator]
  exact stored

variable (stored : c.functionOf? name = some f) {es : List Printing} (hc : m.calculator = c)
  (ha : m.cursor.after? = some (callTokens name es)) (hd : m.depth < c.limit)
include stored hc ha hd

/-- Where the arguments are read, the value of a call is that of the body. -/
theorem passes_expression (hn : 0 < n) {bindings : Bindings}
    (hr : ∀ t ∈ rest.head?, t.continues = false)
    (read : ∀ {m'}, ReadTo { m with depth := m.depth + 1 } (argumentTokens es) m' →
      Steps (arguments (expression n) f.parameters) m' (pure bindings) rest) :
    ∃ m₁, ReadTo { m with depth := m.depth + 1 } rest m₁ ∧
      Passes rest (invoke (expression n) name f bindings m₁) (expression (n + 1) [] m) := by
  have operand : Steps (operandAt [] n) { m with depth := m.depth + 1 }
      (do return .number (← invoke (expression n) name f bindings) : Eval Value) rest := by
    refine (Steps.operand_call (m := { m with depth := m.depth + 1 }) (hc ▸ stored) ha).trans fun r => ?_
    exact ((read r).bind_pure (invoke (expression n) name f)).bind _
  obtain ⟨m₁, r, passes⟩ := passes_sum (Blind.invoke _ name f bindings) hn operand hr
  refine ⟨m₁, r, ?_⟩
  have inner := level_call (m := { m with depth := m.depth + 1 }) (n := n) name es ha
  rw [← inner] at passes
  rw [expression, nested_of_lt _ (hc ▸ hd)]
  generalize invoke (expression n) name f bindings m₁ = value at passes
  generalize level (expression n) n [] { m with depth := m.depth + 1 } = result at passes
  cases passes with
  | ok calculator after? => exact .ok calculator after?
  | error calculator => exact .error calculator

/-- Where the call fails, the expression does. -/
theorem Fails.expression_call {fault : Fault}
    (failed : ∀ {m'}, ReadTo { m with depth := m.depth + 1 } (argumentTokens es) m' →
      Fails (call (Eval.expression n) name f) m' fault) :
    Fails (Eval.expression (n + 1) []) m fault := by
  refine Fails.nested ?_ (hc ▸ hd)
  have operand : Fails (operandAt [] n) { m with depth := m.depth + 1 } fault := by
    refine (Steps.operand_call (m := { m with depth := m.depth + 1 }) (hc ▸ stored) ha).fails fun r => ?_
    exact (failed r).bind _
  obtain ⟨m', e, same⟩ := operand.bind (afterOperand n)
  have inner := level_call (m := { m with depth := m.depth + 1 }) (n := n) name es ha
  exact ⟨m', inner.trans (by rw [sum_eq, e]), same⟩

end Call

/-! ### Bodies -/

section Body

variable {deeper : Bindings → Eval Float} {name : String} {f : Definition} {bindings : Bindings}
  {m : Machine} {rest : List Token}

/-- The machine is about to read the body, where `m` is the machine at the call. -/
structure AtBody (f : Definition) (m m' : Machine) : Prop where
  calculator : m'.calculator = m.calculator
  depth : m'.depth = m.depth
  after? : m'.cursor.after? = some (Token.ofText f.joined)

theorem Steps.invoke {x : Float} (left : List Token) (ha : m.cursor.after? = some rest)
    (h : ∀ {m'}, AtBody f m m' → Steps (deeper bindings) m' (pure x) left) :
    Steps (invoke deeper name f bindings) m (pure x) rest := by
  refine ((Steps.note ha rfl).bind_pure _).trans fun r₁ => ?_
  refine ((Steps.lex _ r₁.after?).bind_pure _).trans fun r₂ => ?_
  have r := r₁.trans r₂
  exact Steps.within r₂.after? (h ⟨r.calculator, r.depth, rfl⟩)

theorem Fails.invoke {fault : Fault} (ha : m.cursor.after? = some rest)
    (h : ∀ {m'}, AtBody f m m' → Fails (deeper bindings) m' fault) :
    Fails (invoke deeper name f bindings) m fault := by
  refine ((Steps.note ha rfl).bind_pure _).fails fun r₁ => ?_
  refine ((Steps.lex _ r₁.after?).bind_pure _).fails fun r₂ => ?_
  have r := r₁.trans r₂
  exact Fails.within (h ⟨r.calculator, r.depth, rfl⟩)

/-- Where no level is left, no call is evaluated. -/
theorem Fails.call_refused {n : Nat} (hn : 0 < n) (ha : m.cursor.after? = some rest)
    (hd : ¬ m.depth < m.calculator.limit) :
    Fails (call (Eval.expression n) name f) m (.depthExceeded m.calculator.limit) := by
  rw [call_eq]
  cases f.parameters with
  | nil =>
      refine ((Steps.refl ha).bind_pure _).fails fun {m'} r => ?_
      refine Fails.invoke r.after? fun {m''} b => ?_
      have limit : m''.calculator.limit = m.calculator.limit := by rw [b.calculator, r.calculator]
      have refused : ¬ m''.depth < m''.calculator.limit := by rwa [b.depth, r.depth, limit]
      exact limit ▸ Fails.expression hn _ refused
  | cons parameter parameters => exact ((Fails.expression hn [] hd).bind _).bind _

end Body

end Eval

namespace Calculator

open Eval (Readable AtArguments ReadTo Steps Fails)

/-- The line is the call of a stored function with arguments in parentheses. -/
structure IsCall (c : Calculator) (text : String) (name : String) (f : Definition)
    (es : List Printing) : Prop where
  stored : c.functionOf? name = some f
  proper : name ≠ Definition.keyword
  tokens : Token.ofText text = callTokens name es

/-- A line with the name of a stored function and arguments, with any blanks between the tokens. -/
theorem Reachable.isCall {c : Calculator} (hc : Reachable c) {name : String} {f : Definition}
    (stored : c.functionOf? name = some f) (proper : name ≠ Definition.keyword) {es : List Printing}
    {text : String} (ht : Token.Spaced (callTokens name es) text.toList) : IsCall c text name f es :=
  ⟨stored, proper, ofText_of_spaced_call (hc.isName stored) ht⟩

/-- Printings the names of which are variables. -/
theorem Reachable.readable {c : Calculator} (hc : Reachable c) {es : List Printing}
    (he : ∀ e ∈ es, e.Adequate) {valueOf : String → Float}
    (hv : ∀ e ∈ es, ∀ x ∈ e.tree.names, c.valueOf? x = some (valueOf x)) :
    ∀ e ∈ es, Readable c valueOf e :=
  fun e mem => ⟨he e mem, Eval.resolves_variables hc.disjoint (hv e mem)⟩

/-- Whether the limit allows arguments and, in their place, a body nested as deeply as `inner`. -/
def Allows (limit : Nat) (es : List Printing) (inner : Nat) : Prop :=
  (∀ e ∈ es, e.nesting + 2 < limit) ∧ inner + 1 < limit

instance (limit : Nat) (es : List Printing) (inner : Nat) : Decidable (Allows limit es inner) :=
  inferInstanceAs (Decidable (_ ∧ _))

/-- The budget for what a line has inside its expression. -/
def innerBudget (c : Calculator) (text : String) : Nat := c.limit + text.length + c.bodyLength + 3

theorem budget_eq (c : Calculator) (text : String) : c.budget text = c.innerBudget text + 1 := rfl

/-- The line gives what the body gives on the machine `m`, unless `rest` is left over. -/
structure Invoked (c : Calculator) (text : String) (name : String) (f : Definition)
    (bindings : Eval.Bindings) (rest : List Token) (m : Machine) : Prop where
  calculator : m.calculator = c
  depth : m.depth = 1
  after? : m.cursor.after? = some rest
  assignments : Record.assignments m.trace.toList = []
  ok : ∀ {x m'}, Eval.invoke (Eval.expression (c.innerBudget text)) name f bindings m = .ok x m' →
    (c.evaluate text).outcome = (if rest = [] then .ok (some x) else .error (.trailingTokens text)) ∧
    (c.evaluate text).calculator = m'.calculator
  error : ∀ {s m'}, Eval.invoke (Eval.expression (c.innerBudget text)) name f bindings m = .error s m' →
    ∃ fault, s = .fault fault ∧ (c.evaluate text).outcome = .error fault ∧
      (c.evaluate text).calculator = m'.calculator

namespace IsCall

variable {c : Calculator} {text name : String} {f : Definition} {es : List Printing}
  {valueOf : String → Float} (h : IsCall c text name f es)
include h

theorem reading_after? : (c.reading text).cursor.after? = some (callTokens name es) :=
  congrArg some h.tokens

theorem not_keyword : Token.identifier name ≠ .identifier Definition.keyword :=
  fun same => h.proper (Token.identifier.inj same)

theorem length_lt : (argumentTokens es).length < c.innerBudget text := by
  have hlen := Token.length_ofText_le text
  rw [h.tokens, callTokens, List.length_cons] at hlen
  unfold innerBudget
  omega

/-- The first arguments are about to be read, with the others after them. -/
theorem atArguments {first others : List Printing} (he : es = first ++ others) {m : Machine}
    (r : ReadTo { c.reading text with depth := 1 } (argumentTokens es) m) :
    AtArguments c first (c.innerBudget text) m (argumentTokens others) := by
  have hlen := h.length_lt
  subst he
  rw [argumentTokens_append, List.length_append] at hlen
  refine ⟨r.calculator, ?_, by omega, continues_argumentTokens others⟩
  rw [← argumentTokens_append]
  exact r.after?

/-- The line fails as the call does. -/
theorem fails {fault : Fault} (hl : 0 < c.limit)
    (failed : ∀ {m}, ReadTo { c.reading text with depth := 1 } (argumentTokens es) m →
      Fails (Eval.call (Eval.expression (c.innerBudget text)) name f) m fault) :
    (c.evaluate text).outcome = .error fault ∧ (c.evaluate text).calculator = c :=
  evaluate_of_expression_fails h.tokens h.not_keyword
    (Fails.expression_call h.stored rfl h.reading_after? hl failed)

/-- A call needs more than one level. -/
theorem refused (hl : c.limit ≤ 1) :
    (c.evaluate text).outcome = .error (.depthExceeded c.limit) ∧ (c.evaluate text).calculator = c := by
  by_cases hpos : 0 < c.limit
  · refine h.fails hpos fun {m} r => ?_
    have limit : m.calculator.limit = c.limit := congrArg limit r.calculator
    have noLevel : ¬ m.depth < m.calculator.limit := by
      rw [limit, r.depth]
      exact Nat.not_lt.mpr hl
    exact limit ▸ Fails.call_refused (Nat.succ_pos _) r.after? noLevel
  · exact evaluate_of_expression_fails h.tokens h.not_keyword
      (Fails.expression (Nat.succ_pos _) [] hpos)

variable (he : ∀ e ∈ es, Readable c valueOf e)
include he

/-- The limit is exceeded by an argument that is read, or no level is left for the body. -/
theorem exceeded (hl : ¬ Allows c.limit (es.take f.parameters.length) 0) :
    (c.evaluate text).outcome = .error (.depthExceeded c.limit) ∧ (c.evaluate text).calculator = c := by
  by_cases more : 1 < c.limit
  · refine h.fails (by omega) fun {m} r => ?_
    have depth : m.depth = 1 := r.depth
    have ready : AtArguments c es (c.innerBudget text) m [] :=
      h.atArguments (List.append_nil es).symm r
    have nested : ∃ e ∈ es.take f.parameters.length, c.limit ≤ m.depth + (e.nesting + 1) := by
      by_contra none
      refine hl ⟨fun e mem => ?_, more⟩
      by_contra exceeded
      exact none ⟨e, mem, by omega⟩
    exact (Fails.arguments_exceeded he ready (by omega) nested).bind _
  · exact h.refused (by omega)

/-- There are fewer arguments than parameters. -/
theorem missing (hlen : es.length < f.parameters.length) (hl : Allows c.limit es 0) :
    (c.evaluate text).outcome = .error .endOfInput ∧ (c.evaluate text).calculator = c := by
  obtain ⟨levels, hl⟩ := hl
  refine h.fails (by omega) fun {m} r => ?_
  have depth : m.depth = 1 := r.depth
  have ready : AtArguments c es (c.innerBudget text) m [] :=
    h.atArguments (List.append_nil es).symm r
  have levels' : ∀ e ∈ es, m.depth + (e.nesting + 1) < c.limit := by
    intro e mem
    have := levels e mem
    omega
  have read := Fails.arguments_missing he hlen ready levels' (by omega)
  exact read.bind _

/-- There are arguments for all parameters. -/
theorem invoked (hlen : f.parameters.length ≤ es.length)
    (hl : Allows c.limit (es.take f.parameters.length) 0) :
    ∃ m, Invoked c text name f
      (f.parameters.zip ((es.take f.parameters.length).map (·.tree.value valueOf)))
      (argumentTokens (es.drop f.parameters.length)) m := by
  obtain ⟨levels, hl⟩ := hl
  have parts := (List.take_append_drop f.parameters.length es).symm
  have read {m : Machine} (r : ReadTo { c.reading text with depth := 1 } (argumentTokens es) m) :
      Steps (Eval.arguments (Eval.expression (c.innerBudget text)) f.parameters) m
        (pure (f.parameters.zip ((es.take f.parameters.length).map (·.tree.value valueOf))))
        (argumentTokens (es.drop f.parameters.length)) := by
    refine Steps.arguments (fun e mem => he e (List.mem_of_mem_take mem)) ?_ (h.atArguments parts r) ?_
    · rw [List.length_take, min_eq_left hlen]
    · intro e mem
      have depth : m.depth = 1 := r.depth
      have := levels e mem
      omega
  have hpos : 0 < c.limit := Nat.zero_lt_of_lt hl
  have hn : 0 < c.innerBudget text := Nat.succ_pos _
  obtain ⟨m, r, passes⟩ := Eval.passes_expression h.stored rfl h.reading_after? hpos hn
    (continues_argumentTokens _) read
  rw [← budget_eq] at passes
  refine ⟨m, r.calculator, r.depth, r.after?, r.assignments, ?_, ?_⟩
  · intro x m' value
    rw [value] at passes
    generalize result : Eval.expression (c.budget text) [] (c.reading text) = run at passes
    cases passes with
    | ok calculator after? =>
        rename_i m₁
        obtain ⟨outcome, same⟩ := evaluate_of_expression_ok h.tokens h.not_keyword result
        have whole : m₁.cursor.remainingCount = 0 ↔ argumentTokens (es.drop f.parameters.length) = [] := by
          simp [Cursor.remainingCount, after?]
        rw [outcome, same, calculator, if_congr whole rfl rfl]
        exact ⟨rfl, rfl⟩
  · intro s m' value
    rw [value] at passes
    generalize result : Eval.expression (c.budget text) [] (c.reading text) = run at passes
    cases passes with
    | error calculator =>
        obtain ⟨fault, stop, outcome, same⟩ :=
          evaluate_of_expression_error h.tokens h.not_keyword result
        exact ⟨fault, stop, outcome, same.trans calculator⟩

end IsCall

end Calculator

end LineCalc
