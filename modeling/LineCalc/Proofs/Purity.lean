import LineCalc.Proofs.Arity

/-! # Parameters hide variables

A body in which neither `=` nor the name of a function stands is a *formula*: it assigns nothing and calls
nothing.  All it looks at in the calculator are the variables whose names it mentions and which no
parameter hides.  So with other values for all other variables it runs in the same way, whether it is
well formed or not, and leaves the calculator as it is (`Impartial`, `Impartial.expression`).

A parameter's value is written out and read again where no parameters are known.  Its text is a formula
without any names if the value is finite, so no variable matters there either.

For a call whose arguments are closed this means that it is a function of the values of its arguments, and
of those variables that its body mentions as such (`evaluate_pure`). -/

namespace LineCalc

open Printing

/-- No `=` is among the tokens, and no other identifiers than the names. -/
structure Token.IsFormula (names : String → Prop) (tokens : List Token) : Prop where
  equals : .equals ∉ tokens
  mention : MentionOnly names tokens

/-- The machine with another calculator. -/
def Machine.withCalculator (m : Machine) (c : Calculator) : Machine := { m with calculator := c }

/-- Nothing that a formula over the names looks at tells the calculators apart. -/
structure Calculator.Indistinct (names : String → Prop) (bindings : Eval.Bindings)
    (c c' : Calculator) : Prop where
  limit : c'.limit = c.limit
  noFunction : ∀ x, names x → c.functionOf? x = none ∧ c'.functionOf? x = none
  valueOf? : ∀ x, names x → bindings.lookup x = none → c'.valueOf? x = c.valueOf? x

theorem Calculator.Indistinct.refl {names : String → Prop} {bindings : Eval.Bindings}
    {c c' : Calculator} (h : Indistinct names bindings c c') : Indistinct names bindings c c :=
  ⟨rfl, fun x hx => ⟨(h.noFunction x hx).1, (h.noFunction x hx).1⟩, fun _ _ _ => rfl⟩

theorem Number.isFormula_text {x : Float} (h : IsFinite x) (names : String → Prop) :
    Token.IsFormula names (Token.ofText (text x)) := by
  obtain ⟨negative, p, shape⟩ := h
  refine ⟨equals_not_mem_ofText_text x, fun name mem => ?_⟩
  rw [ofText_finite shape] at mem
  cases negative <;> simp at mem

/-- An argument without variables, the value of which is finite. -/
structure Printing.Constant (e : Printing) : Prop where
  adequate : e.Adequate
  noNames : e.tree.names = []
  finite : Number.IsFinite (e.tree.value fun _ => 0)

theorem Printing.constant_literal {l : Literal} (h : Number.IsFinite l.numeral.value) :
    (literal l).Constant := ⟨trivial, rfl, h⟩

theorem Printing.constant_negated {l : Literal} (h : Number.IsFinite l.numeral.value) :
    (negated l).Constant := ⟨trivial, rfl, h.neg⟩

namespace Eval

variable {α β : Type}

/-- On a formula, the evaluation does the same with every calculator that is not told apart from the
present one, and leaves the calculator as it is. -/
structure Impartial (names : String → Prop) (bindings : Bindings) (x : Eval α) : Prop where
  orderly : Orderly x
  run : ∀ {m : Machine} {c' : Calculator}, Token.IsFormula names m.cursor.tokens →
    m.calculator.Indistinct names bindings c' →
    x (m.withCalculator c') = onMachine (·.withCalculator c') (x m)

/-- The values of the parameters are finite. -/
def Finite (bindings : Bindings) : Prop := ∀ p ∈ bindings, Number.IsFinite p.2

namespace Impartial

variable {names : String → Prop} {bindings : Bindings}

/-- The calculator is as before: it may be taken for the other one. -/
theorem calculator_eq {x : Eval α} (h : Impartial names bindings x) {m m' : Machine} {a : α}
    {c' : Calculator} (formula : Token.IsFormula names m.cursor.tokens)
    (same : m.calculator.Indistinct names bindings c') (e : x m = .ok a m') :
    m'.calculator = m.calculator := by
  have run := h.run formula same.refl
  rw [show m.withCalculator m.calculator = m from rfl, e] at run
  have kept : m' = m'.withCalculator m.calculator := (EStateM.Result.ok.inj run).2
  rw [kept]
  rfl

theorem bind {x : Eval α} {f : α → Eval β} (hx : Impartial names bindings x)
    (hf : ∀ a, Impartial names bindings (f a)) : Impartial names bindings (x >>= f) := by
  constructor
  · exact hx.orderly.bind fun a => (hf a).orderly
  · intro m c' formula same
    rw [bind_apply, bind_apply, hx.run formula same]
    cases e : x m with
    | error s m' => rfl
    | ok a m' =>
        have tokens := ((hx.orderly m).effect_of_ok e).tokens
        have calculator := hx.calculator_eq formula same e
        exact (hf a).run (tokens.symm ▸ formula) (calculator.symm ▸ same)

/-! ### Single steps -/

theorem pure (a : α) : Impartial names bindings (pure a : Eval α) := ⟨.pure a, fun _ _ => rfl⟩

theorem throw (s : Stop) : Impartial names bindings (throw s : Eval α) := ⟨.throw s, fun _ _ => rfl⟩

theorem fail (fault : Fault) : Impartial names bindings (fail fault : Eval α) := throw _

/-- A look at what the calculators have in common. -/
theorem look {f : Machine → α} (h : ∀ m c', f (m.withCalculator c') = f m) :
    Impartial names bindings (look f) := by
  refine ⟨.look f, fun {m c'} _ _ => ?_⟩
  rw [Eval.look, Eval.look, h]
  rfl

theorem read : Impartial names bindings read := by
  refine ⟨.read, fun {m c'} _ _ => ?_⟩
  cases e : m.cursor.next with
  | error fault => rw [read_of_error e, read_of_error (m := m.withCalculator c') e]; rfl
  | ok next => rw [read_of_next e, read_of_next (m := m.withCalculator c') e]; rfl

/-- An identifier that comes next is one of the names. -/
theorem peek_bind {f : Option Token → Eval α}
    (h : ∀ t, Token.MentionOnly names t.toList → Impartial names bindings (f t))
    (ho : ∀ t, Orderly (f t)) : Impartial names bindings (peek >>= f) := by
  refine ⟨Orderly.peek.bind ho, fun {m c'} formula same => ?_⟩
  rw [bind_apply, bind_apply]
  cases e : m.cursor.next with
  | error fault => rw [peek_of_error e, peek_of_error (m := m.withCalculator c') e]; rfl
  | ok next =>
      obtain ⟨t, d⟩ := next
      rw [peek_of_next e, peek_of_next (m := m.withCalculator c') e]
      refine (h t fun name mem => formula.mention name ?_).run formula same
      have unread : .identifier name ∈ m.cursor.remaining := by
        rw [Cursor.remaining_of_next e]
        exact List.mem_append_left _ mem
      exact List.mem_append_right _ unread

theorem peek : Impartial names bindings peek := by
  have h : Impartial names bindings (Eval.peek >>= Pure.pure) :=
    peek_bind (fun t _ => pure t) fun t => .pure t
  rwa [bind_pure] at h

theorem nested {x : Eval α} (h : Impartial names bindings x) :
    Impartial names bindings (nested x) := by
  refine ⟨h.orderly.nested, fun {m c'} formula same => ?_⟩
  by_cases hd : m.depth < m.calculator.limit
  · have hd' : (m.withCalculator c').depth < (m.withCalculator c').calculator.limit := by
      show m.depth < c'.limit
      rwa [same.limit]
    have run := h.run (m := { m with depth := m.depth + 1 }) formula same
    rw [nested_of_lt x hd, nested_of_lt x hd']
    change onMachine _ (x (Machine.withCalculator { m with depth := m.depth + 1 } c')) = _
    rw [run]
    cases x { m with depth := m.depth + 1 } <;> rfl
  · have hd' : ¬ (m.withCalculator c').depth < (m.withCalculator c').calculator.limit := by
      show ¬ m.depth < c'.limit
      rwa [same.limit]
    rw [nested_of_ge x hd, nested_of_ge x hd']
    show _ = EStateM.Result.error _ _
    rw [show (m.withCalculator c').calculator.limit = m.calculator.limit from same.limit]
    rfl

/-- With other tokens to read, what the present ones are does not matter. -/
theorem within_run {x : Eval α} (h : Impartial names bindings x) {tokens : List Token}
    (formula : Token.IsFormula names tokens) {m : Machine} {c' : Calculator}
    (same : m.calculator.Indistinct names bindings c') :
    within tokens x (m.withCalculator c') = onMachine (·.withCalculator c') (within tokens x m) := by
  have run := h.run (m := { m with cursor := .ofTokens tokens }) formula same
  rw [within_apply, within_apply]
  change onMachine _ (x (Machine.withCalculator { m with cursor := .ofTokens tokens } c')) = _
  rw [run]
  cases x { m with cursor := .ofTokens tokens } <;> rfl

/-! ### The levels of the grammar -/

theorem tokenCongruence : TokenCongruence (Both fun {_} => Impartial names bindings) :=
  Both.tokenCongruence (Both.congruence pure bind (fun _ => fail _) read) peek (look fun _ _ => rfl)

theorem operand {group : Eval Float} {resolve : String → Eval Value}
    (hg : Impartial names bindings group) (ho : ∀ name, Orderly (resolve name))
    (hr : ∀ name, names name → Impartial names bindings (resolve name)) :
    Impartial names bindings (operand group resolve) := by
  have skip : Impartial names bindings (discard Eval.read) := tokenCongruence.skip.1
  rw [operand_eq]
  apply tokenCongruence.readMinus.1.bind
  intro negative
  apply peek_bind
  · intro t ht
    split
    · exact skip.bind fun _ => pure _
    · exact skip.bind fun _ => hr _ (ht _ (List.mem_singleton_self _))
    · exact skip.bind fun _ => hg.bind fun x => skip.bind fun _ => pure _
    · exact fail _
    · exact skip.bind fun _ => fail _
  · intro t
    split
    · exact Orderly.read.discard.bind fun _ => .pure _
    · exact Orderly.read.discard.bind fun _ => ho _
    · exact Orderly.read.discard.bind fun _ => hg.orderly.bind fun x =>
        Orderly.read.discard.bind fun _ => .pure _
    · exact .fail _
    · exact Orderly.read.discard.bind fun _ => .fail _

theorem sum {operand : Eval Value} (h : Impartial names bindings operand) (n : Nat) :
    Impartial names bindings (sum (product operand n) n) := by
  have product := tokenCongruence.product ⟨throw _, throw _⟩ ⟨h, h⟩ n
  exact (tokenCongruence.sum ⟨throw _, throw _⟩ product n).1

section Levels

variable {deeper : Bindings → Eval Float} (ho : ∀ bindings, Orderly (deeper bindings))
  (h : ∀ {names bindings}, Finite bindings → Impartial names bindings (deeper bindings))
include ho h

/-- The text of a finite number mentions no names, so nothing is told apart while it is read. -/
theorem reread {x : Float} (hx : Number.IsFinite x) : Impartial names bindings (reread deeper x) := by
  refine ⟨.reread ho x, fun {m c'} _ same => ?_⟩
  have read : Impartial (fun _ => False) [] (Eval.operand (deeper []) (resolveGlobal deeper)) :=
    operand (h nofun) (Orderly.resolveGlobal ho) nofun
  have blind : m.calculator.Indistinct (fun _ => False) [] c' := ⟨same.limit, nofun, nofun⟩
  exact read.within_run (Number.isFormula_text hx _)
    (m := (m.note (.reread (Number.text x))).note (.lexed (Number.text x) _)) blind

/-- A name that is no function and no parameter is looked up; that of a parameter is not. -/
theorem resolve (finite : Finite bindings) {name : String} (hn : names name) :
    Impartial names bindings (resolve deeper bindings name) := by
  refine ⟨.resolve ho bindings name, fun {m c'} formula same => ?_⟩
  obtain ⟨noFunction, noFunction'⟩ := same.noFunction name hn
  have noFunction'' : (m.withCalculator c').calculator.functionOf? name = none := noFunction'
  cases value : bindings.lookup name with
  | some x =>
      obtain ⟨before, after, split, -⟩ := List.lookup_eq_some_iff.mp value
      have hx : Number.IsFinite x := finite (name, x) (split ▸ by simp)
      have parameter (m : Machine) (hf : m.calculator.functionOf? name = none) :
          Eval.resolve deeper bindings name m = Eval.reread deeper x m := by
        simp only [Eval.resolve, bind_apply, get_apply, hf, value]
      rw [parameter m noFunction, parameter _ noFunction'']
      exact (reread ho h hx).run formula same
  | none =>
      have global (m : Machine) (hf : m.calculator.functionOf? name = none) :
          Eval.resolve deeper bindings name m =
            .ok ((m.calculator.valueOf? name).elim (.unresolved name) .number) m := by
        simp only [Eval.resolve, resolveGlobal, bind_apply, get_apply, hf, value]
        cases m.calculator.valueOf? name <;> rfl
      rw [global m noFunction, global _ noFunction'']
      rw [show (m.withCalculator c').calculator.valueOf? name = m.calculator.valueOf? name from
        same.valueOf? name hn value]
      rfl

/-- A formula is no assignment. -/
theorem level (finite : Finite bindings) (n : Nat) : Impartial names bindings (level deeper n bindings) := by
  refine ⟨.level ho n bindings, fun {m c'} formula same => ?_⟩
  have isSum {m : Machine} (formula : Token.IsFormula names m.cursor.tokens) :
      Eval.level deeper n bindings m =
        Eval.sum (Eval.product (Eval.operand (deeper bindings) (Eval.resolve deeper bindings)) n) n m := by
    have begins : beginsAssignment m.cursor.remaining = false := by
      have absent : .equals ∉ m.cursor.remaining :=
        fun mem => formula.equals (List.mem_append_right _ mem)
      unfold beginsAssignment
      split
      · rename_i remaining
        exact absurd (by rw [remaining]; simp) absent
      · rfl
    rw [level_eq, levelWith, bind_apply, atAssignment_apply, begins]
    rfl
  have operand : Impartial names bindings
      (Eval.operand (deeper bindings) (Eval.resolve deeper bindings)) :=
    operand (h finite) (Orderly.resolve ho bindings) fun name hn => resolve ho h finite hn
  rw [isSum formula, isSum (m := m.withCalculator c') formula]
  exact (operand.sum n).run formula same

end Levels

theorem expression (n : Nat) (finite : Finite bindings) : Impartial names bindings (expression n bindings) := by
  induction n generalizing names bindings with
  | zero => exact throw _
  | succ n ih => exact (level (Orderly.expression n) ih finite n).nested

/-- So is the body of a function, whatever the tokens of the call are. -/
theorem invoke_run (n : Nat) (name : String) {f : Definition} (finite : Finite bindings)
    (formula : Token.IsFormula names (Token.ofText f.joined)) {m : Machine} {c' : Calculator}
    (same : m.calculator.Indistinct names bindings c') :
    invoke (Eval.expression n) name f bindings (m.withCalculator c') =
      onMachine (·.withCalculator c') (invoke (Eval.expression n) name f bindings m) :=
  (expression n finite).within_run formula
    (m := (m.note (.calling name bindings)).note (.lexed f.joined _)) same

/-- And the calculator is as before. -/
theorem calculator_invoke (n : Nat) (name : String) {f : Definition} (finite : Finite bindings)
    (formula : Token.IsFormula names (Token.ofText f.joined)) {m : Machine} {c' : Calculator}
    (same : m.calculator.Indistinct names bindings c') :
    (machineOf (invoke (Eval.expression n) name f bindings m)).calculator = m.calculator := by
  have run := invoke_run n name finite formula same.refl
  rw [show m.withCalculator m.calculator = m from rfl] at run
  rw [run, machineOf_onMachine]
  rfl

end Impartial

/-- Where there is a value for each parameter, a name without a value is no parameter. -/
theorem not_mem_of_lookup_zip {parameters : List String} {values : List Float}
    (length : values.length = parameters.length) {x : String}
    (h : (parameters.zip values).lookup x = none) : x ∉ parameters := by
  intro mem
  have first : x ∈ (parameters.zip values).map Prod.fst := by
    rwa [List.map_fst_zip length.ge]
  obtain ⟨p, hp, rfl⟩ := List.mem_map.mp first
  have differ := List.lookup_eq_none_iff.mp h p hp
  simp at differ

end Eval

namespace Calculator

variable {c c' : Calculator} {text name : String} {f : Definition} {bindings : Eval.Bindings}
  {m m' : Machine}

/-- Two lines that evaluate a formula with the same values. -/
theorem Invoked.pure (h : Invoked c text name f bindings [] m)
    (h' : Invoked c' text name f bindings [] m') (budget : c'.innerBudget text = c.innerBudget text)
    (finite : Eval.Finite bindings) {names : String → Prop}
    (formula : Token.IsFormula names (Token.ofText f.joined))
    (same : c.Indistinct names bindings c') :
    (c'.evaluate text).outcome = (c.evaluate text).outcome ∧ (c'.evaluate text).calculator = c' ∧
      (c.evaluate text).calculator = c := by
  have indistinct : m.calculator.Indistinct names bindings c' := h.calculator ▸ same
  -- the first line on both calculators
  have moved := Eval.Impartial.invoke_run (c.innerBudget text) name finite formula indistinct
  have kept := Eval.Impartial.calculator_invoke (c.innerBudget text) name finite formula indistinct
  rw [h.calculator] at kept
  -- the second line, on a machine with another trace
  have alike : Eval.Alike (m.withCalculator c').calculator.functionTable (m.withCalculator c') m' :=
    ⟨h'.calculator, rfl, h'.depth.trans h.depth.symm, h.assignments.trans h'.assignments.symm⟩
  have finished : Eval.Finished (Eval.invoke (Eval.expression (c.innerBudget text)) name f bindings
      (m.withCalculator c')) := by
    rw [moved]
    exact Eval.Completes.onMachine h.finished _
  have ends := Eval.sameEnd_invoke (Nat.le_refl _) alike finished
  rw [moved] at ends
  generalize value : Eval.invoke (Eval.expression (c.innerBudget text)) name f bindings m = r at ends kept
  generalize value' : Eval.invoke (Eval.expression (c.innerBudget text)) name f bindings m' = r' at ends
  rw [← budget] at value'
  cases r with
  | ok x m₁ =>
      cases ends with
      | ok calculator =>
          obtain ⟨outcome, e⟩ := h.ok value
          obtain ⟨outcome', e'⟩ := h'.ok value'
          exact ⟨outcome'.trans outcome.symm, e'.trans calculator, e.trans kept⟩
  | error s m₁ =>
      cases ends with
      | error calculator =>
          obtain ⟨fault, rfl, outcome, e⟩ := h.error value
          obtain ⟨fault', stop, outcome', e'⟩ := h'.error value'
          cases stop
          exact ⟨outcome'.trans outcome.symm, e'.trans calculator, e.trans kept⟩

/-- What a call gives on two calculators that its body does not tell apart. -/
theorem IsCall.pure {es : List Printing} (h : IsCall c text name f es) (h' : IsCall c' text name f es)
    (length : es.length = f.parameters.length) (constant : ∀ e ∈ es, e.Constant)
    (functions : c'.functionTable = c.functionTable) {names : String → Prop}
    (formula : Token.IsFormula names (Token.ofText f.joined)) (limit : c'.limit = c.limit)
    (noFunction : ∀ x, names x → c.functionOf? x = none)
    (valueOf? : ∀ x, names x → x ∉ f.parameters → c'.valueOf? x = c.valueOf? x) :
    (c'.evaluate text).outcome = (c.evaluate text).outcome ∧ (c'.evaluate text).calculator = c' ∧
      (c.evaluate text).calculator = c := by
  have readable (c : Calculator) : ∀ e ∈ es, Eval.Readable c (fun _ => 0) e := by
    intro e mem
    refine ⟨(constant e mem).adequate, fun x hx => ?_⟩
    rw [(constant e mem).noNames] at hx
    cases hx
  have all : es.take f.parameters.length = es := List.take_of_length_le length.le
  by_cases hl : Allows c.limit es 0
  · have hl' : Allows c'.limit es 0 := limit ▸ hl
    obtain ⟨m, invoked⟩ := h.invoked (readable c) length.ge (all.symm ▸ hl)
    obtain ⟨m', invoked'⟩ := h'.invoked (readable c') length.ge (all.symm ▸ hl')
    rw [all, List.drop_of_length_le length.le] at invoked invoked'
    have budget : c'.innerBudget text = c.innerBudget text := by
      simp only [innerBudget, bodyLength, limit, functions]
    have finite : Eval.Finite (f.parameters.zip (es.map (·.tree.value fun _ => 0))) := by
      intro p mem
      obtain ⟨e, he, value⟩ := List.mem_map.mp (List.of_mem_zip mem).2
      exact value ▸ (constant e he).finite
    refine invoked.pure invoked' budget finite formula ⟨limit, fun x hx => ?_, fun x hx unbound => ?_⟩
    · refine ⟨noFunction x hx, ?_⟩
      rw [functionOf?, functions]
      exact noFunction x hx
    · exact valueOf? x hx (Eval.not_mem_of_lookup_zip ((List.length_map _).trans length) unbound)
  · have hl' : ¬ Allows c'.limit es 0 := limit ▸ hl
    obtain ⟨outcome, same⟩ := h.exceeded (readable c) (all.symm ▸ hl)
    obtain ⟨outcome', same'⟩ := h'.exceeded (readable c') (all.symm ▸ hl')
    exact ⟨by rw [outcome, outcome', limit], same', same⟩

/-- **Parameters hide variables, and simple functions are pure.**  Where the text of a function's body has
no `=` and no name of a function in it, a call with constant arguments gives the same on any two
calculators with the same functions and the same limit whose variables agree on the names in that text
that are no parameters, and it changes neither.  In particular a variable with the name of a parameter
does not matter, and no variable does if all names in the text are parameters. -/
theorem evaluate_pure (hc : Reachable c) (stored : c.functionOf? name = some f)
    (proper : name ≠ Definition.keyword) (noAssignment : .equals ∉ Token.ofText f.joined)
    (noCall : ∀ x, .identifier x ∈ Token.ofText f.joined → c.functionOf? x = none)
    {arguments : List Printing} (length : arguments.length = f.parameters.length)
    (constant : ∀ e ∈ arguments, e.Constant)
    (ht : Token.Spaced (callTokens name arguments) text.toList) :
    (∀ c' : Calculator, c'.functionTable = c.functionTable → c'.limit = c.limit →
      (∀ x, .identifier x ∈ Token.ofText f.joined → x ∉ f.parameters →
        c'.valueOf? x = c.valueOf? x) →
      (c'.evaluate text).outcome = (c.evaluate text).outcome ∧
        (c'.evaluate text).calculator = c' ∧ (c.evaluate text).calculator = c) ∧
    (∀ parameter ∈ f.parameters, ∀ x : Float,
      ((c.assign parameter x).evaluate text).outcome = (c.evaluate text).outcome) ∧
    ((∀ x, .identifier x ∈ Token.ofText f.joined → x ∈ f.parameters) → ∀ c' : Calculator,
      c'.functionTable = c.functionTable → c'.limit = c.limit →
      (c'.evaluate text).outcome = (c.evaluate text).outcome) := by
  have call := hc.isCall stored proper ht
  have formula : Token.IsFormula (fun x => .identifier x ∈ Token.ofText f.joined)
      (Token.ofText f.joined) := ⟨noAssignment, fun _ mem => mem⟩
  have agree : ∀ c' : Calculator, c'.functionTable = c.functionTable → c'.limit = c.limit →
      (∀ x, .identifier x ∈ Token.ofText f.joined → x ∉ f.parameters →
        c'.valueOf? x = c.valueOf? x) →
      (c'.evaluate text).outcome = (c.evaluate text).outcome ∧
        (c'.evaluate text).calculator = c' ∧ (c.evaluate text).calculator = c := by
    intro c' functions limit valueOf?
    have stored' : c'.functionOf? name = some f := by
      rw [functionOf?, functions]
      exact stored
    have call' : IsCall c' text name f arguments := ⟨stored', proper, call.tokens⟩
    exact call.pure call' length constant functions formula limit noCall valueOf?
  refine ⟨agree, ?_, ?_⟩
  · intro parameter hp x
    refine (agree (c.assign parameter x) rfl rfl fun other _ hother => ?_).1
    have differ : parameter ≠ other := fun same => hother (same ▸ hp)
    rw [valueOf?_assign, if_neg differ]
  · intro hidden c' functions limit
    exact (agree c' functions limit fun x mem hx => absurd (hidden x mem) hx).1

/-- The body of `f` is not well formed, and it mentions the variable `q1` beside its parameters.  The
variable `x` is hidden. -/
theorem evaluate_pure_hidden :
    let c := (empty 9).afterLines ["x = 2", "q1 = 4", "fn f x y => x*(y - q1))"]
    let c' := c.assign "x" (Numeral.ofWhole "7").value
    (c.evaluate "f(3)(-1)").outcome = .ok (some (-(Numeral.ofWhole "15").value)) ∧
    (c'.evaluate "f(3)(-1)").outcome = (c.evaluate "f(3)(-1)").outcome ∧
    (c'.evaluate "f(3)(-1)").calculator = c' ∧
    (c'.evaluate "x").outcome = .ok (some (Numeral.ofWhole "7").value) := by
  intro c c'
  let three : Literal := ⟨.ofWhole "3", .whole (by decide)⟩
  let one : Literal := ⟨.ofWhole "1", .whole (by decide)⟩
  let f : Definition := ⟨["x", "y"], Token.ofText "x*(y - q1))"⟩
  have hc : Reachable c := ⟨9, _, rfl⟩
  have stored : c.functionOf? "f" = some f := by decide +kernel
  have fifteen : (c.evaluate "f(3)(-1)").outcome = .ok (some (-(Numeral.ofWhole "15").value)) := by
    decide +kernel
  have seven : (c'.evaluate "x").outcome = .ok (some (Numeral.ofWhole "7").value) := by decide +kernel
  have noFunction : c.functionOf? "x" = none ∧ c.functionOf? "y" = none ∧ c.functionOf? "q1" = none := by
    decide +kernel
  have body : Token.ofText f.joined = [.identifier "x", .star, .leftParen, .identifier "y", .minus,
      .identifier "q1", .rightParen, .rightParen] := by decide +kernel
  have finite : Number.IsFinite three.numeral.value ∧ Number.IsFinite one.numeral.value := by
    decide +kernel
  -- nothing further is evaluated
  clear_value c
  have noCall : ∀ x, .identifier x ∈ Token.ofText f.joined → c.functionOf? x = none := by
    intro x mem
    rw [body] at mem
    simp only [List.mem_cons, Token.identifier.injEq, reduceCtorEq, false_or, List.not_mem_nil,
      or_false] at mem
    obtain rfl | rfl | rfl := mem
    · exact noFunction.1
    · exact noFunction.2.1
    · exact noFunction.2.2
  have constant : ∀ e ∈ [Printing.literal three, .negated one], e.Constant := by
    intro e mem
    simp only [List.mem_cons, List.not_mem_nil, or_false] at mem
    obtain rfl | rfl := mem
    · exact Printing.constant_literal finite.1
    · exact Printing.constant_negated finite.2
  have ht : Token.Spaced (callTokens "f" [.literal three, .negated one]) "f(3)(-1)".toList := by
    have joined : Token.joinedText (callTokens "f" [.literal three, .negated one]) = "f(3)(-1)" := by
      decide
    exact joined ▸ Token.spaced_joinedText _
  obtain ⟨agree, -⟩ := evaluate_pure hc stored (by decide) (by rw [body]; decide) noCall rfl constant ht
  obtain ⟨outcome, unchanged, -⟩ := agree c' rfl rfl fun x _ hx => by
    have differ : "x" ≠ x := fun same => hx (same ▸ List.mem_cons_self)
    rw [valueOf?_assign, if_neg differ]
  exact ⟨fifteen, outcome, unchanged, seven⟩

end Calculator

end LineCalc
