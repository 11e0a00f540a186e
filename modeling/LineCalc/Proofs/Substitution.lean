import LineCalc.Proofs.AcceptedDefinitions
import LineCalc.Proofs.Calls

/-! # Calling a function is substituting its arguments

The body of a function is a printing of a tree over the parameters.  A call writes the value of each
argument out, and reads that text wherever the parameter stands in the body.  If the values are finite,
this gives the value of the tree with the values of the arguments for the parameters, exactly, whatever
variables have the names of the parameters (`evaluate_call`).

The tree of the body is evaluated like that of a line; only the names stand for something else
(`resolves_parameters`). -/

namespace LineCalc

open Printing

namespace Eval

theorem lookup_zip_map (valueOf : String → Float) {parameters : List String} {x : String}
    (hx : x ∈ parameters) : (parameters.zip (parameters.map valueOf)).lookup x = some (valueOf x) := by
  induction parameters with
  | nil => cases hx
  | cons parameter parameters ih =>
      rw [List.map_cons, List.zip_cons_cons]
      by_cases same : x = parameter
      · subst same
        exact List.lookup_cons_self
      · rw [List.lookup_cons, beq_false_of_ne same]
        exact ih ((List.mem_cons.mp hx).resolve_left same)

/-- Parameters with finite values stand for them, unless a function has the name. -/
theorem resolves_parameters {c : Calculator} {valueOf : String → Float} {parameters names : List String}
    (noFunction : ∀ p ∈ parameters, c.functionOf? p = none)
    (finite : ∀ p ∈ parameters, Number.IsFinite (valueOf p)) (known : ∀ x ∈ names, x ∈ parameters) :
    Resolves (parameters.zip (parameters.map valueOf)) c valueOf names := by
  intro x hx n m rest hm ha
  have mem := known x hx
  obtain ⟨m', r, e⟩ := Steps.reread (expression n) (finite x mem) ha
  refine ⟨m', r, Eq.trans ?_ e⟩
  rw [resolve_eq, resolveWith, bind_apply, get_apply]
  simp only [hm, noFunction x mem, lookup_zip_map valueOf mem]

section Body

variable {c : Calculator} {valueOf : String → Float} {parameters : List String} {body : Printing}
  (adequate : body.Adequate)
  (resolves : Resolves (parameters.zip (parameters.map valueOf)) c valueOf body.tree.names)
  (name : String) {n : Nat} {m : Machine} {rest : List Token}

/-- What the text of the body is read as. -/
theorem ofText_joined_tokens (parameters : List String) (body : Printing) :
    Token.ofText (Definition.joined ⟨parameters, body.tokens⟩) = body.tokens :=
  Definition.ofText_joined body.tokens_wellFormed body.isChain_tokens

include adequate resolves

/-- The value of the body is that of its tree. -/
theorem Steps.invoke_printing (hc : m.calculator = c) (ha : m.cursor.after? = some rest)
    (hn : body.tokens.length < n) (hl : m.depth + body.nesting < c.limit) :
    Steps (Eval.invoke (expression n) name ⟨parameters, body.tokens⟩
      (parameters.zip (parameters.map valueOf))) m (pure (body.tree.value valueOf)) rest := by
  refine Steps.invoke [] ha fun {m'} b => ?_
  have after? : m'.cursor.after? = some (body.tokens ++ []) := by
    rw [b.after?, ofText_joined_tokens, List.append_nil]
  exact (reads_of_adequate body adequate resolves).sum.whole (b.calculator.trans hc) after? hn
    (b.depth ▸ hl) (by simp)

/-- A body that is nested too deeply. -/
theorem Fails.invoke_printing (hc : m.calculator = c) (ha : m.cursor.after? = some rest)
    (hn : body.tokens.length < n) (hl : c.limit ≤ m.depth + body.nesting) (hd : m.depth ≤ c.limit) :
    Fails (Eval.invoke (Eval.expression n) name ⟨parameters, body.tokens⟩
      (parameters.zip (parameters.map valueOf))) m (.depthExceeded c.limit) := by
  refine Fails.invoke ha fun {m'} b => ?_
  have after? : m'.cursor.after? = some (body.tokens ++ []) := by
    rw [b.after?, ofText_joined_tokens, List.append_nil]
  exact (exceeds_of_adequate body adequate resolves).sum.whole (b.calculator.trans hc) after? hn
    (b.depth ▸ hl) (b.depth ▸ hd) (by simp)

end Body

end Eval

namespace Calculator

/-- The body of a stored function has fewer tokens than the budget of a line. -/
theorem length_body_lt {c : Calculator} {name : String} {parameters : List String} {body : Printing}
    (stored : c.functionOf? name = some ⟨parameters, body.tokens⟩) (text : String) :
    body.tokens.length < c.innerBudget text := by
  have length := Token.length_ofText_le (Definition.joined ⟨parameters, body.tokens⟩)
  rw [Eval.ofText_joined_tokens] at length
  have stored := length_joined_le stored
  unfold innerBudget
  omega

/-- What a call of a stored function gives. -/
theorem IsCall.substituted {c : Calculator} {text name : String} {parameters : List String}
    {body : Printing} {es : List Printing} (h : IsCall c text name ⟨parameters, body.tokens⟩ es)
    (adequate : body.Adequate) (known : ∀ x ∈ body.tree.names, x ∈ parameters)
    (noFunction : ∀ p ∈ parameters, c.functionOf? p = none) {globals : String → Float}
    (he : ∀ e ∈ es, Eval.Readable c globals e)
    (finite : ∀ e ∈ es, Number.IsFinite (e.tree.value globals)) {valueOf : String → Float}
    (values : parameters.map valueOf = es.map (·.tree.value globals)) :
    (c.evaluate text).outcome =
      (if Allows c.limit es body.nesting then .ok (some (body.tree.value valueOf))
        else .error (.depthExceeded c.limit)) ∧
    (c.evaluate text).calculator = c := by
  have length : parameters.length = es.length := by
    simpa using congrArg List.length values
  have all : es.take parameters.length = es := List.take_of_length_le (Nat.le_of_eq length.symm)
  have finite' : ∀ p ∈ parameters, Number.IsFinite (valueOf p) := by
    intro p mem
    have value : valueOf p ∈ es.map (·.tree.value globals) := values ▸ List.mem_map_of_mem mem
    obtain ⟨e, mem, same⟩ := List.mem_map.mp value
    exact same ▸ finite e mem
  have resolves := Eval.resolves_parameters noFunction finite' known
  have hn := length_body_lt h.stored text
  by_cases hl : Allows c.limit es 0
  · obtain ⟨m, invoked⟩ := h.invoked he (Nat.le_of_eq length) (all.symm ▸ hl)
    rw [all, ← values, List.drop_of_length_le (Nat.le_of_eq length.symm)] at invoked
    have depth := invoked.depth
    by_cases levels : body.nesting + 1 < c.limit
    · obtain ⟨m', r, value⟩ := Eval.Steps.invoke_printing adequate resolves name
        invoked.calculator invoked.after? hn (by omega)
      obtain ⟨outcome, calculator⟩ := invoked.ok value
      rw [if_pos ⟨hl.1, levels⟩, outcome, calculator, r.calculator]
      exact ⟨if_pos rfl, invoked.calculator⟩
    · have one : 0 + 1 < c.limit := hl.2
      obtain ⟨m', stop, calculator⟩ := Eval.Fails.invoke_printing adequate resolves name
        invoked.calculator invoked.after? hn (by omega) (by omega)
      obtain ⟨fault, same, outcome, calculator'⟩ := invoked.error stop
      cases same
      rw [if_neg fun allowed => levels allowed.2, outcome, calculator', calculator]
      exact ⟨rfl, invoked.calculator⟩
  · have exceeded := h.exceeded he (all.symm ▸ hl)
    rw [if_neg fun allowed => hl ⟨allowed.1, Nat.lt_of_le_of_lt (Nat.le_add_left ..) allowed.2⟩]
    exact exceeded

/-- **Calling a function is substituting its arguments.**  After a line that defines a function by a
printing of a tree over the parameters, and any further lines that leave this definition and define no
parameter as a function, a call with printings of trees with finite values gives the value of the body's
tree with the values of the arguments for the parameters.  It changes nothing.  That the limit is exceeded
depends on how deep the parentheses of the arguments and of the body are nested. -/
theorem evaluate_call {c₀ : Calculator} (hc : Reachable c₀) {line name : String}
    {parameters : List String} {body : Printing}
    (hd : Token.ofText line =
      .identifier Definition.keyword :: Definition.written name ⟨parameters, body.tokens⟩)
    (accepted : (c₀.evaluate line).outcome = .ok none) (proper : name ≠ Definition.keyword)
    (adequate : body.Adequate) (known : ∀ x ∈ body.tree.names, x ∈ parameters) {c : Calculator}
    (later : ∃ lines, c = (c₀.evaluate line).calculator.afterLines lines)
    (kept : c.functionOf? name = (c₀.evaluate line).calculator.functionOf? name)
    (noFunction : ∀ p ∈ parameters, c.functionOf? p = none) {arguments : List Printing}
    (he : ∀ e ∈ arguments, e.Adequate) {globals : String → Float}
    (hv : ∀ e ∈ arguments, ∀ x ∈ e.tree.names, c.valueOf? x = some (globals x))
    (finite : ∀ e ∈ arguments, Number.IsFinite (e.tree.value globals)) {valueOf : String → Float}
    (values : parameters.map valueOf = arguments.map (·.tree.value globals)) {text : String}
    (ht : Token.Spaced (callTokens name arguments) text.toList) :
    (c.evaluate text).outcome =
      (if Allows c.limit arguments body.nesting then .ok (some (body.tree.value valueOf))
        else .error (.depthExceeded c.limit)) ∧
    (c.evaluate text).calculator = c := by
  obtain ⟨lines, rfl⟩ := later
  have reachable : Reachable ((c₀.evaluate line).calculator.afterLines lines) :=
    (hc.afterLines [line]).afterLines lines
  have stored : ((c₀.evaluate line).calculator.afterLines lines).functionOf? name =
      some ⟨parameters, body.tokens⟩ := by
    rw [kept, (evaluate_of_written hd accepted).2, functionOf?_define, if_pos rfl]
  have call := reachable.isCall stored proper ht
  exact call.substituted adequate known noFunction (reachable.readable he hv) finite values

/-- The call `f (x + z) (-3)` of `fn f x y => x*(y-.5)`, where the variable `x` is two and `z` is four:
six times minus three and a half. -/
theorem evaluate_call_six :
    let c₀ := (empty 9).afterLines ["x = 2"]
    let c := (c₀.evaluate "fn f x y => x*(y-.5)").calculator.afterLines ["z = 4"]
    let three : Literal := ⟨.ofWhole "3", .whole (by decide)⟩
    let half : Literal := ⟨.ofPointed "" "5", .pointed (by simp) (by decide)⟩
    let x : Name := ⟨"x", by decide⟩
    let y : Name := ⟨"y", by decide⟩
    let z : Name := ⟨"z", by decide⟩
    let body : Printing :=
      .binary (.ofProduct .times) (.named x) (.group (.binary .minus (.named y) (.literal half)))
    let arguments : List Printing := [.binary .plus (.named x) (.named z), .negated three]
    let valueOf (p : String) : Float :=
      if p = "x" then (Numeral.ofWhole "6").value else -(Numeral.ofWhole "3").value
    (c₀.evaluate "fn f x y => x*(y-.5)").outcome = .ok none ∧ Allows c.limit arguments body.nesting ∧
    (c.evaluate "f (x + z) (-3)").outcome = .ok (some (body.tree.value valueOf)) ∧
    body.tree.value valueOf = -(Numeral.ofWhole "21").value ∧
    (c.evaluate "f (x + z) (-3)").calculator = c := by
  intro c₀ c three half x y z body arguments valueOf
  let globals (name : String) : Float :=
    if name = "x" then (Numeral.ofWhole "2").value else (Numeral.ofWhole "4").value
  have hd : Token.ofText "fn f x y => x*(y-.5)" =
      .identifier Definition.keyword :: Definition.written "f" ⟨["x", "y"], body.tokens⟩ := by
    decide +kernel
  have accepted : (c₀.evaluate "fn f x y => x*(y-.5)").outcome = .ok none := by decide +kernel
  have adequate : body.Adequate := ⟨by decide, by decide, trivial, by decide, by decide, trivial, trivial⟩
  have known : ∀ name ∈ body.tree.names, name ∈ ["x", "y"] := by decide
  have kept : c.functionOf? "f" =
      (c₀.evaluate "fn f x y => x*(y-.5)").calculator.functionOf? "f" := by decide +kernel
  have noFunction : ∀ p ∈ ["x", "y"], c.functionOf? p = none := by decide +kernel
  have he : ∀ e ∈ arguments, e.Adequate := by
    simp [arguments, Printing.Adequate, Operator.binding, Printing.binding]
  have hv : ∀ e ∈ arguments, ∀ name ∈ e.tree.names, c.valueOf? name = some (globals name) := by
    decide +kernel
  have finite : ∀ e ∈ arguments, Number.IsFinite (e.tree.value globals) := by decide +kernel
  have values : ["x", "y"].map valueOf = arguments.map (·.tree.value globals) := by decide +kernel
  have ht : Token.Spaced (callTokens "f" arguments) "f (x + z) (-3)".toList := by
    let row : List (List Char × Token) := [([], .identifier "f"), ([' '], .leftParen),
      ([], .identifier "x"), ([' '], .plus), ([' '], .identifier "z"), ([], .rightParen),
      ([' '], .leftParen), ([], .minus), ([], .number three.numeral), ([], .rightParen)]
    have e : (row.flatMap fun r => r.1 ++ r.2.text.toList) = "f (x + z) (-3)".toList := by decide
    have blanks : ∀ r ∈ row, ∀ c ∈ r.1, Token.isBlank c = true := by
      simp [row, show Token.isBlank ' ' = true by decide]
    exact e ▸ Token.spaced_flatMap row blanks
  have allowed : Allows c.limit arguments body.nesting := by decide +kernel
  have called := evaluate_call ⟨9, ["x = 2"], rfl⟩ hd accepted (by decide) adequate known ⟨_, rfl⟩ kept
    noFunction he hv finite values ht
  rw [if_pos allowed] at called
  exact ⟨accepted, allowed, called.1, by decide +kernel, called.2⟩

end Calculator

end LineCalc
