import LineCalc.Proofs.Calls
import LineCalc.Proofs.Direct

/-! # Calls with too few and too many arguments

Nothing counts the arguments of a call.  With too few of them, the next expression is looked for at the
end of the line.  With too many, the body is evaluated as if the others were not there, and only then the
line is found not to be done.  So it leaves the same tables as the line without them (`evaluate_arity`).

The two lines evaluate the body on machines that differ in their traces, in what is left of the line and
in their budgets.  A body does not look at what is left (`Blind.invoke`), and budgets only matter if they
are used up (`Invoked.same`). -/

namespace LineCalc

open Printing

namespace Eval

/-- The results are the same, and so is what is remembered. -/
inductive SameEnd :
    EStateM.Result Stop Machine Float → EStateM.Result Stop Machine Float → Prop
  | ok {x : Float} {m m' : Machine} (calculator : m'.calculator = m.calculator) :
      SameEnd (.ok x m) (.ok x m')
  | error {s : Stop} {m m' : Machine} (calculator : m'.calculator = m.calculator) :
      SameEnd (.error s m) (.error s m')

theorem SameEnd.symm {r r' : EStateM.Result Stop Machine Float} (h : SameEnd r r') : SameEnd r' r := by
  cases h with
  | ok calculator => exact .ok calculator.symm
  | error calculator => exact .error calculator.symm

/-- The body on two machines that differ in their traces and cursors, with the larger budget on the
second. -/
theorem sameEnd_invoke {n n' : Nat} (hn : n ≤ n') {name : String} {f : Definition} {bindings : Bindings}
    {m m' : Machine} (h : Alike m.calculator.functionTable m m')
    (finished : Finished (invoke (expression n) name f bindings m)) :
    SameEnd (invoke (expression n) name f bindings m) (invoke (expression n') name f bindings m') := by
  have body : DirectlyFollows m.calculator.functionTable (invoke (expression n) name f bindings)
      (invoke (expression n') name f bindings) :=
    (Follows.note lawful_alike rfl).bind fun _ =>
      Follows.lex_within lawful_alike (Follows.expression lawful_alike hn bindings) fun _ _ => trivial
  have moved : Alike m.calculator.functionTable m { m' with cursor := m.cursor } :=
    lawful_alike.moved h m.cursor m.cursor
  have agree := body.run (.of_after? moved rfl)
  rw [Blind.invoke (expression n') name f bindings m' m.cursor] at agree
  generalize invoke (expression n) name f bindings m = r at agree finished
  generalize invoke (expression n') name f bindings m' = r' at agree
  cases r' with
  | ok x m₁' =>
      cases agree with
      | ok beside => exact .ok beside.rest.calculator
      | cut hs _ => exact absurd finished (hs ▸ id)
  | error s m₁' =>
      cases agree with
      | error beside => exact .error beside.rest.calculator
      | cut hs _ => exact absurd finished (hs ▸ id)

end Eval

namespace Calculator

variable {c : Calculator} {text text' name : String} {f : Definition} {bindings : Eval.Bindings}
  {rest rest' : List Token} {m m' : Machine}

theorem Invoked.finished (h : Invoked c text name f bindings rest m) :
    Eval.Finished (Eval.invoke (Eval.expression (c.innerBudget text)) name f bindings m) := by
  cases value : Eval.invoke (Eval.expression (c.innerBudget text)) name f bindings m with
  | ok x m' => trivial
  | error s m' =>
      obtain ⟨fault, rfl, -⟩ := h.error value
      trivial

theorem Invoked.alike (h : Invoked c text name f bindings rest m)
    (h' : Invoked c text' name f bindings rest' m') :
    Eval.Alike m.calculator.functionTable m m' :=
  ⟨h'.calculator.trans h.calculator.symm, rfl, h'.depth.trans h.depth.symm,
    h.assignments.trans h'.assignments.symm⟩

/-- Two lines that evaluate the same body with the same values. -/
theorem Invoked.same (h : Invoked c text name f bindings rest m)
    (h' : Invoked c text' name f bindings rest' m') :
    Eval.SameEnd (Eval.invoke (Eval.expression (c.innerBudget text)) name f bindings m)
      (Eval.invoke (Eval.expression (c.innerBudget text')) name f bindings m') := by
  cases Nat.le_total (c.innerBudget text) (c.innerBudget text') with
  | inl hn => exact Eval.sameEnd_invoke hn (h.alike h') h.finished
  | inr hn => exact (Eval.sameEnd_invoke hn (h'.alike h) h'.finished).symm

/-- The line with nothing left over, and one that has the same body with the same values and something
left over. -/
theorem Invoked.leftover (short : Invoked c text name f bindings [] m)
    (long : Invoked c text' name f bindings rest m') (hr : rest ≠ []) :
    (c.evaluate text').calculator = (c.evaluate text).calculator ∧
    (∀ value, (c.evaluate text).outcome = .ok value →
      (c.evaluate text').outcome = .error (.trailingTokens text')) ∧
    (∀ fault, (c.evaluate text).outcome = .error fault →
      (c.evaluate text').outcome = .error fault) := by
  have same := short.same long
  generalize value : Eval.invoke (Eval.expression (c.innerBudget text)) name f bindings m = r at same
  generalize value' : Eval.invoke (Eval.expression (c.innerBudget text')) name f bindings m' = r' at same
  cases same with
  | ok calculator =>
      obtain ⟨outcome, e⟩ := short.ok value
      obtain ⟨outcome', e'⟩ := long.ok value'
      rw [if_pos rfl] at outcome
      rw [if_neg hr] at outcome'
      rw [outcome, outcome', e, e', calculator]
      exact ⟨rfl, fun _ _ => rfl, nofun⟩
  | error calculator =>
      obtain ⟨fault, rfl, outcome, e⟩ := short.error value
      obtain ⟨fault', stop, outcome', e'⟩ := long.error value'
      cases stop
      rw [outcome, outcome', e, e', calculator]
      exact ⟨rfl, nofun, fun _ same => same⟩

/-- **Arity is enforced by the end of the line.**  With fewer arguments than parameters, a call fails
because the line ends, and changes nothing.  With more, it leaves the same tables as the line without the
arguments that are too many, and fails: as that line does, or, if that one succeeds, because the line goes
on.  Each line may have blanks anywhere between its tokens.  If the limit does not allow the arguments,
it is exceeded instead. -/
theorem evaluate_arity (hc : Reachable c) (stored : c.functionOf? name = some f)
    (proper : name ≠ Definition.keyword) {arguments : List Printing}
    (he : ∀ e ∈ arguments, e.Adequate) {globals : String → Float}
    (hv : ∀ e ∈ arguments, ∀ x ∈ e.tree.names, c.valueOf? x = some (globals x))
    (ht : Token.Spaced (callTokens name arguments) text.toList) :
    (arguments.length < f.parameters.length →
      (c.evaluate text).outcome =
        .error (if Allows c.limit arguments 0 then .endOfInput else .depthExceeded c.limit) ∧
      (c.evaluate text).calculator = c) ∧
    (f.parameters.length < arguments.length → ∀ shorter : String,
      Token.Spaced (callTokens name (arguments.take f.parameters.length)) shorter.toList →
      (c.evaluate text).calculator = (c.evaluate shorter).calculator ∧
      (∀ value, (c.evaluate shorter).outcome = .ok value →
        (c.evaluate text).outcome = .error (.trailingTokens text)) ∧
      (∀ fault, (c.evaluate shorter).outcome = .error fault →
        (c.evaluate text).outcome = .error fault)) := by
  have call := hc.isCall stored proper ht
  have readable := hc.readable he hv
  constructor
  · intro few
    have all : arguments.take f.parameters.length = arguments := List.take_of_length_le few.le
    by_cases hl : Allows c.limit arguments 0
    · rw [if_pos hl]
      exact call.missing readable few hl
    · rw [if_neg hl]
      exact call.exceeded readable (all.symm ▸ hl)
  · intro many shorter hs
    have short := hc.isCall stored proper hs
    have readable' : ∀ e ∈ arguments.take f.parameters.length, Eval.Readable c globals e :=
      fun e mem => readable e (List.mem_of_mem_take mem)
    have again : (arguments.take f.parameters.length).take f.parameters.length =
        arguments.take f.parameters.length := by rw [List.take_take, min_self]
    by_cases hl : Allows c.limit (arguments.take f.parameters.length) 0
    · obtain ⟨m', long⟩ := call.invoked readable many.le hl
      obtain ⟨m, whole⟩ := short.invoked readable'
        (List.length_take_of_le many.le).ge (again.symm ▸ hl)
      rw [again, List.drop_of_length_le (List.length_take_of_le many.le).le] at whole
      refine whole.leftover long ?_
      rw [Ne, argumentTokens_eq_nil, List.drop_eq_nil_iff]
      exact Nat.not_le.mpr many
    · obtain ⟨outcome, same⟩ := call.exceeded readable hl
      obtain ⟨outcome', same'⟩ := short.exceeded readable' (again.symm ▸ hl)
      rw [outcome, outcome', same, same']
      exact ⟨rfl, nofun, fun _ same => same⟩

/-- The function `f` has two parameters and writes the variable `z1`, also when it is called with three
arguments. -/
theorem evaluate_arity_two :
    let c := (empty 9).afterLines ["fn f x y => (z1 = 5) + x*y"]
    (c.evaluate "f(1)").outcome = .error .endOfInput ∧ (c.evaluate "f(1)").calculator = c ∧
    (c.evaluate "f(1)(2)").outcome = .ok (some (Numeral.ofWhole "7").value) ∧
    (c.evaluate "f(1)(2)(3)").outcome = .error (.trailingTokens "f(1)(2)(3)") ∧
    (c.evaluate "f(1)(2)(3)").calculator = (c.evaluate "f(1)(2)").calculator ∧
    (c.evaluate "f(1)(2)").calculator.valueOf? "z1" = some (Numeral.ofWhole "5").value := by
  intro c
  let one : Printing := .literal ⟨.ofWhole "1", .whole (by decide)⟩
  let two : Printing := .literal ⟨.ofWhole "2", .whole (by decide)⟩
  let three : Printing := .literal ⟨.ofWhole "3", .whole (by decide)⟩
  have hc : Reachable c := ⟨9, _, rfl⟩
  have stored : c.functionOf? "f" = some ⟨["x", "y"], Token.ofText "(z1 = 5) + x*y"⟩ := by
    decide +kernel
  have succeeds : (c.evaluate "f(1)(2)").outcome = .ok (some (Numeral.ofWhole "7").value) := by
    decide +kernel
  have written : (c.evaluate "f(1)(2)").calculator.valueOf? "z1" =
      some (Numeral.ofWhole "5").value := by decide +kernel
  have allowed : Allows c.limit [one] 0 := by decide +kernel
  have spaced {ts : List Token} {line : String} (h : Token.joinedText ts = line) :
      Token.Spaced ts line.toList := h ▸ Token.spaced_joinedText ts
  have adequate : ∀ e ∈ [one, two, three], e.Adequate := by simp [one, two, three, Printing.Adequate]
  have noNames : ∀ e ∈ [one, two, three], ∀ x ∈ e.tree.names, c.valueOf? x = some 0 := by
    simp [one, two, three, Printing.tree, Tree.names]
  have first {e : Printing} (mem : e ∈ [one]) : e ∈ [one, two, three] :=
    List.mem_of_mem_take (i := 1) mem
  have short : Token.Spaced (callTokens "f" [one]) "f(1)".toList := spaced (by decide)
  have long : Token.Spaced (callTokens "f" [one, two, three]) "f(1)(2)(3)".toList :=
    spaced (by decide)
  obtain ⟨few, -⟩ := evaluate_arity hc stored (by decide) (fun e mem => adequate e (first mem))
    (fun e mem => noNames e (first mem)) short
  obtain ⟨-, many⟩ := evaluate_arity hc stored (by decide) adequate noNames long
  obtain ⟨outcome, unchanged⟩ := few (by decide)
  rw [if_pos allowed] at outcome
  obtain ⟨same, leftover, -⟩ := many (by decide) "f(1)(2)" (spaced (by decide))
  exact ⟨outcome, unchanged, succeeds, leftover _ succeeds, same, written⟩

end Calculator

end LineCalc
