import LineCalc.Proofs.Policies
import LineCalc.Proofs.Lexing
import LineCalc.Proofs.Bodies
import LineCalc.Proofs.Mentioned

/-! # What a line may change

An expression writes variables only, and only those whose names stand immediately before `=`, in the
line or in the text of the body of a function that it mentions.  A definition changes one function, the
one whose name comes first.  These names are known before the line is evaluated (`Written`), and what
is remembered under all others stays (`evaluate_unwritten`).

* Assignments are reached from arguments, from parentheses and from the bodies of functions that
  functions call.  The policy `writing` follows them: of every row that is read, all names are mentioned
  and all targets are among the names that may be written.
* The texts of numbers have no `=`, so nothing is written while a parameter is looked up, unless its
  value is read as the name of a function that writes.
* A body without `=` stays without it when its text is read again.  So a line without `=` changes nothing
  where no body has one (`evaluate_changes`).  Where bodies may have one, a line without `=` gives the
  same again as long as it has made no assignment (`evaluate_again`). -/

namespace LineCalc

/-- The identifier stands immediately before `=`. -/
def Token.IsTarget (tokens : List Token) (name : String) : Prop :=
  [.identifier name, .equals] <:+: tokens

instance (tokens : List Token) (name : String) : Decidable (Token.IsTarget tokens name) :=
  inferInstanceAs (Decidable (_ <:+: _))

theorem Token.IsTarget.equals_mem {tokens : List Token} {name : String} (h : IsTarget tokens name) :
    .equals ∈ tokens := h.subset (by simp)

/-- The names whose bindings a line with these tokens may change, where some functions are stored. -/
inductive Written (functions : Table Definition) (tokens : List Token) : String → Prop
  /-- The name that a definition defines. -/
  | defined {name : String} {rest : List Token}
      (h : tokens = .identifier Definition.keyword :: .identifier name :: rest) :
      Written functions tokens name
  /-- A name that an expression assigns to. -/
  | line {name : String} (hd : ¬ Token.IsDefinition tokens) (h : Token.IsTarget tokens name) :
      Written functions tokens name
  /-- A name that the body of a function assigns to. -/
  | body {name other : String} {f : Definition} (hd : ¬ Token.IsDefinition tokens)
      (h : Mentioned functions tokens other) (stored : functions[other]? = some f)
      (target : Token.IsTarget (Token.ofText f.joined) name) : Written functions tokens name

namespace Written

variable {functions : Table Definition} {tokens : List Token} {name : String}

theorem mentioned (h : Written functions tokens name) : Mentioned functions tokens name := by
  cases h with
  | defined h => exact .token (by simp [h])
  | line _ h => exact .token (h.subset (by simp))
  | body _ h stored target => exact .body h stored (target.subset (by simp))

/-- The name that a definition may change. -/
theorem of_isDefinition (h : Written functions tokens name) (hd : Token.IsDefinition tokens) :
    tokens[1]? = some (.identifier name) := by
  cases h with
  | defined h => simp [h]
  | line hd' _ => exact absurd hd hd'
  | body hd' _ _ _ => exact absurd hd hd'

/-- The names that an expression may change. -/
theorem of_not_isDefinition (h : Written functions tokens name) (hd : ¬ Token.IsDefinition tokens) :
    Token.IsTarget tokens name ∨ ∃ other f, Mentioned functions tokens other ∧
      functions[other]? = some f ∧ Token.IsTarget (Token.ofText f.joined) name := by
  cases h with
  | defined h =>
      rw [h] at hd
      exact absurd rfl hd
  | line _ h => exact .inl h
  | body _ h stored target => exact .inr ⟨_, _, h, stored, target⟩

end Written

namespace Eval

/-- Only names that are mentioned are read, and only those are written that may be. -/
def writing (functions : Table Definition) {tokens : List Token} (hd : ¬ Token.IsDefinition tokens) :
    Policy where
  row r := Token.MentionOnly (Mentioned functions tokens) r ∧
    ∀ name, Token.IsTarget r name → Written functions tokens name
  kept m := m.calculator.functionTable = functions ∧
    ∀ w ∈ Record.assignments m.trace.toList, Written functions tokens w.1
  fault _ := True
  tail h := ⟨fun name mem => h.1 name (List.mem_cons_of_mem _ mem),
    fun name target => h.2 name (target.trans (List.infix_cons_iff.mpr (.inr List.infix_rfl)))⟩
  body {m name rest f} hm row stored := by
    have stored' : functions[name]? = some f := hm.1 ▸ stored
    have mentioned : Mentioned functions tokens name := row.1 name List.mem_cons_self
    exact ⟨(closed_mentioned functions tokens).body mentioned stored',
      fun other target => .body hd mentioned stored' target⟩
  number x := ⟨(closed_mentioned functions tokens).number x,
    fun name target => absurd target.equals_mem (Number.equals_not_mem_ofText_text x)⟩
  moved hm _ := hm
  noted {m r} hm silent := by
    refine ⟨hm.1, ?_⟩
    rw [Record.assignments_note m (Record.assignment?_of_isSilent silent)]
    exact hm.2
  entered hm _ := hm
  left hm := hm
  assigned {m name t rest} hm row x := by
    have target : Token.IsTarget (.identifier name :: .equals :: t :: rest) name := ⟨[], t :: rest, rfl⟩
    refine ⟨hm.1, fun w hw => ?_⟩
    rw [Record.assignments_note_assigned, List.mem_append, List.mem_singleton] at hw
    obtain hw | rfl := hw
    · exact hm.2 w hw
    · exact row.2 name target
  endOfInput := trivial
  unexpected _ _ _ := trivial
  target _ _ := trivial
  isFunction _ _ _ := trivial
  undefined _ _ _ _ := trivial
  tooDeep _ := trivial

end Eval

namespace Calculator

/-- A definition writes no variable. -/
theorem assignments_of_isDefinition (c : Calculator) {text : String}
    (hd : Token.IsDefinition (Token.ofText text)) :
    Record.assignments (c.evaluate text).trace.toList = [] := by
  obtain ⟨rest, tokens⟩ := Token.isDefinition_iff.mp hd
  cases h : Definition.ofTokens c.variableTable.contains rest with
  | error fault =>
      rw [evaluate_definition_error tokens h]
      simp [Record.assignments, Record.assignment?]
  | ok result =>
      rw [evaluate_definition tokens h]
      simp [Record.assignments, Record.assignment?]

/-- Only variables that may be written are assigned. -/
theorem evaluate_written (c : Calculator) (text : String) :
    ∀ w ∈ Record.assignments (c.evaluate text).trace.toList,
      Written c.functionTable (Token.ofText text) w.1 := by
  by_cases hd : Token.IsDefinition (Token.ofText text)
  · simp [assignments_of_isDefinition c hd]
  · let p := Eval.writing c.functionTable hd
    have row : p.row (Token.ofText text) := ⟨fun _ mem => .token mem, fun _ target => .line hd target⟩
    have start : p.kept (.start c) := ⟨rfl, by simp [Machine.start, Record.assignments]⟩
    obtain ⟨-, m, hm, -, trace⟩ := evaluate_keeps p hd row trivial start
    rw [trace]
    exact hm.2

/-- What is remembered under names that may not be written stays. -/
theorem evaluate_unwritten (c : Calculator) (text : String) :
    c.AgreeOn (fun name => ¬ Written c.functionTable (Token.ofText text) name)
      (c.evaluate text).calculator :=
  (evaluate_change c text).unchanged (evaluate_written c text) .defined

/-- An expression changes no function. -/
theorem functionTable_evaluate (c : Calculator) {text : String}
    (hd : ¬ Token.IsDefinition (Token.ofText text)) :
    (c.evaluate text).calculator.functionTable = c.functionTable := by
  cases evaluate_change c text with
  | assigned h names definitions => rw [h, functionTable_assignAll]
  | defined tokens h calculator trace definitions =>
      exact absurd (Token.isDefinition_iff.mpr ⟨_, tokens⟩) hd

/-- An expression that assigns nothing changes nothing. -/
theorem evaluate_of_assignments_eq_nil {c : Calculator} {text : String}
    (hd : ¬ Token.IsDefinition (Token.ofText text))
    (h : Record.assignments (c.evaluate text).trace.toList = []) :
    (c.evaluate text).calculator = c := by
  cases evaluate_change c text with
  | assigned calculator names definitions => rw [calculator, h, assignAll_nil]
  | defined tokens h calculator trace definitions =>
      exact absurd (Token.isDefinition_iff.mpr ⟨_, tokens⟩) hd

/-- A definition without `=` is refused. -/
theorem evaluate_definition_of_equals_not_mem {c : Calculator} {text : String}
    (hd : Token.IsDefinition (Token.ofText text)) (he : .equals ∉ Token.ofText text) :
    (c.evaluate text).calculator = c := by
  obtain ⟨rest, tokens⟩ := Token.isDefinition_iff.mp hd
  cases h : Definition.ofTokens c.variableTable.contains rest with
  | error fault => rw [evaluate_definition_error tokens h]
  | ok result =>
      have equals : .equals ∈ Token.ofText text := by
        simp [tokens, Definition.written_of_ofTokens h, Definition.written]
      exact absurd equals he

/-- **Which bindings a line can change.**  An expression changes no function, and a variable only if its
name stands immediately before `=`, in the line or in the text of the body of a stored function.  A
definition changes no variable, and no function but the one whose name follows the word `fn`.  So a
line without `=` changes nothing where no body has one. -/
theorem evaluate_changes {c : Calculator} (hc : Reachable c) (text : String) :
    let tokens := Token.ofText text
    let c' := (c.evaluate text).calculator
    (¬ Token.IsDefinition tokens →
      c'.functionTable = c.functionTable ∧
      ∀ name, c'.valueOf? name ≠ c.valueOf? name → Token.IsTarget tokens name ∨
        ∃ other f, c.functionOf? other = some f ∧ Token.IsTarget (Token.ofText f.joined) name) ∧
    (Token.IsDefinition tokens →
      c'.variableTable = c.variableTable ∧
      ∀ name, c'.functionOf? name ≠ c.functionOf? name → tokens[1]? = some (.identifier name)) ∧
    (.equals ∉ tokens → (∀ name f, c.functionOf? name = some f → .equals ∉ f.body) → c' = c) := by
  intro tokens c'
  have unwritten := evaluate_unwritten c text
  refine ⟨fun hd => ⟨functionTable_evaluate c hd, fun name changed => ?_⟩,
    fun hd => ⟨?_, fun name changed => ?_⟩, fun he hb => ?_⟩
  · have written : Written c.functionTable tokens name := by
      by_contra h
      exact changed (unwritten.valueOf? h)
    obtain h | ⟨other, f, -, stored, target⟩ := written.of_not_isDefinition hd
    · exact .inl h
    · exact .inr ⟨other, f, stored, target⟩
  · have h := (evaluate_change c text).variableTable
    rw [assignments_of_isDefinition c hd] at h
    exact h
  · have written : Written c.functionTable tokens name := by
      by_contra h
      exact changed (unwritten.functionOf? h)
    exact written.of_isDefinition hd
  · by_cases hd : Token.IsDefinition tokens
    · exact evaluate_definition_of_equals_not_mem hd he
    · apply evaluate_of_assignments_eq_nil hd
      rw [List.eq_nil_iff_forall_not_mem]
      intro w hw
      obtain h | ⟨other, f, -, stored, target⟩ := (evaluate_written c text w hw).of_not_isDefinition hd
      · exact he h.equals_mem
      · have wellFormed := hc.wellFormed_body stored
        exact hb other f stored (Token.equals_of_joinedText wellFormed target.equals_mem)

/-- The line assigns to `y` only, but `inc` assigns to `x1`. -/
theorem evaluate_changes_increment :
    let c := (empty 9).afterLines ["x1 = 0", "fn inc => x1 = x1 + 1"]
    let tokens := Token.ofText "y = 2 * (inc)"
    let c' := (c.evaluate "y = 2 * (inc)").calculator
    Reachable c ∧ ¬ Token.IsDefinition tokens ∧ c'.valueOf? "x1" ≠ c.valueOf? "x1" ∧
    ¬ Token.IsTarget tokens "x1" ∧ c'.functionTable = c.functionTable ∧
    ∃ other f, c.functionOf? other = some f ∧ Token.IsTarget (Token.ofText f.joined) "x1" := by
  intro c tokens c'
  have hc : Reachable c := ⟨9, _, rfl⟩
  have hd : ¬ Token.IsDefinition tokens := by decide +kernel
  have changed : c'.valueOf? "x1" ≠ c.valueOf? "x1" := by decide +kernel
  have outside : ¬ Token.IsTarget tokens "x1" := by decide +kernel
  obtain ⟨expression, -⟩ := evaluate_changes hc "y = 2 * (inc)"
  obtain ⟨functions, values⟩ := expression hd
  exact ⟨hc, hd, changed, outside, functions, (values "x1" changed).resolve_left outside⟩

/-! ### Evaluating a line again -/

/-- **An expression without `=` gives the same again**, and neither evaluation changes anything, as long
as it has made no assignment.  It makes none if the functions that it mentions assign to nothing in their
bodies.  Functions stay in any case. -/
theorem evaluate_again {c : Calculator} {text : String}
    (hd : ¬ Token.IsDefinition (Token.ofText text)) (he : .equals ∉ Token.ofText text) :
    let first := c.evaluate text
    let second := first.calculator.evaluate text
    first.calculator.functionTable = c.functionTable ∧
    second.calculator.functionTable = c.functionTable ∧
    ((∀ name f, Mentioned c.functionTable (Token.ofText text) name → c.functionOf? name = some f →
        ∀ target, ¬ Token.IsTarget (Token.ofText f.joined) target) →
      Record.assignments first.trace.toList = []) ∧
    (Record.assignments first.trace.toList = [] →
      second.outcome = first.outcome ∧ first.calculator = c ∧ second.calculator = c) := by
  intro first second
  have functions : first.calculator.functionTable = c.functionTable := functionTable_evaluate c hd
  refine ⟨functions, (functionTable_evaluate first.calculator hd).trans functions, ?_, ?_⟩
  · intro bodies
    rw [List.eq_nil_iff_forall_not_mem]
    intro w hw
    obtain h | ⟨name, f, mentioned, stored, target⟩ :=
      (evaluate_written c text w hw).of_not_isDefinition hd
    · exact he h.equals_mem
    · exact bodies name f mentioned stored w.1 target
  · intro silent
    have same : first.calculator = c := evaluate_of_assignments_eq_nil hd silent
    have again : second = first := congrArg (·.evaluate text) same
    rw [again]
    exact ⟨rfl, same, same⟩

/-- The body of `scale` reads a variable and writes none. -/
theorem evaluate_again_scale :
    let c := (empty 9).afterLines ["rate_1 = 3", "fn scale a => a * rate_1"]
    ¬ Token.IsDefinition (Token.ofText "1 + scale 2") ∧ .equals ∉ Token.ofText "1 + scale 2" ∧
    (c.evaluate "1 + scale 2").outcome = .ok (some (Numeral.ofWhole "7").value) ∧
    Record.assignments (c.evaluate "1 + scale 2").trace.toList = [] ∧
    ((c.evaluate "1 + scale 2").calculator.evaluate "1 + scale 2").outcome =
      (c.evaluate "1 + scale 2").outcome ∧
    (c.evaluate "1 + scale 2").calculator = c ∧
    ((c.evaluate "1 + scale 2").calculator.evaluate "1 + scale 2").calculator = c := by
  intro c
  have hd : ¬ Token.IsDefinition (Token.ofText "1 + scale 2") := by decide +kernel
  have he : .equals ∉ Token.ofText "1 + scale 2" := by decide +kernel
  have seven : (c.evaluate "1 + scale 2").outcome = .ok (some (Numeral.ofWhole "7").value) := by
    decide +kernel
  have bodies : ∀ e ∈ c.functionTable.toList, .equals ∉ Token.ofText e.2.joined := by decide +kernel
  obtain ⟨-, -, silent, stable⟩ := evaluate_again (c := c) hd he
  have nothing : Record.assignments (c.evaluate "1 + scale 2").trace.toList = [] := by
    apply silent
    intro name f _ stored target assigned
    exact bodies _ (Std.ExtTreeMap.mem_toList_iff_getElem?_eq_some.mpr stored) assigned.equals_mem
  exact ⟨hd, he, seven, nothing, stable nothing⟩

/-- Without the condition on assignments a line need not give the same again: `inc` has no `=`, succeeds,
gives one more each time and changes `x1`. -/
theorem evaluate_again_increment :
    let c := (empty 9).afterLines ["x1 = 0", "fn inc => x1 = x1 + 1"]
    let first := c.evaluate "inc"
    let second := first.calculator.evaluate "inc"
    Reachable c ∧ ¬ Token.IsDefinition (Token.ofText "inc") ∧ .equals ∉ Token.ofText "inc" ∧
    first.outcome = .ok (some (Numeral.ofWhole "1").value) ∧
    second.outcome = .ok (some (Numeral.ofWhole "2").value) ∧
    second.outcome ≠ first.outcome ∧
    first.calculator.valueOf? "x1" ≠ c.valueOf? "x1" ∧
    second.calculator.valueOf? "x1" ≠ first.calculator.valueOf? "x1" := by
  intro c first second
  have hc : Reachable c := ⟨9, _, rfl⟩
  refine ⟨hc, ?_⟩
  decide +kernel

end Calculator

end LineCalc
