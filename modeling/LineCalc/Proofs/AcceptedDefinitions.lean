import LineCalc.Proofs.PlainNames

/-! # Which definitions are accepted

`Definition.ofTokens` reads a definition from left to right and stops at the first fault.  This module
says from the other side what passes: a row of tokens is accepted if and only if it is the row
`Definition.written name f` of a function that is `Definition.Acceptable`, whose name is no variable
(`Definition.ofTokens_eq_ok_iff`).  As that row determines the name and the function, it is stored with
exactly these (`Calculator.evaluate_fn`).

Three lemmas carry the accepting direction, one for each thing that is read: distinct parameters are read
to their `=` (`readParameters_of_nodup`), then the arrow, then a body whose plain names are parameters
(`unknown?_eq_none_iff`). -/

namespace LineCalc

namespace Definition

variable {isVariable : String → Bool} {tokens : List Token} {name : String} {f : Definition}

/-- What is asked of a function apart from its name: no parameter twice, a body, and no other plain names
in the body than parameters. -/
structure Acceptable (f : Definition) : Prop where
  distinct : f.parameters.Nodup
  nonempty : f.body ≠ []
  known : ∀ plain ∈ Token.plainNames f.body, plain ∈ f.parameters

/-! ### Parameters -/

/-- Distinct parameters are read up to the `=`. -/
theorem readParameters_of_nodup {names more : List String} (rest : List Token)
    (h : (names ++ more).Nodup) :
    readParameters names (more.map .identifier ++ .equals :: rest) = .ok (names ++ more, rest) := by
  induction more generalizing names with
  | nil => simp [readParameters]
  | cons parameter more ih =>
      have fresh : parameter ∉ names := by
        intro repeated
        exact (List.nodup_append.mp h).2.2 parameter repeated parameter List.mem_cons_self rfl
      rw [List.map_cons, List.cons_append, readParameters, if_neg fresh]
      have moved : names ++ parameter :: more = names ++ [parameter] ++ more := by simp
      rw [moved] at h ⊢
      exact ih h

/-- Parameters that are read are distinct. -/
theorem nodup_of_readParameters {names parameters : List String} {rest : List Token}
    (h : readParameters names tokens = .ok (parameters, rest)) (distinct : names.Nodup) :
    parameters.Nodup := by
  fun_induction readParameters names tokens with
  | case1 names => cases h
  | case2 names tokens =>
      cases h
      exact distinct
  | case3 names parameter tokens hn => cases h
  | case4 names parameter tokens hn ih =>
      apply ih h
      rw [List.nodup_append]
      refine ⟨distinct, List.nodup_singleton parameter, ?_⟩
      rintro other mem _ single rfl
      exact hn (List.mem_singleton.mp single ▸ mem)
  | case5 names t tokens => cases h

/-! ### Bodies -/

theorem unknown?_eq_none_iff {parameters : List String} {body : List Token} :
    unknown? parameters body = none ↔ ∀ plain ∈ Token.plainNames body, plain ∈ parameters := by
  simp only [unknown?, Token.plainNames, List.find?_eq_none, decide_eq_true_eq, not_not]

theorem ofRest_of_acceptable (h : f.Acceptable) (name : String) :
    ofRest name (f.parameters.map .identifier ++ .equals :: .greater :: f.body) = .ok f := by
  have parameters : readParameters [] (f.parameters.map .identifier ++ .equals :: .greater :: f.body) =
      .ok ([] ++ f.parameters, .greater :: f.body) := readParameters_of_nodup _ h.distinct
  have known := unknown?_eq_none_iff.mpr h.known
  simp only [ofRest, parameters, List.nil_append, readBody, h.nonempty, known, bind, Except.bind,
    if_false]
  rfl

/-! ### Definitions -/

/-- The tokens of a definition determine its name and the function. -/
theorem written_injective {other : String} {g : Definition} (h : written name f = written other g) :
    name = other ∧ f = g := by
  have body : f.body = g.body := by rw [← bodyOf_written name f, h, bodyOf_written]
  simp only [written, body, List.cons.injEq, Token.identifier.injEq, List.append_cancel_right_eq] at h
  obtain ⟨rfl, identifiers⟩ := h
  have parameters : f.parameters = g.parameters :=
    List.map_injective_iff.mpr (fun _ _ same => Token.identifier.inj same) identifiers
  refine ⟨rfl, ?_⟩
  cases f
  cases g
  cases parameters
  cases body
  rfl

/-- A row of tokens is accepted if and only if it is that of an acceptable function. -/
theorem ofTokens_eq_ok_iff :
    ofTokens isVariable tokens = .ok (name, f) ↔
      tokens = written name f ∧ f.Acceptable ∧ isVariable name = false := by
  constructor
  · intro h
    obtain ⟨rest, arrow, rfl, hv, parameters, body, nonempty, known⟩ := ofTokens_eq_ok h
    have distinct := nodup_of_readParameters parameters List.nodup_nil
    exact ⟨written_of_ofTokens h, ⟨distinct, nonempty, unknown?_eq_none_iff.mp known⟩, hv⟩
  · rintro ⟨rfl, acceptable, hv⟩
    simp [written, ofTokens, hv, ofRest_of_acceptable acceptable, Except.map]

end Definition

namespace Calculator

/-- All stored functions are acceptable. -/
theorem Reachable.acceptable {c : Calculator} (h : Reachable c) {name : String} {f : Definition}
    (hf : c.functionOf? name = some f) : f.Acceptable :=
  h.of_accepted (P := Definition.Acceptable)
    (fun _ accepted => (Definition.ofTokens_eq_ok_iff.mp accepted).2.1) hf

/-- A definition that succeeds stores the function that is written. -/
theorem evaluate_of_written {c : Calculator} {text : String} {name : String} {f : Definition}
    (h : Token.ofText text = .identifier Definition.keyword :: Definition.written name f)
    {value : Option Float} (ok : (c.evaluate text).outcome = .ok value) :
    value = none ∧ (c.evaluate text).calculator = c.define name f := by
  cases hd : Definition.ofTokens c.variableTable.contains (Definition.written name f) with
  | error fault =>
      rw [evaluate_definition_error h hd] at ok
      cases ok
  | ok result =>
      obtain ⟨other, g⟩ := result
      obtain ⟨same, -⟩ := Definition.ofTokens_eq_ok_iff.mp hd
      obtain ⟨rfl, rfl⟩ := Definition.written_injective same
      rw [evaluate_definition h hd] at ok ⊢
      cases ok
      exact ⟨rfl, rfl⟩

/-- **Definitions accept exactly their grammar.**  A line that begins with the word `fn` succeeds if and
only if it goes on with a name that is no variable, distinct parameters, the arrow and a body, in which
every name made of letters only is a parameter.  Then it gives no value, and the function is stored under
the name, with exactly these parameters and this body.  A line that fails changes nothing. -/
theorem evaluate_fn (c : Calculator) {text : String} {rest : List Token}
    (h : Token.ofText text = .identifier Definition.keyword :: rest) :
    ((∃ value, (c.evaluate text).outcome = .ok value) ↔
      ∃ name f, rest = Definition.written name f ∧ f.Acceptable ∧ c.valueOf? name = none) ∧
    (∀ value, (c.evaluate text).outcome = .ok value → value = none ∧
      ∀ name f, rest = Definition.written name f →
        (c.evaluate text).calculator = c.define name f) ∧
    (∀ fault, (c.evaluate text).outcome = .error fault → (c.evaluate text).calculator = c) := by
  cases hd : Definition.ofTokens c.variableTable.contains rest with
  | error fault =>
      have refused : ¬ ∃ value, (c.evaluate text).outcome = .ok value := by
        rintro ⟨value, ok⟩
        rw [evaluate_definition_error h hd] at ok
        cases ok
      refine ⟨⟨fun ok => absurd ok refused, ?_⟩, fun value ok => absurd ⟨value, ok⟩ refused, ?_⟩
      · rintro ⟨name, f, rfl, acceptable, free⟩
        have accepted := Definition.ofTokens_eq_ok_iff.mpr
          ⟨rfl, acceptable, valueOf?_eq_none.mp free⟩
        rw [accepted] at hd
        cases hd
      · intro fault' _
        rw [evaluate_definition_error h hd]
  | ok result =>
      obtain ⟨name, f⟩ := result
      obtain ⟨rfl, acceptable, free⟩ := Definition.ofTokens_eq_ok_iff.mp hd
      have accepted : (c.evaluate text).outcome = .ok none := by rw [evaluate_definition h hd]
      refine ⟨⟨fun _ => ?_, fun _ => ⟨none, accepted⟩⟩, fun value ok => ⟨?_, ?_⟩, ?_⟩
      · exact ⟨name, f, rfl, acceptable, valueOf?_eq_none.mpr free⟩
      · exact (evaluate_of_written h ok).1
      · intro other g same
        obtain ⟨rfl, rfl⟩ := Definition.written_injective same
        exact (evaluate_of_written h ok).2
      · intro fault error
        rw [accepted] at error
        cases error

/-- With a variable `x`, the function `add` is stored, and neither a second parameter `a` nor a function
`x` is accepted. -/
theorem evaluate_fn_add :
    let c := (empty 9).afterLines ["x = 1"]
    let add : Definition := ⟨["a", "b"], [.identifier "a", .plus, .identifier "b"]⟩
    Token.ofText "fn add a b => a + b" = .identifier Definition.keyword :: Definition.written "add" add ∧
    (c.evaluate "fn add a b => a + b").calculator = c.define "add" add ∧
    (c.evaluate "fn add a a => a").calculator = c ∧
    (∀ value, (c.evaluate "fn x => 2").outcome ≠ .ok value) := by
  intro c add
  have first : Token.ofText "fn add a b => a + b" =
      .identifier Definition.keyword :: Definition.written "add" add := by decide +kernel
  have second : Token.ofText "fn add a a => a" = .identifier Definition.keyword ::
      Definition.written "add" ⟨["a", "a"], [.identifier "a"]⟩ := by decide +kernel
  have third : Token.ofText "fn x => 2" = .identifier Definition.keyword ::
      Definition.written "x" ⟨[], [.number (.ofWhole "2")]⟩ := by decide +kernel
  have free : c.valueOf? "add" = none := by decide +kernel
  have taken : c.valueOf? "x" ≠ none := by decide +kernel
  -- nothing further is evaluated
  clear_value c
  have acceptable : add.Acceptable := ⟨by decide, by decide, by decide⟩
  obtain ⟨⟨-, accepted⟩, stored, -⟩ := evaluate_fn c first
  obtain ⟨value, ok⟩ := accepted ⟨"add", add, rfl, acceptable, free⟩
  refine ⟨first, (stored value ok).2 "add" add rfl, ?_, ?_⟩
  · obtain ⟨⟨only, -⟩, -, unchanged⟩ := evaluate_fn c second
    cases outcome : (c.evaluate "fn add a a => a").outcome with
    | error fault => exact unchanged fault outcome
    | ok value =>
        obtain ⟨name, f, same, acceptable, -⟩ := only ⟨value, outcome⟩
        obtain ⟨rfl, rfl⟩ := Definition.written_injective same
        exact absurd acceptable.distinct (by decide)
  · intro value ok
    obtain ⟨name, f, same, -, free⟩ := (evaluate_fn c third).1.mp ⟨value, ok⟩
    obtain ⟨rfl, rfl⟩ := Definition.written_injective same
    exact taken free

end Calculator

end LineCalc
