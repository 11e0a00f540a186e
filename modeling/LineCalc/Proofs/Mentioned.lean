import LineCalc.Proofs.Budget
import LineCalc.Proofs.Definitions

/-! # Only names that are mentioned matter

A line mentions its identifiers, and with a function also its parameters and the identifiers of its
body; the texts of numbers mention `inf` and `NaN` (`Mentioned`).

Two calculators with the same limit that agree on all names that a line mentions give the same for it,
and agree on these names afterwards; and neither of them has changed what it remembers under other
names (`evaluate_mentioned`).

* The body of a function is read as a text, so its identifiers are those of the text: tokens that are
  joined may make up new names.
* Whatever is read mentions only such names, since the set of them is closed (`Closed`).  So each of
  the evaluations follows the other (`lawful_agreeing`). -/

namespace LineCalc

/-- The names that a row of tokens mentions, where some functions are stored: the least set of names
with these properties. -/
inductive Mentioned (functions : Table Definition) (tokens : List Token) : String → Prop
  | token {name : String} (h : .identifier name ∈ tokens) : Mentioned functions tokens name
  | infinite : Mentioned functions tokens "inf"
  | nan : Mentioned functions tokens "NaN"
  | parameter {name parameter : String} {f : Definition} (h : Mentioned functions tokens name)
      (stored : functions[name]? = some f) (mem : parameter ∈ f.parameters) :
      Mentioned functions tokens parameter
  | body {name other : String} {f : Definition} (h : Mentioned functions tokens name)
      (stored : functions[name]? = some f) (mem : .identifier other ∈ Token.ofText f.joined) :
      Mentioned functions tokens other

/-- Names to which the texts of numbers, and the functions whose names are among them, add no others. -/
structure Closed (names : String → Prop) (functions : Table Definition) : Prop where
  infinite : names "inf"
  nan : names "NaN"
  parameters : ∀ {name f}, names name → functions[name]? = some f → ∀ p ∈ f.parameters, names p
  body : ∀ {name f}, names name → functions[name]? = some f →
    Token.MentionOnly names (Token.ofText f.joined)

theorem closed_iff {names : String → Prop} {functions : Table Definition} :
    Closed names functions ↔ names "inf" ∧ names "NaN" ∧ ∀ e ∈ functions.toList, names e.1 →
      (∀ p ∈ e.2.parameters, names p) ∧ Token.MentionOnly names (Token.ofText e.2.joined) := by
  constructor
  · intro h
    refine ⟨h.infinite, h.nan, fun e mem hn => ?_⟩
    have stored := Std.ExtTreeMap.mem_toList_iff_getElem?_eq_some.mp mem
    exact ⟨h.parameters hn stored, h.body hn stored⟩
  · rintro ⟨infinite, nan, h⟩
    refine ⟨infinite, nan, fun hn stored => ?_, fun hn stored => ?_⟩
    · exact (h _ (Std.ExtTreeMap.mem_toList_iff_getElem?_eq_some.mpr stored) hn).1
    · exact (h _ (Std.ExtTreeMap.mem_toList_iff_getElem?_eq_some.mpr stored) hn).2

instance (names : String → Prop) [DecidablePred names] (functions : Table Definition) :
    Decidable (Closed names functions) := decidable_of_iff _ closed_iff.symm

theorem closed_mentioned (functions : Table Definition) (tokens : List Token) :
    Closed (Mentioned functions tokens) functions where
  infinite := .infinite
  nan := .nan
  parameters h stored _ mem := .parameter h stored mem
  body h stored _ mem := .body h stored mem

theorem Mentioned.of_closed {names : String → Prop} {functions : Table Definition}
    {tokens : List Token} (closed : Closed names functions) (ht : Token.MentionOnly names tokens)
    {name : String} (h : Mentioned functions tokens name) : names name := by
  induction h with
  | token mem => exact ht _ mem
  | infinite => exact closed.infinite
  | nan => exact closed.nan
  | parameter _ stored mem ih => exact closed.parameters ih stored _ mem
  | body _ stored mem ih => exact closed.body ih stored _ mem

theorem Closed.number {names : String → Prop} {functions : Table Definition}
    (h : Closed names functions) (x : Float) :
    Token.MentionOnly names (Token.ofText (Number.text x)) := by
  intro name mem
  obtain ⟨t, e, kind⟩ := Number.ofText_text x
  have same : t = .identifier name := by
    obtain e | e := e <;> simpa [e, eq_comm] using mem
  subst same
  obtain ⟨n, e⟩ | e | e := kind
  · cases e
  · cases e
    exact h.infinite
  · cases e
    exact h.nan

namespace Calculator

/-- What two calculators remember under some names is the same. -/
structure AgreeOn (names : String → Prop) (c c' : Calculator) : Prop where
  valueOf? : ∀ {name}, names name → c'.valueOf? name = c.valueOf? name
  functionOf? : ∀ {name}, names name → c'.functionOf? name = c.functionOf? name

namespace AgreeOn

variable {names other : String → Prop} {c c' c'' : Calculator}

theorem symm (h : AgreeOn names c c') : AgreeOn names c' c :=
  ⟨fun hn => (h.valueOf? hn).symm, fun hn => (h.functionOf? hn).symm⟩

theorem trans (h : AgreeOn names c c') (h' : AgreeOn names c' c'') : AgreeOn names c c'' :=
  ⟨fun hn => (h'.valueOf? hn).trans (h.valueOf? hn),
    fun hn => (h'.functionOf? hn).trans (h.functionOf? hn)⟩

theorem mono (h : AgreeOn names c c') (sub : ∀ {name}, other name → names name) :
    AgreeOn other c c' :=
  ⟨fun hn => h.valueOf? (sub hn), fun hn => h.functionOf? (sub hn)⟩

theorem one (h : AgreeOn names c c') {name : String} (hn : names name) : AgreeOn (· = name) c c' := by
  apply h.mono
  rintro other rfl
  exact hn

theorem assign (h : AgreeOn names c c') (name : String) (x : Float) :
    AgreeOn names (c.assign name x) (c'.assign name x) := by
  constructor
  · intro other hn
    rw [valueOf?_assign, valueOf?_assign, h.valueOf? hn]
  · intro other hn
    exact h.functionOf? hn

/-- Another variable is written. -/
theorem assign_ne {name written : String} (h : written ≠ name) (x : Float) (c : Calculator) :
    AgreeOn (· = name) c (c.assign written x) := by
  constructor
  · rintro _ rfl
    rw [valueOf?_assign, if_neg h]
  · intro other _
    rfl

theorem define (h : AgreeOn names c c') (name : String) (f : Definition) :
    AgreeOn names (c.define name f) (c'.define name f) := by
  constructor
  · intro other hn
    exact h.valueOf? hn
  · intro other hn
    rw [functionOf?_define, functionOf?_define, h.functionOf? hn]

theorem closed (h : AgreeOn names c c') (hc : Closed names c.functionTable) :
    Closed names c'.functionTable where
  infinite := hc.infinite
  nan := hc.nan
  parameters hn stored := hc.parameters hn ((h.functionOf? hn).symm.trans stored)
  body hn stored := hc.body hn ((h.functionOf? hn).symm.trans stored)

/-- Variables of other names are written. -/
theorem assignAll {writes : List (String × Float)} (h : ∀ w ∈ writes, ¬ names w.1) (c : Calculator) :
    AgreeOn names c (c.assignAll writes) := by
  constructor
  · intro name hn
    induction writes generalizing c with
    | nil => rfl
    | cons w writes ih =>
        have ne : w.1 ≠ name := fun e => h w List.mem_cons_self (e ▸ hn)
        rw [assignAll_cons, ih (fun w' hw => h w' (List.mem_cons_of_mem w hw)), valueOf?_assign,
          if_neg ne]
  · intro name _
    exact functionOf?_assignAll c writes name

end AgreeOn

end Calculator

namespace Eval

variable {names : String → Prop} {functions : Table Definition}

/-- Machines that agree on some names and have written no other variables. -/
structure Agreeing (names : String → Prop) (functions : Table Definition) (m m' : Machine) :
    Prop where
  calculator : m.calculator.AgreeOn names m'.calculator
  functions : m.calculator.functionTable = functions
  limit : m'.calculator.limit = m.calculator.limit
  depth : m'.depth = m.depth
  trace : m'.trace = m.trace
  written : ∀ w ∈ Record.assignments m.trace.toList, names w.1

theorem lawful_agreeing (closed : Closed names functions) :
    Lawful names (Agreeing names functions) (· = .exhausted) where
  exhausted := rfl
  assignments h := by rw [h.trace]
  valueOf? h hn := h.calculator.valueOf? hn
  functionOf? h hn := h.calculator.functionOf? hn
  body h hn stored := closed.body hn (h.functions ▸ stored)
  number := closed.number
  moved h _ _ := ⟨h.calculator, h.functions, h.limit, h.depth, h.trace, h.written⟩
  noted {m _ r} h hr := by
    refine ⟨h.calculator, h.functions, h.limit, h.depth, congrArg (·.push r) h.trace, ?_⟩
    rw [Record.assignments_note m (Record.assignment?_of_isSilent hr)]
    exact h.written
  assigned {m _ name} h hn x := by
    refine ⟨h.calculator.assign name x, h.functions, h.limit, h.depth,
      congrArg (·.push (.assigned name x)) h.trace, ?_⟩
    intro w hw
    rw [Record.assignments_note_assigned, List.mem_append, List.mem_singleton] at hw
    obtain hw | rfl := hw
    · exact h.written w hw
    · exact hn
  entered {m m'} h hd := by
    have hd' : m'.depth < m'.calculator.limit := by
      rw [h.limit, h.depth]
      exact hd
    exact ⟨hd', h.calculator, h.functions, h.limit, congrArg (· + 1) h.depth, h.trace, h.written⟩
  left h := ⟨h.calculator, h.functions, h.limit, congrArg (· - 1) h.depth, h.trace, h.written⟩
  refused h hd := by
    right
    rw [h.limit, h.depth]
    exact ⟨hd, rfl⟩

end Eval

/-- Reports that say the same, of calculators that agree on some names, and tell of no assignments to
others. -/
structure Report.AgreeOn (names : String → Prop) (r r' : Report) : Prop where
  outcome : r'.outcome = r.outcome
  trace : r'.trace = r.trace
  calculator : r.calculator.AgreeOn names r'.calculator
  written : ∀ w ∈ Record.assignments r.trace.toList, names w.1

namespace Report.AgreeOn

variable {names : String → Prop} {r r' : Report}

theorem symm (h : AgreeOn names r r') : AgreeOn names r' r where
  outcome := h.outcome.symm
  trace := h.trace.symm
  calculator := h.calculator.symm
  written := h.trace ▸ h.written

/-- The reports of two results that agree. -/
theorem of_agree {functions : Table Definition} {a a' : EStateM.Result Stop Machine (Option Float)}
    (h : Eval.Agree names (Eval.Agreeing names functions) (· = .exhausted) a a')
    (finished : Eval.Finished a) (limit : Nat) :
    AgreeOn names (.ofResult limit a) (.ofResult limit a') := by
  obtain ⟨-, beside, outcome⟩ := h.of_finished finished limit
  constructor
  · exact outcome
  · rw [trace_ofResult, trace_ofResult, beside.rest.trace]
  · rw [calculator_ofResult, calculator_ofResult]
    exact beside.rest.calculator
  · rw [trace_ofResult]
    exact beside.rest.written

end Report.AgreeOn

namespace Calculator

variable {names : String → Prop} {c c' : Calculator} {text : String}

/-- A definition looks up its name only. -/
theorem AgreeOn.evaluate_definition (h : AgreeOn names c c') {rest : List Token}
    (tokens : Token.ofText text = .identifier Definition.keyword :: rest)
    (mention : Token.MentionOnly names (Token.ofText text)) :
    Report.AgreeOn names (c.evaluate text) (c'.evaluate text) := by
  have same : Definition.ofTokens c'.variableTable.contains rest =
      Definition.ofTokens c.variableTable.contains rest := by
    apply Definition.ofTokens_congr
    intro name hn
    rw [Std.ExtTreeMap.contains_eq_isSome_getElem?, Std.ExtTreeMap.contains_eq_isSome_getElem?]
    exact congrArg Option.isSome (h.valueOf? (mention name (tokens ▸ List.mem_cons_of_mem _ hn)))
  cases hd : Definition.ofTokens c.variableTable.contains rest with
  | error fault =>
      rw [evaluate_definition_error tokens hd, evaluate_definition_error tokens (same.trans hd)]
      exact ⟨rfl, rfl, h, by simp [Record.assignments, Record.assignment?]⟩
  | ok result =>
      obtain ⟨name, f⟩ := result
      rw [Calculator.evaluate_definition tokens hd,
        Calculator.evaluate_definition tokens (same.trans hd)]
      exact ⟨rfl, rfl, h.define name f, by simp [Record.assignments, Record.assignment?]⟩

/-- The evaluation with the larger budget follows the other. -/
theorem AgreeOn.evaluate_expression (h : AgreeOn names c c') (hl : c'.limit = c.limit)
    (closed : Closed names c.functionTable) (mention : Token.MentionOnly names (Token.ofText text))
    (hd : ∀ rest, Token.ofText text ≠ .identifier Definition.keyword :: rest)
    (hb : c.budget text ≤ c'.budget text) :
    Report.AgreeOn names (c.evaluate text) (c'.evaluate text) := by
  have law := Eval.lawful_agreeing closed
  have start : Eval.Beside names (Eval.Agreeing names c.functionTable) (.start c) (.start c') :=
    ⟨⟨h, rfl, hl, rfl, rfl, by simp [Machine.start, Record.assignments]⟩, rfl,
      by simp [Machine.start, Token.MentionOnly]⟩
  have agree := Eval.Follows.lineWith law (Eval.Follows.expression law hb []) hd mention start
  rw [evaluate_eq, evaluate_eq, hl]
  exact .of_agree agree (line_finished c text) c.limit

theorem AgreeOn.evaluate (h : AgreeOn names c c') (hl : c'.limit = c.limit)
    (closed : Closed names c.functionTable) (mention : Token.MentionOnly names (Token.ofText text)) :
    Report.AgreeOn names (c.evaluate text) (c'.evaluate text) := by
  by_cases hd : ∃ rest, Token.ofText text = .identifier Definition.keyword :: rest
  · obtain ⟨rest, tokens⟩ := hd
    exact h.evaluate_definition tokens mention
  · have hd' := not_exists.mp hd
    -- the budgets count all stored bodies, mentioned or not, so either may be the larger one
    obtain hb | hb := Nat.le_total (c.budget text) (c'.budget text)
    · exact h.evaluate_expression hl closed mention hd' hb
    · exact (h.symm.evaluate_expression hl.symm (h.closed closed) mention hd' hb).symm

/-- What is remembered under names that are neither assigned nor defined stays. -/
theorem Change.unchanged {r : Report} (h : Change c text r)
    (written : ∀ w ∈ Record.assignments r.trace.toList, names w.1)
    (defined : ∀ {name rest},
      Token.ofText text = .identifier Definition.keyword :: .identifier name :: rest → names name) :
    c.AgreeOn (fun name => ¬ names name) r.calculator := by
  cases h with
  | assigned h _ _ =>
      rw [h]
      exact .assignAll (fun w hw => not_not_intro (written w hw)) c
  | @defined rest name f tokens accepted calculator _ _ =>
      obtain ⟨parameters, arrow, e, -⟩ := Definition.ofTokens_eq_ok accepted
      have hn : names name := defined (e ▸ tokens)
      rw [calculator]
      constructor
      · intro other _
        rfl
      · intro other ho
        have ne : name ≠ other := fun e => ho (e ▸ hn)
        rw [functionOf?_define, if_neg ne]

/-- What is remembered under names that are neither mentioned nor assigned stays. -/
theorem Change.agreeOn {r : Report} (h : Change c text r)
    (mention : Token.MentionOnly names (Token.ofText text))
    (written : ∀ w ∈ Record.assignments r.trace.toList, names w.1) :
    c.AgreeOn (fun name => ¬ names name) r.calculator :=
  h.unchanged written fun {name _} tokens => mention name (by simp [tokens])

/-- **Only names that are mentioned matter.**  Calculators with the same limit that agree on the names
that a line mentions give the same for it and agree on these names afterwards, and each of them still
remembers what it did under all other names. -/
theorem evaluate_mentioned {c c' : Calculator} (text : String) (hl : c'.limit = c.limit)
    (h : c.AgreeOn (Mentioned c.functionTable (Token.ofText text)) c') :
    let names := Mentioned c.functionTable (Token.ofText text)
    (c'.evaluate text).outcome = (c.evaluate text).outcome ∧
    (c.evaluate text).calculator.AgreeOn names (c'.evaluate text).calculator ∧
    c.AgreeOn (fun name => ¬ names name) (c.evaluate text).calculator ∧
    c'.AgreeOn (fun name => ¬ names name) (c'.evaluate text).calculator := by
  intro names
  have closed : Closed names c.functionTable := closed_mentioned c.functionTable (Token.ofText text)
  have mention : Token.MentionOnly names (Token.ofText text) := fun name mem => .token mem
  have agree : Report.AgreeOn names (c.evaluate text) (c'.evaluate text) :=
    h.evaluate hl closed mention
  refine ⟨agree.outcome, agree.calculator, ?_, ?_⟩
  · exact (evaluate_change c text).agreeOn mention agree.written
  · exact (evaluate_change c' text).agreeOn mention agree.symm.written

/-- The tokens of the body are `x` and `2`, but its text is the name of a variable, which therefore
matters; `b` and `g` do not. -/
theorem evaluate_mentioned_joined :
    let c := (empty 9).afterLines ["x2 = 7", "fn f x => x 2", "b = 1"]
    let c' := (empty 9).afterLines ["fn g y => y", "x2 = 7", "fn f x => x 2", "b = 5"]
    let names := Mentioned c.functionTable (Token.ofText "z = f 3")
    c'.limit = c.limit ∧ c.AgreeOn names c' ∧
    (c.evaluate "z = f 3").outcome = .ok (some (Numeral.ofWhole "7").value) ∧
    (c'.evaluate "z = f 3").outcome = (c.evaluate "z = f 3").outcome ∧
    (c.evaluate "z = f 3").calculator.AgreeOn names (c'.evaluate "z = f 3").calculator ∧
    c.AgreeOn (fun name => ¬ names name) (c.evaluate "z = f 3").calculator ∧
    c'.AgreeOn (fun name => ¬ names name) (c'.evaluate "z = f 3").calculator := by
  intro c c' names
  have functions : c.functionTable.toList =
      [("f", ⟨["x"], [.identifier "x", .number (.ofWhole "2")]⟩)] := by decide +kernel
  have stored {name : String} {f : Definition} (h : c.functionTable[name]? = some f) :
      f = ⟨["x"], [.identifier "x", .number (.ofWhole "2")]⟩ := by
    have mem := Std.ExtTreeMap.mem_toList_iff_getElem?_eq_some.mpr h
    rw [functions, List.mem_singleton] at mem
    exact congrArg Prod.snd mem
  have closed : Closed (· ∈ ["z", "f", "x", "x2", "inf", "NaN"]) c.functionTable := by
    constructor
    · decide
    · decide
    · intro name f _ h
      rw [stored h]
      decide
    · intro name f _ h other mem
      rw [stored h] at mem
      have text : Token.ofText (Definition.joined ⟨["x"], [.identifier "x", .number (.ofWhole "2")]⟩) =
          [.identifier "x2"] := by decide +kernel
      rw [text, List.mem_singleton] at mem
      cases mem
      decide
  have tokens : Token.ofText "z = f 3" =
      [.identifier "z", .equals, .identifier "f", .number (.ofWhole "3")] := by decide +kernel
  have mention : Token.MentionOnly (· ∈ ["z", "f", "x", "x2", "inf", "NaN"])
      (Token.ofText "z = f 3") := by
    intro name mem
    rw [tokens] at mem
    simp at mem
    obtain rfl | rfl := mem <;> decide
  have same : ∀ name ∈ ["z", "f", "x", "x2", "inf", "NaN"],
      c'.valueOf? name = c.valueOf? name ∧ c'.functionOf? name = c.functionOf? name := by
    decide +kernel
  have hl : c'.limit = c.limit := by decide +kernel
  have agree : c.AgreeOn names c' :=
    ⟨fun h => (same _ (h.of_closed closed mention)).1, fun h => (same _ (h.of_closed closed mention)).2⟩
  exact ⟨hl, agree, by decide +kernel, evaluate_mentioned "z = f 3" hl agree⟩

end Calculator

end LineCalc
