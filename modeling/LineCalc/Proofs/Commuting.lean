import LineCalc.Proofs.Writes

/-! # Independent lines commute

Two lines are *independent* if neither may write a name that the other mentions (`Independent`).  Then
either may be evaluated first: each gives what it gives alone, and the same is remembered at the end
(`evaluate_comm`).

* What the first line changes is nothing that the second one mentions, so the second one does what it
  would do alone, trace included (`Independent.alone`).
* In particular it writes what it would write alone.  The names that it may write are those in the
  first state, although the first line may have changed the functions in between.
* So the names that one line may write hold what that line has written in both orders
  (`Independent.written_agree`), and all other names are untouched in both. -/

namespace LineCalc

namespace Calculator

namespace AgreeOn

variable {c c' : Calculator}

/-- Calculators that agree on every name are the same. -/
theorem eq (h : ∀ name, AgreeOn (· = name) c c') (limit : c'.limit = c.limit) : c' = c := by
  obtain ⟨limit₁, values₁, functions₁⟩ := c
  obtain ⟨limit₂, values₂, functions₂⟩ := c'
  have values : values₂ = values₁ :=
    Std.ExtTreeMap.ext_getElem? fun name => (h name).valueOf? rfl
  have functions : functions₂ = functions₁ :=
    Std.ExtTreeMap.ext_getElem? fun name => (h name).functionOf? rfl
  rw [values, functions, show limit₂ = limit₁ from limit]

end AgreeOn

/-- Neither line may write a name that the other one mentions. -/
structure Independent (c : Calculator) (s t : String) : Prop where
  left : ∀ name, Written c.functionTable (Token.ofText s) name →
    ¬ Mentioned c.functionTable (Token.ofText t) name
  right : ∀ name, Written c.functionTable (Token.ofText t) name →
    ¬ Mentioned c.functionTable (Token.ofText s) name

namespace Independent

variable {c : Calculator} {s t : String}

theorem symm (h : Independent c s t) : Independent c t s := ⟨h.right, h.left⟩

/-- After the first line, the second one does what it does alone. -/
theorem alone (h : Independent c s t) :
    Report.AgreeOn (Mentioned c.functionTable (Token.ofText t)) (c.evaluate t)
      ((c.evaluate s).calculator.evaluate t) := by
  have agree : c.AgreeOn (Mentioned c.functionTable (Token.ofText t)) (c.evaluate s).calculator :=
    (evaluate_unwritten c s).mono fun mentioned written => h.left _ written mentioned
  exact agree.evaluate (limit_evaluate c s) (closed_mentioned _ _) fun _ mem => .token mem

/-- After the first line, the second one writes only what it may write alone. -/
theorem unwritten (h : Independent c s t) :
    (c.evaluate s).calculator.AgreeOn
      (fun name => ¬ Written c.functionTable (Token.ofText t) name)
      ((c.evaluate s).calculator.evaluate t).calculator := by
  apply (evaluate_change (c.evaluate s).calculator t).unchanged
  · rw [h.alone.trace]
    exact evaluate_written c t
  · exact .defined

/-- What the first line may write is the same in both orders. -/
theorem written_agree (h : Independent c s t) :
    ((c.evaluate s).calculator.evaluate t).calculator.AgreeOn
      (Written c.functionTable (Token.ofText s))
      ((c.evaluate t).calculator.evaluate s).calculator := by
  have kept := h.unwritten.mono fun {name} (written : Written c.functionTable (Token.ofText s) name)
    (written' : Written c.functionTable (Token.ofText t) name) => h.left name written written'.mentioned
  have same := h.symm.alone.calculator.mono fun {name}
    (written : Written c.functionTable (Token.ofText s) name) => written.mentioned
  exact kept.symm.trans same

/-- What neither line may write is the same in both orders. -/
theorem unwritten_agree (h : Independent c s t) {name : String}
    (hs : ¬ Written c.functionTable (Token.ofText s) name)
    (ht : ¬ Written c.functionTable (Token.ofText t) name) :
    ((c.evaluate s).calculator.evaluate t).calculator.AgreeOn (· = name)
      ((c.evaluate t).calculator.evaluate s).calculator := by
  have first : c.AgreeOn (· = name) ((c.evaluate s).calculator.evaluate t).calculator :=
    ((evaluate_unwritten c s).one hs).trans (h.unwritten.one ht)
  have second : c.AgreeOn (· = name) ((c.evaluate t).calculator.evaluate s).calculator :=
    ((evaluate_unwritten c t).one ht).trans (h.symm.unwritten.one hs)
  exact first.symm.trans second

end Independent

/-- **Independent lines commute.**  If neither line may write a name that the other one mentions, each
of them gives the same in either order, and the same variables and functions are remembered after
both. -/
theorem evaluate_comm {c : Calculator} {s t : String} (h : Independent c s t) :
    ((c.evaluate t).calculator.evaluate s).outcome = (c.evaluate s).outcome ∧
    ((c.evaluate s).calculator.evaluate t).outcome = (c.evaluate t).outcome ∧
    ((c.evaluate t).calculator.evaluate s).calculator =
      ((c.evaluate s).calculator.evaluate t).calculator := by
  refine ⟨h.symm.alone.outcome, h.alone.outcome, AgreeOn.eq (fun name => ?_) ?_⟩
  · by_cases hs : Written c.functionTable (Token.ofText s) name
    · exact h.written_agree.one hs
    by_cases ht : Written c.functionTable (Token.ofText t) name
    · exact (h.symm.written_agree.one ht).symm
    exact h.unwritten_agree hs ht
  · rw [limit_evaluate, limit_evaluate, limit_evaluate, limit_evaluate]

/-- A line that fails after a function has written `x1`, and a definition. -/
theorem evaluate_comm_increment_twice :
    let c := (empty 9).afterLines ["x1 = 0", "fn inc => x1 = x1 + 1"]
    let s := "inc + q"
    let t := "fn twice a => a * 2"
    Independent c s t ∧ (c.evaluate s).outcome = .error (.undefinedVariable "q") ∧
    (c.evaluate s).calculator.valueOf? "x1" = some (Numeral.ofWhole "1").value ∧
    ((c.evaluate t).calculator.evaluate s).outcome = (c.evaluate s).outcome ∧
    ((c.evaluate s).calculator.evaluate t).outcome = (c.evaluate t).outcome ∧
    ((c.evaluate t).calculator.evaluate s).calculator =
      ((c.evaluate s).calculator.evaluate t).calculator := by
  intro c s t
  have closed_s : Closed (· ∈ ["inc", "q", "x1", "inf", "NaN"]) c.functionTable := by decide +kernel
  have closed_t : Closed (· ∈ ["fn", "twice", "a", "inf", "NaN"]) c.functionTable := by decide +kernel
  have mention_s : Token.MentionOnly (· ∈ ["inc", "q", "x1", "inf", "NaN"]) (Token.ofText s) := by
    decide +kernel
  have mention_t : Token.MentionOnly (· ∈ ["fn", "twice", "a", "inf", "NaN"]) (Token.ofText t) := by
    decide +kernel
  have bodies : ∀ e ∈ c.functionTable.toList, Token.ofText e.2.joined =
      [.identifier "x1", .equals, .identifier "x1", .plus, .number (.ofWhole "1")] := by
    decide +kernel
  have independent : Independent c s t := by
    constructor
    · intro name written h
      have hd : ¬ Token.IsDefinition (Token.ofText s) := by decide +kernel
      have line : .equals ∉ Token.ofText s := by decide +kernel
      obtain target | ⟨other, f, -, stored, target⟩ := written.of_not_isDefinition hd
      · exact line target.equals_mem
      · rw [bodies (other, f) (Std.ExtTreeMap.mem_toList_iff_getElem?_eq_some.mpr stored)] at target
        have e : name = "x1" := by simpa [Token.IsTarget, List.infix_cons_iff] using target
        exact absurd (e ▸ h.of_closed closed_t mention_t) (by decide)
    · intro name written h
      have hd : Token.IsDefinition (Token.ofText t) := by decide +kernel
      have second : (Token.ofText t)[1]? = some (.identifier "twice") := by decide +kernel
      have e := written.of_isDefinition hd
      rw [second] at e
      cases e
      exact absurd (h.of_closed closed_s mention_s) (by decide)
  exact ⟨independent, by decide +kernel, by decide +kernel, evaluate_comm independent⟩

end Calculator

end LineCalc
