import LineCalc.Proofs.Budget

/-! # The limit on nesting only cuts evaluations short

Of two calculators that differ in their limits only, the one with the larger limit follows the other:
unless the smaller limit is exceeded, a line gives the same with both and leaves the same tables.  If
it is exceeded, what has been assigned until then is what the larger limit lets be assigned first. -/

namespace LineCalc

namespace Eval

/-- Machines that differ in the limits of their calculators only. -/
structure Limited (N M : Nat) (m m' : Machine) : Prop where
  depth : m'.depth = m.depth
  limit : m.calculator.limit = N
  limit' : m'.calculator.limit = M
  variableTable : m'.calculator.variableTable = m.calculator.variableTable
  functionTable : m'.calculator.functionTable = m.calculator.functionTable
  trace : m'.trace = m.trace

/-- The stops that have to do with the limit, or with the budget that depends on it. -/
inductive CutByLimit : Stop → Prop
  | exhausted : CutByLimit .exhausted
  | depthExceeded (limit : Nat) : CutByLimit (.fault (.depthExceeded limit))

theorem lawful_limited {N M : Nat} (h : N ≤ M) : Lawful AnyName (Limited N M) CutByLimit where
  exhausted := .exhausted
  assignments hs := by rw [hs.trace]
  valueOf? hs _ := by simp only [Calculator.valueOf?, hs.variableTable]
  functionOf? hs _ := by simp only [Calculator.functionOf?, hs.functionTable]
  body _ _ _ _ _ := trivial
  number _ _ _ := trivial
  moved hs _ _ := ⟨hs.depth, hs.limit, hs.limit', hs.variableTable, hs.functionTable, hs.trace⟩
  noted {_ _ r} hs _ := ⟨hs.depth, hs.limit, hs.limit', hs.variableTable, hs.functionTable,
    congrArg (·.push r) hs.trace⟩
  assigned {_ _ name} hs _ x := ⟨hs.depth, hs.limit, hs.limit',
    congrArg (·.insert name x) hs.variableTable, hs.functionTable,
    congrArg (·.push (.assigned name x)) hs.trace⟩
  entered {m m'} hs hd := by
    have hd' : m'.depth < m'.calculator.limit := by
      have := hs.depth
      have := hs.limit
      have := hs.limit'
      omega
    exact ⟨hd', congrArg (· + 1) hs.depth, hs.limit, hs.limit', hs.variableTable,
      hs.functionTable, hs.trace⟩
  left hs := ⟨congrArg (· - 1) hs.depth, hs.limit, hs.limit', hs.variableTable, hs.functionTable,
    hs.trace⟩
  refused _ _ := .inl (.depthExceeded _)

end Eval

namespace Calculator

theorem assignAll_withLimit (c : Calculator) (limit : Nat) (writes : List (String × Float)) :
    (c.withLimit limit).assignAll writes = (c.assignAll writes).withLimit limit := by
  induction writes generalizing c with
  | nil => rfl
  | cons w writes ih => exact ih (c.assign w.1 w.2)

theorem limited_start (c : Calculator) (N M : Nat) :
    Eval.Beside Eval.AnyName (Eval.Limited N M) (.start (c.withLimit N)) (.start (c.withLimit M)) :=
  .of_after? ⟨rfl, rfl, rfl, rfl, rfl, rfl⟩ rfl

/-- The two lines agree, whatever kind of line they are. -/
theorem line_agree (c : Calculator) (text : String) {N M : Nat} (h : N ≤ M) {n n' : Nat}
    (hn : n ≤ n') : Eval.Agree Eval.AnyName (Eval.Limited N M) Eval.CutByLimit
      (Eval.line text n (.start (c.withLimit N))) (Eval.line text n' (.start (c.withLimit M))) := by
  by_cases hd : ∃ rest, Token.ofText text = .identifier Definition.keyword :: rest
  · obtain ⟨rest, ht⟩ := hd
    cases hf : Definition.ofTokens c.variableTable.contains rest with
    | error fault =>
        rw [Eval.line_definition_error (m := .start (c.withLimit N)) ht hf,
          Eval.line_definition_error (m := .start (c.withLimit M)) ht hf]
        exact .error (.of_after? ⟨rfl, rfl, rfl, rfl, rfl, rfl⟩ rfl)
    | ok result =>
        rw [Eval.line_definition (m := .start (c.withLimit N)) ht hf,
          Eval.line_definition (m := .start (c.withLimit M)) ht hf]
        exact .ok (.of_after? ⟨rfl, rfl, rfl, rfl, rfl, rfl⟩ rfl)
  · have hd' := not_exists.mp hd
    have law := Eval.lawful_limited h
    have follows := Eval.Follows.expression law hn []
    exact Eval.Follows.lineWith law follows hd' (fun _ _ => trivial) (limited_start c N M)

/-- The reports of two results that agree. -/
theorem report_of_agree {N M : Nat} {r r' : EStateM.Result Stop Machine (Option Float)}
    (h : Eval.Agree Eval.AnyName (Eval.Limited N M) Eval.CutByLimit r r') (hr : Eval.Finished r) :
    ((∀ limit, (Report.ofResult N r).outcome ≠ .error (.depthExceeded limit)) →
      (Report.ofResult M r').outcome = (Report.ofResult N r).outcome ∧
      (Report.ofResult M r').calculator.variableTable = (Report.ofResult N r).calculator.variableTable ∧
      (Report.ofResult M r').calculator.functionTable = (Report.ofResult N r).calculator.functionTable) ∧
    (∀ limit, (Report.ofResult N r).outcome = .error (.depthExceeded limit) →
      Record.assignments (Report.ofResult N r).trace.toList <+:
        Record.assignments (Report.ofResult M r').trace.toList) := by
  cases h with
  | ok h =>
      constructor
      · intro _
        exact ⟨rfl, h.rest.variableTable, h.rest.functionTable⟩
      · intro limit e
        cases e
  | @error s m m' h =>
      cases s with
      | exhausted => exact absurd hr id
      | fault fault =>
          constructor
          · intro _
            exact ⟨rfl, h.rest.variableTable, h.rest.functionTable⟩
          · intro limit _
            show Record.assignments m.trace.toList <+: Record.assignments m'.trace.toList
            exact h.rest.trace ▸ List.prefix_rfl
  | cut hs h =>
      cases hs with
      | exhausted => exact absurd hr id
      | depthExceeded limit =>
          constructor
          · intro hne
            exact absurd rfl (hne limit)
          · intro _ _
            rw [Report.trace_ofResult, Report.trace_ofResult]
            exact h

/-- **The limit only cuts evaluations short.**  With a larger limit a line gives the same, and leaves
the same tables, unless the smaller limit is exceeded; and then the assignments that were made with the
smaller limit are the first ones that are made with the larger.  The assignments of the traces are
those that the tables of variables have undergone. -/
theorem evaluate_withLimit (c : Calculator) (text : String) {N M : Nat} (h : N ≤ M) :
    let short := (c.withLimit N).evaluate text
    let long := (c.withLimit M).evaluate text
    ((∀ limit, short.outcome ≠ .error (.depthExceeded limit)) →
      long.outcome = short.outcome ∧
      long.calculator.variableTable = short.calculator.variableTable ∧
      long.calculator.functionTable = short.calculator.functionTable) ∧
    (∀ limit, short.outcome = .error (.depthExceeded limit) →
      Record.assignments short.trace.toList <+: Record.assignments long.trace.toList) ∧
    short.calculator.variableTable =
      (c.assignAll (Record.assignments short.trace.toList)).variableTable ∧
    long.calculator.variableTable =
      (c.assignAll (Record.assignments long.trace.toList)).variableTable := by
  intro short long
  have hn : (c.withLimit N).budget text ≤ (c.withLimit M).budget text := by
    show N + text.length + c.bodyLength + 4 ≤ M + text.length + c.bodyLength + 4
    omega
  obtain ⟨same, cut⟩ := report_of_agree (line_agree c text h hn) (line_finished (c.withLimit N) text)
  refine ⟨same, cut, ?_, ?_⟩
  · rw [(evaluate_change (c.withLimit N) text).variableTable, assignAll_withLimit]
    rfl
  · rw [(evaluate_change (c.withLimit M) text).variableTable, assignAll_withLimit]
    rfl

/-- With the limit three the right operand is nested too deeply; `a` has been written by then, as it
is with the limit four, with which the line succeeds. -/
theorem evaluate_withLimit_three_four :
    3 ≤ 4 ∧
      (((empty 0).withLimit 3).evaluate "(a = 1) + (((2)))").outcome = .error (.depthExceeded 3) ∧
      (((empty 0).withLimit 4).evaluate "(a = 1) + (((2)))").outcome =
        .ok (some (Numeral.ofWhole "3").value) ∧
      Record.assignments (((empty 0).withLimit 3).evaluate "(a = 1) + (((2)))").trace.toList <+:
        Record.assignments (((empty 0).withLimit 4).evaluate "(a = 1) + (((2)))").trace.toList := by
  have exceeded : (((empty 0).withLimit 3).evaluate "(a = 1) + (((2)))").outcome =
      .error (.depthExceeded 3) := by decide +kernel
  have h : 3 ≤ 4 := by decide
  refine ⟨h, exceeded, by decide +kernel, ?_⟩
  exact (evaluate_withLimit (empty 0) "(a = 1) + (((2)))" h).2.1 3 exceeded

end Calculator

end LineCalc
