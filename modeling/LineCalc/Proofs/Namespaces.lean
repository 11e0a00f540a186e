import LineCalc.Proofs.Lines
import LineCalc.Proofs.Definitions

/-! # Variables and functions have different names

A name is at no time both a variable and a function, and what it is it stays.

The check for a function comes before the right-hand side of an assignment, and the variable is
written after it.  In between, functions may be called that assign further variables.  That does no
harm because an expression never changes the functions: `Calculator.Change` allows a line to write
variables that are no functions *before* the line, and a definition to define a function that is no
variable before the line. -/

namespace LineCalc

namespace Calculator

/-- The name is that of a variable. -/
def IsVariable (c : Calculator) (name : String) : Prop := (c.valueOf? name).isSome

/-- The name is that of a function. -/
def IsFunction (c : Calculator) (name : String) : Prop := (c.functionOf? name).isSome

/-- No name is both a variable and a function. -/
def Disjoint (c : Calculator) : Prop := ∀ name, ¬ (c.IsVariable name ∧ c.IsFunction name)

/-- What was a variable or a function is still one. -/
structure Extends (c c' : Calculator) : Prop where
  isVariable : ∀ name, c.IsVariable name → c'.IsVariable name
  isFunction : ∀ name, c.IsFunction name → c'.IsFunction name

theorem not_isFunction {c : Calculator} {name : String} :
    ¬ c.IsFunction name ↔ c.functionOf? name = none := by
  simp [IsFunction]

theorem not_isVariable {c : Calculator} {name : String} :
    ¬ c.IsVariable name ↔ c.valueOf? name = none := by
  simp [IsVariable]

theorem IsFunction.of_contains {c : Calculator} {name : String}
    (h : c.functionTable.contains name = true) : c.IsFunction name := by
  rwa [Std.ExtTreeMap.contains_eq_isSome_getElem?] at h

theorem IsVariable.of_contains {c : Calculator} {name : String}
    (h : c.variableTable.contains name = true) : c.IsVariable name := by
  rwa [Std.ExtTreeMap.contains_eq_isSome_getElem?] at h

namespace Extends

variable {c c' c'' : Calculator}

theorem refl (c : Calculator) : Extends c c := ⟨fun _ h => h, fun _ h => h⟩

theorem trans (h : Extends c c') (h' : Extends c' c'') : Extends c c'' :=
  ⟨fun name hn => h'.isVariable name (h.isVariable name hn),
    fun name hn => h'.isFunction name (h.isFunction name hn)⟩

theorem assign (c : Calculator) (name : String) (x : Float) : Extends c (c.assign name x) := by
  constructor
  · intro other h
    unfold IsVariable at h ⊢
    rw [valueOf?_assign]
    split
    · rfl
    · exact h
  · intro other h
    exact h

theorem define (c : Calculator) (name : String) (f : Definition) : Extends c (c.define name f) := by
  constructor
  · intro other h
    exact h
  · intro other h
    unfold IsFunction at h ⊢
    rw [functionOf?_define]
    split
    · rfl
    · exact h

theorem assignAll (c : Calculator) (writes : List (String × Float)) :
    Extends c (c.assignAll writes) := by
  induction writes generalizing c with
  | nil => exact refl c
  | cons w writes ih => exact (assign c w.1 w.2).trans (ih _)

end Extends

namespace Disjoint

theorem empty (limit : Nat) : Disjoint (empty limit) := by
  rintro name ⟨h, -⟩
  simp [IsVariable, valueOf?, Calculator.empty] at h

theorem assign {c : Calculator} (h : Disjoint c) {name : String} (hn : c.functionOf? name = none)
    (x : Float) : Disjoint (c.assign name x) := by
  rintro other ⟨hv, hf⟩
  by_cases e : name = other
  · subst e
    exact not_isFunction.mpr hn hf
  · refine h other ⟨?_, hf⟩
    rwa [IsVariable, valueOf?_assign, if_neg e] at hv

theorem define {c : Calculator} (h : Disjoint c) {name : String} (hn : c.valueOf? name = none)
    (f : Definition) : Disjoint (c.define name f) := by
  rintro other ⟨hv, hf⟩
  by_cases e : name = other
  · subst e
    exact not_isVariable.mpr hn hv
  · refine h other ⟨hv, ?_⟩
    rwa [IsFunction, functionOf?_define, if_neg e] at hf

theorem assignAll {c : Calculator} (h : Disjoint c) {writes : List (String × Float)}
    (hw : ∀ w ∈ writes, c.functionOf? w.1 = none) : Disjoint (c.assignAll writes) := by
  induction writes generalizing c with
  | nil => exact h
  | cons w writes ih =>
      have assigned : Disjoint (c.assign w.1 w.2) := h.assign (hw w List.mem_cons_self) w.2
      apply ih assigned
      intro v hv
      exact hw v (List.mem_cons_of_mem _ hv)

end Disjoint

end Calculator

/-- A definition is refused if its name is that of a variable. -/
theorem Definition.ofTokens_name {isVariable : String → Bool} {tokens : List Token} {name : String}
    {f : Definition} (h : ofTokens isVariable tokens = .ok (name, f)) : isVariable name = false := by
  obtain ⟨rest, arrow, -, hv, -⟩ := ofTokens_eq_ok h
  exact hv

namespace Calculator

theorem Change.disjoint {c : Calculator} {text : String} {r : Report} (h : Change c text r)
    (hc : Disjoint c) : Disjoint r.calculator := by
  cases h with
  | assigned h names => exact h ▸ hc.assignAll names
  | defined tokens h calculator trace =>
      exact calculator ▸ hc.define (valueOf?_eq_none.mpr (Definition.ofTokens_name h)) _

theorem Change.extends {c : Calculator} {text : String} {r : Report} (h : Change c text r) :
    Extends c r.calculator := by
  cases h with
  | assigned h names => exact h ▸ Extends.assignAll c _
  | defined tokens h calculator trace => exact calculator ▸ Extends.define c _ _

theorem Reachable.disjoint {c : Calculator} (h : Reachable c) : Disjoint c :=
  h.induction_on Disjoint.empty fun c text hc => (evaluate_change c text).disjoint hc

theorem extends_afterLines (c : Calculator) (lines : List String) :
    Extends c (c.afterLines lines) :=
  afterLines_induction (fun c' text h => h.trans (evaluate_change c' text).extends)
    (Extends.refl c) lines

theorem Reachable.afterLines {c : Calculator} (h : Reachable c) (lines : List String) :
    Reachable (c.afterLines lines) := by
  obtain ⟨limit, before, rfl⟩ := h
  exact ⟨limit, before ++ lines, (afterLines_append _ before lines).symm⟩

/-- **Names keep their kind.**  After any lines, whatever they give, no name is both a variable and a
function, and after any further lines each variable is still one and no function, and each function
is still one and no variable. -/
theorem names_keep_kind (limit : Nat) (lines more : List String) :
    ((empty limit).afterLines lines).Disjoint ∧
    (∀ name, ((empty limit).afterLines lines).IsVariable name →
      (((empty limit).afterLines lines).afterLines more).IsVariable name ∧
        ¬ (((empty limit).afterLines lines).afterLines more).IsFunction name) ∧
    (∀ name, ((empty limit).afterLines lines).IsFunction name →
      (((empty limit).afterLines lines).afterLines more).IsFunction name ∧
        ¬ (((empty limit).afterLines lines).afterLines more).IsVariable name) := by
  have reached : Reachable ((empty limit).afterLines lines) := ⟨limit, lines, rfl⟩
  have kept := extends_afterLines ((empty limit).afterLines lines) more
  have later := (reached.afterLines more).disjoint
  refine ⟨reached.disjoint, ?_, ?_⟩
  · intro name hv
    have hv' := kept.isVariable name hv
    exact ⟨hv', fun hf' => later name ⟨hv', hf'⟩⟩
  · intro name hf
    have hf' := kept.isFunction name hf
    exact ⟨hf', fun hv' => later name ⟨hv', hf'⟩⟩

/-- The variable `x` and the function `f` keep their kinds, although `f = 3` asks for another one. -/
theorem names_keep_kind_two_lines :
    ((empty 2).afterLines ["x = 1", "fn f y => y"]).IsVariable "x" ∧
    ((empty 2).afterLines ["x = 1", "fn f y => y"]).IsFunction "f" ∧
    (((empty 2).afterLines ["x = 1", "fn f y => y"]).afterLines ["f = 3"]).IsVariable "x" ∧
    ¬ (((empty 2).afterLines ["x = 1", "fn f y => y"]).afterLines ["f = 3"]).IsVariable "f" := by
  obtain ⟨-, written, defined⟩ := names_keep_kind 2 ["x = 1", "fn f y => y"] ["f = 3"]
  have hx : ((empty 2).afterLines ["x = 1", "fn f y => y"]).IsVariable "x" := by
    unfold IsVariable
    decide +kernel
  have hf : ((empty 2).afterLines ["x = 1", "fn f y => y"]).IsFunction "f" := by
    unfold IsFunction
    decide +kernel
  exact ⟨hx, hf, (written "x" hx).1, (defined "f" hf).2⟩

end Calculator

end LineCalc
