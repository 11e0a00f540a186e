import LineCalc.Proofs.Congruence

/-! # What an expression does

`Effect m m'` says everything that an expression can do to a machine `m`, whether it gives a number
or stops:

* the depth is afterwards what it was before, and so are the tokens under the cursor;
* records are added to the trace, and none is taken away;
* the only change to what is remembered is that variables are written, exactly those of which an
  `assigned` record tells and in the order of these records;
* no variable is written whose name is that of a function, and no record tells of a definition.

`Orderly x` adds to this that an evaluation which succeeds does not move the cursor back.  It
passes through every level of the grammar (`Orderly.grammarCongruence`), and so to every expression
(`Orderly.expression`). -/

namespace LineCalc

namespace Record

/-- The variable that a record tells to be written, and its value. -/
def assignment? : Record → Option (String × Float)
  | assigned name x => some (name, x)
  | _ => none

/-- The assignments of which records tell, in order. -/
def assignments (records : List Record) : List (String × Float) := records.filterMap assignment?

/-- The function that a record tells to be stored, and its parameters. -/
def definition? : Record → Option (String × List String)
  | defined name parameters => some (name, parameters)
  | _ => none

/-- The definitions of which records tell, in order. -/
def definitions (records : List Record) : List (String × List String) :=
  records.filterMap definition?

/-- Whether a record tells of no change to what is remembered. -/
def isSilent : Record → Bool
  | assigned .. | defined .. => false
  | _ => true

theorem assignment?_of_isSilent {r : Record} (h : r.isSilent = true) : r.assignment? = none := by
  cases r with
  | assigned name x => cases h
  | _ => rfl

theorem definition?_of_isSilent {r : Record} (h : r.isSilent = true) : r.definition? = none := by
  cases r with
  | defined name parameters => cases h
  | _ => rfl

@[simp] theorem definitions_append (records more : List Record) :
    definitions (records ++ more) = definitions records ++ definitions more := by
  simp [definitions]

@[simp] theorem assignments_append (records more : List Record) :
    assignments (records ++ more) = assignments records ++ assignments more := by
  simp [assignments]

theorem assignments_note (m : Machine) {r : Record} (h : r.assignment? = none) :
    assignments (m.note r).trace.toList = assignments m.trace.toList := by
  simp [assignments, Machine.note, h]

theorem assignments_note_assigned (m : Machine) (name : String) (x : Float) :
    assignments (m.note (.assigned name x)).trace.toList = assignments m.trace.toList ++ [(name, x)] := by
  simp [assignments, Machine.note, assignment?]

end Record

namespace Calculator

theorem valueOf?_eq_none {c : Calculator} {name : String} :
    c.valueOf? name = none ↔ c.variableTable.contains name = false := by
  rw [valueOf?, Std.ExtTreeMap.contains_eq_isSome_getElem?, Option.isSome_eq_false_iff,
    Option.isNone_iff_eq_none]

theorem functionOf?_eq_none {c : Calculator} {name : String} :
    c.functionOf? name = none ↔ c.functionTable.contains name = false := by
  rw [functionOf?, Std.ExtTreeMap.contains_eq_isSome_getElem?, Option.isSome_eq_false_iff,
    Option.isNone_iff_eq_none]

/-- Writes variables, one after the other. -/
def assignAll (c : Calculator) (writes : List (String × Float)) : Calculator :=
  writes.foldl (fun c w => c.assign w.1 w.2) c

@[simp] theorem assignAll_nil (c : Calculator) : c.assignAll [] = c := rfl

@[simp] theorem assignAll_cons (c : Calculator) (w : String × Float) (writes : List (String × Float)) :
    c.assignAll (w :: writes) = (c.assign w.1 w.2).assignAll writes := rfl

theorem assignAll_append (c : Calculator) (writes more : List (String × Float)) :
    c.assignAll (writes ++ more) = (c.assignAll writes).assignAll more := by
  simp [assignAll]

@[simp] theorem functionTable_assignAll (c : Calculator) (writes : List (String × Float)) :
    (c.assignAll writes).functionTable = c.functionTable := by
  induction writes generalizing c with
  | nil => rfl
  | cons w writes ih => rw [assignAll_cons, ih]; rfl

@[simp] theorem functionOf?_assignAll (c : Calculator) (writes : List (String × Float))
    (name : String) : (c.assignAll writes).functionOf? name = c.functionOf? name := by
  simp [functionOf?]

@[simp] theorem limit_assignAll (c : Calculator) (writes : List (String × Float)) :
    (c.assignAll writes).limit = c.limit := by
  induction writes generalizing c with
  | nil => rfl
  | cons w writes ih => rw [assignAll_cons, ih]; rfl

end Calculator

/-- What an expression may do to a machine. -/
structure Effect (m m' : Machine) : Prop where
  depth : m'.depth = m.depth
  tokens : m'.cursor.tokens = m.cursor.tokens
  records : ∃ records : List Record, m'.trace.toList = m.trace.toList ++ records ∧
    m'.calculator = m.calculator.assignAll (Record.assignments records) ∧
    (∀ w ∈ Record.assignments records, m.calculator.functionOf? w.1 = none) ∧
    Record.definitions records = []

namespace Effect

variable {m m' m'' : Machine}

theorem refl (m : Machine) : Effect m m :=
  ⟨rfl, rfl, [], by simp [Record.assignments, Record.definitions]⟩

theorem trans (h : Effect m m') (h' : Effect m' m'') : Effect m m'' := by
  obtain ⟨depth, tokens, records, trace, calculator, names, definitions⟩ := h
  obtain ⟨depth', tokens', records', trace', calculator', names', definitions'⟩ := h'
  refine ⟨depth'.trans depth, tokens'.trans tokens, records ++ records', ?_, ?_, ?_, ?_⟩
  · rw [trace', trace, List.append_assoc]
  · rw [calculator', calculator, Record.assignments_append, Calculator.assignAll_append]
  · intro w hw
    rw [Record.assignments_append, List.mem_append] at hw
    obtain hw | hw := hw
    · exact names w hw
    · simpa [calculator] using names' w hw
  · rw [Record.definitions_append, definitions, definitions', List.append_nil]

theorem functionTable (h : Effect m m') :
    m'.calculator.functionTable = m.calculator.functionTable := by
  obtain ⟨records, -, calculator, -⟩ := h.records
  rw [calculator, Calculator.functionTable_assignAll]

theorem functionOf? (h : Effect m m') (name : String) :
    m'.calculator.functionOf? name = m.calculator.functionOf? name := by
  rw [Calculator.functionOf?, h.functionTable, ← Calculator.functionOf?]

theorem limit (h : Effect m m') : m'.calculator.limit = m.calculator.limit := by
  obtain ⟨records, -, calculator, -⟩ := h.records
  rw [calculator, Calculator.limit_assignAll]

/-- What has been assigned before stays a part of what has been assigned. -/
theorem assignments (h : Effect m m') :
    Record.assignments m.trace.toList <+: Record.assignments m'.trace.toList := by
  obtain ⟨records, trace, -, -⟩ := h.records
  rw [trace, Record.assignments_append]
  exact List.prefix_append _ _

/-! ### Single effects -/

theorem moved {c : Cursor} (h : c.tokens = m.cursor.tokens) : Effect m { m with cursor := c } :=
  ⟨rfl, h, [], by simp [Record.assignments, Record.definitions]⟩

theorem noted (m : Machine) {r : Record} (h : r.isSilent = true) : Effect m (m.note r) := by
  have assigned := Record.assignment?_of_isSilent h
  have defined := Record.definition?_of_isSilent h
  exact ⟨rfl, rfl, [r], by simp [Machine.note], by simp [Record.assignments, assigned, Machine.note],
    by simp [Record.assignments, assigned], by simp [Record.definitions, defined]⟩

theorem assigned {name : String} (x : Float) (h : m.calculator.functionOf? name = none) :
    Effect m
      { m.note (.assigned name x) with calculator := m.calculator.assign name x } :=
  ⟨rfl, rfl, [.assigned name x], by simp [Machine.note],
    by simp [Record.assignments, Record.assignment?],
    by simpa [Record.assignments, Record.assignment?] using h,
    by simp [Record.definitions, Record.definition?]⟩

/-- What is done one level deeper. -/
theorem nested (h : Effect { m with depth := m.depth + 1 } m') :
    Effect m { m' with depth := m'.depth - 1 } :=
  ⟨by simp [h.depth], h.tokens, h.records⟩

/-- What is done with other tokens. -/
theorem within {c : Cursor} (h : Effect { m with cursor := c } m') :
    Effect m { m' with cursor := m.cursor } :=
  ⟨h.depth, rfl, h.records⟩

end Effect

namespace Eval

variable {α β : Type}

/-- The evaluation does to this machine what an expression may do, and only moves forward if it
succeeds. -/
structure OrderlyAt (x : Eval α) (m : Machine) : Prop where
  effect : Effect m (after x m)
  forward : ∀ {a m'}, x m = .ok a m' → m.cursor.position ≤ m'.cursor.position

/-- The evaluation does to every machine what an expression may do. -/
def Orderly (x : Eval α) : Prop := ∀ m, OrderlyAt x m

namespace OrderlyAt

variable {x : Eval α} {m m' : Machine}

theorem effect_of_ok {a : α} (h : OrderlyAt x m) (e : x m = .ok a m') : Effect m m' :=
  after_of_ok e ▸ h.effect

theorem effect_of_error {s : Stop} (h : OrderlyAt x m) (e : x m = .error s m') : Effect m m' :=
  after_of_error e ▸ h.effect

theorem of_ok {a : α} (e : x m = .ok a m') (h : Effect m m')
    (hp : m.cursor.position ≤ m'.cursor.position) : OrderlyAt x m := by
  constructor
  · rw [after_of_ok e]
    exact h
  · intro b m'' e'
    rw [e] at e'
    cases e'
    exact hp

theorem of_error {s : Stop} (e : x m = .error s m') (h : Effect m m') : OrderlyAt x m := by
  constructor
  · rw [after_of_error e]
    exact h
  · intro b m'' e'
    rw [e] at e'
    cases e'

theorem bind {f : α → Eval β} (hx : OrderlyAt x m)
    (hf : ∀ a m', x m = .ok a m' → OrderlyAt (f a) m') : OrderlyAt (x >>= f) m := by
  cases h : x m with
  | error s m' =>
      exact of_error (by rw [bind_apply, h]) (hx.effect_of_error h)
  | ok a m' =>
      constructor
      · unfold after
        rw [bind_apply, h]
        exact (hx.effect_of_ok h).trans (hf a m' h).effect
      · intro b m'' e
        rw [bind_apply, h] at e
        have first := hx.forward h
        have second := (hf a m' h).forward e
        omega

end OrderlyAt

namespace Orderly

theorem effect {x : Eval α} (h : Orderly x) (m : Machine) : Effect m (after x m) := (h m).effect

theorem bind {x : Eval α} {f : α → Eval β} (hx : Orderly x) (hf : ∀ a, Orderly (f a)) :
    Orderly (x >>= f) := by
  intro m
  apply (hx m).bind
  intro a m' _
  exact hf a m'

/-! ### Steps -/

theorem pure (a : α) : Orderly (pure a : Eval α) :=
  fun m => .of_ok rfl (Effect.refl m) (Nat.le_refl _)

theorem look (f : Machine → α) : Orderly (look f) := fun m => .of_ok rfl (Effect.refl m) (Nat.le_refl _)

theorem get : Orderly (get : Eval Machine) := look id

theorem throw (s : Stop) : Orderly (throw s : Eval α) := fun m => .of_error rfl (Effect.refl m)

theorem fail (fault : Fault) : Orderly (fail fault : Eval α) := throw _

theorem ofExcept (r : Except Fault α) : Orderly (ofExcept r) := by
  cases r with
  | ok a => exact pure a
  | error fault => exact fail fault

theorem note {r : Record} (h : r.isSilent = true) : Orderly (note r) :=
  fun m => .of_ok rfl (Effect.noted m h) (Nat.le_refl _)

theorem lex (text : String) : Orderly (lex text) :=
  fun m => .of_ok rfl (Effect.noted m rfl) (Nat.le_refl _)

theorem read : Orderly read := by
  intro m
  cases h : m.cursor.next with
  | error fault => exact .of_error (read_of_error h) (Effect.refl m)
  | ok next =>
      apply OrderlyAt.of_ok (read_of_next h) (Effect.moved (Cursor.tokens_of_next h))
      rw [Cursor.position_of_next h]
      omega

theorem peek : Orderly peek := by
  intro m
  cases h : m.cursor.next with
  | error fault => exact .of_error (peek_of_error h) (Effect.refl m)
  | ok next => exact .of_ok (peek_of_next h) (Effect.refl m) (Nat.le_refl _)

theorem discard {x : Eval α} (h : Orderly x) : Orderly (discard x) := by
  intro m
  cases e : x m with
  | error s m' => exact .of_error (by rw [discard_apply, e]) ((h m).effect_of_error e)
  | ok a m' => exact .of_ok (by rw [discard_apply, e]) ((h m).effect_of_ok e) ((h m).forward e)

theorem nested {x : Eval α} (h : Orderly x) : Orderly (nested x) := by
  intro m
  by_cases hd : m.depth < m.calculator.limit
  · constructor
    · unfold after
      rw [nested_of_lt x hd, machineOf_onMachine]
      exact (h.effect { m with depth := m.depth + 1 }).nested
    · intro a m' e
      rw [nested_of_lt x hd] at e
      obtain ⟨m'', hx, rfl⟩ := of_onMachine_ok e
      have forward := (h { m with depth := m.depth + 1 }).forward hx
      exact forward
  · exact .of_error (nested_of_ge x hd) (Effect.noted m rfl)

theorem within {x : Eval α} (h : Orderly x) (tokens : List Token) : Orderly (within tokens x) := by
  intro m
  constructor
  · unfold after
    rw [within_apply, machineOf_onMachine]
    exact (h.effect { m with cursor := .ofTokens tokens }).within
  · intro a m' e
    rw [within_apply] at e
    obtain ⟨m'', hx, rfl⟩ := of_onMachine_ok e
    exact Nat.le_refl _

/-- Reading a text of its own. -/
theorem announced {x : Eval α} (h : Orderly x) {r : Record} (hr : r.isSilent = true) (text : String) :
    Orderly (do Eval.note r; let tokens ← Eval.lex text; Eval.within tokens x) :=
  (note hr).bind fun _ => (lex text).bind fun tokens => h.within tokens

/-- The name is looked up before the right-hand side is evaluated.  It is still not that of a
function when the variable is written, because no expression changes the functions. -/
theorem assignment {value : Eval Float} (h : Orderly value) : Orderly (assignment value) := by
  intro m
  apply (read m).bind
  intro t m₁ e₁
  split
  · rename_i name
    apply (get m₁).bind
    intro m₁' m₂ e
    cases e
    split
    · exact fail _ m₁
    · rename_i hn
      apply (read.discard m₁).bind
      intro _ m₂ e₂
      apply (h m₂).bind
      intro x m₃ e₃
      have h₃ := ((read.discard m₁).effect_of_ok e₂).trans ((h m₂).effect_of_ok e₃)
      have hf : m₃.calculator.functionOf? name = none := by
        rw [h₃.functionOf?, Calculator.functionOf?_eq_none]
        exact Bool.eq_false_iff.mpr hn
      exact .of_ok rfl (Effect.assigned x hf) (Nat.le_refl _)
  · exact fail _ m₁
  · exact fail _ m₁

/-! ### The levels of the grammar -/

theorem tokenCongruence : TokenCongruence (Both @Orderly) :=
  Both.tokenCongruence (Both.congruence pure bind (fun _ => fail _) read) peek (look _)

theorem nameCongruence : NameCongruence (fun _ _ => True) (Both @Orderly) :=
  Both.nameCongruence tokenCongruence.toCongruence
    (fun h => (look _).bind fun f? => h f? fun _ _ => trivial) (fun _ => look _)
    (fun _ h _ => h.announced rfl _) fun h _ => h.announced rfl _

theorem grammarCongruence : GrammarCongruence (fun _ _ => True) (Both @Orderly) :=
  { tokenCongruence, nameCongruence with
    exhausted := ⟨throw _, throw _⟩
    beginning := ⟨look _, look _⟩
    assignment := fun h => ⟨h.1.assignment, h.2.assignment⟩ }

theorem readMinus : Orderly readMinus := tokenCongruence.readMinus.1

theorem operand {group : Eval Float} {resolve : String → Eval Value} (hg : Orderly group)
    (hr : ∀ name, Orderly (resolve name)) : Orderly (operand group resolve) :=
  (tokenCongruence.operand ⟨hg, hg⟩ fun name => ⟨hr name, hr name⟩).1

theorem productFrom {operand : Eval Value} (h : Orderly operand) (n : Nat) (x : Value) :
    Orderly (productFrom operand n x) :=
  (tokenCongruence.productFrom grammarCongruence.exhausted ⟨h, h⟩ n x).1

theorem product {operand : Eval Value} (h : Orderly operand) (n : Nat) :
    Orderly (product operand n) :=
  (tokenCongruence.product grammarCongruence.exhausted ⟨h, h⟩ n).1

theorem sumFrom {product : Eval Float} (h : Orderly product) (n : Nat) (x : Float) :
    Orderly (sumFrom product n x) :=
  (tokenCongruence.sumFrom grammarCongruence.exhausted ⟨h, h⟩ n x).1

theorem sum {product : Eval Float} (h : Orderly product) (n : Nat) : Orderly (sum product n) :=
  (tokenCongruence.sum grammarCongruence.exhausted ⟨h, h⟩ n).1

theorem atAssignment : Orderly atAssignment := atAssignment_eq ▸ look _

section Levels

variable {deeper : Bindings → Eval Float} (h : ∀ bindings, Orderly (deeper bindings))
include h

theorem call (name : String) (f : Definition) : Orderly (call deeper name f) :=
  (nameCongruence.call (fun bindings => ⟨h bindings, h bindings⟩) trivial).1

theorem resolveGlobal (name : String) : Orderly (resolveGlobal deeper name) :=
  (nameCongruence.resolveGlobal (fun bindings => ⟨h bindings, h bindings⟩) name).1

theorem reread (x : Float) : Orderly (reread deeper x) :=
  (grammarCongruence.reread (fun bindings => ⟨h bindings, h bindings⟩) x).1

theorem resolve (bindings : Bindings) (name : String) : Orderly (resolve deeper bindings name) :=
  (grammarCongruence.resolve (fun bindings => ⟨h bindings, h bindings⟩) bindings name).1

theorem level (budget : Nat) (bindings : Bindings) : Orderly (level deeper budget bindings) :=
  (grammarCongruence.level (fun bindings => ⟨h bindings, h bindings⟩) budget bindings).1

end Levels

theorem expression (n : Nat) (bindings : Bindings) : Orderly (expression n bindings) := by
  induction n generalizing bindings with
  | zero => exact throw _
  | succ n ih => exact (level ih n bindings).nested

end Orderly

end Eval

end LineCalc
