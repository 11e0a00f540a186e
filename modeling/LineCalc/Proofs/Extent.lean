import LineCalc.Proofs.Effect

/-! # How much an expression reads

Two machines stand *abreast* if their cursors do and if they know the same functions with the same
numbers of parameters.  Their variables, the bodies of their functions, how deep they are and their
limits may differ.

Two evaluations are *in step* if they lead machines that stand abreast to machines that stand abreast,
provided that both give a result; what they give may differ.  Every level of the grammar is in step
with itself as soon as the next expression is, whatever the parameters stand for and whatever values
come up, and so is every expression (`expression_cursor`).

* What decides how to go on is the next token, and whether a name is that of a function.
* A call reads one expression for each parameter.  Its body, and the text of a number, are read from
  tokens of their own, whatever the cursor is, and leave it where it was (`Blind`). -/

namespace LineCalc

/-- How many arguments a call reads, if the name is that of a function. -/
def Calculator.arity? (c : Calculator) (name : String) : Option Nat :=
  (c.functionOf? name).map (·.parameters.length)

theorem Effect.arity? {m m' : Machine} (h : Effect m m') (name : String) :
    m'.calculator.arity? name = m.calculator.arity? name :=
  congrArg (Option.map _) (h.functionOf? name)

namespace Eval

variable {α β : Type}

/-- What a result gives and where it leaves the cursor, if it gives a value. -/
def ending? : EStateM.Result Stop Machine α → Option (α × Cursor)
  | .ok a m => some (a, m.cursor)
  | .error _ _ => none

theorem of_ending?_eq_some {r : EStateM.Result Stop Machine α} {a : α} {c : Cursor}
    (h : ending? r = some (a, c)) : ∃ m, r = .ok a m ∧ m.cursor = c := by
  cases r with
  | ok b m =>
      cases h
      exact ⟨m, rfl, rfl⟩
  | error s m => cases h

/-! ### Evaluations that read elsewhere -/

/-- The cursor does not matter to the evaluation, and stays where it is. -/
def Blind (x : Eval α) : Prop := ∀ (m : Machine) (c : Cursor),
  x { m with cursor := c } = onMachine (fun m' => { m' with cursor := c }) (x m)

namespace Blind

theorem cursor_eq {x : Eval α} (h : Blind x) {m m' : Machine} {a : α} (e : x m = .ok a m') :
    m'.cursor = m.cursor := by
  have h := h m m.cursor
  rw [show { m with cursor := m.cursor } = m from rfl, e] at h
  have moved : m' = { m' with cursor := m.cursor } := (EStateM.Result.ok.inj h).2
  rw [moved]

theorem bind {x : Eval α} {f : α → Eval β} (hx : Blind x) (hf : ∀ a, Blind (f a)) :
    Blind (x >>= f) := by
  intro m c
  rw [bind_apply, bind_apply, hx m c]
  cases x m with
  | ok a m₁ => exact hf a m₁ c
  | error s m₁ => rfl

theorem pure (a : α) : Blind (pure a : Eval α) := fun _ _ => rfl

theorem throw (s : Stop) : Blind (throw s : Eval α) := fun _ _ => rfl

theorem ofExcept (r : Except Fault α) : Blind (ofExcept r) := by
  cases r with
  | ok a => exact pure a
  | error fault => exact throw _

theorem note (r : Record) : Blind (note r) := fun _ _ => rfl

theorem lex (text : String) : Blind (lex text) := fun _ _ => rfl

theorem assign (name : String) (x : Float) : Blind (assign name x) := fun _ _ => rfl

theorem within (tokens : List Token) (x : Eval α) : Blind (within tokens x) := by
  intro m c
  rw [within_apply, within_apply]
  cases x { m with cursor := .ofTokens tokens } <;> rfl

/-- A text is read from tokens of its own. -/
theorem lex_within (text : String) (x : Eval α) :
    Blind (do let tokens ← Eval.lex text; Eval.within tokens x) :=
  (lex text).bind fun tokens => within tokens x

theorem reread (deeper : Bindings → Eval Float) (x : Float) : Blind (reread deeper x) :=
  (note _).bind fun _ => lex_within _ _

end Blind

/-- A name that is not that of a function stands for what it does without a look at the tokens. -/
theorem cursor_of_resolve {deeper : Bindings → Eval Float} {bindings : Bindings} {name : String}
    {m m' : Machine} {v : Value} (hf : m.calculator.functionOf? name = none)
    (h : resolve deeper bindings name m = .ok v m') : m'.cursor = m.cursor := by
  have global {v : Value} {m' : Machine} (h : resolveGlobal deeper name m = .ok v m') :
      m'.cursor = m.cursor := by
    simp only [resolveGlobal, bind_apply, get_apply, hf] at h
    cases hv : m.calculator.valueOf? name with
    | some x =>
        rw [hv] at h
        exact (Blind.pure _).cursor_eq h
    | none =>
        rw [hv] at h
        exact (Blind.pure _).cursor_eq h
  simp only [resolve, bind_apply, get_apply, hf] at h
  cases hb : bindings.lookup name with
  | some x =>
      rw [hb] at h
      exact (Blind.reread deeper x).cursor_eq h
  | none =>
      rw [hb] at h
      exact global h

/-- The name of a function stands for a call of it, also where a parameter has the name. -/
theorem resolve_of_function {deeper : Bindings → Eval Float} {bindings : Bindings} {name : String}
    {m : Machine} {f : Definition} (hf : m.calculator.functionOf? name = some f) :
    resolve deeper bindings name m = (do return .number (← call deeper name f) : Eval Value) m := by
  simp only [resolve, resolveGlobal, bind_apply, get_apply, hf]

/-! ### Evaluations in step -/

/-- The machines differ neither in their cursors nor in how many arguments calls read. -/
structure Abreast (m m' : Machine) : Prop where
  cursor : m'.cursor = m.cursor
  arity? : ∀ name, m'.calculator.arity? name = m.calculator.arity? name

/-- If both results are values, the machines that are left stand abreast. -/
def EndAbreast (r r' : EStateM.Result Stop Machine α) : Prop :=
  ∀ ⦃a m a' m'⦄, r = .ok a m → r' = .ok a' m' → Abreast m m'

/-- Machines that stand abreast come to machines that stand abreast. -/
def InStep (x y : Eval α) : Prop := ∀ ⦃m m'⦄, Abreast m m' → EndAbreast (x m) (y m')

/-- Evaluations that leave the cursors where they are. -/
theorem EndAbreast.of_cursor {x y : Eval α} {m m' : Machine} (hm : Abreast m m') (hx : Orderly x)
    (hy : Orderly y) (cx : ∀ {a m₁}, x m = .ok a m₁ → m₁.cursor = m.cursor)
    (cy : ∀ {a m₁}, y m' = .ok a m₁ → m₁.cursor = m'.cursor) : EndAbreast (x m) (y m') := by
  intro a m₁ a' m₁' e e'
  constructor
  · rw [cx e, cy e', hm.cursor]
  · intro name
    rw [((hx m).effect_of_ok e).arity?, ((hy m').effect_of_ok e').arity?, hm.arity?]

namespace InStep

theorem bind {x y : Eval α} {f g : α → Eval β} (hx : InStep x y) (hf : ∀ a b, InStep (f a) (g b)) :
    InStep (x >>= f) (y >>= g) := by
  intro m m' h b m₂ b' m₂' e e'
  obtain ⟨a, m₁, e₁, e₂⟩ := of_bind_eq_ok e
  obtain ⟨a', m₁', e₁', e₂'⟩ := of_bind_eq_ok e'
  exact hf a a' (hx h e₁ e₁') e₂ e₂'

theorem pure (a b : α) : InStep (pure a : Eval α) (pure b) := by
  intro m m' h a m₁ a' m₁' e e'
  cases e
  cases e'
  exact h

/-! Where one of the two stops, nothing is asked. -/

theorem throw_left (s : Stop) (y : Eval α) : InStep (throw s) y := by
  intro m m' h a m₁ a' m₁' e
  cases e

theorem throw_right (s : Stop) (x : Eval α) : InStep x (throw s) := by
  intro m m' h a m₁ a' m₁' e e'
  cases e'

theorem fail (fault : Fault) (y : Eval α) : InStep (fail fault) y := throw_left _ y

theorem ofExcept (r r' : Except Fault α) : InStep (ofExcept r) (ofExcept r') := by
  cases r with
  | error fault => exact throw_left _ _
  | ok a =>
      cases r' with
      | error fault => exact throw_right _ _
      | ok b => exact pure a b

theorem of_blind {x y : Eval α} (hx : Orderly x) (hy : Orderly y) (blind : Blind x)
    (blind' : Blind y) : InStep x y := by
  intro m m' h
  exact .of_cursor h hx hy blind.cursor_eq blind'.cursor_eq

theorem assign (name : String) (x y : Float) : InStep (assign name x) (assign name y) := by
  intro m m' h a m₁ a' m₁' e e'
  cases e
  cases e'
  exact ⟨h.cursor, h.arity?⟩

theorem get_bind {f g : Machine → Eval α}
    (h : ∀ {m m'}, Abreast m m' → EndAbreast (f m m) (g m' m')) :
    InStep (get >>= f) (get >>= g) := by
  intro m m' hm
  exact h hm

/-- Both read the same token. -/
theorem read_bind {f g : Option Token → Eval α} (h : ∀ t, InStep (f t) (g t)) :
    InStep (read >>= f) (read >>= g) := by
  intro m m' hm
  rw [bind_apply, bind_apply]
  cases e : m.cursor.next with
  | error fault =>
      rw [read_of_error e]
      exact nofun
  | ok next =>
      obtain ⟨t, c⟩ := next
      have e' : m'.cursor.next = .ok (t, c) := by rw [hm.cursor, e]
      rw [read_of_next e, read_of_next e']
      exact h t ⟨rfl, hm.arity?⟩

/-- Both see the same token. -/
theorem peek_bind {f g : Option Token → Eval α} (h : ∀ t, InStep (f t) (g t)) :
    InStep (peek >>= f) (peek >>= g) := by
  intro m m' hm
  rw [bind_apply, bind_apply]
  cases e : m.cursor.next with
  | error fault =>
      rw [peek_of_error e]
      exact nofun
  | ok next =>
      obtain ⟨t, c⟩ := next
      have e' : m'.cursor.next = .ok (t, c) := by rw [hm.cursor, e]
      rw [peek_of_next e, peek_of_next e']
      exact h t hm

theorem skip : InStep (discard read) (discard read) := by
  have h : InStep (read >>= fun _ => Pure.pure ()) (read >>= fun _ => Pure.pure ()) :=
    read_bind fun t => pure () ()
  rwa [bind_pure_comp] at h

theorem nested {x y : Eval α} (h : InStep x y) : InStep (nested x) (nested y) := by
  intro m m' hm a m₁ a' m₁' e e'
  obtain ⟨-, m₂, e₂, rfl⟩ := of_nested_eq_ok e
  obtain ⟨-, m₂', e₂', rfl⟩ := of_nested_eq_ok e'
  have deeper : Abreast { m with depth := m.depth + 1 } { m' with depth := m'.depth + 1 } :=
    ⟨hm.cursor, hm.arity?⟩
  obtain ⟨cursor, arity?⟩ := h deeper e₂ e₂'
  exact ⟨cursor, arity?⟩

/-! ### The levels of the grammar -/

theorem readMinus : InStep readMinus readMinus := by
  have minus : InStep (do Functor.discard Eval.read; return true : Eval Bool)
      (do Functor.discard Eval.read; return true) := skip.bind fun _ _ => pure true true
  apply get_bind
  intro m m' h
  rw [h.cursor]
  split
  · exact minus h
  · exact pure false false h

theorem operand {group group' : Eval Float} {resolve resolve' : String → Eval Value}
    (hg : InStep group group') (hr : ∀ name, InStep (resolve name) (resolve' name)) :
    InStep (operand group resolve) (operand group' resolve') := by
  rw [operand_eq, operand_eq]
  apply readMinus.bind
  intro negative negative'
  apply peek_bind
  intro t
  split
  · exact skip.bind fun _ _ => pure _ _
  · exact skip.bind fun _ _ => hr _
  · exact skip.bind fun _ _ => hg.bind fun x y => skip.bind fun _ _ => pure _ _
  · exact fail _ _
  · exact skip.bind fun _ _ => fail _ _

theorem productFrom {operand operand' : Eval Value} (h : InStep operand operand') (n n' : Nat)
    (x y : Value) : InStep (productFrom operand n x) (productFrom operand' n' y) := by
  induction n generalizing n' x y with
  | zero => exact throw_left _ _
  | succ n ih =>
      cases n' with
      | zero => exact throw_right _ _
      | succ n' =>
          rw [productFrom_succ, productFrom_succ]
          apply peek_bind
          intro t
          split
          · exact pure x y
          · exact skip.bind fun _ _ => h.bind fun _ _ => (ofExcept _ _).bind fun _ _ =>
              (ofExcept _ _).bind fun _ _ => ih n' _ _

theorem product {operand operand' : Eval Value} (h : InStep operand operand') (n n' : Nat) :
    InStep (product operand n) (product operand' n') :=
  h.bind fun x y => (productFrom h n n' x y).bind fun _ _ => ofExcept _ _

theorem sumFrom {product product' : Eval Float} (h : InStep product product') (n n' : Nat)
    (x y : Float) : InStep (sumFrom product n x) (sumFrom product' n' y) := by
  induction n generalizing n' x y with
  | zero => exact throw_left _ _
  | succ n ih =>
      cases n' with
      | zero => exact throw_right _ _
      | succ n' =>
          rw [sumFrom_succ, sumFrom_succ]
          apply peek_bind
          intro t
          split
          · exact skip.bind fun _ _ => h.bind fun _ _ => ih n' _ _
          · exact skip.bind fun _ _ => h.bind fun _ _ => ih n' _ _
          · exact pure x y

theorem sum {product product' : Eval Float} (h : InStep product product') (n n' : Nat) :
    InStep (sum product n) (sum product' n') :=
  h.bind fun x y => sumFrom h n n' x y

theorem assignment {value value' : Eval Float} (h : InStep value value') :
    InStep (assignment value) (assignment value') := by
  apply read_bind
  intro t
  split
  · rename_i name
    have write : InStep
        (do Functor.discard Eval.read; let x ← value; Eval.assign name x; return x)
        (do Functor.discard Eval.read; let x ← value'; Eval.assign name x; return x) :=
      skip.bind fun _ _ => h.bind fun x y => (assign name x y).bind fun _ _ => pure x y
    apply get_bind
    intro m m' hm
    split
    · exact fail _ _ hm
    · split
      · exact throw_right _ _ hm
      · exact write hm
  · exact fail _ _
  · exact fail _ _

section Levels

variable {deeper deeper' : Bindings → Eval Float}
  (h : ∀ bindings bindings', InStep (deeper bindings) (deeper' bindings'))
include h

theorem arguments {parameters parameters' : List String}
    (hl : parameters'.length = parameters.length) :
    InStep (arguments deeper parameters) (arguments deeper' parameters') := by
  induction parameters generalizing parameters' with
  | nil =>
      rw [List.length_nil, List.length_eq_zero_iff] at hl
      subst hl
      exact pure _ _
  | cons parameter rest ih =>
      cases parameters' with
      | nil => cases hl
      | cons parameter' rest' =>
          exact (h [] []).bind fun _ _ => (ih (Nat.succ.inj hl)).bind fun _ _ => pure _ _

variable (ho : ∀ bindings, Orderly (deeper bindings)) (ho' : ∀ bindings, Orderly (deeper' bindings))
include ho ho'

/-- The bodies are not read from the tokens that the cursors stand at. -/
theorem call (name : String) {f f' : Definition} (hl : f'.parameters.length = f.parameters.length) :
    InStep (call deeper name f) (call deeper' name f') := by
  apply (arguments h hl).bind
  intro bindings bindings'
  apply of_blind
  · exact (Orderly.note rfl).bind fun _ => (Orderly.lex _).bind fun tokens =>
      (ho bindings).within tokens
  · exact (Orderly.note rfl).bind fun _ => (Orderly.lex _).bind fun tokens =>
      (ho' bindings').within tokens
  · exact (Blind.note _).bind fun _ => Blind.lex_within _ _
  · exact (Blind.note _).bind fun _ => Blind.lex_within _ _

theorem resolve (bindings bindings' : Bindings) (name : String) :
    InStep (resolve deeper bindings name) (resolve deeper' bindings' name) := by
  intro m m' hm
  have arity := hm.arity? name
  unfold Calculator.arity? at arity
  cases hf : m.calculator.functionOf? name with
  | none =>
      rw [hf, Option.map_none, Option.map_eq_none_iff] at arity
      exact .of_cursor hm (Orderly.resolve ho bindings name) (Orderly.resolve ho' bindings' name)
        (cursor_of_resolve hf) (cursor_of_resolve arity)
  | some f =>
      rw [hf, Option.map_some, Option.map_eq_some_iff] at arity
      obtain ⟨f', hf', hl⟩ := arity
      rw [resolve_of_function hf, resolve_of_function hf']
      exact (call h ho ho' name hl).bind (fun _ _ => pure _ _) hm

theorem level (n n' : Nat) (bindings bindings' : Bindings) :
    InStep (level deeper n bindings) (level deeper' n' bindings') := by
  intro m m' hm
  unfold Eval.level
  rw [bind_apply, bind_apply, atAssignment_apply, atAssignment_apply, hm.cursor]
  dsimp only
  split
  · exact assignment (h [] []) hm
  · exact sum (product (operand (h bindings bindings') (resolve h ho ho' bindings bindings')) n n')
      n n' hm

end Levels

theorem expression (n n' : Nat) (bindings bindings' : Bindings) :
    InStep (expression n bindings) (expression n' bindings') := by
  induction n generalizing n' bindings bindings' with
  | zero => exact throw_left _ _
  | succ n ih =>
      cases n' with
      | zero => exact throw_right _ _
      | succ n' =>
          exact nested (level (fun bindings bindings' => ih n' bindings bindings')
            (Orderly.expression n) (Orderly.expression n') n n' bindings bindings')

end InStep

/-- **How much is read does not depend on values.**  Of two machines whose cursors stand at the same
tokens, and which know the same functions with the same numbers of parameters, an expression leaves
the cursors at the same token, if it gives a value on both: whatever the variables, the bodies of the
functions, the parameters in force, the levels and the limits are. -/
theorem expression_cursor {m m' : Machine} (cursor : m'.cursor = m.cursor)
    (arity : ∀ name, m'.calculator.arity? name = m.calculator.arity? name) {n n' : Nat}
    {bindings bindings' : Bindings} {x x' : Float} {m₁ m₁' : Machine}
    (h : expression n bindings m = .ok x m₁) (h' : expression n' bindings' m' = .ok x' m₁') :
    m₁'.cursor = m₁.cursor :=
  (InStep.expression n n' bindings bindings' ⟨cursor, arity⟩ h h').cursor

/-- `x` is a variable or a parameter, and `f` adds or multiplies: of `x - f 3 4` the same is read. -/
theorem expression_cursor_call :
    let two := (Numeral.ofWhole "2").value
    let tokens := Token.ofText "x - f 3 4"
    let c := ((Calculator.empty 9).assign "x" two).define "f" ⟨["a"], Token.ofText "a + 1"⟩
    let c' := (Calculator.empty 4).define "f" ⟨["b"], Token.ofText "(b) * 0"⟩
    let m := { Machine.start c with cursor := .ofTokens tokens }
    let m' := { Machine.start c' with cursor := .ofTokens tokens, depth := 1 }
    (∀ name, m'.calculator.arity? name = m.calculator.arity? name) ∧
    ∃ m₁ m₁', expression 9 [] m = .ok (-two) m₁ ∧ expression 7 [("x", two)] m' = .ok two m₁' ∧
      m₁.cursor.remaining = Token.ofText "4" ∧ m₁'.cursor = m₁.cursor := by
  intro two tokens c c' m m'
  have same : m'.cursor = m.cursor := rfl
  have arity : ∀ name, m'.calculator.arity? name = m.calculator.arity? name := by
    intro name
    show c'.arity? name = c.arity? name
    simp only [Calculator.arity?, c, c', Calculator.functionOf?_define,
      Calculator.functionOf?_assign]
    split <;> rfl
  let stopped : Cursor := ⟨(tokens.take 4).reverse, some (tokens.drop 4)⟩
  have first : ending? (expression 9 [] m) = some (-two, stopped) := by decide +kernel
  have second : ending? (expression 7 [("x", two)] m') = some (two, stopped) := by decide +kernel
  have left : stopped.remaining = Token.ofText "4" := by decide +kernel
  obtain ⟨m₁, h, e⟩ := of_ending?_eq_some first
  obtain ⟨m₁', h', -⟩ := of_ending?_eq_some second
  exact ⟨arity, m₁, m₁', h, h', e ▸ left, expression_cursor same arity h h'⟩

end Eval

end LineCalc
