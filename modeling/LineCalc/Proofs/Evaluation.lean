import LineCalc.Line

/-! # Laws of evaluations

How the pieces of which evaluations are made act on a machine.

* `bind_apply` runs one evaluation after the other; the other equations run the single steps.
* `peek` looks at the next token and leaves it there.  An operand and the loops of a product and of
  a sum read a token and put it back if it is not theirs, which is `peek` and then, perhaps, a reading
  (`operand_eq`, `productFrom_succ`, `sumFrom_succ`).  No other evaluation puts a token back. -/

namespace LineCalc

namespace Cursor

theorem back_of_next {c c' : Cursor} {t : Option Token} (h : c.next = .ok (t, c')) :
    c'.back = c := by
  rcases c with ⟨before, _ | _ | ⟨u, after⟩⟩ <;> simp [next] at h <;>
    obtain ⟨rfl, rfl⟩ := h <;> rfl

theorem position_of_next {c c' : Cursor} {t : Option Token} (h : c.next = .ok (t, c')) :
    c'.position = c.position + 1 := by
  rcases c with ⟨before, _ | _ | ⟨u, after⟩⟩ <;> simp [next] at h <;>
    obtain ⟨rfl, rfl⟩ := h <;> rfl

theorem eq_endOfInput_of_next {c : Cursor} {fault : Fault} (h : c.next = .error fault) :
    fault = .endOfInput := by
  obtain ⟨before, _ | _ | ⟨t, after⟩⟩ := c <;> cases h
  rfl

theorem length_remaining (c : Cursor) : c.remaining.length = c.tokens.length - c.position := by
  rcases c with ⟨before, _ | after⟩
  · simp only [remaining, tokens, position, Option.getD_none, List.length_nil, List.append_nil,
      List.length_reverse]
    omega
  · simp only [remaining, tokens, position, Option.getD_some, List.length_append,
      List.length_reverse]
    omega

end Cursor

namespace Token

/-- Whether an expression goes on with the token, where it might end. -/
def continues : Token → Bool
  | plus | minus | star | slash | percent | equals => true
  | _ => false

theorem agrees_minus_of_continues {t : Token} (h : t.continues = false) : t.agrees .minus = false := by
  cases t <;> first
    | rfl
    | cases h

theorem ofToken?_of_continues {t : Token} (h : t.continues = false) :
    ProductOperator.ofToken? t = none := by
  cases t <;> first
    | rfl
    | cases h

end Token

namespace Eval

variable {α β : Type}

/-! ### Single steps -/

theorem bind_apply (x : Eval α) (f : α → Eval β) (m : Machine) :
    (x >>= f) m = match x m with
      | .ok a m' => f a m'
      | .error e m' => .error e m' := by
  simp only [bind, EStateM.bind]
  cases x m <;> rfl

/-- Where one evaluation after the other gives a result, the first one does. -/
theorem of_bind_eq_ok {x : Eval α} {f : α → Eval β} {m m₂ : Machine} {b : β}
    (h : (x >>= f) m = .ok b m₂) : ∃ a m₁, x m = .ok a m₁ ∧ f a m₁ = .ok b m₂ := by
  rw [bind_apply] at h
  cases e : x m with
  | ok a m₁ =>
      rw [e] at h
      exact ⟨a, m₁, rfl, h⟩
  | error s m₁ =>
      rw [e] at h
      cases h

@[simp] theorem pure_apply (a : α) (m : Machine) : (pure a : Eval α) m = .ok a m := rfl

@[simp] theorem get_apply (m : Machine) : (get : Eval Machine) m = .ok m m := rfl

@[simp] theorem throw_apply (e : Stop) (m : Machine) : (throw e : Eval α) m = .error e m := rfl

@[simp] theorem fail_apply (fault : Fault) (m : Machine) :
    (fail fault : Eval α) m = .error (.fault fault) m := rfl

@[simp] theorem note_apply (r : Record) (m : Machine) : note r m = .ok () (m.note r) := rfl

@[simp] theorem unread_apply (m : Machine) :
    unread m = .ok () { m with cursor := m.cursor.back } := rfl

@[simp] theorem lex_apply (text : String) (m : Machine) :
    lex text m = .ok (Token.ofText text) (m.note (.lexed text (Token.ofText text).length)) := rfl

@[simp] theorem assign_apply (name : String) (x : Float) (m : Machine) :
    assign name x m =
      .ok () { m.note (.assigned name x) with calculator := m.calculator.assign name x } := rfl

theorem discard_apply (x : Eval α) (m : Machine) :
    (discard x : Eval Unit) m = match x m with
      | .ok _ m' => .ok () m'
      | .error e m' => .error e m' := by
  show EStateM.map _ x m = _
  simp only [EStateM.map]
  cases x m <;> rfl

theorem read_of_next {m : Machine} {t : Option Token} {c : Cursor} (h : m.cursor.next = .ok (t, c)) :
    read m = .ok t { m with cursor := c } := by
  simp [read, h]

theorem read_of_error {m : Machine} {fault : Fault} (h : m.cursor.next = .error fault) :
    read m = .error (.fault fault) m := by
  simp [read, h]

@[simp] theorem ofExcept_ok (a : α) : (ofExcept (.ok a) : Eval α) = pure a := rfl

@[simp] theorem ofExcept_error (fault : Fault) : (ofExcept (.error fault) : Eval α) = fail fault :=
  rfl

/-- An expression is an assignment if its second token is `=` and something follows. -/
def beginsAssignment : List Token → Bool
  | _ :: .equals :: _ :: _ => true
  | _ => false

theorem eq_of_beginsAssignment {tokens : List Token} (h : beginsAssignment tokens = true) :
    ∃ target next rest, tokens = target :: .equals :: next :: rest := by
  unfold beginsAssignment at h
  split at h
  · exact ⟨_, _, _, rfl⟩
  · cases h

@[simp] theorem atAssignment_apply (m : Machine) :
    atAssignment m = .ok (beginsAssignment m.cursor.remaining) m := by
  simp only [atAssignment, bind_apply, get_apply]
  rcases m.cursor.remaining with _ | ⟨first, _ | ⟨t, _ | ⟨next, rest⟩⟩⟩
  · rfl
  · rfl
  · cases t <;> rfl
  · cases t <;> rfl

/-! ### The machine that is left -/

/-- The machine of a result. -/
def machineOf : EStateM.Result Stop Machine α → Machine
  | .ok _ m => m
  | .error _ m => m

/-- The machine that an evaluation leaves, whether it gives a result or stops. -/
def after (x : Eval α) (m : Machine) : Machine := machineOf (x m)

theorem after_of_ok {x : Eval α} {m m' : Machine} {a : α} (h : x m = .ok a m') :
    after x m = m' := by
  unfold after
  rw [h, machineOf]

theorem after_of_error {x : Eval α} {m m' : Machine} {e : Stop} (h : x m = .error e m') :
    after x m = m' := by
  unfold after
  rw [h, machineOf]

@[simp] theorem machineOf_onMachine (f : Machine → Machine)
    (r : EStateM.Result Stop Machine α) : machineOf (onMachine f r) = f (machineOf r) := by
  cases r <;> rfl

theorem of_onMachine_ok {f : Machine → Machine} {r : EStateM.Result Stop Machine α} {a : α}
    {m : Machine} (h : onMachine f r = .ok a m) : ∃ m', r = .ok a m' ∧ m = f m' := by
  cases r with
  | ok b m' => cases h; exact ⟨m', rfl, rfl⟩
  | error e m' => cases h

theorem nested_of_lt (x : Eval α) {m : Machine} (h : m.depth < m.calculator.limit) :
    nested x m =
      onMachine (fun m => { m with depth := m.depth - 1 }) (x { m with depth := m.depth + 1 }) := by
  unfold nested
  rw [if_pos h]

theorem nested_of_ge (x : Eval α) {m : Machine} (h : ¬ m.depth < m.calculator.limit) :
    nested x m = .error (.fault (.depthExceeded m.calculator.limit))
      (m.note (.depthReached m.calculator.limit)) := by
  unfold nested
  rw [if_neg h]

/-- Where an evaluation one level deeper gives a result, the limit allows that level. -/
theorem of_nested_eq_ok {x : Eval α} {m m' : Machine} {a : α} (h : nested x m = .ok a m') :
    m.depth < m.calculator.limit ∧ ∃ m₁, x { m with depth := m.depth + 1 } = .ok a m₁ ∧
      m' = { m₁ with depth := m₁.depth - 1 } := by
  by_cases hd : m.depth < m.calculator.limit
  · rw [nested_of_lt x hd] at h
    exact ⟨hd, of_onMachine_ok h⟩
  · rw [nested_of_ge x hd] at h
    cases h

theorem within_apply (tokens : List Token) (x : Eval α) (m : Machine) :
    within tokens x m = onMachine (fun m' => { m' with cursor := m.cursor })
      (x { m with cursor := .ofTokens tokens }) := rfl

/-! ### Looking ahead -/

/-- The next token, which stays where it is. -/
def peek : Eval (Option Token) := fun m =>
  match m.cursor.next with
  | .ok (token, _) => .ok token m
  | .error fault => .error (.fault fault) m

theorem peek_of_next {m : Machine} {t : Option Token} {c : Cursor} (h : m.cursor.next = .ok (t, c)) :
    peek m = .ok t m := by
  simp [peek, h]

theorem peek_of_error {m : Machine} {fault : Fault} (h : m.cursor.next = .error fault) :
    peek m = .error (.fault fault) m := by
  simp [peek, h]

/-- An operand, in terms of `peek`. -/
theorem operand_eq (group : Eval Float) (resolve : String → Eval Value) :
    operand group resolve = (do
      let negative ← readMinus
      match ← peek with
      | some (.number numeral) =>
        discard read
        return .number (if negative then -numeral.value else numeral.value)
      | some (.identifier name) =>
        discard read
        resolve name
      | some .leftParen =>
        discard read
        let x ← group
        discard read
        return .number x
      | some other => fail (.unexpectedToken other.text)
      | none =>
        discard read
        fail .endOfInput) := by
  refine congrArg (readMinus >>= ·) (funext fun negative => funext fun m => ?_)
  cases h : m.cursor.next with
  | error fault => simp only [bind_apply, read_of_error h, peek_of_error h]
  | ok next =>
      obtain ⟨t, c⟩ := next
      simp only [bind_apply, read_of_next h, peek_of_next h]
      split
      · simp only [bind_apply, discard_apply, read_of_next h]
      · simp only [bind_apply, discard_apply, read_of_next h]
      · simp only [bind_apply, discard_apply, read_of_next h]
      · simp [bind_apply, Cursor.back_of_next h]
      · simp only [bind_apply, discard_apply, read_of_next h]

/-- Going on with a product, in terms of `peek`. -/
theorem productFrom_succ (operand : Eval Value) (n : Nat) (x : Value) :
    productFrom operand (n + 1) x = (do
      match (← peek).bind ProductOperator.ofToken? with
      | none => return x
      | some op =>
        discard read
        let y ← operand
        let x ← ofExcept x.toNumber
        let y ← ofExcept y.toNumber
        productFrom operand n (.number (op.apply x y))) := by
  funext m
  rw [productFrom]
  cases h : m.cursor.next with
  | error fault => simp [bind_apply, read_of_error h, peek_of_error h]
  | ok next =>
      obtain ⟨t, c⟩ := next
      simp only [bind_apply, read_of_next h, peek_of_next h]
      cases t.bind ProductOperator.ofToken? with
      | none => simp [bind_apply, Cursor.back_of_next h]
      | some op => simp only [bind_apply, discard_apply, read_of_next h]

/-- Going on with a sum, in terms of `peek`. -/
theorem sumFrom_succ (product : Eval Float) (n : Nat) (x : Float) :
    sumFrom product (n + 1) x = (do
      match ← peek with
      | some .plus =>
        discard read
        let y ← product
        sumFrom product n (x + y)
      | some .minus =>
        discard read
        let y ← product
        sumFrom product n (x - y)
      | _ => return x) := by
  funext m
  rw [sumFrom]
  cases h : m.cursor.next with
  | error fault => simp [bind_apply, read_of_error h, peek_of_error h]
  | ok next =>
      obtain ⟨t, c⟩ := next
      simp only [bind_apply, read_of_next h, peek_of_next h]
      split
      · simp only [bind_apply, discard_apply, read_of_next h]
      · simp only [bind_apply, discard_apply, read_of_next h]
      · simp [bind_apply, Cursor.back_of_next h]

/-! ### Levels with parts left open -/

/-- What a name stands for that is no parameter, given how to call the function of that name. -/
def globalWith (call : Definition → Eval Float) (name : String) : Eval Value := do
  match (← get).calculator.functionOf? name with
  | some f => return .number (← call f)
  | none =>
    match (← get).calculator.valueOf? name with
    | some x => return .number x
    | none => return .unresolved name

/-- What a name stands for where `bindings` are in force, given how to look up the value of a
parameter and what it stands for otherwise. -/
def resolveWith (parameter : Float → Eval Value) (global : String → Eval Value)
    (bindings : Bindings) (name : String) : Eval Value := do
  match (← get).calculator.functionOf? name, bindings.lookup name with
  | none, some x => parameter x
  | _, _ => global name

/-- An expression, given what names stand for in it. -/
def levelWith (deeper : Bindings → Eval Float) (resolve : String → Eval Value) (budget : Nat)
    (bindings : Bindings) : Eval Float := do
  if ← atAssignment then
    assignment (deeper [])
  else
    sum (product (operand (deeper bindings) resolve) budget) budget

/-- An expression that takes up the whole of a line, given how to evaluate it. -/
def wholeWith (value : Eval Float) (text : String) : Eval Float := do
  let x ← value
  if (← get).cursor.remainingCount = 0 then return x
  else fail (.trailingTokens text)

/-- A line, given how to evaluate an expression. -/
def lineWith (value : Eval Float) (text : String) : Eval (Option Float) := do
  match ← lex text with
  | [] => return none
  | first :: rest =>
    if first = .identifier Definition.keyword then
      definition rest
      return none
    else
      return some (← within (first :: rest) (wholeWith value text))

variable (deeper : Bindings → Eval Float)

theorem resolveGlobal_eq (name : String) :
    resolveGlobal deeper name = globalWith (call deeper name) name := rfl

theorem resolve_eq (bindings : Bindings) (name : String) :
    resolve deeper bindings name =
      resolveWith (reread deeper) (resolveGlobal deeper) bindings name := rfl

/-- Where there are no parameters, nothing is one. -/
theorem resolve_nil : resolve deeper [] = resolveGlobal deeper := by
  funext name m
  rw [resolve_eq, resolveWith, bind_apply, get_apply]
  dsimp only
  cases m.calculator.functionOf? name with
  | some f => rfl
  | none => rfl

theorem level_eq (budget : Nat) (bindings : Bindings) :
    level deeper budget bindings = levelWith deeper (resolve deeper bindings) budget bindings := rfl

theorem line_eq (text : String) (n : Nat) : line text n = lineWith (expression n []) text := rfl

end Eval

end LineCalc
