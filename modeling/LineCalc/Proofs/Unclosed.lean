import LineCalc.Proofs.Extent
import LineCalc.Proofs.Openings

/-! # Parentheses that are not closed

What closes parentheses is read without a look at it, and this may be the one reading that is allowed at the
end.  Then the operand has a value although nothing closes the parentheses, and leaves the cursor past the
end.  No expression has a value because of that: a product reads on after each of its operands, and past the
end that fails.

To say so of all parentheses, however deep they stand, the grammar is written once more with an *alarm*: it
stops where the parentheses are to be closed and no token is left (`Eval.Strict`).  `Guards alarm late x y`
says that the strict evaluation `y` does what `x` does, unless the alarm has stopped it, and what becomes of
`x` then: if it has a value at all, the machine that it leaves is `late`.  For an operand this means past the
end; from a product on there is no value. -/

namespace LineCalc

/-- The reading that finds no token goes past the end. -/
theorem Cursor.after?_of_next_none {c d : Cursor} (h : c.next = .ok (none, d)) : d.after? = none := by
  obtain ⟨before, _ | _ | ⟨t, after⟩⟩ := c <;> cases h
  rfl

theorem Number.leftParen_not_mem_ofText_text (x : Float) : .leftParen ∉ Token.ofText (text x) := by
  obtain ⟨t, e | e, ⟨n, rfl⟩ | rfl | rfl⟩ := ofText_text x <;> simp [e]

namespace Eval

variable {α β : Type}

/-! ### The strict grammar -/

/-- What stands in parentheses, or the alarm if no token is left to close them. -/
def closed (alarm : Stop) (group : Eval Float) : Eval Float := do
  let x ← group
  match ← peek with
  | some _ => return x
  | none => throw alarm

namespace Strict

section Levels

variable (alarm : Stop) (deeper : Bindings → Eval Float)

def reread (x : Float) : Eval Value := do
  let text := Number.text x
  note (.reread text)
  let tokens ← lex text
  within tokens (operand (closed alarm (deeper [])) (resolveGlobal deeper))

def resolve (bindings : Bindings) (name : String) : Eval Value :=
  resolveWith (reread alarm deeper) (resolveGlobal deeper) bindings name

def level (budget : Nat) (bindings : Bindings) : Eval Float := do
  if ← atAssignment then
    assignment (deeper [])
  else
    sum (product (operand (closed alarm (deeper bindings)) (resolve alarm deeper bindings)) budget) budget

end Levels

def expression (alarm : Stop) : Nat → Bindings → Eval Float
  | 0, _ => throw .exhausted
  | n + 1, bindings => nested (level alarm (expression alarm n) n bindings)

end Strict

/-- Where no parenthesis is left to read, it does not matter how to evaluate what stands in one. -/
theorem operand_congr {m : Machine} (h : .leftParen ∉ m.cursor.remaining) (group group' : Eval Float)
    (resolve : String → Eval Value) : operand group resolve m = operand group' resolve m := by
  rw [operand_eq, operand_eq, bind_apply, bind_apply]
  cases minus : readMinus m with
  | error s m₁ => rfl
  | ok negative m₁ =>
      have effect := (Orderly.readMinus m).effect_of_ok minus
      have suffix := Cursor.remaining_suffix effect.tokens ((Orderly.readMinus m).forward minus)
      dsimp only
      rw [bind_apply, bind_apply]
      cases e : m₁.cursor.next with
      | error fault => rw [peek_of_error e]
      | ok next =>
          obtain ⟨t, c⟩ := next
          rw [peek_of_next e]
          have other : t ≠ some .leftParen := by
            rintro rfl
            apply h
            apply suffix.subset
            rw [Cursor.remaining_of_next e]
            exact List.mem_cons_self
          cases t with
          | none => rfl
          | some t =>
              cases t with
              | leftParen => exact absurd rfl other
              | _ => rfl

theorem within_operand_congr {tokens : List Token} (h : .leftParen ∉ tokens) (group group' : Eval Float)
    (resolve : String → Eval Value) :
    within tokens (operand group resolve) = within tokens (operand group' resolve) := by
  funext m
  rw [within_apply, within_apply,
    operand_congr (m := { m with cursor := .ofTokens tokens }) h group group']

/-! ### Past the end -/

/-- The cursor is past the end. -/
def PastEnd (m : Machine) : Prop := m.cursor.after? = none

/-- Past the end the evaluation gives no value. -/
def FailsPastEnd (x : Eval α) : Prop := ∀ ⦃m a m'⦄, PastEnd m → x m ≠ .ok a m'

namespace FailsPastEnd

theorem bind {x : Eval α} (h : FailsPastEnd x) (f : α → Eval β) : FailsPastEnd (x >>= f) := by
  intro m b m₂ past e
  obtain ⟨a, m₁, e₁, -⟩ := of_bind_eq_ok e
  exact h past e₁

/-- What does not move the cursor leaves it past the end. -/
theorem after {x : Eval α} {f : α → Eval β} (hx : Blind x) (hf : ∀ a, FailsPastEnd (f a)) :
    FailsPastEnd (x >>= f) := by
  intro m b m₂ past e
  obtain ⟨a, m₁, e₁, e₂⟩ := of_bind_eq_ok e
  exact hf a ((congrArg Cursor.after? (hx.cursor_eq e₁)).trans past) e₂

/-- To look at the next token is a reading. -/
theorem peek : FailsPastEnd peek := by
  intro m t m' past e
  have left : m.cursor.after? = none := past
  have fails : m.cursor.next = .error .endOfInput := by simp only [Cursor.next, left]
  rw [peek_of_error fails] at e
  cases e

theorem productFrom (operand : Eval Value) (n : Nat) (x : Value) :
    FailsPastEnd (productFrom operand n x) := by
  cases n with
  | zero =>
      intro m a m' past e
      cases e
  | succ n =>
      rw [productFrom_succ]
      exact peek.bind _

end FailsPastEnd

/-! ### What the alarm leaves as it is -/

/-- The second result is the first, or the alarm.  In that case a value of the first is late. -/
def Rings (alarm : Stop) (late : Machine → Prop) (r r' : EStateM.Result Stop Machine α) : Prop :=
  r' = r ∨ (∃ m', r' = .error alarm m') ∧ ∀ a m', r = .ok a m' → late m'

/-- The second evaluation does what the first does, unless the alarm stops it. -/
def Guards (alarm : Stop) (late : Machine → Prop) (x y : Eval α) : Prop :=
  ∀ m, Rings alarm late (x m) (y m)

/-- No machine is late, so that there is no value. -/
def Never (_ : Machine) : Prop := False

theorem Rings.onMachine {alarm : Stop} {r r' : EStateM.Result Stop Machine α} (h : Rings alarm Never r r')
    (f : Machine → Machine) : Rings alarm Never (onMachine f r) (onMachine f r') := by
  obtain rfl | ⟨⟨m', rfl⟩, stops⟩ := h
  · exact .inl rfl
  · refine .inr ⟨⟨f m', rfl⟩, ?_⟩
    intro a m e
    obtain ⟨m₁, e₁, -⟩ := of_onMachine_ok e
    exact stops a m₁ e₁

namespace Guards

variable {alarm : Stop} {late : Machine → Prop}

theorem refl (x : Eval α) : Guards alarm late x x := fun _ => .inl rfl

theorem weaken {x y : Eval α} (h : Guards alarm Never x y) : Guards alarm late x y := by
  intro m
  obtain same | ⟨rings, stops⟩ := h m
  · exact .inl same
  · exact .inr ⟨rings, fun a m' e => (stops a m' e).elim⟩

/-- What follows a late value must be late, if it gives a value. -/
theorem bind_late {late' : Machine → Prop} {x y : Eval α} {f g : α → Eval β} (h : Guards alarm late' x y)
    (hf : ∀ a, Guards alarm late (f a) (g a))
    (later : ∀ {a m b m'}, late' m → f a m = .ok b m' → late m') :
    Guards alarm late (x >>= f) (y >>= g) := by
  intro m
  obtain same | ⟨⟨m', rings⟩, left⟩ := h m
  · rw [bind_apply, bind_apply, same]
    cases x m with
    | ok a m₁ => exact hf a m₁
    | error s m₁ => exact .inl rfl
  · refine .inr ⟨⟨m', by rw [bind_apply, rings]⟩, ?_⟩
    intro b m₂ e
    obtain ⟨a, m₁, e₁, e₂⟩ := of_bind_eq_ok e
    exact later (left a m₁ e₁) e₂

theorem bind {x y : Eval α} {f g : α → Eval β} (h : Guards alarm Never x y)
    (hf : ∀ a, Guards alarm late (f a) (g a)) : Guards alarm late (x >>= f) (y >>= g) :=
  h.bind_late hf fun never _ => never.elim

/-- What follows a value that was reached past the end fails. -/
theorem bind_pastEnd {x y : Eval α} {f g : α → Eval β} (h : Guards alarm PastEnd x y)
    (hf : ∀ a, Guards alarm Never (f a) (g a)) (fails : ∀ a, FailsPastEnd (f a)) :
    Guards alarm Never (x >>= f) (y >>= g) :=
  h.bind_late hf fun past e => fails _ past e

theorem nested {x y : Eval α} (h : Guards alarm Never x y) : Guards alarm Never (nested x) (nested y) := by
  intro m
  by_cases hd : m.depth < m.calculator.limit
  · rw [nested_of_lt x hd, nested_of_lt y hd]
    exact (h _).onMachine _
  · rw [nested_of_ge x hd, nested_of_ge y hd]
    exact .inl rfl

theorem within {x y : Eval α} (h : Guards alarm Never x y) (tokens : List Token) :
    Guards alarm Never (within tokens x) (within tokens y) := by
  intro m
  rw [within_apply, within_apply]
  exact (h _).onMachine _

/-- Reading a text of its own. -/
theorem announced {x y : Eval α} (h : Guards alarm Never x y) (r : Record) (text : String) :
    Guards alarm Never (do note r; let tokens ← lex text; Eval.within tokens x)
      (do note r; let tokens ← lex text; Eval.within tokens y) :=
  (refl (note r)).bind fun _ => (refl (lex text)).bind fun tokens => h.within tokens

theorem tokenCongruence : TokenCongruence (fun {_} => Guards alarm Never) where
  pure _ := refl _
  bind := bind
  fail _ := refl _
  read := refl _
  peek := refl _
  minus := refl _

theorem nameCongruence : NameCongruence (fun _ _ => True) (fun {_} => Guards alarm Never) :=
  { tokenCongruence.toCongruence with
    function := fun h => (refl (look _)).bind fun f? => h f? fun _ _ => trivial
    value := fun _ => refl _
    body := fun _ h _ => h.announced _ _
    number := fun h _ => h.announced _ _ }

/-! ### The levels of the grammar -/

/-- Where the alarm rings, the reading that closes the parentheses goes past the end. -/
theorem closing {group group' : Eval Float} (h : Guards alarm Never group group') :
    Guards alarm PastEnd (do let x ← group; discard read; return Value.number x)
      (do let x ← closed alarm group'; discard read; return Value.number x) := by
  unfold closed
  rw [bind_assoc]
  apply h.bind
  intro x m
  cases e : m.cursor.next with
  | error fault =>
      left
      simp only [bind_apply, peek_of_error e, discard_apply, read_of_error e]
  | ok next =>
      obtain ⟨t, c⟩ := next
      cases t with
      | some t =>
          left
          simp only [bind_apply, peek_of_next e, pure_apply]
      | none =>
          right
          constructor
          · exact ⟨m, by simp only [bind_apply, peek_of_next e, throw_apply]⟩
          · intro v m' e'
            simp only [bind_apply, discard_apply, read_of_next e, pure_apply] at e'
            cases e'
            exact Cursor.after?_of_next_none e

theorem operand {group group' : Eval Float} {resolve resolve' : String → Eval Value}
    (hg : Guards alarm late (do let x ← group; discard read; return Value.number x)
      (do let x ← group'; discard read; return Value.number x))
    (hr : ∀ name, Guards alarm Never (resolve name) (resolve' name)) :
    Guards alarm late (operand group resolve) (operand group' resolve') := by
  rw [operand_eq, operand_eq]
  apply (refl readMinus).bind
  intro negative
  apply (refl peek).bind
  intro t
  split
  · exact refl _
  · exact (refl _).bind fun _ => (hr _).weaken
  · exact (refl _).bind fun _ => hg
  · exact refl _
  · exact refl _

theorem productFrom {operand operand' : Eval Value} (h : Guards alarm PastEnd operand operand') (n : Nat)
    (x : Value) : Guards alarm Never (productFrom operand n x) (productFrom operand' n x) := by
  induction n generalizing x with
  | zero => exact refl _
  | succ n ih =>
      rw [productFrom_succ, productFrom_succ]
      apply (refl peek).bind
      intro t
      split
      · exact refl _
      · apply (refl (Functor.discard read)).bind
        intro _
        apply h.bind_pastEnd
        · exact fun y => (refl _).bind fun x => (refl _).bind fun y => ih _
        · exact fun y => .after (.ofExcept _) fun x => .after (.ofExcept _) fun y => .productFrom _ n _

theorem product {operand operand' : Eval Value} (h : Guards alarm PastEnd operand operand') (n : Nat) :
    Guards alarm Never (product operand n) (product operand' n) :=
  h.bind_pastEnd (fun x => (productFrom h n x).bind fun _ => refl _)
    fun x => (FailsPastEnd.productFrom operand n x).bind _

section Levels

variable {deeper deeper' : Bindings → Eval Float}
  (h : ∀ bindings, Guards alarm Never (deeper bindings) (deeper' bindings))
include h

/-- No product reads on after the text of a number, but this has no parentheses. -/
theorem reread (x : Float) : Guards alarm Never (reread deeper x) (Strict.reread alarm deeper' x) := by
  have inner : Guards alarm Never
      (Eval.within (Token.ofText (Number.text x))
        (Eval.operand (deeper []) (Eval.resolveGlobal deeper)))
      (Eval.within (Token.ofText (Number.text x))
        (Eval.operand (closed alarm (deeper' [])) (Eval.resolveGlobal deeper'))) := by
    rw [within_operand_congr (Number.leftParen_not_mem_ofText_text x) (closed alarm (deeper' []))
      (deeper [])]
    exact (operand (refl _) (nameCongruence.resolveGlobal h)).within _
  apply (refl (note _)).bind
  intro _ m
  exact inner (m.note (.lexed (Number.text x) (Token.ofText (Number.text x)).length))

theorem level (budget : Nat) (bindings : Bindings) :
    Guards alarm Never (level deeper budget bindings) (Strict.level alarm deeper' budget bindings) := by
  have resolve (name : String) : Guards alarm Never (Eval.resolve deeper bindings name)
      (Strict.resolve alarm deeper' bindings name) :=
    nameCongruence.resolveWith (reread h) (nameCongruence.resolveGlobal h) bindings name
  have product := product (operand (closing (h bindings)) resolve) budget
  apply (refl atAssignment).bind
  intro isAssignment
  split
  · exact tokenCongruence.assignment (fun _ => refl _) (fun _ _ => refl _) (h [])
  · exact tokenCongruence.sum (refl _) product budget

end Levels

theorem expression (alarm : Stop) (n : Nat) (bindings : Bindings) :
    Guards alarm Never (expression n bindings) (Strict.expression alarm n bindings) := by
  induction n generalizing bindings with
  | zero => exact refl _
  | succ n ih => exact (level ih n bindings).nested

end Guards

end Eval

end LineCalc
