import LineCalc.Proofs.Advancing
import LineCalc.Proofs.Assigning
import LineCalc.Proofs.CursorUses
import LineCalc.Proofs.Unclosed
import LineCalc.Proofs.Watching

/-! # Where an expression ends

An expression that gives a value has read something (`Advances.expression`) and is not past the end, and what
stands behind it is no operator (`StopsBefore.expression`).  A product goes on as long as an operator of its
own comes next, so it stops before another token or at the end (`StopsBefore.product`).  There the sum looks
at the same token again, and stops if it is no operator of its own either (`StopsBefore.sum`).  An assignment
ends where its right-hand side does.

So tokens that are left over of a line are really there, and parentheses that nothing closes are never a
part of an expression with a value (`Guards.expression`). -/

namespace LineCalc

namespace Cursor

/-- On a row of tokens, cursors stand at every position up to one past the end. -/
theorem exists_position_iff (tokens : List Token) (i : Nat) :
    (∃ c : Cursor, c.tokens = tokens ∧ c.position = i) ↔ i ≤ tokens.length + 1 := by
  constructor
  · rintro ⟨c, rfl, rfl⟩
    exact c.position_le
  · intro few
    by_cases past : i = tokens.length + 1
    · refine ⟨⟨tokens.reverse, none⟩, ?_, ?_⟩
      · simp [Cursor.tokens, remaining]
      · simp [position, past]
    · refine ⟨⟨(tokens.take i).reverse, some (tokens.drop i)⟩, ?_, ?_⟩
      · simp [Cursor.tokens, remaining]
      · simp only [position, List.length_reverse, List.length_take]
        omega

/-- The token at the position of the cursor is the next one. -/
theorem getElem?_position (c : Cursor) : c.tokens[c.position]? = c.remaining.head? := by
  rw [remaining_eq_drop, List.head?_drop]

theorem position_le_of_after? {c : Cursor} {rest : List Token} (h : c.after? = some rest) :
    c.position ≤ c.tokens.length := by
  obtain ⟨before, after⟩ := c
  obtain rfl : after = some rest := h
  simp [position, tokens]

end Cursor

namespace Token

/-- The tokens with which sums and products go on. -/
def operators : List Token := [plus, minus, star, slash, percent]

theorem not_mem_operators {t : Token} (product : ProductOperator.ofToken? t = none) (noPlus : t ≠ plus)
    (noMinus : t ≠ minus) : t ∉ operators := by
  cases t with
  | plus => exact absurd rfl noPlus
  | minus => exact absurd rfl noMinus
  | star => cases product
  | slash => cases product
  | percent => cases product
  | _ => simp [operators]

end Token

namespace Eval

variable {α β : Type}

/-! ### What stands behind -/

/-- The cursor is not past the end, and the next token has the property, if there is one. -/
def StandsBefore (p : Token → Prop) (m : Machine) : Prop :=
  ∃ rest, m.cursor.after? = some rest ∧ ∀ t ∈ rest.head?, p t

/-- Where the evaluation gives a value, it stops before such a token or at the end. -/
def StopsBefore (p : Token → Prop) (x : Eval α) : Prop := ∀ ⦃m a m'⦄, x m = .ok a m' → StandsBefore p m'

theorem of_peek_eq_ok {m m' : Machine} {t : Option Token} (h : peek m = .ok t m') :
    m' = m ∧ ∃ rest, m.cursor.after? = some rest ∧ t = rest.head? := by
  obtain ⟨calculator, depth, ⟨before, _ | _ | ⟨u, after⟩⟩, trace⟩ := m <;> cases h
  · exact ⟨rfl, [], rfl, rfl⟩
  · exact ⟨rfl, u :: after, rfl, rfl⟩

namespace StopsBefore

variable {p : Token → Prop}

theorem throw (s : Stop) : StopsBefore p (throw s : Eval α) := by
  intro m a m' e
  cases e

theorem fail (fault : Fault) : StopsBefore p (fail fault : Eval α) := throw _

theorem bind {x : Eval α} {f : α → Eval β} (hf : ∀ a, StopsBefore p (f a)) : StopsBefore p (x >>= f) := by
  intro m b m₂ e
  obtain ⟨a, m₁, -, e₂⟩ := of_bind_eq_ok e
  exact hf a e₂

/-- What does not move the cursor stops where the other did. -/
theorem bind_blind {x : Eval α} {f : α → Eval β} (hx : StopsBefore p x) (hf : ∀ a, Blind (f a)) :
    StopsBefore p (x >>= f) := by
  intro m b m₂ e
  obtain ⟨a, m₁, e₁, e₂⟩ := of_bind_eq_ok e
  obtain ⟨rest, after?, next⟩ := hx e₁
  exact ⟨rest, ((hf a).cursor_eq e₂) ▸ after?, next⟩

theorem nested {x : Eval α} (h : StopsBefore p x) : StopsBefore p (nested x) := by
  intro m a m' e
  obtain ⟨-, m₁, e₁, rfl⟩ := of_nested_eq_ok e
  obtain ⟨rest, after?, next⟩ := h e₁
  exact ⟨rest, after?, next⟩

/-! ### The levels of the grammar -/

/-- A product ends before what is none of its operators. -/
theorem productFrom (operand : Eval Value) (n : Nat) (x : Value) :
    StopsBefore (ProductOperator.ofToken? · = none) (productFrom operand n x) := by
  induction n generalizing x with
  | zero => exact throw _
  | succ n ih =>
      intro m v m' e
      rw [productFrom_succ] at e
      obtain ⟨t, m₁, e₁, e₂⟩ := of_bind_eq_ok e
      obtain ⟨rfl, rest, after?, ht⟩ := of_peek_eq_ok e₁
      cases ends : t.bind ProductOperator.ofToken? with
      | none =>
          rw [ends] at e₂
          cases e₂
          exact ⟨rest, after?, Option.bind_eq_none_iff.mp (ht ▸ ends)⟩
      | some op =>
          rw [ends] at e₂
          exact (bind fun _ => bind fun y => bind fun x => bind fun y => ih _) e₂

theorem product (operand : Eval Value) (n : Nat) :
    StopsBefore (ProductOperator.ofToken? · = none) (product operand n) :=
  bind fun x => (productFrom operand n x).bind_blind fun _ => .ofExcept _

/-- A sum looks at the token at which its last product has stopped. -/
theorem sumFrom {product : Eval Float}
    (h : StopsBefore (ProductOperator.ofToken? · = none) product) (n : Nat) (x : Float) {m m' : Machine}
    {v : Float} (hm : StandsBefore (ProductOperator.ofToken? · = none) m)
    (e : sumFrom product n x m = .ok v m') : StandsBefore (· ∉ Token.operators) m' := by
  induction n generalizing x m with
  | zero => cases e
  | succ n ih =>
      rw [sumFrom_succ] at e
      obtain ⟨t, m₁, e₁, e₂⟩ := of_bind_eq_ok e
      obtain ⟨rfl, rest, after?, ht⟩ := of_peek_eq_ok e₁
      have goesOn {f : Float → Float} {m : Machine} (e : (do
          discard read
          let y ← product
          Eval.sumFrom product n (f y) : Eval Float) m = .ok v m') :
          StandsBefore (· ∉ Token.operators) m' := by
        obtain ⟨-, m₁, -, e⟩ := of_bind_eq_ok e
        obtain ⟨y, m₂, stops, e⟩ := of_bind_eq_ok e
        exact ih _ (h stops) e
      split at e₂
      · exact goesOn e₂
      · exact goesOn e₂
      · rename_i noPlus noMinus
        cases e₂
        obtain ⟨rest', after?', noProduct⟩ := hm
        obtain rfl := Option.some.inj (after?'.symm.trans after?)
        refine ⟨rest', after?', fun u next => Token.not_mem_operators (noProduct u next) ?_ ?_⟩
        · rintro rfl
          exact noPlus (ht.trans next)
        · rintro rfl
          exact noMinus (ht.trans next)

theorem sum {product : Eval Float} (h : StopsBefore (ProductOperator.ofToken? · = none) product)
    (n : Nat) : StopsBefore (· ∉ Token.operators) (sum product n) := by
  intro m v m' e
  obtain ⟨x, m₁, e₁, e₂⟩ := of_bind_eq_ok e
  exact sumFrom h n x (h e₁) e₂

theorem assignment {value : Eval Float} (h : StopsBefore p value) : StopsBefore p (assignment value) := by
  apply bind
  intro t
  split
  · apply bind
    intro m
    split
    · exact fail _
    · exact bind fun _ => h.bind_blind fun x => (Blind.assign _ x).bind fun _ => .pure x
  · exact fail _
  · exact fail _

theorem level {deeper : Bindings → Eval Float}
    (h : ∀ bindings, StopsBefore (· ∉ Token.operators) (deeper bindings)) (n : Nat) (bindings : Bindings) :
    StopsBefore (· ∉ Token.operators) (level deeper n bindings) := by
  apply bind
  intro isAssignment
  split
  · exact assignment (h [])
  · exact sum (product _ n) n

theorem expression (n : Nat) (bindings : Bindings) :
    StopsBefore (· ∉ Token.operators) (expression n bindings) := by
  induction n generalizing bindings with
  | zero => exact throw _
  | succ n ih => exact (level ih n bindings).nested

end StopsBefore

/-- From any machine an expression is evaluated to its end if the budget is large enough. -/
theorem finished_expression (m : Machine) :
    ∃ enough, ∀ n bindings, enough ≤ n → Finished (expression n bindings m) := by
  -- a bound for the tokens that are left, of the bodies and of number texts
  let k := m.cursor.remaining.length + m.calculator.bodyLength + 2
  have room : Room k m.calculator.limit m := by
    refine ⟨by omega, fun {name f} h => ?_, Nat.le_add_left _ _⟩
    have tokens := Token.length_ofText_le f.joined
    have chars : f.joined.length ≤ m.calculator.bodyLength := Calculator.length_joined_le h
    omega
  refine ⟨m.calculator.limit + k + 1, fun n bindings le => ?_⟩
  exact (Completes.expression (Nat.le_add_left _ _) le bindings m room).1

end Eval

/-- A line of which tokens are left over has an expression that gives a value before they are read. -/
theorem Calculator.of_trailingTokens {c : Calculator} {text line : String}
    (h : (c.evaluate text).outcome = .error (.trailingTokens line)) :
    line = text ∧ ∃ x m, Eval.expression (c.budget text) [] (c.reading text) = .ok x m ∧
      m.cursor.remainingCount ≠ 0 := by
  cases ht : Token.ofText text with
  | nil =>
      rw [evaluate_eq, Eval.line_blank ht] at h
      cases h
  | cons first rest =>
      by_cases hf : first = .identifier Definition.keyword
      · subst hf
        cases refused_of_evaluate ht h
      · cases e : Eval.expression (c.budget text) [] (c.reading text) with
        | error s m =>
            obtain ⟨fault, rfl, outcome, -⟩ := evaluate_of_expression_error ht hf e
            rw [outcome] at h
            cases h
            exact absurd rfl ((Eval.ofExpression_of_error e).ne_trailingTokens line)
        | ok x m =>
            rw [(evaluate_of_expression_ok ht hf e).1] at h
            by_cases whole : m.cursor.remainingCount = 0
            · rw [if_pos whole] at h
              cases h
            · rw [if_neg whole] at h
              cases h
              exact ⟨rfl, x, m, rfl, whole⟩

namespace Eval

/-- **An expression advances and ends on its row.**  Wherever the cursor stands, perhaps past the end, an
expression that gives a value has read something, is not past the end, and stops before what is no
operator; one that fails is past the end by one reading at most.  Parentheses that nothing closes never
are a part of an expression with a value: the strict grammar does the same, unless the alarm stops it, and
then the expression stops too, with a fault if its budget is large enough.  Where a line is refused because
tokens are left over, there are tokens that have not been read. -/
theorem expression_progress (m : Machine) :
    (∀ i, (∃ c : Cursor, c.tokens = m.cursor.tokens ∧ c.position = i) ↔
      i ≤ m.cursor.tokens.length + 1) ∧
    (∀ n bindings x m', expression n bindings m = .ok x m' →
      m'.cursor.tokens = m.cursor.tokens ∧
      m.cursor.position < m'.cursor.position ∧ m'.cursor.position ≤ m.cursor.tokens.length ∧
      ∀ t ∈ m.cursor.tokens[m'.cursor.position]?, t ∉ Token.operators) ∧
    (∀ n bindings s m', expression n bindings m = .error s m' →
      m'.cursor.tokens = m.cursor.tokens ∧ m'.cursor.position ≤ m.cursor.tokens.length + 1) ∧
    (∀ alarm n bindings, Strict.expression alarm n bindings m = expression n bindings m ∨
      (∃ m', Strict.expression alarm n bindings m = .error alarm m') ∧
        ∃ s m', expression n bindings m = .error s m') ∧
    (∃ enough, ∀ n bindings, enough ≤ n → Finished (expression n bindings m)) ∧
    ∀ (c : Calculator) (text line : String),
      (c.evaluate text).outcome = .error (.trailingTokens line) → line = text ∧
      ∃ x m', expression (c.budget text) [] (c.reading text) = .ok x m' ∧
        0 < m'.cursor.remainingCount := by
  refine ⟨Cursor.exists_position_iff m.cursor.tokens, ?value, ?failure, ?closing, finished_expression m,
    ?leftover⟩
  case value =>
    intro n bindings x m' e
    obtain ⟨tokens, further⟩ := Advances.expression n bindings e
    obtain ⟨rest, after?, next⟩ := StopsBefore.expression n bindings e
    have onRow := Cursor.position_le_of_after? after?
    rw [tokens] at onRow
    refine ⟨tokens, further, onRow, ?_⟩
    rw [← tokens, Cursor.getElem?_position, Cursor.remaining, after?]
    exact next
  case failure =>
    intro n bindings s m' e
    have tokens := ((Orderly.expression n bindings m).effect_of_error e).tokens
    exact ⟨tokens, tokens ▸ m'.cursor.position_le⟩
  case closing =>
    intro alarm n bindings
    obtain same | ⟨rings, stops⟩ := Guards.expression alarm n bindings m
    · exact .inl same
    · refine .inr ⟨rings, ?_⟩
      cases e : expression n bindings m with
      | ok x m' => exact (stops x m' e).elim
      | error s m' => exact ⟨s, m', rfl⟩
  case leftover =>
    intro c text line h
    obtain ⟨same, x, m', e, some⟩ := Calculator.of_trailingTokens h
    obtain ⟨rest, after?, -⟩ := StopsBefore.expression _ _ e
    refine ⟨same, x, m', e, ?_⟩
    simp only [Cursor.remainingCount, after?] at some ⊢
    omega

/-- The arguments are `(1 + 2 3 * 4`, whose parentheses are closed by `3`, and `5`.  Nothing closes those
of the assignment, which has been made by then. -/
theorem expression_progress_call :
    let c := (Calculator.empty 9).define "f" ⟨["a", "b"], Token.ofText "a + b"⟩
    let row := Token.ofText "7 - f (1 + 2 3 * 4 5) 6"
    let m := { Machine.start c with cursor := ⟨(row.take 2).reverse, some (row.drop 2)⟩ }
    let unclosed := { Machine.start c with cursor := .ofTokens (Token.ofText "(x = 2") }
    let alarm := Stop.fault (.malformedDefinition "(")
    (∃ m', expression 9 [] m = .ok (Numeral.ofWhole "17").value m' ∧
      m.cursor.position < m'.cursor.position ∧ m'.cursor.position ≤ m.cursor.tokens.length ∧
      ∀ t ∈ m.cursor.tokens[m'.cursor.position]?, t ∉ Token.operators) ∧
    (stop? (Strict.expression alarm 9 [] unclosed) = some alarm ∧
      ∃ s m', expression 9 [] unclosed = .error s m' ∧
        m'.cursor.position ≤ unclosed.cursor.tokens.length + 1) ∧
    ((c.evaluate "1 2").outcome = .error (.trailingTokens "1 2") ∧
      ∃ x m', expression (c.budget "1 2") [] (c.reading "1 2") = .ok x m' ∧
        0 < m'.cursor.remainingCount) := by
  intro c row m unclosed alarm
  have value : ending? (expression 9 [] m) = some ((Numeral.ofWhole "17").value,
      ⟨(row.take 11).reverse, some (row.drop 11)⟩) := by decide +kernel
  have rings : stop? (Strict.expression alarm 9 [] unclosed) = some alarm := by decide +kernel
  have fails : stop? (expression 9 [] unclosed) = some (.fault .endOfInput) := by decide +kernel
  have refused : (c.evaluate "1 2").outcome = .error (.trailingTokens "1 2") := by decide +kernel
  obtain ⟨m', e, -⟩ := of_ending?_eq_some value
  obtain ⟨-, advances, -⟩ := expression_progress m
  obtain ⟨-, -, stays, closing, -, leftover⟩ := expression_progress unclosed
  obtain ⟨-, further, onRow, next⟩ := advances _ _ _ _ e
  obtain ⟨-, x, m₁, e₁, some⟩ := leftover c "1 2" "1 2" refused
  refine ⟨⟨m', e, further, onRow, next⟩, ⟨rings, ?_⟩, refused, x, m₁, e₁, some⟩
  obtain same | ⟨-, s, m₂, e₂⟩ := closing alarm 9 []
  · rw [same, fails] at rings
    exact absurd rings (by simp [alarm])
  · exact ⟨s, m₂, e₂, (stays _ _ _ _ e₂).2⟩

end Eval

end LineCalc
