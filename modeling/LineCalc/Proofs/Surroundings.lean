import LineCalc.Proofs.Advancing

/-! # What stands around an expression

An expression that reads the tokens `T` and stops there gives the same, and does the same, wherever
these tokens stand (`expression_between`).  What stands before them is never looked at.  What stands
behind them must not go on with the expression, and where `T` has an `=` it also matters whether there
is anything behind them: an assignment must have a right-hand side, so the sign at the end of `T` may
make one of two tokens or be read as a closing parenthesis.

`Local R R' x` says so of an evaluation: if it leaves all of `R` unread, it would do the same with `R'`
in place of `R`.  It is proved of every level of the grammar.  An evaluation that has something to read
must have read it before the end of `T`, or it would not stop there; this is why `Local` is about
evaluations that come to a result, and why it has to be known how many tokens each level reads at
least (`Advances`). -/

namespace LineCalc

namespace Cursor

/-- Stands after some tokens and before others. -/
def between (before after : List Token) : Cursor := ⟨before.reverse, some after⟩

@[simp] theorem position_between (before after : List Token) :
    (between before after).position = before.length := List.length_reverse

@[simp] theorem tokens_between (before after : List Token) :
    (between before after).tokens = before ++ after := by
  simp [between, tokens, remaining]

/-- Where the cursor stands is told by the tokens that are left. -/
theorem eq_between {c : Cursor} {before after : List Token} (tokens : c.tokens = before ++ after)
    (h : c.after? = some after) : c = between before after := by
  obtain ⟨read, left⟩ := c
  obtain rfl : left = some after := h
  have e : read.reverse = before := List.append_cancel_right tokens
  rw [between, ← e, List.reverse_reverse]

theorem peekIs_of_after? {c : Cursor} {rest : List Token} (h : c.after? = some rest) (t : Token) :
    c.peekIs t = rest.head?.any (·.agrees t) := by
  unfold peekIs remaining
  rw [h]
  cases rest <;> rfl

end Cursor

namespace Eval

variable {α β : Type}

/-! ### Evaluations that do the same before other tokens -/

/-- The rows may stand behind the same tokens: if one of these is `=`, both rows are empty or none. -/
def Exchangeable (R R' read : List Token) : Prop := .equals ∈ read → (R = [] ↔ R' = [])

/-- Where the evaluation leaves all of `R` unread, it does the same with `R'` in place of `R`. -/
structure Local (R R' : List Token) (x : Eval α) : Prop where
  forward : Advances 0 x
  run : ∀ {m m₁ : Machine} {a : α} {read left : List Token} {c : Cursor}, Exchangeable R R' read →
    m.cursor.after? = some (read ++ R) → c.after? = some (read ++ R') → x m = .ok a m₁ →
    m₁.cursor.after? = some (left ++ R) →
    ∃ d : Cursor, d.after? = some (left ++ R') ∧
      x { m with cursor := c } = .ok a { m₁ with cursor := d }

namespace Local

variable {R R' : List Token}

theorem bind {x : Eval α} {f : α → Eval β} (hx : Local R R' x) (hf : ∀ a, Local R R' (f a)) :
    Local R R' (x >>= f) := by
  constructor
  · exact hx.forward.bind fun a => (hf a).forward
  · intro m m₂ b read left c exchange hm hc e hm₂
    obtain ⟨a, m₁, e₁, e₂⟩ := of_bind_eq_ok e
    obtain ⟨tokens, position⟩ := (hf a).forward e₂
    obtain ⟨more, hm₁, -⟩ := Cursor.after?_of_position_le tokens.symm position hm₂
    rw [← List.append_assoc] at hm₁
    obtain ⟨⟨done, rfl⟩, -⟩ := hx.forward.suffix_and_le e₁ hm hm₁
    obtain ⟨d₁, hd₁, run₁⟩ := hx.run exchange hm hc e₁ hm₁
    have exchange₁ : Exchangeable R R' (more ++ left) :=
      fun h => exchange (List.mem_append_right done h)
    obtain ⟨d₂, hd₂, run₂⟩ := (hf a).run exchange₁ hm₁ hd₁ e₂ hm₂
    refine ⟨d₂, hd₂, ?_⟩
    rw [bind_apply, run₁]
    exact run₂

theorem of_blind {x : Eval α} (h : Blind x) : Local R R' x := by
  constructor
  · intro m a m' e
    rw [h.cursor_eq e]
    exact ⟨rfl, Nat.le_refl _⟩
  · intro m m₁ a read left c exchange hm hc e hm₁
    rw [h.cursor_eq e, hm, Option.some_inj] at hm₁
    obtain rfl := List.append_cancel_right hm₁
    refine ⟨c, hc, ?_⟩
    rw [h m c, e]
    rfl

theorem pure (a : α) : Local R R' (pure a : Eval α) := of_blind (Blind.pure a)

theorem throw (s : Stop) : Local R R' (throw s : Eval α) := of_blind (Blind.throw s)

theorem fail (fault : Fault) : Local R R' (fail fault : Eval α) := throw _

theorem ofExcept (r : Except Fault α) : Local R R' (ofExcept r) := by
  cases r with
  | ok a => exact pure a
  | error fault => exact fail fault

/-- What is asked of the machine does not depend on the cursor. -/
theorem look {f : Machine → α} (same : ∀ m c, f { m with cursor := c } = f m) :
    Local R R' (look f) := by
  apply of_blind
  intro m c
  rw [Eval.look, Eval.look, same]
  rfl

theorem read : Local R R' read := by
  constructor
  · exact Orderly.read.advances
  · intro m m₁ t read left c exchange hm hc e hm₁
    obtain ⟨-, some⟩ := Advances.read.suffix_and_le e hm hm₁
    cases read with
    | nil => cases some
    | cons u read =>
        have next : m.cursor.next = .ok (.some u, ⟨u :: m.cursor.before, .some (read ++ R)⟩) := by
          simp [Cursor.next, hm]
        have next' : c.next = .ok (.some u, ⟨u :: c.before, .some (read ++ R')⟩) := by
          simp [Cursor.next, hc]
        rw [read_of_next next] at e
        cases e
        obtain rfl := List.append_cancel_right (Option.some.inj hm₁)
        exact ⟨_, rfl, read_of_next next'⟩

/-- The next token is the same, unless all is read; then the evaluation must not go on, or go on as it
would with the first token of the other row. -/
theorem peek_bind {f : Option Token → Eval α} (hf : ∀ t, Local R R' (f t))
    (stop : ∀ t, Advances 1 (f t) ∨ f t = f R'.head?) : Local R R' (peek >>= f) := by
  constructor
  · exact Orderly.peek.advances.bind fun t => (hf t).forward
  · intro m m₁ a read left c exchange hm hc e hm₁
    have peek_of_after? {m : Machine} {rest : List Token} (h : m.cursor.after? = some rest) :
        peek m = .ok rest.head? m := by
      cases rest <;> exact peek_of_next (by simp only [Cursor.next, h]; rfl)
    rw [bind_apply, peek_of_after? hm] at e
    rw [bind_apply, peek_of_after? hc]
    cases read with
    | cons u read => exact (hf u).run exchange hm hc e hm₁
    | nil =>
        obtain advances | same := stop R.head?
        · obtain ⟨-, none⟩ := advances.suffix_and_le e hm hm₁
          cases none
        · exact (hf _).run exchange hm hc (same ▸ e) hm₁

theorem nested {x : Eval α} (h : Local R R' x) : Local R R' (nested x) := by
  constructor
  · exact h.forward.nested
  · intro m m' a read left c exchange hm hc e hm'
    obtain ⟨hd, m₁, e₁, rfl⟩ := of_nested_eq_ok e
    obtain ⟨d, hd', run⟩ := h.run (m := { m with depth := m.depth + 1 }) exchange hm hc e₁ hm'
    refine ⟨d, hd', ?_⟩
    rw [nested_of_lt (m := { m with cursor := c }) x hd]
    exact congrArg (onMachine _) run

/-! ### The levels of the grammar -/

/-- A body and the text of a parameter are read by themselves. -/
theorem nameCongruence : NameCongruence (fun _ _ => True) (Both fun {_} => Local R R') :=
  Both.nameCongruence (Both.congruence pure bind (fun _ => fail _) read)
    (fun h => (look fun _ _ => rfl).bind fun f? => h f? fun _ _ => trivial)
    (fun _ => look fun _ _ => rfl)
    (fun _ _ _ => of_blind ((Blind.note _).bind fun _ => Blind.lex_within _ _))
    fun _ _ => of_blind ((Blind.note _).bind fun _ => Blind.lex_within _ _)

theorem skip : Local R R' (discard Eval.read) := nameCongruence.skip.1

theorem assignment {value : Eval Float} (h : Local R R' value) : Local R R' (assignment value) :=
  (nameCongruence.assignment (fun _ => ⟨look fun _ _ => rfl, look fun _ _ => rfl⟩)
    (fun name x => ⟨of_blind (Blind.assign name x), of_blind (Blind.assign name x)⟩) ⟨h, h⟩).1

theorem resolve {deeper : Bindings → Eval Float} (h : ∀ bindings, Local R R' (deeper bindings))
    (bindings : Bindings) (name : String) : Local R R' (resolve deeper bindings name) := by
  have reread (x : Float) : Local R R' (Eval.reread deeper x) := of_blind (Blind.reread deeper x)
  have global := nameCongruence.resolveGlobal fun bindings => ⟨h bindings, h bindings⟩
  exact (nameCongruence.resolveWith (fun x => ⟨reread x, reread x⟩) global bindings name).1

section Ends

variable (ends : ∀ t ∈ R'.head?, t.continues = false)
include ends

/-- A minus sign is not read from the other row either. -/
theorem readMinus : Local R R' readMinus := by
  let go (isMinus : Bool) : Eval Bool :=
    if isMinus then (do discard Eval.read; return true) else return false
  have apply (m : Machine) : Eval.readMinus m = go (m.cursor.peekIs .minus) m := rfl
  have go_local (isMinus : Bool) : Local R R' (go isMinus) := by
    cases isMinus with
    | true => exact skip.bind fun _ => pure true
    | false => exact pure false
  constructor
  · exact Orderly.readMinus.advances
  · intro m m₁ negative read left c exchange hm hc e hm₁
    rw [apply, Cursor.peekIs_of_after? hm] at e
    rw [apply, Cursor.peekIs_of_after? (c := c) hc]
    cases read with
    | cons u read => exact (go_local _).run exchange hm hc e hm₁
    | nil =>
        have stays : R'.head?.any (·.agrees .minus) = false := by
          rw [Option.any_eq_false]
          intro t ht
          simp [Token.agrees_minus_of_continues (ends t ht)]
        rw [List.nil_append] at e ⊢
        rw [stays]
        cases isMinus : R.head?.any (·.agrees .minus) with
        | false =>
            rw [isMinus] at e
            exact (go_local false).run exchange hm hc e hm₁
        | true =>
            have advances : Advances 1 (go true) :=
              Advances.skip.before fun _ => (Orderly.pure true).advances
            rw [isMinus] at e
            obtain ⟨-, none⟩ := advances.suffix_and_le e hm hm₁
            cases none

theorem operand {group : Eval Float} {resolve : String → Eval Value} (hg : Local R R' group)
    (ho : Orderly group) (hr : ∀ name, Local R R' (resolve name))
    (ro : ∀ name, Orderly (resolve name)) : Local R R' (operand group resolve) := by
  rw [operand_eq]
  apply (readMinus ends).bind
  intro negative
  apply peek_bind
  · intro t
    split
    · exact skip.bind fun _ => pure _
    · exact skip.bind fun _ => hr _
    · exact skip.bind fun _ => hg.bind fun x => skip.bind fun _ => pure _
    · exact fail _
    · exact skip.bind fun _ => fail _
  · intro t
    left
    split
    · exact Advances.skip.before fun _ => (Orderly.pure _).advances
    · exact Advances.skip.before fun _ => (ro _).advances
    · exact Advances.skip.before fun _ =>
        (ho.bind fun x => Orderly.read.discard.bind fun _ => Orderly.pure _).advances
    · exact Advances.fail _
    · exact Advances.skip.before fun _ => Advances.fail _

theorem productFrom {operand : Eval Value} (h : Local R R' operand) (ho : Orderly operand) (n : Nat)
    (x : Value) : Local R R' (productFrom operand n x) := by
  induction n generalizing x with
  | zero => exact throw _
  | succ n ih =>
      have stops : R'.head?.bind ProductOperator.ofToken? = none := by
        rw [Option.bind_eq_none_iff]
        intro t ht
        exact Token.ofToken?_of_continues (ends t ht)
      rw [productFrom_succ]
      apply peek_bind
      · intro t
        split
        · exact pure x
        · exact skip.bind fun _ => h.bind fun y => (ofExcept _).bind fun x => (ofExcept _).bind fun y =>
            ih _
      · intro t
        cases t.bind ProductOperator.ofToken? with
        | none => exact .inr (by rw [stops])
        | some op =>
            exact .inl (Advances.skip.before fun _ => (ho.bind fun y => (Orderly.ofExcept _).bind fun x =>
              (Orderly.ofExcept _).bind fun y => ho.productFrom n _).advances)

theorem product {operand : Eval Value} (h : Local R R' operand) (ho : Orderly operand) (n : Nat) :
    Local R R' (product operand n) :=
  h.bind fun x => (productFrom ends h ho n x).bind fun y => ofExcept y.toNumber

theorem sumFrom {product : Eval Float} (h : Local R R' product) (ho : Orderly product) (n : Nat)
    (x : Float) : Local R R' (sumFrom product n x) := by
  induction n generalizing x with
  | zero => exact throw _
  | succ n ih =>
      rw [sumFrom_succ]
      apply peek_bind
      · intro t
        split
        · exact skip.bind fun _ => h.bind fun y => ih _
        · exact skip.bind fun _ => h.bind fun y => ih _
        · exact pure x
      · intro t
        split
        · exact .inl (Advances.skip.before fun _ => (ho.bind fun y => ho.sumFrom n _).advances)
        · exact .inl (Advances.skip.before fun _ => (ho.bind fun y => ho.sumFrom n _).advances)
        · right
          cases hR : R'.head? with
          | none => rfl
          | some t =>
              have h := ends t hR
              cases t <;> first
                | rfl
                | cases h

theorem sum {product : Eval Float} (h : Local R R' product) (ho : Orderly product) (n : Nat) :
    Local R R' (sum product n) :=
  h.bind fun x => sumFrom ends h ho n x

/-- Whether there is an assignment is told by what is read, if it is not read further than that. -/
theorem beginsAssignment_eq {read : List Token} (exchange : Exchangeable R R' read) (hne : read ≠ [])
    (one : read.length < 2 → beginsAssignment (read ++ R) = false) :
    beginsAssignment (read ++ R') = beginsAssignment (read ++ R) := by
  match read with
  | [] => exact absurd rfl hne
  | [t] =>
      rw [one (by simp)]
      cases R' with
      | nil => rfl
      | cons u rest =>
          have h := ends u rfl
          cases u <;> first
            | rfl
            | cases h
  | [t, u] =>
      by_cases hu : u = .equals
      · have both := exchange (by simp [hu])
        subst hu
        cases R with
        | nil =>
            rw [both.mp rfl]
        | cons v rest =>
            cases R' with
            | nil => cases both.mpr rfl
            | cons v' rest' => rfl
      · cases u <;> first
          | rfl
          | exact absurd rfl hu
  | t :: u :: v :: rest => cases u <;> rfl

theorem level {deeper : Bindings → Eval Float} (h : ∀ bindings, Local R R' (deeper bindings))
    (ho : ∀ bindings, Orderly (deeper bindings)) (n : Nat) (bindings : Bindings) :
    Local R R' (level deeper n bindings) := by
  have operandOrderly : Orderly (Eval.operand (deeper bindings) (Eval.resolve deeper bindings)) :=
    (ho bindings).operand (Orderly.resolve ho bindings)
  have operandLocal : Local R R' (Eval.operand (deeper bindings) (Eval.resolve deeper bindings)) :=
    operand ends (h bindings) (ho bindings) (resolve h bindings) (Orderly.resolve ho bindings)
  let go (isAssignment : Bool) : Eval Float :=
    if isAssignment then Eval.assignment (deeper [])
    else Eval.sum (Eval.product (Eval.operand (deeper bindings) (Eval.resolve deeper bindings)) n) n
  have apply (m : Machine) :
      Eval.level deeper n bindings m = go (beginsAssignment m.cursor.remaining) m := by
    rw [Eval.level, bind_apply, atAssignment_apply]
  have go_local (isAssignment : Bool) : Local R R' (go isAssignment) := by
    cases isAssignment with
    | true => exact assignment (h [])
    | false =>
        exact sum ends (product ends operandLocal operandOrderly n) (operandOrderly.product n) n
  constructor
  · exact (Orderly.level ho n bindings).advances
  · intro m m₁ x read left c exchange hm hc e hm₁
    obtain ⟨-, one⟩ := (Advances.level ho n bindings).suffix_and_le e hm hm₁
    have remaining : m.cursor.remaining = read ++ R := by rw [Cursor.remaining, hm, Option.getD_some]
    have remaining' : c.remaining = read ++ R' := by rw [Cursor.remaining, hc, Option.getD_some]
    rw [apply, remaining] at e
    have same : beginsAssignment (read ++ R') = beginsAssignment (read ++ R) := by
      apply beginsAssignment_eq ends exchange (List.ne_nil_of_length_pos one)
      intro few
      rw [Bool.eq_false_iff]
      intro begins
      rw [begins] at e
      obtain ⟨-, two⟩ := (Advances.assignment (ho [])).suffix_and_le e hm hm₁
      omega
    obtain ⟨d, hd, run⟩ := (go_local _).run exchange hm hc e hm₁
    refine ⟨d, hd, ?_⟩
    rw [apply, remaining', same]
    exact run

theorem expression (n : Nat) (bindings : Bindings) : Local R R' (expression n bindings) := by
  induction n generalizing bindings with
  | zero => exact throw _
  | succ n ih => exact (level ends ih (Orderly.expression n) n bindings).nested

end Ends

end Local

/-- **What an expression means does not depend on its surroundings.**  If an expression that begins
after the tokens `P` and before `T ++ R` gives a value and stops after `T`, it gives this value, does
the same, and stops after `T` where `T` stands after any other tokens `P'` and before any others `R'`
that do not go on with it; where `T` has an `=`, neither `R` nor `R'` is empty, or both are. -/
theorem expression_between (m : Machine) (n : Nat) (bindings : Bindings) {P T R P' R' : List Token}
    {x : Float} {m₁ : Machine}
    (h : expression n bindings { m with cursor := .between P (T ++ R) } = .ok x m₁)
    (stops : m₁.cursor.position = P.length + T.length)
    (ends : ∀ t ∈ R'.head?, t.continues = false)
    (exchange : (R = [] ↔ R' = []) ∨ .equals ∉ T) :
    expression n bindings { m with cursor := .between P' (T ++ R') } =
      .ok x { m₁ with cursor := .between (P' ++ T) R' } := by
  have orderly := (Orderly.expression n bindings).advances
  obtain ⟨tokens, -⟩ := orderly h
  have last : m₁.cursor.after? = some ([] ++ R) := by
    obtain ⟨more, after?, moved⟩ := Cursor.after?_of_position_le (c := m₁.cursor)
      (d := .between (P ++ T) R) (by rw [tokens]; simp) (by simp [stops]) rfl
    have none : more = [] := by
      rw [stops, Cursor.position_between, List.length_append] at moved
      exact List.eq_nil_of_length_eq_zero (by omega)
    rw [after?, none]
  have exchange : Exchangeable R R' T := fun mem => exchange.resolve_right (not_not_intro mem)
  obtain ⟨d, hd, run⟩ := (Local.expression ends n bindings).run
    (c := .between P' (T ++ R')) exchange rfl rfl h last
  obtain ⟨tokens', -⟩ := orderly run
  have stands : d = .between (P' ++ T) R' := by
    apply Cursor.eq_between _ hd
    exact tokens'.trans (by simp)
  rw [← stands]
  exact run

/-- The sign at the end closes the parentheses at the end of a row, and makes an assignment to a
numeral before another token. -/
example :
    let tokens : List Token := [.leftParen, .number (.ofWhole "1"), .equals]
    let m (rest : List Token) : Machine :=
      { Machine.start (.empty 5) with cursor := .between [] (tokens ++ rest) }
    ending? (expression 5 [] (m [])) = some ((Numeral.ofWhole "1").value, .between tokens []) ∧
      ending? (expression 5 [] (m [.rightParen])) = none := by
  decide +kernel

/-- An assignment in parentheses, behind a sum and before a numeral, or alone before a parenthesis. -/
theorem expression_between_assignment :
    let c := (Calculator.empty 9).define "f" ⟨["a"], Token.ofText "a * 2"⟩
    let P := Token.ofText "1 +"
    let T := Token.ofText "(y = f 2) * 3"
    let R := Token.ofText "5"
    let R' := Token.ofText ") - 7"
    let m := Machine.start c
    let twelve := (Numeral.ofWhole "12").value
    (∀ t ∈ R'.head?, t.continues = false) ∧ ((R = [] ↔ R' = []) ∨ .equals ∉ T) ∧
    ∃ m₁, expression 9 [] { m with cursor := .between P (T ++ R) } = .ok twelve m₁ ∧
      m₁.cursor.position = P.length + T.length ∧
      expression 9 [] { m with cursor := .between [] (T ++ R') } =
        .ok twelve { m₁ with cursor := .between T R' } := by
  intro c P T R R' m twelve
  have ends : ∀ t ∈ R'.head?, t.continues = false := by decide +kernel
  have exchange : (R = [] ↔ R' = []) ∨ .equals ∉ T := by decide +kernel
  have first : ending? (expression 9 [] { m with cursor := .between P (T ++ R) }) =
      some (twelve, .between (P ++ T) R) := by decide +kernel
  have position : (Cursor.between (P ++ T) R).position = P.length + T.length := by decide +kernel
  obtain ⟨m₁, h, e⟩ := of_ending?_eq_some first
  have stops : m₁.cursor.position = P.length + T.length := e ▸ position
  exact ⟨ends, exchange, m₁, h, stops, expression_between m 9 [] h stops ends exchange⟩

end Eval

end LineCalc
