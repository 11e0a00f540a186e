import LineCalc.Proofs.Extent

/-! # How much is read at least

`Advances k x` says that an evaluation which gives a result has read at least `k` tokens by then, and
that they are still the same tokens.  An operand, a product, a sum and so every expression read at
least one token, and an assignment at least two.

If the evaluation leaves the row `rest`, what it has read stands before it (`Advances.suffix_and_le`).
So an evaluation that leaves all of the tokens does not advance. -/

namespace LineCalc

namespace Cursor

/-- A cursor that stands no further than another one has the tokens of that one left, after those
between the two. -/
theorem after?_of_position_le {c d : Cursor} {rest : List Token} (tokens : c.tokens = d.tokens)
    (le : c.position ≤ d.position) (h : d.after? = some rest) :
    ∃ more, c.after? = some (more ++ rest) ∧ c.position + more.length = d.position := by
  obtain ⟨before, left⟩ := c
  obtain ⟨before', left'⟩ := d
  obtain rfl : left' = some rest := h
  have lengths := congrArg List.length tokens
  simp only [Cursor.tokens, remaining, Option.getD_some, List.length_append, List.length_reverse]
    at tokens lengths
  cases left with
  | none =>
      simp only [position, Option.getD_none, List.length_nil] at le lengths
      omega
  | some left =>
      simp only [position, Option.getD_some] at le lengths tokens
      refine ⟨left.take (before'.length - before.length), ?_, ?_⟩
      · have e := congrArg (List.drop before'.length) tokens
        rw [List.drop_append, List.drop_left' (by simp), List.length_reverse,
          List.drop_eq_nil_of_le (by simpa using le), List.nil_append] at e
        rw [← e, List.take_append_drop]
      · simp only [position, List.length_take]
        omega

end Cursor

namespace Eval

variable {α β : Type}

/-- An evaluation that gives a result has read at least `k` tokens, and has not changed them. -/
def Advances (k : Nat) (x : Eval α) : Prop := ∀ ⦃m a m'⦄, x m = .ok a m' →
  m'.cursor.tokens = m.cursor.tokens ∧ m.cursor.position + k ≤ m'.cursor.position

theorem Orderly.advances {x : Eval α} (h : Orderly x) : Advances 0 x := by
  intro m a m' e
  exact ⟨((h m).effect_of_ok e).tokens, (h m).forward e⟩

namespace Advances

variable {j k : Nat}

theorem bind {x : Eval α} {f : α → Eval β} (hx : Advances j x) (hf : ∀ a, Advances k (f a)) :
    Advances (j + k) (x >>= f) := by
  intro m b m₂ e
  obtain ⟨a, m₁, e₁, e₂⟩ := of_bind_eq_ok e
  obtain ⟨tokens₁, position₁⟩ := hx e₁
  obtain ⟨tokens₂, position₂⟩ := hf a e₂
  exact ⟨tokens₂.trans tokens₁, by omega⟩

/-- What comes first may read nothing. -/
theorem after {x : Eval α} {f : α → Eval β} (hx : Advances 0 x) (hf : ∀ a, Advances k (f a)) :
    Advances k (x >>= f) := by
  have h := hx.bind hf
  rwa [Nat.zero_add] at h

/-- What comes last may read nothing. -/
theorem before {x : Eval α} {f : α → Eval β} (hx : Advances k x) (hf : ∀ a, Advances 0 (f a)) :
    Advances k (x >>= f) :=
  hx.bind hf

theorem throw (s : Stop) : Advances k (throw s : Eval α) := by
  intro m a m' e
  cases e

theorem fail (fault : Fault) : Advances k (fail fault : Eval α) := throw _

theorem read : Advances 1 read := by
  intro m t m' e
  cases h : m.cursor.next with
  | error fault =>
      rw [read_of_error h] at e
      cases e
  | ok next =>
      obtain ⟨t, c⟩ := next
      rw [read_of_next h] at e
      cases e
      exact ⟨Cursor.tokens_of_next h, Nat.le_of_eq (Cursor.position_of_next h).symm⟩

theorem skip : Advances 1 (discard Eval.read) := by
  have h : Advances 1 (Eval.read >>= fun _ => Pure.pure ()) :=
    read.before fun _ => (Orderly.pure ()).advances
  rwa [bind_pure_comp] at h

/-- What is read stands before what is left. -/
theorem suffix_and_le {x : Eval α} (h : Advances k x) {m m' : Machine} {a : α} (e : x m = .ok a m')
    {read left rest : List Token} (hm : m.cursor.after? = some (read ++ rest))
    (hm' : m'.cursor.after? = some (left ++ rest)) : left <:+ read ∧ k ≤ read.length := by
  obtain ⟨tokens, position⟩ := h e
  obtain ⟨more, after?, moved⟩ := Cursor.after?_of_position_le tokens.symm (by omega) hm'
  rw [hm, Option.some_inj, ← List.append_assoc] at after?
  obtain rfl := List.append_cancel_right after?
  refine ⟨List.suffix_append more left, ?_⟩
  rw [List.length_append]
  omega

/-! ### The levels of the grammar -/

theorem operand {group : Eval Float} {resolve : String → Eval Value} (hg : Orderly group)
    (hr : ∀ name, Orderly (resolve name)) : Advances 1 (operand group resolve) := by
  rw [operand_eq]
  apply Orderly.readMinus.advances.after
  intro negative
  apply Orderly.peek.advances.after
  intro t
  split
  · exact skip.before fun _ => (Orderly.pure _).advances
  · exact skip.before fun _ => (hr _).advances
  · exact skip.before fun _ =>
      (hg.bind fun x => Orderly.read.discard.bind fun _ => Orderly.pure _).advances
  · exact fail _
  · exact skip.before fun _ => fail _

theorem product {operand : Eval Value} (h : Advances 1 operand) (ho : Orderly operand) (n : Nat) :
    Advances 1 (product operand n) :=
  h.before fun x => ((ho.productFrom n x).bind fun y => Orderly.ofExcept y.toNumber).advances

theorem sum {product : Eval Float} (h : Advances 1 product) (ho : Orderly product) (n : Nat) :
    Advances 1 (sum product n) :=
  h.before fun x => (ho.sumFrom n x).advances

theorem assign (name : String) (x : Float) : Advances 0 (assign name x) := by
  intro m a m' e
  cases e
  exact ⟨rfl, Nat.le_refl _⟩

/-- The name and the sign have been read. -/
theorem assignment {value : Eval Float} (h : Orderly value) : Advances 2 (assignment value) := by
  apply read.bind (k := 1)
  intro t
  split
  · apply Orderly.get.advances.after
    intro m
    split
    · exact fail _
    · exact skip.before fun _ => h.advances.after fun x => (assign _ x).after fun _ =>
        (Orderly.pure x).advances
  · exact fail _
  · exact fail _

theorem level {deeper : Bindings → Eval Float} (h : ∀ bindings, Orderly (deeper bindings)) (n : Nat)
    (bindings : Bindings) : Advances 1 (level deeper n bindings) := by
  have ho : Orderly (Eval.operand (deeper bindings) (resolve deeper bindings)) :=
    (h bindings).operand (Orderly.resolve h bindings)
  apply Orderly.atAssignment.advances.after
  intro isAssignment
  split
  · intro m a m' e
    obtain ⟨tokens, position⟩ := assignment (h []) e
    exact ⟨tokens, by omega⟩
  · exact sum (product (operand (h bindings) (Orderly.resolve h bindings)) ho n) (ho.product n) n

theorem nested {x : Eval α} (h : Advances k x) : Advances k (nested x) := by
  intro m a m' e
  obtain ⟨-, m₁, e₁, rfl⟩ := of_nested_eq_ok e
  obtain ⟨tokens, position⟩ := h e₁
  exact ⟨tokens, position⟩

theorem expression (n : Nat) (bindings : Bindings) : Advances 1 (expression n bindings) := by
  cases n with
  | zero => exact throw _
  | succ n => exact (level (Orderly.expression n) n bindings).nested

end Advances

end Eval

end LineCalc
