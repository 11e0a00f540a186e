import LineCalc.Proofs.Effect
import LineCalc.Proofs.NumberTexts

/-! # Evaluations step by step

`Steps x m y rest` says that to run `x` on the machine `m` is to run `y` once everything up to `rest`
has been read and nothing else has changed, records apart that tell of no assignment.  Steps follow
each other (`Steps.trans`) and go through what comes after them (`Steps.bind`).  Then there are the
steps of an operand, by what it begins with.

`Fails x m fault` says that `x` stops with a fault and has changed nothing that is remembered.  An
evaluation that steps to one that fails does so too (`Steps.fails`). -/

namespace LineCalc

namespace Eval

variable {α β : Type}

/-- The machine after everything up to `rest` has been read. -/
structure ReadTo (m : Machine) (rest : List Token) (m' : Machine) : Prop where
  calculator : m'.calculator = m.calculator
  depth : m'.depth = m.depth
  after? : m'.cursor.after? = some rest
  assignments : Record.assignments m'.trace.toList = Record.assignments m.trace.toList

namespace ReadTo

variable {m m' m'' : Machine} {rest rest' : List Token}

theorem refl (h : m.cursor.after? = some rest) : ReadTo m rest m := ⟨rfl, rfl, h, rfl⟩

theorem trans (h : ReadTo m rest m') (h' : ReadTo m' rest' m'') : ReadTo m rest' m'' :=
  ⟨h'.calculator.trans h.calculator, h'.depth.trans h.depth, h'.after?,
    h'.assignments.trans h.assignments⟩

end ReadTo

/-- To run `x` is to read up to `rest` and run `y`. -/
def Steps (x : Eval α) (m : Machine) (y : Eval α) (rest : List Token) : Prop :=
  ∃ m', ReadTo m rest m' ∧ x m = y m'

namespace Steps

variable {x y z : Eval α} {m : Machine} {rest rest' : List Token} {t : Token}

theorem refl (h : m.cursor.after? = some rest) : Steps x m x rest := ⟨m, .refl h, rfl⟩

theorem trans (h : Steps x m y rest) (h' : ∀ {m'}, ReadTo m rest m' → Steps y m' z rest') :
    Steps x m z rest' := by
  obtain ⟨m₁, r₁, e₁⟩ := h
  obtain ⟨m₂, r₂, e₂⟩ := h' r₁
  exact ⟨m₂, r₁.trans r₂, e₁.trans e₂⟩

theorem bind (h : Steps x m y rest) (f : α → Eval β) : Steps (x >>= f) m (y >>= f) rest := by
  obtain ⟨m', r, e⟩ := h
  have e' : (x >>= f) m = (y >>= f) m' := by rw [bind_apply, bind_apply, e]
  exact ⟨m', r, e'⟩

/-- An evaluation that gives its result, and what follows. -/
theorem bind_pure {a : α} (h : Steps x m (pure a) rest) (f : α → Eval β) :
    Steps (x >>= f) m (f a) rest :=
  h.bind f

theorem peek (h : m.cursor.after? = some rest) : Steps peek m (pure rest.head?) rest := by
  refine ⟨m, .refl h, ?_⟩
  cases rest with
  | nil =>
      have e : m.cursor.next = .ok (none, ⟨m.cursor.before, none⟩) := by simp [Cursor.next, h]
      exact peek_of_next e
  | cons t rest =>
      have e : m.cursor.next = .ok (some t, ⟨t :: m.cursor.before, some rest⟩) := by
        simp [Cursor.next, h]
      exact peek_of_next e

theorem read (h : m.cursor.after? = some (t :: rest)) : Steps read m (pure (some t)) rest := by
  have e : m.cursor.next = .ok (some t, ⟨t :: m.cursor.before, some rest⟩) := by
    simp [Cursor.next, h]
  exact ⟨{ m with cursor := ⟨t :: m.cursor.before, some rest⟩ }, ⟨rfl, rfl, rfl, rfl⟩,
    read_of_next e⟩

theorem skip (h : m.cursor.after? = some (t :: rest)) :
    Steps (discard Eval.read) m (pure ()) rest := by
  obtain ⟨m', r, e⟩ := read h
  refine ⟨m', r, ?_⟩
  rw [discard_apply, e]
  rfl

theorem nested {a : α} (h : Steps x { m with depth := m.depth + 1 } (pure a) rest)
    (hd : m.depth < m.calculator.limit) : Steps (nested x) m (pure a) rest := by
  obtain ⟨m', r, e⟩ := h
  have depth : m'.depth - 1 = m.depth := by
    rw [r.depth]
    exact Nat.add_sub_cancel _ _
  have back : ReadTo m rest { m' with depth := m'.depth - 1 } :=
    ⟨r.calculator, depth, r.after?, r.assignments⟩
  refine ⟨_, back, ?_⟩
  rw [nested_of_lt x hd, e]
  rfl

theorem note {r : Record} (h : m.cursor.after? = some rest) (hr : r.assignment? = none) :
    Steps (note r) m (pure ()) rest :=
  ⟨m.note r, ⟨rfl, rfl, h, Record.assignments_note m hr⟩, rfl⟩

theorem lex (text : String) (h : m.cursor.after? = some rest) :
    Steps (lex text) m (pure (Token.ofText text)) rest :=
  ⟨m.note (.lexed text (Token.ofText text).length), ⟨rfl, rfl, h, Record.assignments_note m rfl⟩, rfl⟩

/-- With other tokens to read, nothing of the present ones is read. -/
theorem within {tokens left : List Token} {a : α} (h : m.cursor.after? = some rest)
    (hx : Steps x { m with cursor := .ofTokens tokens } (pure a) left) :
    Steps (within tokens x) m (pure a) rest := by
  obtain ⟨m', r, e⟩ := hx
  refine ⟨{ m' with cursor := m.cursor }, ⟨r.calculator, r.depth, h, r.assignments⟩, ?_⟩
  rw [within_apply, e]
  rfl

theorem readMinus_false (h : m.cursor.after? = some (t :: rest)) (ht : t.agrees .minus = false) :
    Steps readMinus m (pure false) (t :: rest) := by
  refine ⟨m, .refl h, ?_⟩
  have e : m.cursor.peekIs .minus = false := by simp [Cursor.peekIs, Cursor.remaining, h, ht]
  simp [readMinus, bind_apply, e]

theorem readMinus_true (h : m.cursor.after? = some (.minus :: rest)) :
    Steps readMinus m (pure true) rest := by
  obtain ⟨m', r, e⟩ := skip h
  refine ⟨m', r, ?_⟩
  have e' : m.cursor.peekIs .minus = true := by
    simp [Cursor.peekIs, Cursor.remaining, h, Token.agrees]
  simp only [readMinus, bind_apply, get_apply, e', if_true, e, pure_apply]

/-! ### Operands -/

variable {group : Eval Float} {resolve : String → Eval Value}

theorem operand_number {l : Numeral} (h : m.cursor.after? = some (.number l :: rest)) :
    Steps (operand group resolve) m (pure (.number l.value)) rest := by
  rw [operand_eq]
  refine ((readMinus_false h rfl).bind_pure _).trans fun r => ?_
  refine ((peek r.after?).bind_pure _).trans fun r => ?_
  exact (skip r.after?).bind_pure _

theorem operand_negated {l : Numeral} (h : m.cursor.after? = some (.minus :: .number l :: rest)) :
    Steps (operand group resolve) m (pure (.number (-l.value))) rest := by
  rw [operand_eq]
  refine ((readMinus_true h).bind_pure _).trans fun r => ?_
  refine ((peek r.after?).bind_pure _).trans fun r => ?_
  exact (skip r.after?).bind_pure _

theorem operand_name {x : String} (h : m.cursor.after? = some (.identifier x :: rest)) :
    Steps (operand group resolve) m (resolve x) rest := by
  rw [operand_eq]
  refine ((readMinus_false h rfl).bind_pure _).trans fun r => ?_
  refine ((peek r.after?).bind_pure _).trans fun r => ?_
  exact (skip r.after?).bind_pure _

/-- A minus sign before a name is dropped. -/
theorem operand_minus_name {x : String} (h : m.cursor.after? = some (.minus :: .identifier x :: rest)) :
    Steps (operand group resolve) m (resolve x) rest := by
  rw [operand_eq]
  refine ((readMinus_true h).bind_pure _).trans fun r => ?_
  refine ((peek r.after?).bind_pure _).trans fun r => ?_
  exact (skip r.after?).bind_pure _

/-- Parentheses around what another evaluation reads. -/
theorem operand_group {x : Float} {ts : List Token}
    (h : m.cursor.after? = some (.leftParen :: (ts ++ .rightParen :: rest)))
    (hg : ∀ {m'}, ReadTo m (ts ++ .rightParen :: rest) m' →
      Steps group m' (pure x) (.rightParen :: rest)) :
    Steps (operand group resolve) m (pure (.number x)) rest := by
  rw [operand_eq]
  refine ((readMinus_false h rfl).bind_pure _).trans fun r₁ => ?_
  refine ((peek r₁.after?).bind_pure _).trans fun r₂ => ?_
  refine ((skip r₂.after?).bind_pure _).trans fun r₃ => ?_
  refine ((hg (r₁.trans (r₂.trans r₃))).bind_pure _).trans fun r₄ => ?_
  exact (skip r₄.after?).bind_pure _

/-- The text of a finite number is read as the number. -/
theorem operand_text {x : Float} (hx : Number.IsFinite x)
    (h : m.cursor.after? = some (Token.ofText (Number.text x) ++ rest)) :
    Steps (operand group resolve) m (pure (.number x)) rest := by
  obtain ⟨negative, p, shape⟩ := hx
  have hp := Number.pattern_lt_of_shape shape
  rw [Number.ofText_finite shape] at h
  rw [← Number.ofPattern_of_shape shape]
  cases negative with
  | true =>
      have negated : Number.ofPattern true p = -Number.ofPattern false p :=
        (Number.neg_ofPattern false hp).symm
      rw [negated, ← Number.value_numeral hp]
      exact operand_negated h
  | false =>
      rw [← Number.value_numeral hp]
      exact operand_number h

/-- A parameter with a finite value stands for the value. -/
theorem reread (deeper : Bindings → Eval Float) {x : Float} (hx : Number.IsFinite x)
    (h : m.cursor.after? = some rest) : Steps (reread deeper x) m (pure (.number x)) rest := by
  refine ((note h rfl).bind_pure _).trans fun r₁ => ?_
  refine ((lex _ r₁.after?).bind_pure _).trans fun r₂ => ?_
  exact within r₂.after? (operand_text hx (congrArg some (List.append_nil _).symm))

end Steps

/-! ### Failing -/

/-- The evaluation stops with the fault, and what is remembered is as before. -/
def Fails (x : Eval α) (m : Machine) (fault : Fault) : Prop :=
  ∃ m', x m = .error (.fault fault) m' ∧ m'.calculator = m.calculator

variable {x y : Eval α} {m : Machine} {fault : Fault}

theorem Fails.bind (h : Fails x m fault) (f : α → Eval β) : Fails (x >>= f) m fault := by
  obtain ⟨m', e, same⟩ := h
  exact ⟨m', by rw [bind_apply, e], same⟩

/-- What an evaluation steps to fails, so it fails. -/
theorem Steps.fails {rest : List Token} (h : Steps x m y rest)
    (hy : ∀ {m'}, ReadTo m rest m' → Fails y m' fault) : Fails x m fault := by
  obtain ⟨m₁, r, e⟩ := h
  obtain ⟨m₂, e₂, same⟩ := hy r
  exact ⟨m₂, e.trans e₂, same.trans r.calculator⟩

theorem Fails.nested (h : Fails x { m with depth := m.depth + 1 } fault)
    (hd : m.depth < m.calculator.limit) : Fails (nested x) m fault := by
  obtain ⟨m', e, same⟩ := h
  refine ⟨{ m' with depth := m'.depth - 1 }, ?_, same⟩
  rw [nested_of_lt x hd, e]
  rfl

/-- At the limit nothing is evaluated. -/
theorem Fails.refused (x : Eval α) (h : ¬ m.depth < m.calculator.limit) :
    Fails (Eval.nested x) m (.depthExceeded m.calculator.limit) :=
  ⟨_, nested_of_ge x h, rfl⟩

theorem Fails.within {tokens : List Token} (h : Fails x { m with cursor := .ofTokens tokens } fault) :
    Fails (within tokens x) m fault := by
  obtain ⟨m', e, same⟩ := h
  refine ⟨{ m' with cursor := m.cursor }, ?_, same⟩
  rw [within_apply, e]
  rfl

section Operand

variable {group : Eval Float} {resolve : String → Eval Value} {rest : List Token}

/-- What stands in parentheses fails, so the operand does. -/
theorem Fails.operand_group (h : m.cursor.after? = some (.leftParen :: rest))
    (hg : ∀ {m'}, ReadTo m rest m' → Fails group m' fault) : Fails (operand group resolve) m fault := by
  rw [operand_eq]
  refine ((Steps.readMinus_false h rfl).bind_pure _).fails fun r₁ => ?_
  refine ((Steps.peek r₁.after?).bind_pure _).fails fun r₂ => ?_
  refine ((Steps.skip r₂.after?).bind_pure _).fails fun r₃ => ?_
  exact (hg (r₁.trans (r₂.trans r₃))).bind _

/-- There is no operand at the end. -/
theorem Fails.operand_end (h : m.cursor.after? = some []) :
    Fails (operand group resolve) m .endOfInput := by
  have noMinus : m.cursor.peekIs .minus = false := by simp [Cursor.peekIs, Cursor.remaining, h]
  have noToken : m.cursor.next = .ok (none, ⟨m.cursor.before, none⟩) := by simp [Cursor.next, h]
  refine ⟨{ m with cursor := ⟨m.cursor.before, none⟩ }, ?_, rfl⟩
  simp [operand, readMinus, bind_apply, noMinus, read_of_next noToken]

end Operand

end Eval

end LineCalc
