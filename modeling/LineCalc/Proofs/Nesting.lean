import LineCalc.Proofs.Budget
import LineCalc.Proofs.TreeValues

/-! # Where the limit is exceeded

An adequate printing whose parentheses are nested as deeply as the limit, or more deeply, is not
evaluated: the evaluation fails with the limit and changes nothing (`exceeds_of_adequate`,
`evaluate_exceeded`).  With `reads_of_adequate` this says of every printing, and every limit, which of
the two happens.

The proof has the same shape as that of `reads_of_adequate`.  The new case is an operator: its left
operand is nested too deeply, or the left operand is read and the right one is nested too deeply. -/

namespace LineCalc

namespace Eval

section Levels

variable (bindings : Bindings) (c : Calculator)

/-- The machine is about to read a printing, with budget for it but not enough levels. -/
structure Cramped (p : Printing) (n : Nat) (m : Machine) (rest : List Token) : Prop where
  calculator : m.calculator = c
  after? : m.cursor.after? = some (p.tokens ++ rest)
  budget : p.tokens.length ≤ n
  levels : c.limit < m.depth + p.nesting
  depth : m.depth ≤ c.limit

/-- An operand that is a printing fails if that is nested too deeply. -/
def ExceedsOperand (p : Printing) : Prop := ∀ ⦃n m rest⦄, Cramped c p n m rest →
  Fails (operandAt bindings n) m (.depthExceeded c.limit)

/-- The same of a product that begins with a printing. -/
def ExceedsProduct (p : Printing) : Prop := ∀ ⦃n m rest⦄ N, Cramped c p n m rest →
  p.tokens.length ≤ N →
  Fails (operandAt bindings n >>= productFrom (operandAt bindings n) N) m (.depthExceeded c.limit)

/-- The same of a sum that begins with a printing which no product goes on with. -/
def ExceedsSum (p : Printing) : Prop := ∀ ⦃n m rest⦄ N, Cramped c p n m rest →
  p.tokens.length ≤ N → rest.head?.bind ProductOperator.ofToken? = none →
  Fails (productAt bindings n >>= sumFrom (productAt bindings n) N) m (.depthExceeded c.limit)

/-- The same of an expression, which needs one more level. -/
def ExceedsExpression (p : Printing) : Prop := ∀ ⦃n m rest⦄, m.calculator = c →
  m.cursor.after? = some (p.tokens ++ rest) → p.tokens.length < n →
  c.limit ≤ m.depth + p.nesting → m.depth ≤ c.limit → (∀ t ∈ rest.head?, t.continues = false) →
  Fails (expression n bindings) m (.depthExceeded c.limit)

/-- Each level that can read the printing fails if that is nested too deeply. -/
structure Exceeds (p : Printing) : Prop where
  operand : 2 < p.binding → ExceedsOperand bindings c p
  product : 2 ≤ p.binding → ExceedsProduct bindings c p
  sum : ExceedsSum bindings c p

variable {bindings c} {p : Printing}

theorem ExceedsOperand.product (h : ExceedsOperand bindings c p) : ExceedsProduct bindings c p :=
  fun _ _ _ _ hm _ => (h hm).bind _

theorem ExceedsProduct.whole (h : ExceedsProduct bindings c p) {n : Nat} {m : Machine}
    {rest : List Token} (hm : Cramped c p n m rest) :
    Fails (productAt bindings n) m (.depthExceeded c.limit) := by
  have e : productAt bindings n = (operandAt bindings n >>= productFrom (operandAt bindings n) n) >>=
      fun y => ofExcept y.toNumber := (bind_assoc _ _ _).symm
  rw [e]
  exact (h n hm hm.budget).bind _

theorem ExceedsProduct.sum (h : ExceedsProduct bindings c p) : ExceedsSum bindings c p :=
  fun _ _ _ _ hm _ _ => (h.whole hm).bind _

theorem ExceedsSum.whole (h : ExceedsSum bindings c p) : ExceedsExpression bindings c p := by
  intro n m rest hc ha hn hl hd hr
  obtain ⟨n, rfl⟩ : ∃ j, n = j + 1 := ⟨n - 1, by omega⟩
  by_cases room : m.depth < m.calculator.limit
  · refine Fails.nested ?_ room
    rw [hc] at room
    have levels : c.limit < m.depth + 1 + p.nesting := by omega
    have cramped : Cramped c p n { m with depth := m.depth + 1 } rest :=
      ⟨hc, ha, by omega, levels, room⟩
    obtain ⟨m', e, same⟩ := h n cramped (by omega) (ofToken?_head? hr)
    exact ⟨m', (level_printing p (m := { m with depth := m.depth + 1 }) ha hr).trans e, same⟩
  · have refused := Fails.refused (level (expression n) n bindings) room
    rwa [hc] at refused

theorem ExceedsExpression.group (h : ExceedsExpression bindings c p) :
    ExceedsOperand bindings c (.group p) := by
  intro n m rest hm
  have ha : m.cursor.after? = some (.leftParen :: (p.tokens ++ (.rightParen :: rest))) := by
    rw [hm.after?, Printing.tokens]
    simp
  have hb : p.tokens.length + 2 ≤ n := by
    have hb := hm.budget
    simp [Printing.tokens] at hb
    omega
  have hl : c.limit < m.depth + (p.nesting + 1) := hm.levels
  have hd := hm.depth
  refine Fails.operand_group ha fun {m'} r => ?_
  have same : m'.depth = m.depth := r.depth
  exact h (r.calculator.trans hm.calculator) r.after? (by omega) (by omega) (by omega)
    (by simp [Token.continues])

section Binary

variable {valueOf : String → Float} {left right : Printing}

theorem ExceedsProduct.binary {op : ProductOperator} (reads : ReadsProduct bindings c valueOf left)
    (hl : ExceedsProduct bindings c left) (hr : ExceedsOperand bindings c right) :
    ExceedsProduct bindings c (.binary (.ofProduct op) left right) := by
  intro n m rest N hm hN
  have hlen := Printing.length_tokens_binary (.ofProduct op) left right
  have hb := hm.budget
  have hd := hm.depth
  have levels : c.limit < m.depth + max left.nesting right.nesting := hm.levels
  have ha : m.cursor.after? = some (left.tokens ++ (op.token :: (right.tokens ++ rest))) := by
    rw [hm.after?]
    simp [Printing.tokens, Operator.token]
  by_cases fits : m.depth + left.nesting ≤ c.limit
  · have ready : Ready c left n m (op.token :: (right.tokens ++ rest)) :=
      ⟨hm.calculator, ha, by omega, fits⟩
    obtain ⟨j, -, steps⟩ := reads.operator op N ready (by omega)
    refine steps.fails fun {m'} r => ?_
    have depth := r.depth
    have cramped : Cramped c right n m' rest :=
      ⟨r.calculator.trans hm.calculator, r.after?, by omega, by omega, by omega⟩
    exact (hr cramped).bind _
  · exact hl N ⟨hm.calculator, ha, by omega, by omega, hd⟩ (by omega)

theorem ExceedsSum.binary {op : Operator} (hop : op.binding = 1)
    (reads : ReadsSum bindings c valueOf left) (hl : ExceedsSum bindings c left)
    (hr : ExceedsProduct bindings c right) : ExceedsSum bindings c (.binary op left right) := by
  intro n m rest N hm hN hrest
  have hlen := Printing.length_tokens_binary op left right
  have hb := hm.budget
  have hd := hm.depth
  have levels : c.limit < m.depth + max left.nesting right.nesting := hm.levels
  have ha : m.cursor.after? = some (left.tokens ++ (op.token :: (right.tokens ++ rest))) := by
    rw [hm.after?]
    simp [Printing.tokens]
  by_cases fits : m.depth + left.nesting ≤ c.limit
  · have ready : Ready c left n m (op.token :: (right.tokens ++ rest)) :=
      ⟨hm.calculator, ha, by omega, fits⟩
    obtain ⟨j, -, steps⟩ := reads.operator hop N ready (by omega)
    refine steps.fails fun {m'} r => ?_
    have depth := r.depth
    have cramped : Cramped c right n m' rest :=
      ⟨r.calculator.trans hm.calculator, r.after?, by omega, by omega, by omega⟩
    exact (hr.whole cramped).bind _
  · have noProduct : (op.token :: (right.tokens ++ rest)).head?.bind ProductOperator.ofToken? = none :=
      ofToken?_of_binding hop _
    exact hl N ⟨hm.calculator, ha, by omega, by omega, hd⟩ (by omega) noProduct

end Binary

namespace Exceeds

theorem of_operand (h : ExceedsOperand bindings c p) : Exceeds bindings c p :=
  ⟨fun _ => h, fun _ => h.product, h.product.sum⟩

theorem of_product (hp : p.binding = 2) (h : ExceedsProduct bindings c p) : Exceeds bindings c p :=
  ⟨fun hb => absurd hb (by omega), fun _ => h, h.sum⟩

theorem of_sum (hp : p.binding = 1) (h : ExceedsSum bindings c p) : Exceeds bindings c p :=
  ⟨fun hb => absurd hb (by omega), fun hb => absurd hb (by omega), h⟩

/-- What has no parentheses is not nested too deeply. -/
theorem of_flat (hp : p.nesting = 0) : Exceeds bindings c p := by
  apply of_operand
  intro n m rest hm
  have levels := hm.levels
  have depth := hm.depth
  omega

end Exceeds

/-- At an adequate printing that is nested too deeply, every level that can read it fails, if the names
stand for some values. -/
theorem exceeds_of_adequate {valueOf : String → Float} (p : Printing) (hp : p.Adequate)
    (hx : Resolves bindings c valueOf p.tree.names) : Exceeds bindings c p := by
  induction p with
  | literal l => exact .of_flat rfl
  | negated l => exact .of_flat rfl
  | named x => exact .of_flat rfl
  | group inner ih => exact .of_operand (ih hp hx).sum.whole.group
  | binary op left right ihl ihr =>
      obtain ⟨hbl, hbr, hl, hr⟩ := hp
      have hx' : Resolves bindings c valueOf left.tree.names :=
        fun x h => hx x (List.mem_append_left _ h)
      have reads := reads_of_adequate left hl hx'
      have left := ihl hl hx'
      have right := ihr hr fun x h => hx x (List.mem_append_right _ h)
      cases op with
      | plus => exact .of_sum rfl (.binary rfl reads.sum left.sum (right.product hbr))
      | minus => exact .of_sum rfl (.binary rfl reads.sum left.sum (right.product hbr))
      | ofProduct op =>
          exact .of_product rfl (.binary (reads.product hbl) (left.product hbl) (right.operand hbr))

end Levels

/-- Where no level is left, no expression is evaluated. -/
theorem Fails.expression {n : Nat} (hn : 0 < n) (bindings : Bindings) {m : Machine}
    (h : ¬ m.depth < m.calculator.limit) :
    Fails (expression n bindings) m (.depthExceeded m.calculator.limit) := by
  obtain ⟨n, rfl⟩ : ∃ j, n = j + 1 := ⟨n - 1, by omega⟩
  exact Fails.refused (level (Eval.expression n) n bindings) h

end Eval

namespace Calculator

variable {c : Calculator} {text : String} {first : Token} {rest : List Token}

/-- A line fails as its expression does, and then it changes nothing. -/
theorem evaluate_of_expression_fails (ht : Token.ofText text = first :: rest)
    (hf : first ≠ .identifier Definition.keyword) {fault : Fault}
    (h : Eval.Fails (Eval.expression (c.budget text) []) (c.reading text) fault) :
    (c.evaluate text).outcome = .error fault ∧ (c.evaluate text).calculator = c := by
  obtain ⟨m, e, same⟩ := h
  obtain ⟨fault', stop, outcome, calculator⟩ := evaluate_of_expression_error ht hf e
  cases stop
  exact ⟨outcome, calculator.trans same⟩

/-- A line with a printing whose parentheses are nested too deeply fails and changes nothing. -/
theorem evaluate_exceeded (hc : Reachable c) {p : Printing} (hp : p.Adequate)
    {valueOf : String → Float} (hv : ∀ x ∈ p.tree.names, c.valueOf? x = some (valueOf x))
    (ht : Token.Spaced p.tokens text.toList)
    (hk : p.tokens.head? ≠ some (.identifier Definition.keyword)) (hl : c.limit ≤ p.nesting) :
    (c.evaluate text).outcome = .error (.depthExceeded c.limit) ∧ (c.evaluate text).calculator = c := by
  have tokens := p.ofText_of_spaced ht
  have exceeds := Eval.exceeds_of_adequate p hp (Eval.resolves_variables hc.disjoint hv)
  cases e : p.tokens with
  | nil => exact absurd p.length_tokens_pos (by simp [e])
  | cons first rest =>
      have hf : first ≠ .identifier Definition.keyword := by
        rintro rfl
        exact hk (by rw [e]; rfl)
      have hn : p.tokens.length < c.budget text := by
        have hlen := Token.length_ofText_le text
        rw [tokens] at hlen
        unfold budget
        omega
      have ha : (c.reading text).cursor.after? = some (p.tokens ++ []) := by
        rw [List.append_nil, ← tokens]
        rfl
      have levels : c.limit ≤ (c.reading text).depth + p.nesting := by
        show c.limit ≤ 0 + p.nesting
        omega
      exact evaluate_of_expression_fails (tokens.trans e) hf
        (exceeds.sum.whole rfl ha hn levels (Nat.zero_le _) (by simp))

end Calculator

end LineCalc
