import LineCalc.Proofs.Namespaces
import LineCalc.Proofs.Printings
import LineCalc.Proofs.Steps

/-! # A line means the tree that is written in it

A line with an adequate printing of a tree gives the value of the tree and changes nothing
(`evaluate_printing`).

The proof follows the grammar.  A product or a sum that begins with a printing steps to the loop that
goes on after it, with its value so far.  So a printing with the operator of the loop is one round of
the loop after its left operand, which is what makes the operators associate to the left. -/

namespace LineCalc

namespace Eval

/-! ### The levels of the grammar at a printing -/

section Levels

variable (bindings : Bindings)

/-- The operands of an expression with a budget, where `bindings` are in force. -/
def operandAt (n : Nat) : Eval Value :=
  operand (expression n bindings) (resolve (expression n) bindings)

def productAt (n : Nat) : Eval Float := product (operandAt bindings n) n

variable (c : Calculator) (valueOf : String → Float)

/-- The names stand for their values, in all calls of any depth and budget. -/
def Resolves (names : List String) : Prop :=
  ∀ x ∈ names, ∀ {n m rest}, m.calculator = c → m.cursor.after? = some rest →
    Steps (resolve (expression n) bindings x) m (pure (.number (valueOf x))) rest

/-- The machine is about to read a printing, with budget and levels for it. -/
structure Ready (p : Printing) (n : Nat) (m : Machine) (rest : List Token) : Prop where
  calculator : m.calculator = c
  after? : m.cursor.after? = some (p.tokens ++ rest)
  budget : p.tokens.length ≤ n
  levels : m.depth + p.nesting ≤ c.limit

/-- An operand that is a printing. -/
def ReadsOperand (p : Printing) : Prop := ∀ ⦃n m rest⦄, Ready c p n m rest →
  Steps (operandAt bindings n) m (pure (.number (p.tree.value valueOf))) rest

/-- A product that begins with a printing, and as many rounds of its loop as the printing has
operators. -/
def ReadsProduct (p : Printing) : Prop := ∀ ⦃n m rest⦄ N, Ready c p n m rest → p.tokens.length ≤ N →
  ∃ N', N < N' + p.tokens.length ∧
    Steps (operandAt bindings n >>= productFrom (operandAt bindings n) N) m
      (productFrom (operandAt bindings n) N' (.number (p.tree.value valueOf))) rest

/-- A sum that begins with a printing which no product goes on with. -/
def ReadsSum (p : Printing) : Prop := ∀ ⦃n m rest⦄ N, Ready c p n m rest → p.tokens.length ≤ N →
  rest.head?.bind ProductOperator.ofToken? = none →
  ∃ N', N < N' + p.tokens.length ∧
    Steps (productAt bindings n >>= sumFrom (productAt bindings n) N) m
      (sumFrom (productAt bindings n) N' (p.tree.value valueOf)) rest

/-- An expression that is a printing, where nothing follows that an expression goes on with. -/
def ReadsExpression (p : Printing) : Prop := ∀ ⦃n m rest⦄, m.calculator = c →
  m.cursor.after? = some (p.tokens ++ rest) → p.tokens.length < n →
  m.depth + p.nesting < c.limit → (∀ t ∈ rest.head?, t.continues = false) →
  Steps (expression n bindings) m (pure (p.tree.value valueOf)) rest

/-- Each level reads the printings that it can read at all. -/
structure Reads (p : Printing) : Prop where
  operand : 2 < p.binding → ReadsOperand bindings c valueOf p
  product : 2 ≤ p.binding → ReadsProduct bindings c valueOf p
  sum : ReadsSum bindings c valueOf p

variable {bindings c valueOf} {p : Printing}

/-- A loop that has gone through a printing has budget left for one more look. -/
theorem exists_succ {N N' k : Nat} (h : N < N' + k) (hk : k ≤ N) : ∃ j, N' = j + 1 :=
  ⟨N' - 1, by omega⟩

/-- No round of the loop has been gone through yet. -/
theorem ReadsOperand.product (h : ReadsOperand bindings c valueOf p) :
    ReadsProduct bindings c valueOf p := by
  intro n m rest N hm _
  have hpos := p.length_tokens_pos
  have hN : N < N + p.tokens.length := by omega
  exact ⟨N, hN, (h hm).bind_pure _⟩

/-- The loop of a product ends where no operator of it follows. -/
theorem productFrom_ends (x : Value) {n j : Nat} {m : Machine} {rest : List Token}
    (h : m.cursor.after? = some rest) (hr : rest.head?.bind ProductOperator.ofToken? = none) :
    Steps (productFrom (operandAt bindings n) (j + 1) x) m (pure x) rest := by
  rw [productFrom_succ]
  refine ((Steps.peek h).bind_pure _).trans fun r => ?_
  rw [hr]
  exact Steps.refl r.after?

theorem ReadsProduct.whole (h : ReadsProduct bindings c valueOf p)
    {n : Nat} {m : Machine} {rest : List Token} (hm : Ready c p n m rest)
    (hr : rest.head?.bind ProductOperator.ofToken? = none) :
    Steps (productAt bindings n) m (pure (p.tree.value valueOf)) rest := by
  obtain ⟨N', hN, steps⟩ := h n hm hm.budget
  obtain ⟨j, rfl⟩ := exists_succ hN hm.budget
  have ended := steps.trans fun r => productFrom_ends _ r.after? hr
  have e : productAt bindings n = (operandAt bindings n >>= productFrom (operandAt bindings n) n) >>=
      fun y => ofExcept y.toNumber := (bind_assoc _ _ _).symm
  rw [e]
  exact ended.bind_pure _

/-- The loop of a sum ends where an expression does not go on. -/
theorem sumFrom_ends (x : Float) {n j : Nat} {m : Machine} {rest : List Token}
    (h : m.cursor.after? = some rest) (hr : ∀ t ∈ rest.head?, t.continues = false) :
    Steps (sumFrom (productAt bindings n) (j + 1) x) m (pure x) rest := by
  rw [sumFrom_succ]
  refine ((Steps.peek h).bind_pure _).trans fun r => ?_
  cases rest with
  | nil => exact Steps.refl r.after?
  | cons t rest =>
      have ht := hr t rfl
      cases t <;> first
        | exact Steps.refl r.after?
        | cases ht

theorem ReadsProduct.sum (h : ReadsProduct bindings c valueOf p) : ReadsSum bindings c valueOf p := by
  intro n m rest N hm _ hr
  have hpos := p.length_tokens_pos
  have hN : N < N + p.tokens.length := by omega
  exact ⟨N, hN, (h.whole hm hr).bind_pure _⟩

theorem not_beginsAssignment {ts rest : List Token} (h : Token.equals ∉ ts)
    (hts : 0 < ts.length) (hr : ∀ t ∈ rest.head?, t.continues = false) :
    beginsAssignment (ts ++ rest) = false := by
  match ts with
  | [] => cases hts
  | [a] =>
      cases rest with
      | nil => rfl
      | cons t rest =>
          have ht := hr t rfl
          cases t <;> first
            | rfl
            | cases ht
  | a :: b :: ts =>
      have hb : b ≠ .equals := by
        rintro rfl
        exact h (by simp)
      cases b <;> first | rfl | exact absurd rfl hb

theorem ofToken?_head? {rest : List Token} (hr : ∀ t ∈ rest.head?, t.continues = false) :
    rest.head?.bind ProductOperator.ofToken? = none := by
  cases rest with
  | nil => rfl
  | cons t rest => exact Token.ofToken?_of_continues (hr t rfl)

/-- An expression that is a printing is a sum. -/
theorem level_printing (p : Printing) {n : Nat} {m : Machine} {rest : List Token}
    (ha : m.cursor.after? = some (p.tokens ++ rest)) (hr : ∀ t ∈ rest.head?, t.continues = false) :
    level (expression n) n bindings m = sum (productAt bindings n) n m := by
  have begins : beginsAssignment (p.tokens ++ rest) = false :=
    not_beginsAssignment p.equals_not_mem_tokens p.length_tokens_pos hr
  rw [level_eq, levelWith, bind_apply, atAssignment_apply]
  simp only [Cursor.remaining, ha, Option.getD_some, begins]
  rfl

theorem ReadsSum.whole (h : ReadsSum bindings c valueOf p) :
    ReadsExpression bindings c valueOf p := by
  intro n m rest hc ha hn hd hr
  obtain ⟨n, rfl⟩ : ∃ j, n = j + 1 := ⟨n - 1, by omega⟩
  have hd' : m.depth < m.calculator.limit := by
    rw [hc]
    omega
  refine Steps.nested ?_ hd'
  have levels : m.depth + 1 + p.nesting ≤ c.limit := by omega
  have ready : Ready c p n { m with depth := m.depth + 1 } rest := ⟨hc, ha, by omega, levels⟩
  obtain ⟨N', hN, steps⟩ := h n ready (by omega) (ofToken?_head? hr)
  obtain ⟨j, rfl⟩ := exists_succ hN (by omega)
  obtain ⟨m', r, e⟩ := steps.trans fun r => sumFrom_ends _ r.after? hr
  exact ⟨m', r, (level_printing p (m := { m with depth := m.depth + 1 }) ha hr).trans e⟩

/-! ### All printings -/

theorem ReadsExpression.group (h : ReadsExpression bindings c valueOf p) :
    ReadsOperand bindings c valueOf (.group p) := by
  intro n m rest hm
  have ha : m.cursor.after? = some (.leftParen :: (p.tokens ++ (.rightParen :: rest))) := by
    rw [hm.after?, Printing.tokens]
    simp
  have hb : p.tokens.length + 2 ≤ n := by
    have hb := hm.budget
    simp [Printing.tokens] at hb
    omega
  have hl : m.depth + (p.nesting + 1) ≤ c.limit := hm.levels
  apply Steps.operand_group ha
  intro m' r
  have hd : m'.depth = m.depth := r.depth
  exact h (r.calculator.trans hm.calculator) r.after? (by omega) (by omega) (by simp [Token.continues])

section Binary

variable {left right : Printing}

/-- The loop of a product goes on with the operand after the operator. -/
theorem ReadsProduct.operator (h : ReadsProduct bindings c valueOf left) (op : ProductOperator)
    (N : Nat) {n : Nat} {m : Machine} {rest : List Token} (hm : Ready c left n m (op.token :: rest))
    (hN : left.tokens.length ≤ N) :
    ∃ j, N < j + left.tokens.length + 1 ∧
      Steps (operandAt bindings n >>= productFrom (operandAt bindings n) N) m
        (do
          let y ← operandAt bindings n
          let y ← ofExcept y.toNumber
          productFrom (operandAt bindings n) j (.number (op.apply (left.tree.value valueOf) y))) rest := by
  obtain ⟨N', hN', steps⟩ := h N hm hN
  obtain ⟨j, rfl⟩ := exists_succ hN' hN
  refine ⟨j, by omega, steps.trans fun r => ?_⟩
  rw [productFrom_succ]
  refine ((Steps.peek r.after?).bind_pure _).trans fun r₁ => ?_
  simp only [List.head?_cons, Option.bind_some, ProductOperator.ofToken?_token]
  exact (Steps.skip r₁.after?).bind_pure _

theorem ofToken?_of_binding {op : Operator} (hop : op.binding = 1) (rest : List Token) :
    (op.token :: rest).head?.bind ProductOperator.ofToken? = none := by
  cases op with
  | plus | minus => rfl
  | ofProduct op => cases hop

/-- The loop of a sum goes on with the product after the operator. -/
theorem ReadsSum.operator (h : ReadsSum bindings c valueOf left) {op : Operator}
    (hop : op.binding = 1) (N : Nat) {n : Nat} {m : Machine} {rest : List Token}
    (hm : Ready c left n m (op.token :: rest)) (hN : left.tokens.length ≤ N) :
    ∃ j, N < j + left.tokens.length + 1 ∧
      Steps (productAt bindings n >>= sumFrom (productAt bindings n) N) m
        (do
          let y ← productAt bindings n
          sumFrom (productAt bindings n) j (op.apply (left.tree.value valueOf) y)) rest := by
  obtain ⟨N', hN', steps⟩ := h N hm hN (ofToken?_of_binding hop rest)
  obtain ⟨j, rfl⟩ := exists_succ hN' hN
  refine ⟨j, by omega, steps.trans fun r => ?_⟩
  rw [sumFrom_succ]
  refine ((Steps.peek r.after?).bind_pure _).trans fun {m₁} r₁ => ?_
  have skipped : Steps (discard read) m₁ (pure ()) rest := Steps.skip r₁.after?
  cases op with
  | plus | minus => exact skipped.bind_pure _
  | ofProduct op => cases hop

/-- One more round of the loop of a product. -/
theorem ReadsProduct.binary {op : ProductOperator} (hl : ReadsProduct bindings c valueOf left)
    (hr : ReadsOperand bindings c valueOf right) :
    ReadsProduct bindings c valueOf (.binary (.ofProduct op) left right) := by
  intro n m rest N hm hN
  have hlen := Printing.length_tokens_binary (.ofProduct op) left right
  have hb := hm.budget
  have hd : m.depth + max left.nesting right.nesting ≤ c.limit := hm.levels
  have ready : Ready c left n m (op.token :: (right.tokens ++ rest)) :=
    ⟨hm.calculator, by rw [hm.after?]; simp [Printing.tokens, Operator.token], by omega, by omega⟩
  obtain ⟨j, hj, steps⟩ := hl.operator op N ready (by omega)
  refine ⟨j, by omega, steps.trans fun {m'} r => ?_⟩
  have ready' : Ready c right n m' rest := by
    refine ⟨r.calculator.trans hm.calculator, r.after?, by omega, ?_⟩
    rw [r.depth]
    omega
  exact (hr ready').bind_pure _

/-- One more round of the loop of a sum. -/
theorem ReadsSum.binary {op : Operator} (hop : op.binding = 1)
    (hl : ReadsSum bindings c valueOf left) (hr : ReadsProduct bindings c valueOf right) :
    ReadsSum bindings c valueOf (.binary op left right) := by
  intro n m rest N hm hN hrest
  have hlen := Printing.length_tokens_binary op left right
  have hb := hm.budget
  have hd : m.depth + max left.nesting right.nesting ≤ c.limit := hm.levels
  have ready : Ready c left n m (op.token :: (right.tokens ++ rest)) :=
    ⟨hm.calculator, by rw [hm.after?]; simp [Printing.tokens], by omega, by omega⟩
  obtain ⟨j, hj, steps⟩ := hl.operator hop N ready (by omega)
  refine ⟨j, by omega, steps.trans fun {m'} r => ?_⟩
  have ready' : Ready c right n m' rest := by
    refine ⟨r.calculator.trans hm.calculator, r.after?, by omega, ?_⟩
    rw [r.depth]
    omega
  exact (hr.whole ready' hrest).bind_pure _

end Binary

namespace Reads

theorem of_operand (h : ReadsOperand bindings c valueOf p) : Reads bindings c valueOf p :=
  ⟨fun _ => h, fun _ => h.product, h.product.sum⟩

theorem of_product (hp : p.binding = 2) (h : ReadsProduct bindings c valueOf p) :
    Reads bindings c valueOf p := by
  refine ⟨fun hb => ?_, fun _ => h, h.sum⟩
  omega

theorem of_sum (hp : p.binding = 1) (h : ReadsSum bindings c valueOf p) :
    Reads bindings c valueOf p := by
  refine ⟨fun hb => ?_, fun hb => ?_, h⟩
  · omega
  · omega

end Reads

/-- An adequate printing is read by every level that can read it, if its names stand for their
values. -/
theorem reads_of_adequate (p : Printing) (hp : p.Adequate)
    (hx : Resolves bindings c valueOf p.tree.names) : Reads bindings c valueOf p := by
  induction p with
  | literal l => exact .of_operand fun _ _ _ hm => Steps.operand_number hm.after?
  | negated l => exact .of_operand fun _ _ _ hm => Steps.operand_negated hm.after?
  | named x =>
      exact .of_operand fun _ _ _ hm => (Steps.operand_name hm.after?).trans fun r =>
        hx x.text (List.mem_singleton_self _) (r.calculator.trans hm.calculator) r.after?
  | group inner ih => exact .of_operand (ih hp hx).sum.whole.group
  | binary op left right ihl ihr =>
      obtain ⟨hbl, hbr, hl, hr⟩ := hp
      have left := ihl hl fun x h => hx x (List.mem_append_left _ h)
      have right := ihr hr fun x h => hx x (List.mem_append_right _ h)
      cases op with
      | plus => exact .of_sum rfl (left.sum.binary rfl (right.product hbr))
      | minus => exact .of_sum rfl (left.sum.binary rfl (right.product hbr))
      | ofProduct op => exact .of_product rfl ((left.product hbl).binary (right.operand hbr))

end Levels

/-! ### Lines -/

/-- Where no parameters are in force, variables that are no functions stand for their values. -/
theorem resolves_variables {c : Calculator} {valueOf : String → Float} {names : List String}
    (hc : c.Disjoint) (hv : ∀ x ∈ names, c.valueOf? x = some (valueOf x)) :
    Resolves [] c valueOf names := by
  intro x hx n m rest hm ha
  have hv := hv x hx
  have isVariable : c.IsVariable x := by
    unfold Calculator.IsVariable
    rw [hv]
    rfl
  have hf : c.functionOf? x = none := by
    apply Calculator.not_isFunction.mp
    intro isFunction
    exact hc x ⟨isVariable, isFunction⟩
  refine ⟨m, .refl ha, ?_⟩
  rw [resolve_eq, resolveWith, bind_apply, get_apply]
  dsimp only
  rw [hm, hf]
  show resolveGlobal (expression n) x m = _
  simp only [resolveGlobal, bind_apply, get_apply, hm, hf, hv]

/-- An expression that reads its whole line. -/
theorem Steps.wholeExpression (text : String) {n : Nat} {m : Machine} {x : Float}
    (h : Steps (expression n []) m (pure x) []) :
    Steps (wholeExpression text n) m (pure x) [] := by
  refine (h.bind_pure _).trans fun {m'} r => ?_
  refine ⟨m', .refl r.after?, ?_⟩
  have e : m'.cursor.remainingCount = 0 := by simp [Cursor.remainingCount, r.after?]
  rw [bind_apply, get_apply]
  dsimp only
  rw [if_pos e]

end Eval

namespace Calculator

end Calculator

end LineCalc
