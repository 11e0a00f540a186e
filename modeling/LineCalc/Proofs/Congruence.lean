import LineCalc.Proofs.Evaluation

/-! # One traversal of the grammar

Whatever is true of single steps, and passes from evaluations to what is made of them, is true of the
grammar.  Here the grammar is gone through once, for any relation between evaluations that is such a
*congruence*: it holds between a step and itself, and it holds between two evaluations that are made in the
same way of parts between which it holds.

A relation need not be one all over.  So there are four kinds, and each level asks only for what it needs.

* `Congruence`: values, faults and readings, one after the other.  That is enough for the arguments of a
  call, and for an assignment if variables may be written (`Congruence.assignment`).
* `TokenCongruence`: also looks at the next token.  This gives operands, products and sums.
* `NameCongruence`: also looks at what a name stands for, and texts that are cut into tokens and read.
  It may rely on something that is known of all `stored` functions.
* `GrammarCongruence`: everything that `level` and `expression` are made of.

A property is a relation, which holds between two evaluations if both have the property (`Both`).

Statements of another kind need an induction of their own: how much is read and where it ends, since there
the parts have other bounds than the whole; what two evaluations do that come upon different values; and
evaluations with different budgets. -/

namespace LineCalc

namespace Eval

variable {α β : Type}

/-- What is asked of the machine. -/
def look (f : Machine → α) : Eval α := fun m => .ok (f m) m

/-- Reading a minus sign, in terms of `look`. -/
theorem readMinus_eq : readMinus = (do
    if ← look (·.cursor.peekIs .minus) then
      discard read
      return true
    else
      return false) := rfl

/-- An assignment, in terms of `look`. -/
theorem assignment_eq (value : Eval Float) : assignment value = (do
    match ← read with
    | some (.identifier name) =>
      if ← look (·.calculator.functionTable.contains name) then
        fail (.nameIsFunction name)
      else
        discard read
        let x ← value
        assign name x
        return x
    | some other => fail (.invalidTarget other.text)
    | none => fail .endOfInput) := rfl

theorem atAssignment_eq : atAssignment = look (beginsAssignment ·.cursor.remaining) :=
  funext atAssignment_apply

/-- What a name stands for that is no parameter, in terms of `look`. -/
theorem globalWith_eq (call : Definition → Eval Float) (name : String) : globalWith call name = (do
    match ← look (·.calculator.functionOf? name) with
    | some f => return .number (← call f)
    | none =>
      match ← look (·.calculator.valueOf? name) with
      | some x => return .number x
      | none => return .unresolved name) := rfl

/-- What a name stands for, in terms of `look`. -/
theorem resolveWith_eq (parameter : Float → Eval Value) (global : String → Eval Value)
    (bindings : Bindings) (name : String) : resolveWith parameter global bindings name = (do
    match ← look (·.calculator.functionOf? name), bindings.lookup name with
    | none, some x => parameter x
    | _, _ => global name) := rfl

/-! ### Congruences -/

/-- Values, faults and readings, one after the other.  Nothing is asked about the fault that the limit is
exceeded, which no step but `nested` tells. -/
structure Congruence (R : ∀ ⦃α : Type⦄, Eval α → Eval α → Prop) : Prop where
  pure : ∀ {α : Type} (a : α), R (pure a) (pure a)
  bind : ∀ {α β : Type} {x y : Eval α} {f g : α → Eval β}, R x y → (∀ a, R (f a) (g a)) →
    R (x >>= f) (y >>= g)
  fail : ∀ {α : Type} {fault : Fault}, (∀ limit, fault ≠ .depthExceeded limit) →
    R (fail fault : Eval α) (fail fault)
  read : R read read

/-- Looks at the next token. -/
structure TokenCongruence (R : ∀ ⦃α : Type⦄, Eval α → Eval α → Prop) : Prop extends Congruence R where
  peek : R peek peek
  minus : R (look (·.cursor.peekIs .minus)) (look (·.cursor.peekIs .minus))

/-- Looks at what a name stands for, and texts that are cut into tokens and read. -/
structure NameCongruence (stored : String → Definition → Prop)
    (R : ∀ ⦃α : Type⦄, Eval α → Eval α → Prop) : Prop extends Congruence R where
  function : ∀ {α : Type} {name : String} {f g : Option Definition → Eval α},
    (∀ d?, (∀ d ∈ d?, stored name d) → R (f d?) (g d?)) →
    R (look (·.calculator.functionOf? name) >>= f) (look (·.calculator.functionOf? name) >>= g)
  value : ∀ name, R (look (·.calculator.valueOf? name)) (look (·.calculator.valueOf? name))
  body : ∀ {name : String} {f : Definition} {x y : Eval Float}, stored name f → R x y →
    ∀ bindings, R (do note (.calling name bindings); within (← lex f.joined) x)
      (do note (.calling name bindings); within (← lex f.joined) y)
  number : ∀ {x y : Eval Value}, R x y → ∀ a,
    R (do note (.reread (Number.text a)); within (← lex (Number.text a)) x)
      (do note (.reread (Number.text a)); within (← lex (Number.text a)) y)

/-- Everything that an expression is made of, given the next one. -/
structure GrammarCongruence (stored : String → Definition → Prop)
    (R : ∀ ⦃α : Type⦄, Eval α → Eval α → Prop) : Prop
    extends TokenCongruence R, NameCongruence stored R where
  exhausted : ∀ {α : Type}, R (throw .exhausted : Eval α) (throw .exhausted)
  beginning : R (look (beginsAssignment ·.cursor.remaining)) (look (beginsAssignment ·.cursor.remaining))
  assignment : ∀ {value value' : Eval Float}, R value value' → R (assignment value) (assignment value')

/-! ### Properties -/

/-- Both evaluations have the property. -/
def Both (P : ∀ ⦃α : Type⦄, Eval α → Prop) : ∀ ⦃α : Type⦄, Eval α → Eval α → Prop :=
  fun _ x y => P x ∧ P y

namespace Both

variable {P : ∀ ⦃α : Type⦄, Eval α → Prop}

theorem congruence (pure : ∀ {α : Type} (a : α), P (pure a))
    (bind : ∀ {α β : Type} {x : Eval α} {f : α → Eval β}, P x → (∀ a, P (f a)) → P (x >>= f))
    (fail : ∀ {α : Type} {fault : Fault}, (∀ limit, fault ≠ .depthExceeded limit) →
      P (fail fault : Eval α))
    (read : P read) : Congruence (Both P) where
  pure a := ⟨pure a, pure a⟩
  bind hx hf := ⟨bind hx.1 fun a => (hf a).1, bind hx.2 fun a => (hf a).2⟩
  fail h := ⟨fail h, fail h⟩
  read := ⟨read, read⟩

theorem tokenCongruence (C : Congruence (Both P)) (peek : P peek)
    (minus : P (look (·.cursor.peekIs .minus))) : TokenCongruence (Both P) :=
  { C with
    peek := ⟨peek, peek⟩
    minus := ⟨minus, minus⟩ }

theorem nameCongruence {stored : String → Definition → Prop} (C : Congruence (Both P))
    (function : ∀ {α : Type} {name : String} {f : Option Definition → Eval α},
      (∀ d?, (∀ d ∈ d?, stored name d) → P (f d?)) → P (look (·.calculator.functionOf? name) >>= f))
    (value : ∀ name, P (look (·.calculator.valueOf? name)))
    (body : ∀ {name : String} {f : Definition} {x : Eval Float}, stored name f → P x →
      ∀ bindings, P (do note (.calling name bindings); within (← lex f.joined) x))
    (number : ∀ {x : Eval Value}, P x →
      ∀ a, P (do note (.reread (Number.text a)); within (← lex (Number.text a)) x)) :
    NameCongruence stored (Both P) :=
  { C with
    function := fun h => ⟨function fun d? hd => (h d? hd).1, function fun d? hd => (h d? hd).2⟩
    value := fun name => ⟨value name, value name⟩
    body := fun hf h bindings => ⟨body hf h.1 bindings, body hf h.2 bindings⟩
    number := fun h a => ⟨number h.1 a, number h.2 a⟩ }

end Both

variable {R : ∀ ⦃α : Type⦄, Eval α → Eval α → Prop} {stored : String → Definition → Prop}
  {deeper deeper' : Bindings → Eval Float}

/-! ### The levels of the grammar -/

namespace Congruence

variable (C : Congruence R)
include C

theorem skip : R (discard Eval.read) (discard Eval.read) := by
  have h := C.bind C.read fun _ => C.pure ()
  rwa [bind_pure_comp] at h

theorem toNumber (v : Value) : R (ofExcept v.toNumber) (ofExcept v.toNumber) := by
  cases v with
  | number x => exact C.pure x
  | unresolved name => exact C.fail fun limit => by simp

/-- An assignment, if the name may be looked up and the variable may be written. -/
theorem assignment (known : ∀ name, R (look (·.calculator.functionTable.contains name))
      (look (·.calculator.functionTable.contains name)))
    (assign : ∀ name x, R (assign name x) (assign name x)) {value value' : Eval Float}
    (h : R value value') : R (assignment value) (assignment value') := by
  rw [assignment_eq, assignment_eq]
  apply C.bind C.read
  intro t
  split
  · rename_i name
    have write : R (do discard Eval.read; let x ← value; Eval.assign name x; return x)
        (do discard Eval.read; let x ← value'; Eval.assign name x; return x) :=
      C.bind C.skip fun _ => C.bind h fun x => C.bind (assign name x) fun _ => C.pure x
    apply C.bind (known name)
    intro isFunction
    split
    · exact C.fail fun limit => by simp
    · exact write
  · exact C.fail fun limit => by simp
  · exact C.fail fun limit => by simp

theorem arguments (h : ∀ bindings, R (deeper bindings) (deeper' bindings)) (parameters : List String) :
    R (arguments deeper parameters) (arguments deeper' parameters) := by
  induction parameters with
  | nil => exact C.pure []
  | cons parameter rest ih => exact C.bind (h []) fun x => C.bind ih fun bindings => C.pure _

end Congruence

namespace TokenCongruence

variable (C : TokenCongruence R)
include C

theorem readMinus : R readMinus readMinus := by
  rw [readMinus_eq]
  apply C.bind C.minus
  intro isMinus
  split
  · exact C.bind C.skip fun _ => C.pure true
  · exact C.pure false

theorem operand {group group' : Eval Float} {resolve resolve' : String → Eval Value}
    (hg : R group group') (hr : ∀ name, R (resolve name) (resolve' name)) :
    R (operand group resolve) (operand group' resolve') := by
  rw [operand_eq, operand_eq]
  apply C.bind C.readMinus
  intro negative
  apply C.bind C.peek
  intro t
  split
  · exact C.bind C.skip fun _ => C.pure _
  · exact C.bind C.skip fun _ => hr _
  · exact C.bind C.skip fun _ => C.bind hg fun x => C.bind C.skip fun _ => C.pure _
  · exact C.fail fun limit => by simp
  · exact C.bind C.skip fun _ => C.fail fun limit => by simp

variable (stop : ∀ {α : Type}, R (throw .exhausted : Eval α) (throw .exhausted))
include stop

theorem productFrom {operand operand' : Eval Value} (h : R operand operand') (n : Nat) (x : Value) :
    R (productFrom operand n x) (productFrom operand' n x) := by
  induction n generalizing x with
  | zero => exact stop
  | succ n ih =>
      rw [productFrom_succ, productFrom_succ]
      apply C.bind C.peek
      intro t
      split
      · exact C.pure x
      · exact C.bind C.skip fun _ => C.bind h fun y => C.bind (C.toNumber x) fun x =>
          C.bind (C.toNumber y) fun y => ih _

theorem product {operand operand' : Eval Value} (h : R operand operand') (n : Nat) :
    R (product operand n) (product operand' n) :=
  C.bind h fun x => C.bind (C.productFrom stop h n x) fun y => C.toNumber y

theorem sumFrom {product product' : Eval Float} (h : R product product') (n : Nat) (x : Float) :
    R (sumFrom product n x) (sumFrom product' n x) := by
  induction n generalizing x with
  | zero => exact stop
  | succ n ih =>
      rw [sumFrom_succ, sumFrom_succ]
      apply C.bind C.peek
      intro t
      split
      · exact C.bind C.skip fun _ => C.bind h fun y => ih _
      · exact C.bind C.skip fun _ => C.bind h fun y => ih _
      · exact C.pure x

theorem sum {product product' : Eval Float} (h : R product product') (n : Nat) :
    R (sum product n) (sum product' n) :=
  C.bind h fun x => C.sumFrom stop h n x

end TokenCongruence

namespace NameCongruence

variable (C : NameCongruence stored R)
include C

/-- A call of a stored function. -/
theorem call (h : ∀ bindings, R (deeper bindings) (deeper' bindings)) {name : String} {f : Definition}
    (hf : stored name f) : R (call deeper name f) (call deeper' name f) :=
  C.bind (C.arguments h f.parameters) fun bindings => C.body hf (h bindings) bindings

theorem globalWith {call call' : Definition → Eval Float} {name : String}
    (h : ∀ f, stored name f → R (call f) (call' f)) :
    R (globalWith call name) (globalWith call' name) := by
  rw [globalWith_eq, globalWith_eq]
  apply C.function
  intro f? known
  cases f? with
  | some f => exact C.bind (h f (known f rfl)) fun x => C.pure _
  | none =>
      apply C.bind (C.value name)
      intro x?
      split
      · exact C.pure _
      · exact C.pure _

theorem resolveGlobal (h : ∀ bindings, R (deeper bindings) (deeper' bindings)) (name : String) :
    R (resolveGlobal deeper name) (resolveGlobal deeper' name) :=
  C.globalWith fun _ hf => C.call h hf

theorem resolveWith {parameter parameter' : Float → Eval Value} {global global' : String → Eval Value}
    (hp : ∀ x, R (parameter x) (parameter' x)) (hg : ∀ name, R (global name) (global' name))
    (bindings : Bindings) (name : String) :
    R (resolveWith parameter global bindings name) (resolveWith parameter' global' bindings name) := by
  rw [resolveWith_eq, resolveWith_eq]
  apply C.function
  intro f? _
  split
  · exact hp _
  · exact hg name

end NameCongruence

namespace GrammarCongruence

variable (C : GrammarCongruence stored R)
include C

section Levels

variable (h : ∀ bindings, R (deeper bindings) (deeper' bindings))
include h

theorem reread (x : Float) : R (reread deeper x) (reread deeper' x) :=
  C.number (C.operand (h []) (C.resolveGlobal h)) x

theorem resolve (bindings : Bindings) (name : String) :
    R (resolve deeper bindings name) (resolve deeper' bindings name) :=
  C.resolveWith (C.reread h) (C.resolveGlobal h) bindings name

theorem level (budget : Nat) (bindings : Bindings) :
    R (level deeper budget bindings) (level deeper' budget bindings) := by
  have operand := C.operand (h bindings) (C.resolve h bindings)
  rw [level_eq, level_eq, levelWith, levelWith, atAssignment_eq]
  apply C.bind C.beginning
  intro isAssignment
  split
  · exact C.assignment (h [])
  · exact C.sum C.exhausted (C.product C.exhausted operand budget) budget

end Levels

end GrammarCongruence

end Eval

end LineCalc
