import LineCalc.Proofs.Budget
import LineCalc.Proofs.Metered

/-! # Every evaluation ends

For each line there is a number of steps such that the metered evaluator gives what the evaluator gives
if its budget is at least this number, and is exhausted if it is not (`evaluateWithin_eq`).  So every
evaluation ends, whatever functions are stored and however they call each other, and a larger budget
changes nothing.

* A metered evaluation *takes* some number of steps on a machine (`Takes`).  The steps of evaluations
  that are run one after the other add up.
* The evaluator keeps to a budget of its own, of levels and of operators, which suffices for every line
  (`Calculator.line_finished`).  By induction on that one, each level takes a number of steps that does
  not depend on the budget of steps (`Meters`).
* An operand and a product take a step each, so the loops of products and sums have the rounds that they
  need.  The value of a parameter is read where there are no parameters, so what is read there is
  treated first (`Meters.parameter`). -/

namespace LineCalc

namespace Eval

namespace Metered

variable {α β : Type}

/-! ### Names

The evaluator looks first for a function and a parameter, and then for a function again and a
variable. -/

theorem resolve_eq_match (deeper : Bindings → Eval Float) (bindings : Bindings) (name : String) :
    Eval.resolve deeper bindings name = (do
      match (← get).calculator.functionOf? name with
      | some f => return .number (← Eval.call deeper name f)
      | none =>
        match bindings.lookup name with
        | some x => Eval.reread deeper x
        | none =>
          match (← get).calculator.valueOf? name with
          | some x => return .number x
          | none => return .unresolved name) := by
  funext m
  rw [resolve_eq, resolveWith, Eval.bind_apply, Eval.bind_apply, get_apply]
  dsimp only
  cases hf : m.calculator.functionOf? name with
  | some f => simp only [resolveGlobal, Eval.bind_apply, get_apply, hf]
  | none =>
      cases bindings.lookup name with
      | some x => rfl
      | none =>
          cases hv : m.calculator.valueOf? name with
          | some x => simp only [resolveGlobal, Eval.bind_apply, get_apply, hf, hv]
          | none => simp only [resolveGlobal, Eval.bind_apply, get_apply, hf, hv]

/-! ### Taking steps -/

theorem bind_apply (x : Metered α) (f : α → Metered β) (left : Nat) (m : Machine) :
    (x >>= f) left m = match x left m with
      | .ok (a, left) m' => f a left m'
      | .error e m' => .error e m' := by
  show (x left >>= fun p => f p.1 p.2) m = _
  rw [Eval.bind_apply]
  cases x left m with
  | ok p m' => rfl
  | error e m' => rfl

/-- What an evaluation gives, and the steps that are left. -/
def paid (left : Nat) : EStateM.Result Stop Machine α → EStateM.Result Stop Machine (α × Nat)
  | .ok a m => .ok (a, left) m
  | .error e m => .error e m

theorem lift_apply (y : Eval α) (left : Nat) (m : Machine) :
    (liftM y : Metered α) left m = paid left (y m) := by
  show (y >>= fun a => Pure.pure (a, left)) m = _
  rw [Eval.bind_apply]
  cases y m with
  | ok a m' => rfl
  | error e m' => rfl

/-- A metered evaluation takes `cost` steps from a machine on if it gives what the other one gives, with
so many steps less, where so many are left; where fewer are left, it is exhausted. -/
structure Takes (x : Metered α) (y : Eval α) (m : Machine) (cost left : Nat) : Prop where
  enough : cost ≤ left → x left m = paid (left - cost) (y m)
  short : left < cost → ∃ m', x left m = .error .exhausted m'

namespace Takes

variable {m m' : Machine} {left : Nat}

theorem free {x : Metered α} {y : Eval α} (h : x left m = paid left (y m)) : Takes x y m 0 left :=
  ⟨fun _ => h, fun h => absurd h (Nat.not_lt_zero left)⟩

theorem bind_of_error {x : Metered α} {y : Eval α} {cost : Nat} {e : Stop}
    (hx : Takes x y m cost left) (hy : y m = .error e m') (f : α → Metered β) (g : α → Eval β) :
    Takes (x >>= f) (y >>= g) m cost left := by
  constructor
  · intro h
    rw [bind_apply, Eval.bind_apply, hx.enough h, hy]
    rfl
  · intro h
    obtain ⟨m₁, e₁⟩ := hx.short h
    exact ⟨m₁, by rw [bind_apply, e₁]⟩

theorem bind_of_ok {x : Metered α} {y : Eval α} {cost : Nat} {a : α} (hx : Takes x y m cost left)
    (hy : y m = .ok a m') {f : α → Metered β} {g : α → Eval β} {cost' : Nat}
    (hf : cost ≤ left → Takes (f a) (g a) m' cost' (left - cost)) :
    Takes (x >>= f) (y >>= g) m (cost + cost') left := by
  have run (h : cost ≤ left) : (x >>= f) left m = f a (left - cost) m' := by
    rw [bind_apply, hx.enough h, hy]
    rfl
  constructor
  · intro h
    have hc : cost ≤ left := by omega
    rw [run hc, (hf hc).enough (by omega), Eval.bind_apply, hy, Nat.sub_sub]
  · intro h
    by_cases hc : cost ≤ left
    · obtain ⟨m₁, e₁⟩ := (hf hc).short (by omega)
      exact ⟨m₁, by rw [run hc, e₁]⟩
    · obtain ⟨m₁, e₁⟩ := hx.short (by omega)
      exact ⟨m₁, by rw [bind_apply, e₁]⟩

theorem step {x : Metered α} {y : Eval α} {cost : Nat}
    (h : ∀ left', left = left' + 1 → Takes x y m cost left') :
    Takes (step x) y m (cost + 1) left := by
  cases left with
  | zero => exact ⟨fun h => by omega, fun _ => ⟨m, rfl⟩⟩
  | succ left =>
      obtain ⟨enough, short⟩ := h left rfl
      constructor
      · intro hc
        rw [Nat.add_sub_add_right]
        exact enough (by omega)
      · intro hc
        exact short (by omega)

/-- Changing the machine before and after an evaluation takes no steps. -/
theorem onMachine {x : Metered α} {y : Eval α} {cost : Nat} (hx : Takes x y m' cost left)
    {x' : Metered α} {y' : Eval α} (f : Machine → Machine)
    (ex : ∀ left, x' left m = Eval.onMachine f (x left m')) (ey : y' m = Eval.onMachine f (y m')) :
    Takes x' y' m cost left := by
  constructor
  · intro h
    rw [ex, ey, hx.enough h]
    cases y m' with
    | ok a m₁ => rfl
    | error e m₁ => rfl
  · intro h
    obtain ⟨m₁, e₁⟩ := hx.short h
    exact ⟨f m₁, by rw [ex, e₁]; rfl⟩

end Takes

theorem finished_of_onMachine {f : Machine → Machine} {r : EStateM.Result Stop Machine α}
    (h : Finished (onMachine f r)) : Finished r := by
  rcases r with _ | ⟨_ | _, _⟩ <;> exact h

/-- Where the evaluation `y` finishes, the metered one takes some number of steps, `least` or more.  It is
the same for every budget, and for whatever is left of it once `taken` steps have been taken. -/
def Meters (taken least : Nat) (x : Nat → Metered α) (y : Eval α) : Prop :=
  ∀ m, Finished (y m) → ∃ cost, least ≤ cost ∧
    ∀ budget left, left + taken ≤ budget → Takes (x budget) y m cost left

namespace Meters

variable {taken least : Nat}

theorem bind {x : Nat → Metered α} {y : Eval α} {f : Nat → α → Metered β} {g : α → Eval β}
    (hx : Meters taken least x y) (hf : ∀ a, Meters (taken + least) 0 (fun n => f n a) (g a)) :
    Meters taken least (fun n => x n >>= f n) (y >>= g) := by
  intro m finished
  rw [Eval.bind_apply] at finished
  cases hy : y m with
  | error e m' =>
      rw [hy] at finished
      have stopped : Finished (y m) := by
        rw [hy]
        cases e with
        | fault fault => trivial
        | exhausted => exact finished
      obtain ⟨cost, hl, takes⟩ := hx m stopped
      exact ⟨cost, hl, fun n left hn => (takes n left hn).bind_of_error hy (f n) g⟩
  | ok a m' =>
      rw [hy] at finished
      obtain ⟨cost, hl, takes⟩ := hx m (by rw [hy]; trivial)
      obtain ⟨cost', -, takes'⟩ := hf a m' finished
      refine ⟨cost + cost', by omega, fun n left hn => ?_⟩
      exact (takes n left hn).bind_of_ok hy fun h => takes' n (left - cost) (by omega)

theorem mono {x : Nat → Metered α} {y : Eval α} (h : Meters taken least x y) {taken' least' : Nat}
    (ht : taken ≤ taken') (hl : least' ≤ least) : Meters taken' least' x y := by
  intro m finished
  obtain ⟨cost, hc, takes⟩ := h m finished
  exact ⟨cost, Nat.le_trans hl hc, fun n left hn => takes n left (by omega)⟩

theorem forget {x : Nat → Metered α} {y : Eval α} (h : Meters taken least x y) :
    Meters taken 0 x y :=
  h.mono (Nat.le_refl taken) (Nat.zero_le least)

/-- Only budgets of the steps that have been taken, or more, matter. -/
theorem congr {x x' : Nat → Metered α} {y : Eval α} (h : Meters taken least x y)
    (hx : ∀ n, taken ≤ n → x' n = x n) : Meters taken least x' y := by
  intro m finished
  obtain ⟨cost, hc, takes⟩ := h m finished
  refine ⟨cost, hc, fun n left hn => ?_⟩
  rw [hx n (by omega)]
  exact takes n left hn

/-- A call takes a step. -/
theorem step {x x' : Nat → Metered α} {y : Eval α} (h : Meters 0 0 x y)
    (zero : x' 0 = throw .exhausted) (succ : ∀ n, x' (n + 1) = Metered.step (x n)) :
    Meters 0 1 x' y := by
  intro m finished
  obtain ⟨cost, -, takes⟩ := h m finished
  refine ⟨cost + 1, by omega, fun n left hn => ?_⟩
  cases n with
  | zero =>
      rw [zero]
      exact ⟨fun h => by omega, fun _ => ⟨m, rfl⟩⟩
  | succ n =>
      rw [succ]
      exact Takes.step fun left' e => takes n left' (by omega)

theorem lift (y : Eval α) : Meters taken 0 (fun _ => liftM y) y :=
  fun m _ => ⟨0, Nat.zero_le 0, fun _ left _ => .free (lift_apply y left m)⟩

theorem pure (a : α) : Meters taken 0 (fun _ => Pure.pure a) (Pure.pure a) :=
  fun _ _ => ⟨0, Nat.zero_le 0, fun _ _ _ => .free rfl⟩

theorem nested {x : Nat → Metered α} {y : Eval α} (h : Meters taken least x y) :
    Meters taken 0 (fun n => nested (x n)) (Eval.nested y) := by
  intro m finished
  by_cases hd : m.depth < m.calculator.limit
  · rw [nested_of_lt y hd] at finished
    obtain ⟨cost, hc, takes⟩ := h _ (finished_of_onMachine finished)
    refine ⟨cost, Nat.zero_le cost, fun n left hn => ?_⟩
    exact (takes n left hn).onMachine _ (fun left => nested_of_lt (x n left) hd) (nested_of_lt y hd)
  · refine ⟨0, Nat.le_refl 0, fun n left hn => .free ?_⟩
    rw [nested_of_ge y hd]
    exact nested_of_ge (x n left) hd

theorem within {x : Nat → Metered α} {y : Eval α} (h : Meters taken least x y) (tokens : List Token) :
    Meters taken least (fun n => within tokens (x n)) (Eval.within tokens y) := by
  intro m finished
  rw [within_apply] at finished
  obtain ⟨cost, hc, takes⟩ := h _ (finished_of_onMachine finished)
  refine ⟨cost, hc, fun n left hn => ?_⟩
  exact (takes n left hn).onMachine _ (fun left => within_apply tokens (x n left) m)
    (within_apply tokens y m)

/-! ### The levels of the grammar -/

theorem operand {group : Nat → Metered Float} {group' : Eval Float}
    {resolve : Nat → String → Metered Value} {resolve' : String → Eval Value}
    (hg : Meters 0 0 group group') (hr : ∀ name, Meters 0 0 (fun n => resolve n name) (resolve' name)) :
    Meters 0 0 (fun n => operand (group n) (resolve n)) (Eval.operand group' resolve') := by
  refine (lift readMinus).bind fun negative => (lift Eval.read).bind fun t => ?_
  have unexpected (other : Token) : Meters 0 0
      (fun _ => do unread; fail (.unexpectedToken other.text) : Nat → Metered Value)
      (do unread; fail (.unexpectedToken other.text)) := (lift unread).bind fun _ => lift _
  cases t with
  | none => exact lift _
  | some t =>
      cases t with
      | number numeral => exact pure _
      | identifier name => exact hr name
      | leftParen => exact hg.bind fun x => (lift (discard Eval.read)).bind fun _ => pure _
      | _ => exact unexpected _

/-- Each round takes a step, that of its operand, so there are enough rounds. -/
theorem productFrom {operand : Nat → Metered Value} {operand' : Eval Value}
    (ho : Meters 0 1 operand operand') (k : Nat) (x : Value) :
    Meters taken 0 (fun n => productFrom (operand n) (n - taken + 1) x)
      (Eval.productFrom operand' k x) := by
  induction k generalizing taken x with
  | zero => exact fun m finished => absurd finished id
  | succ k ih =>
      simp only [Metered.productFrom, Eval.productFrom]
      refine (lift Eval.read).bind fun t => ?_
      cases t.bind ProductOperator.ofToken? with
      | none => exact (lift unread).bind fun _ => pure x
      | some op =>
          have rest (x : Value) : Meters (taken + 1) 0
              (fun n => Metered.productFrom (operand n) (n - taken) x) (Eval.productFrom operand' k x) :=
            (ih x).congr fun n hn => by rw [show n - taken = n - (taken + 1) + 1 by omega]
          have round := (ho.mono (Nat.zero_le taken) (Nat.le_refl 1)).bind fun y =>
            (lift (ofExcept x.toNumber)).bind fun x => (lift (ofExcept y.toNumber)).bind fun y =>
              rest (.number (op.apply x y))
          exact round.forget

theorem product {operand : Nat → Metered Value} {operand' : Eval Value}
    (ho : Meters 0 1 operand operand') (k : Nat) :
    Meters 0 0 (fun n => product (operand n) (n + 1)) (Eval.product operand' k) :=
  (ho.forget).bind fun x => (productFrom ho k x).bind fun y =>
    lift (ofExcept y.toNumber)

/-- Each round takes a step, that of its product, so there are enough rounds. -/
theorem sumFrom {product : Nat → Metered Float} {product' : Eval Float}
    (hp : Meters 0 1 product product') (k : Nat) (x : Float) :
    Meters taken 0 (fun n => sumFrom (product n) (n - taken + 1) x) (Eval.sumFrom product' k x) := by
  induction k generalizing taken x with
  | zero => exact fun m finished => absurd finished id
  | succ k ih =>
      simp only [Metered.sumFrom, Eval.sumFrom]
      refine (lift Eval.read).bind fun t => ?_
      have rest (x : Float) : Meters (taken + 1) 0
          (fun n => Metered.sumFrom (product n) (n - taken) x) (Eval.sumFrom product' k x) :=
        (ih x).congr fun n hn => by rw [show n - taken = n - (taken + 1) + 1 by omega]
      have round (f : Float → Float) : Meters taken 0
          (fun n => do Metered.sumFrom (product n) (n - taken) (f (← product n)))
          (do Eval.sumFrom product' k (f (← product'))) :=
        ((hp.mono (Nat.zero_le taken) (Nat.le_refl 1)).bind fun y => rest (f y)).forget
      have ended : Meters taken 0 (fun _ => do unread; return x : Nat → Metered Float)
          (do unread; return x) := (lift unread).bind fun _ => pure x
      cases t with
      | none => exact ended
      | some t =>
          cases t with
          | plus => exact round fun y => x + y
          | minus => exact round fun y => x - y
          | _ => exact ended

theorem sum {product : Nat → Metered Float} {product' : Eval Float}
    (hp : Meters 0 1 product product') (k : Nat) :
    Meters 0 0 (fun n => sum (product n) (n + 1)) (Eval.sum product' k) :=
  (hp.forget).bind fun x => sumFrom hp k x

theorem assignment {value : Nat → Metered Float} {value' : Eval Float} (h : Meters 0 0 value value') :
    Meters 0 0 (fun n => assignment (value n)) (Eval.assignment value') := by
  refine (lift Eval.read).bind fun t => ?_
  cases t with
  | none => exact lift _
  | some t =>
      cases t with
      | identifier name =>
          refine (lift MonadState.get).bind fun m => ?_
          split
          · exact lift _
          · exact (lift (discard Eval.read)).bind fun _ => h.bind fun x => (lift _).bind fun _ => pure x
      | _ => exact lift _

section Levels

variable {deeper : Nat → Bindings → Metered Float} {deeper' : Bindings → Eval Float}
  (h : ∀ bindings, Meters 0 0 (fun n => deeper n bindings) (deeper' bindings))
include h

theorem arguments (parameters : List String) :
    Meters 0 0 (fun n => arguments (deeper n) parameters) (Eval.arguments deeper' parameters) := by
  induction parameters with
  | nil => exact pure _
  | cons parameter rest ih => exact (h []).bind fun x => ih.bind fun bindings => pure _

theorem call (name : String) (f : Definition) :
    Meters 0 0 (fun n => call (deeper n) name f) (Eval.call deeper' name f) :=
  (arguments h f.parameters).bind fun bindings => (lift _).bind fun _ => (lift _).bind fun tokens =>
    (h bindings).within tokens

omit h in
theorem resolve {call : Nat → Definition → Metered Float} {parameter : Nat → Float → Metered Value}
    {bindings : Bindings} {name : String}
    (hc : ∀ f, Meters 0 0 (fun n => call n f) (Eval.call deeper' name f))
    (hp : ∀ x, bindings.lookup name = some x →
      Meters 0 0 (fun n => parameter n x) (Eval.reread deeper' x)) :
    Meters 0 0 (fun n => resolve (call n) (parameter n) bindings name)
      (Eval.resolve deeper' bindings name) := by
  rw [resolve_eq_match]
  refine (lift MonadState.get).bind fun m => ?_
  cases m.calculator.functionOf? name with
  | some f => exact (hc f).bind fun x => pure _
  | none =>
      cases hx : bindings.lookup name with
      | some x => exact hp x hx
      | none =>
          refine (lift MonadState.get).bind fun m => ?_
          cases m.calculator.valueOf? name with
          | some x => exact pure _
          | none => exact pure _

end Levels

/-! ### The eight functions -/

section Functions

variable {k : Nat}
  (h : ∀ bindings, Meters 0 1 (fun n => expression n bindings) (Eval.expression k bindings))
include h

theorem invoke (name : String) (f : Definition) :
    Meters 0 1 (fun n => invoke n name f) (Eval.call (Eval.expression k) name f) :=
  (call (fun bindings => (h bindings).forget) name f).step rfl fun _ => rfl

theorem named {bindings : Bindings} (name : String)
    (hp : ∀ x, bindings.lookup name = some x →
      Meters 0 0 (fun n => parameter n x) (Eval.reread (Eval.expression k) x)) :
    Meters 0 1 (fun n => named n bindings name) (Eval.resolve (Eval.expression k) bindings name) :=
  (resolve (fun f => (invoke h name f).forget) hp).step rfl fun _ => rfl

theorem primary {bindings : Bindings}
    (hp : ∀ name x, bindings.lookup name = some x →
      Meters 0 0 (fun n => parameter n x) (Eval.reread (Eval.expression k) x)) :
    Meters 0 1 (fun n => primary n bindings)
      (Eval.operand (Eval.expression k bindings) (Eval.resolve (Eval.expression k) bindings)) := by
  have group := (h bindings).forget
  have names (name : String) := (named h name (hp name)).forget
  exact (operand group names).step rfl fun _ => rfl

/-- The text of a value is read where there are no parameters, so this does not go round in
circles. -/
theorem parameter (x : Float) :
    Meters 0 1 (fun n => parameter n x) (Eval.reread (Eval.expression k) x) := by
  have inner := primary h fun name x (hx : [].lookup name = some x) => by cases hx
  rw [resolve_nil] at inner
  have reread : Meters 0 0 (fun n => Metered.reread (Metered.primary n []) x)
      (Eval.reread (Eval.expression k) x) :=
    (lift _).bind fun _ => (lift _).bind fun tokens => inner.forget.within tokens
  exact reread.step rfl fun _ => rfl

theorem term (bindings : Bindings) :
    Meters 0 1 (fun n => term n bindings)
      (Eval.product
        (Eval.operand (Eval.expression k bindings) (Eval.resolve (Eval.expression k) bindings)) k) := by
  have value := primary h fun name x (_ : bindings.lookup name = some x) => (parameter h x).forget
  exact (product value k).step rfl fun _ => rfl

theorem assigning :
    Meters 0 1 (fun n => assigning n) (Eval.assignment (Eval.expression k [])) :=
  (assignment (h []).forget).step rfl fun _ => rfl

theorem content (bindings : Bindings) :
    Meters 0 1 (fun n => content n bindings) (Eval.level (Eval.expression k) k bindings) := by
  have branches : Meters 0 0
      (fun n => do
        if ← atAssignment then
          Metered.assigning n
        else
          Metered.sum (Metered.term n bindings) (n + 1))
      (Eval.level (Eval.expression k) k bindings) := by
    refine (lift atAssignment).bind fun isAssignment => ?_
    cases isAssignment with
    | true => exact (assigning h).forget
    | false => exact sum (term h bindings) k
  exact branches.step rfl fun _ => rfl

end Functions

theorem expression (k : Nat) (bindings : Bindings) :
    Meters 0 1 (fun n => expression n bindings) (Eval.expression k bindings) := by
  induction k generalizing bindings with
  | zero => exact fun m finished => absurd finished id
  | succ k ih => exact (content ih bindings).nested.step rfl fun _ => rfl

theorem whole {value : Nat → Metered Float} {value' : Eval Float} (h : Meters 0 0 value value')
    (text : String) : Meters 0 0 (fun n => whole (value n) text) (wholeWith value' text) := by
  refine h.bind fun x => (lift MonadState.get).bind fun m => ?_
  split
  · exact pure x
  · exact lift _

theorem line (text : String) (k : Nat) :
    Meters 0 0 (fun n => line text n) (Eval.line text k) := by
  rw [line_eq]
  refine (lift (lex text)).bind fun tokens => ?_
  cases tokens with
  | nil => exact pure none
  | cons first rest =>
      dsimp only
      split
      · exact (lift (definition rest)).bind fun _ => pure none
      · have inner := whole (expression k []).forget text
        exact (inner.within (first :: rest)).bind fun x => pure (some x)

end Meters

/-- What is reported of a metered evaluation. -/
theorem Takes.ofFinished? {x : Metered (Option Float)} {y : Eval (Option Float)} {m : Machine}
    {cost left : Nat} (h : Takes x y m cost left) (finished : Finished (y m)) (limit : Nat) :
    Report.ofFinished? limit (x.run' left m) =
      if cost ≤ left then some (.ofResult limit (y m)) else none := by
  have run : x.run' left m = match x left m with
      | .ok (a, _) m' => .ok a m'
      | .error e m' => .error e m' := by
    show EStateM.map (·.1) (x left) m = _
    unfold EStateM.map
    cases x left m with
    | ok a m' => rfl
    | error e m' => rfl
  split
  · rename_i hc
    rw [run, h.enough hc, ← Report.ofFinished?_of_finished limit finished]
    cases y m with
    | ok a m' => rfl
    | error e m' => rfl
  · rename_i hc
    obtain ⟨m', e⟩ := h.short (by omega)
    rw [run, e]
    rfl

end Metered

end Eval

namespace Calculator

/-- Evaluates a line with a budget of steps; there is no report if the budget is used up. -/
def evaluateWithin (c : Calculator) (budget : Nat) (text : String) : Option Report :=
  Report.ofFinished? c.limit ((Eval.Metered.line text budget).run' budget (.start c))

/-- **Every evaluation ends.**  Each line takes some number of steps.  With a budget that is at least
this number the metered evaluator gives what the evaluator gives, and with any other budget nothing. -/
theorem evaluateWithin_eq (c : Calculator) (text : String) :
    ∃ steps, ∀ budget, c.evaluateWithin budget text =
      if steps ≤ budget then some (c.evaluate text) else none := by
  have finished := line_finished c text
  obtain ⟨steps, -, takes⟩ := Eval.Metered.Meters.line text (c.budget text) (.start c) finished
  refine ⟨steps, fun budget => ?_⟩
  exact (takes budget budget (Nat.le_refl budget)).ofFinished? finished c.limit

/-- A numeral is an expression, a content, a term and a primary. -/
example : ((empty 1).evaluateWithin 3 "7").isNone ∧ ((empty 1).evaluateWithin 4 "7").isSome := by
  decide +kernel

end Calculator

end LineCalc
