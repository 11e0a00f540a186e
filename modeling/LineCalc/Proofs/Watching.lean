import LineCalc.Proofs.Lines

/-! # The depth stays within the limit

Only `nested` changes the depth: it adds one where that does not exceed the limit, and takes it away
again, whether the evaluation inside succeeds or stops.  So every part of the grammar leaves the depth as it
was (`Effect.depth`), and it never lies above the limit in between.

To say the latter, the grammar is written once more with *watches* in it (`Eval.Watched`).  A watch stops
with an alarm if the depth lies above the limit where a part begins, or where it ends, in whatever way.
From a machine whose depth is within the limit the watched grammar comes to the same as the grammar itself
(`EqWithin`), whatever the alarm is.  This passes through the grammar together with what `Effect` says
(`Unnoticed`).  So no watch ever stops anything. -/

namespace LineCalc

namespace Eval

variable {α β : Type}

/-- Stops with the alarm unless the depth is within the limit before and after the evaluation. -/
def watch (alarm : Stop) (x : Eval α) : Eval α := fun m =>
  if m.depth ≤ m.calculator.limit then
    let r := x m
    if (machineOf r).depth ≤ (machineOf r).calculator.limit then r else .error alarm (machineOf r)
  else .error alarm m

/-! ### The watched grammar -/

namespace Watched

section Levels

variable (alarm : Stop) (deeper : Bindings → Eval Float)

def call (name : String) (f : Definition) : Eval Float := watch alarm (Eval.call deeper name f)

def resolveGlobal (name : String) : Eval Value := watch alarm (globalWith (call alarm deeper name) name)

def reread (x : Float) : Eval Value := watch alarm do
  let text := Number.text x
  note (.reread text)
  let tokens ← lex text
  within tokens (watch alarm (Eval.operand (deeper []) (resolveGlobal alarm deeper)))

def resolve (bindings : Bindings) (name : String) : Eval Value :=
  watch alarm (resolveWith (reread alarm deeper) (resolveGlobal alarm deeper) bindings name)

def operand (bindings : Bindings) : Eval Value :=
  watch alarm (Eval.operand (deeper bindings) (resolve alarm deeper bindings))

def product (budget : Nat) (bindings : Bindings) : Eval Float :=
  watch alarm (Eval.product (operand alarm deeper bindings) budget)

def sum (budget : Nat) (bindings : Bindings) : Eval Float :=
  watch alarm (Eval.sum (product alarm deeper budget bindings) budget)

def assignment : Eval Float := watch alarm (Eval.assignment (deeper []))

def level (budget : Nat) (bindings : Bindings) : Eval Float := watch alarm do
  if ← atAssignment then assignment alarm deeper
  else sum alarm deeper budget bindings

end Levels

def expression (alarm : Stop) : Nat → Bindings → Eval Float
  | 0, _ => throw .exhausted
  | n + 1, bindings => watch alarm (nested (level alarm (expression alarm n) n bindings))

end Watched

/-- The parts of the grammar, with the budgets of the expressions inside them and of their operators. -/
inductive Part : Type → Type
  | expression (n : Nat) (bindings : Bindings) : Part Float
  | level (n budget : Nat) (bindings : Bindings) : Part Float
  | sum (n budget : Nat) (bindings : Bindings) : Part Float
  | assignment (n : Nat) : Part Float
  | product (n budget : Nat) (bindings : Bindings) : Part Float
  | operand (n : Nat) (bindings : Bindings) : Part Value
  | resolve (n : Nat) (bindings : Bindings) (name : String) : Part Value
  | call (n : Nat) (name : String) (f : Definition) : Part Float
  | reread (n : Nat) (x : Float) : Part Value

namespace Part

/-- What a part of the grammar does. -/
def eval : Part α → Eval α
  | expression n bindings => Eval.expression n bindings
  | level n budget bindings => Eval.level (Eval.expression n) budget bindings
  | sum n budget bindings => Eval.sum (Eval.product (Eval.operand (Eval.expression n bindings)
      (Eval.resolve (Eval.expression n) bindings)) budget) budget
  | assignment n => Eval.assignment (Eval.expression n [])
  | product n budget bindings => Eval.product (Eval.operand (Eval.expression n bindings)
      (Eval.resolve (Eval.expression n) bindings)) budget
  | operand n bindings =>
      Eval.operand (Eval.expression n bindings) (Eval.resolve (Eval.expression n) bindings)
  | resolve n bindings name => Eval.resolve (Eval.expression n) bindings name
  | call n name f => Eval.call (Eval.expression n) name f
  | reread n x => Eval.reread (Eval.expression n) x

/-- What a part of the grammar does under watch. -/
def watched (alarm : Stop) : Part α → Eval α
  | expression n bindings => Watched.expression alarm n bindings
  | level n budget bindings => Watched.level alarm (Watched.expression alarm n) budget bindings
  | sum n budget bindings => Watched.sum alarm (Watched.expression alarm n) budget bindings
  | assignment n => Watched.assignment alarm (Watched.expression alarm n)
  | product n budget bindings => Watched.product alarm (Watched.expression alarm n) budget bindings
  | operand n bindings => Watched.operand alarm (Watched.expression alarm n) bindings
  | resolve n bindings name => Watched.resolve alarm (Watched.expression alarm n) bindings name
  | call n name f => Watched.call alarm (Watched.expression alarm n) name f
  | reread n x => Watched.reread alarm (Watched.expression alarm n) x

end Part

/-! ### Watches stop nothing -/

/-- The evaluations do the same from every machine whose depth is within the limit. -/
def EqWithin (x y : Eval α) : Prop := ∀ m, m.depth ≤ m.calculator.limit → x m = y m

namespace EqWithin

theorem refl (x : Eval α) : EqWithin x x := fun _ _ => rfl

/-- The first evaluation leaves the depth within the limit, because it leaves both as they are. -/
theorem bind {x y : Eval α} {f g : α → Eval β} (h : EqWithin x y) (hy : Orderly y)
    (hf : ∀ a, EqWithin (f a) (g a)) : EqWithin (x >>= f) (y >>= g) := by
  intro m hm
  rw [bind_apply, bind_apply, h m hm]
  cases e : y m with
  | ok a m' =>
      have effect := (hy m).effect_of_ok e
      apply hf a
      rw [effect.depth, effect.limit]
      exact hm
  | error s m' => rfl

theorem watch {x y : Eval α} (h : EqWithin x y) (hy : Orderly y) (alarm : Stop) :
    EqWithin (watch alarm x) y := by
  intro m hm
  have effect := hy.effect m
  have within : (after y m).depth ≤ (after y m).calculator.limit := by
    rw [effect.depth, effect.limit]
    exact hm
  unfold Eval.watch
  rw [if_pos hm, h m hm]
  exact if_pos within

/-- One level deeper the depth is still within the limit. -/
theorem nested {x y : Eval α} (h : EqWithin x y) : EqWithin (nested x) (nested y) := by
  intro m _
  by_cases hd : m.depth < m.calculator.limit
  · rw [nested_of_lt x hd, nested_of_lt y hd, h { m with depth := m.depth + 1 } hd]
  · rw [nested_of_ge x hd, nested_of_ge y hd]

theorem within {x y : Eval α} (h : EqWithin x y) (tokens : List Token) :
    EqWithin (within tokens x) (within tokens y) := by
  intro m hm
  rw [within_apply, within_apply, h { m with cursor := .ofTokens tokens } hm]

/-- What follows the right-hand side only writes it. -/
theorem assignment {value value' : Eval Float} (h : EqWithin value value') (ho : Orderly value') :
    EqWithin (assignment value) (assignment value') := by
  apply (refl read).bind .read
  intro t
  split
  · apply (refl get).bind .get
    intro m
    split
    · exact refl _
    · exact (refl _).bind Orderly.read.discard fun _ => h.bind ho fun x => refl _
  · exact refl _
  · exact refl _

end EqWithin

/-- The evaluations do the same there, and the second one keeps the depth and the limit. -/
def Unnoticed (x y : Eval α) : Prop := EqWithin x y ∧ Orderly y

namespace Unnoticed

theorem refl {x : Eval α} (h : Orderly x) : Unnoticed x x := ⟨.refl x, h⟩

theorem bind {x y : Eval α} {f g : α → Eval β} (h : Unnoticed x y) (hf : ∀ a, Unnoticed (f a) (g a)) :
    Unnoticed (x >>= f) (y >>= g) :=
  ⟨h.1.bind h.2 fun a => (hf a).1, h.2.bind fun a => (hf a).2⟩

theorem watch {x y : Eval α} (h : Unnoticed x y) (alarm : Stop) : Unnoticed (watch alarm x) y :=
  ⟨h.1.watch h.2 alarm, h.2⟩

theorem nested {x y : Eval α} (h : Unnoticed x y) : Unnoticed (nested x) (nested y) :=
  ⟨h.1.nested, h.2.nested⟩

/-- Reading a text of its own. -/
theorem announced {x y : Eval α} (h : Unnoticed x y) {r : Record} (hr : r.isSilent = true)
    (text : String) :
    Unnoticed (do note r; let tokens ← lex text; within tokens x)
      (do note r; let tokens ← lex text; within tokens y) :=
  (refl (.note hr)).bind fun _ => (refl (.lex text)).bind fun tokens =>
    ⟨h.1.within tokens, h.2.within tokens⟩

/-! ### The levels of the grammar -/

theorem tokenCongruence : TokenCongruence @Unnoticed where
  pure a := refl (.pure a)
  bind := bind
  fail _ := refl (.fail _)
  read := refl .read
  peek := refl .peek
  minus := refl (.look _)

theorem nameCongruence : NameCongruence (fun _ _ => True) @Unnoticed :=
  { tokenCongruence.toCongruence with
    function := fun h => (refl (.look _)).bind fun f? => h f? fun _ _ => trivial
    value := fun _ => refl (.look _)
    body := fun _ h _ => h.announced rfl _
    number := fun h _ => h.announced rfl _ }

section Levels

variable {deeper deeper' : Bindings → Eval Float}
  (h : ∀ bindings, Unnoticed (deeper bindings) (deeper' bindings)) (alarm : Stop)
include h

theorem call (name : String) (f : Definition) :
    Unnoticed (Watched.call alarm deeper name f) (call deeper' name f) :=
  (nameCongruence.call h trivial).watch alarm

theorem resolveGlobal (name : String) :
    Unnoticed (Watched.resolveGlobal alarm deeper name) (resolveGlobal deeper' name) :=
  (nameCongruence.globalWith fun f _ => call h alarm name f).watch alarm

theorem reread (x : Float) : Unnoticed (Watched.reread alarm deeper x) (reread deeper' x) := by
  have operand := (tokenCongruence.operand (h []) (resolveGlobal h alarm)).watch alarm
  exact (nameCongruence.number operand x).watch alarm

theorem resolve (bindings : Bindings) (name : String) :
    Unnoticed (Watched.resolve alarm deeper bindings name) (resolve deeper' bindings name) :=
  (nameCongruence.resolveWith (reread h alarm) (resolveGlobal h alarm) bindings name).watch alarm

theorem operand (bindings : Bindings) : Unnoticed (Watched.operand alarm deeper bindings)
    (operand (deeper' bindings) (Eval.resolve deeper' bindings)) :=
  (tokenCongruence.operand (h bindings) (resolve h alarm bindings)).watch alarm

theorem product (budget : Nat) (bindings : Bindings) :
    Unnoticed (Watched.product alarm deeper budget bindings)
      (product (Eval.operand (deeper' bindings) (Eval.resolve deeper' bindings)) budget) :=
  (tokenCongruence.product (refl (.throw _)) (operand h alarm bindings) budget).watch alarm

theorem sum (budget : Nat) (bindings : Bindings) :
    Unnoticed (Watched.sum alarm deeper budget bindings)
      (sum (Eval.product (Eval.operand (deeper' bindings) (Eval.resolve deeper' bindings)) budget)
        budget) :=
  (tokenCongruence.sum (refl (.throw _)) (product h alarm budget bindings) budget).watch alarm

theorem assignment : Unnoticed (Watched.assignment alarm deeper) (assignment (deeper' [])) := by
  have plain : Unnoticed (Eval.assignment (deeper [])) (Eval.assignment (deeper' [])) :=
    ⟨(h []).1.assignment (h []).2, (h []).2.assignment⟩
  exact plain.watch alarm

theorem level (budget : Nat) (bindings : Bindings) :
    Unnoticed (Watched.level alarm deeper budget bindings) (level deeper' budget bindings) := by
  apply watch
  apply (refl .atAssignment).bind
  intro isAssignment
  split
  · exact assignment h alarm
  · exact sum h alarm budget bindings

end Levels

theorem expression (alarm : Stop) (n : Nat) (bindings : Bindings) :
    Unnoticed (Watched.expression alarm n bindings) (expression n bindings) := by
  induction n generalizing bindings with
  | zero => exact refl (.throw _)
  | succ n ih => exact (level ih alarm n bindings).nested.watch alarm

theorem watched (alarm : Stop) (part : Part α) : Unnoticed (part.watched alarm) part.eval := by
  have deeper (n : Nat) := expression alarm n
  cases part with
  | expression n bindings => exact deeper n bindings
  | level n budget bindings => exact level (deeper n) alarm budget bindings
  | sum n budget bindings => exact sum (deeper n) alarm budget bindings
  | assignment n => exact assignment (deeper n) alarm
  | product n budget bindings => exact product (deeper n) alarm budget bindings
  | operand n bindings => exact operand (deeper n) alarm bindings
  | resolve n bindings name => exact resolve (deeper n) alarm bindings name
  | call n name f => exact call (deeper n) alarm name f
  | reread n x => exact reread (deeper n) alarm x

end Unnoticed

/-- A line leaves the depth as it was. -/
theorem depth_line (text : String) (n : Nat) (m : Machine) : (after (line text n) m).depth = m.depth := by
  by_cases h : ∃ rest, Token.ofText text = .identifier Definition.keyword :: rest
  · obtain ⟨rest, ht⟩ := h
    cases hd : Definition.ofTokens m.calculator.variableTable.contains rest with
    | error fault =>
        rw [after_of_error (line_definition_error ht hd n)]
        rfl
    | ok result =>
        rw [after_of_ok (line_definition ht hd n)]
        rfl
  · exact (effect_line (not_exists.mp h) n m).depth

end Eval

namespace Machine

/-- The machine after a line that begins as deep as the machine is, with what it remembers. -/
def next (m : Machine) (text : String) : Machine :=
  Eval.after (Eval.line text (m.calculator.budget text)) { Machine.start m.calculator with depth := m.depth }

theorem foldl_next (lines : List String) {m : Machine} (h : m.depth = 0) :
    (lines.foldl next m).depth = 0 ∧ (lines.foldl next m).calculator = m.calculator.afterLines lines := by
  induction lines generalizing m with
  | nil => exact ⟨h, rfl⟩
  | cons text lines ih =>
      have begins : { Machine.start m.calculator with depth := m.depth } = Machine.start m.calculator := by
        rw [h]
        rfl
      have depth : (m.next text).depth = 0 := (Eval.depth_line _ _ _).trans h
      have calculator : (m.next text).calculator = (m.calculator.evaluate text).calculator := by
        rw [Calculator.evaluate_eq, Report.calculator_ofResult, next, begins, Eval.after]
      obtain ⟨atEnd, same⟩ := ih depth
      exact ⟨atEnd, by rw [List.foldl_cons, same, calculator, Calculator.afterLines_cons]⟩

end Machine

namespace Eval

/-- **The depth is balanced and within the limit.**  From a machine whose depth is within the limit every
part of the grammar, whether it succeeds or stops, leaves the depth, the limit and the functions as they
were, and no watch ever finds the depth above the limit.  So the depth is zero after all lines, although
none of them sets it back. -/
theorem depth_balanced (alarm : Stop) :
    (∀ {α : Type} (part : Part α) (m : Machine), m.depth ≤ m.calculator.limit →
      (after part.eval m).depth = m.depth ∧
      (after part.eval m).calculator.limit = m.calculator.limit ∧
      (after part.eval m).calculator.functionTable = m.calculator.functionTable ∧
      part.watched alarm m = part.eval m) ∧
    ∀ (c : Calculator) (lines : List String),
      (lines.foldl Machine.next (.start c)).depth = 0 ∧
      (lines.foldl Machine.next (.start c)).calculator = c.afterLines lines := by
  constructor
  · intro α part m hm
    obtain ⟨same, orderly⟩ := Unnoticed.watched alarm part
    have effect := orderly.effect m
    exact ⟨effect.depth, effect.limit, effect.functionTable, same m hm⟩
  · intro c lines
    exact Machine.foldl_next lines rfl

/-- Why an evaluation has stopped. -/
def stop? : EStateM.Result Stop Machine α → Option Stop
  | .ok _ _ => none
  | .error s _ => some s

/-- The function calls itself until the limit is reached. -/
theorem depth_balanced_recursion :
    let c := (Calculator.empty 3).afterLines ["fn f1 a => f1 (a)"]
    let m : Machine := { Machine.start c with depth := 1, cursor := .ofTokens (Token.ofText "f1 1") }
    let part : Part Float := .expression 9 []
    m.depth ≤ m.calculator.limit ∧
    stop? (part.eval m) = some (.fault (.depthExceeded 3)) ∧
    (after part.eval m).depth = 1 ∧ part.watched .exhausted m = part.eval m := by
  intro c m part
  have within : m.depth ≤ m.calculator.limit := by decide +kernel
  obtain ⟨depth, -, -, watched⟩ := (depth_balanced .exhausted).1 part m within
  exact ⟨within, by decide +kernel, depth, watched⟩

end Eval

end LineCalc
