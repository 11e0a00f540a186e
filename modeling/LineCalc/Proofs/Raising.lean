import LineCalc.Proofs.Effect

/-! # One level deeper below a larger limit

What an evaluation does depends on how many levels are left below the limit, not on how many have been
entered.  A machine is *raised* by making its depth and its limit one larger each.  A raised machine
gives the same result and is left raised; only where the limit is named, in a fault or in a record, is it
the larger one.

`Eval.Raises` says so of an evaluation.  Each level of the grammar has the property as soon as the next
expression has it, so every expression has it (`Raises.expression`). -/

namespace LineCalc

/-- The fault below a limit that is one larger. -/
def Fault.raise : Fault → Fault
  | depthExceeded limit => depthExceeded (limit + 1)
  | fault => fault

/-- The record below a limit that is one larger. -/
def Record.raise : Record → Record
  | depthReached limit => depthReached (limit + 1)
  | r => r

def Stop.raise : Stop → Stop
  | fault f => fault f.raise
  | exhausted => exhausted

/-- The calculator with a limit that is one larger. -/
def Calculator.raise (c : Calculator) : Calculator := { c with limit := c.limit + 1 }

namespace Machine

/-- The machine one level deeper, below a limit that is one larger. -/
def raise (m : Machine) : Machine :=
  ⟨m.calculator.raise, m.depth + 1, m.cursor, m.trace.map Record.raise⟩

theorem raise_note (m : Machine) (r : Record) : (m.note r).raise = m.raise.note r.raise := by
  simp [raise, note]

theorem raise_assigned (m : Machine) (name : String) (x : Float) :
    raise { m.note (.assigned name x) with calculator := m.calculator.assign name x } =
      { m.raise.note (.assigned name x) with calculator := m.raise.calculator.assign name x } := by
  simp [raise, note, Record.raise, Calculator.raise, Calculator.assign]

/-- Going back to the level above. -/
theorem raise_left {m : Machine} (h : 0 < m.depth) :
    raise { m with depth := m.depth - 1 } = { m.raise with depth := m.raise.depth - 1 } := by
  have e : m.depth - 1 + 1 = m.depth + 1 - 1 := by omega
  simp [raise, e]

end Machine

namespace Eval

variable {α β : Type}

/-- The result that the raised machine gives. -/
def raised : EStateM.Result Stop Machine α → EStateM.Result Stop Machine α
  | .ok a m => .ok a m.raise
  | .error s m => .error s.raise m.raise

/-- On a raised machine the evaluation does the same. -/
def Raises (x : Eval α) : Prop := ∀ m, x m.raise = raised (x m)

theorem raised_onMachine {f : Machine → Machine} {r : EStateM.Result Stop Machine α}
    (h : f (machineOf r).raise = (f (machineOf r)).raise) :
    onMachine f (raised r) = raised (onMachine f r) := by
  cases r with
  | ok a m => exact congrArg (EStateM.Result.ok a) h
  | error s m => exact congrArg (EStateM.Result.error s.raise) h

namespace Raises

theorem bind {x : Eval α} {f : α → Eval β} (hx : Raises x) (hf : ∀ a, Raises (f a)) :
    Raises (x >>= f) := by
  intro m
  rw [bind_apply, bind_apply, hx m]
  cases x m with
  | ok a m' => exact hf a m'
  | error s m' => rfl

theorem pure (a : α) : Raises (pure a : Eval α) := fun _ => rfl

/-- A fault that names no limit. -/
theorem fail {fault : Fault} (h : fault.raise = fault) : Raises (fail fault : Eval α) := by
  intro m
  show EStateM.Result.error (Stop.fault fault) m.raise = .error (.fault fault.raise) m.raise
  rw [h]

theorem exhausted : Raises (throw .exhausted : Eval α) := fun _ => rfl

/-- A look at what is raised neither in the calculator nor in the machine. -/
theorem look {f : Machine → α} (h : ∀ m, f m.raise = f m) : Raises (look f) := by
  intro m
  rw [Eval.look, Eval.look, h]
  rfl

/-- A record that names no limit. -/
theorem note {r : Record} (h : r.raise = r) : Raises (note r) := by
  intro m
  rw [note_apply, note_apply, raised, Machine.raise_note, h]

theorem read : Raises read := by
  intro m
  cases e : m.cursor.next with
  | error fault =>
      have e' : m.raise.cursor.next = .error fault := e
      obtain rfl := Cursor.eq_endOfInput_of_next e
      rw [read_of_error e, read_of_error e']
      rfl
  | ok next =>
      obtain ⟨t, c⟩ := next
      have e' : m.raise.cursor.next = .ok (t, c) := e
      rw [read_of_next e, read_of_next e']
      rfl

theorem peek : Raises peek := by
  intro m
  cases e : m.cursor.next with
  | error fault =>
      have e' : m.raise.cursor.next = .error fault := e
      obtain rfl := Cursor.eq_endOfInput_of_next e
      rw [peek_of_error e, peek_of_error e']
      rfl
  | ok next =>
      obtain ⟨t, c⟩ := next
      have e' : m.raise.cursor.next = .ok (t, c) := e
      rw [peek_of_next e, peek_of_next e']
      rfl

theorem lex (text : String) : Raises (lex text) :=
  (note rfl).bind fun _ => pure (Token.ofText text)

theorem assign (name : String) (x : Float) : Raises (assign name x) := by
  intro m
  rw [assign_apply, assign_apply, raised, Machine.raise_assigned]

/-- The machine that is raised may go deeper where the other may, and is refused where it is. -/
theorem nested {x : Eval α} (ho : Orderly x) (h : Raises x) : Raises (nested x) := by
  intro m
  by_cases hd : m.depth < m.calculator.limit
  · have hd' : m.raise.depth < m.raise.calculator.limit := Nat.succ_lt_succ hd
    have depth : (after x { m with depth := m.depth + 1 }).depth = m.depth + 1 := (ho.effect _).depth
    have deeper : x { m.raise with depth := m.raise.depth + 1 } =
        raised (x { m with depth := m.depth + 1 }) := h { m with depth := m.depth + 1 }
    rw [nested_of_lt x hd, nested_of_lt x hd', deeper]
    refine raised_onMachine (Machine.raise_left ?_).symm
    unfold after at depth
    omega
  · have hd' : ¬ m.raise.depth < m.raise.calculator.limit := fun h => hd (Nat.lt_of_succ_lt_succ h)
    rw [nested_of_ge x hd, nested_of_ge x hd', raised, Machine.raise_note]
    rfl

theorem within {x : Eval α} (h : Raises x) (tokens : List Token) : Raises (within tokens x) := by
  intro m
  have inside : x { m.raise with cursor := .ofTokens tokens } =
      raised (x { m with cursor := .ofTokens tokens }) := h { m with cursor := .ofTokens tokens }
  rw [within_apply, within_apply, inside]
  exact raised_onMachine rfl

/-- Reading a text of its own. -/
theorem announced {x : Eval α} (h : Raises x) {r : Record} (hr : r.raise = r) (text : String) :
    Raises (do Eval.note r; let tokens ← Eval.lex text; Eval.within tokens x) :=
  (note hr).bind fun _ => (lex text).bind fun tokens => h.within tokens

/-! ### The levels of the grammar -/

theorem tokenCongruence : TokenCongruence (Both @Raises) := by
  refine Both.tokenCongruence (Both.congruence pure bind (fun {_ fault} h => fail ?_) read) peek
    (look fun _ => rfl)
  cases fault with
  | depthExceeded limit => exact absurd rfl (h limit)
  | _ => rfl

theorem nameCongruence : NameCongruence (fun _ _ => True) (Both @Raises) :=
  Both.nameCongruence tokenCongruence.toCongruence
    (fun h => (look fun _ => rfl).bind fun f? => h f? fun _ _ => trivial) (fun _ => look fun _ => rfl)
    (fun _ h _ => h.announced rfl _) fun h _ => h.announced rfl _

theorem grammarCongruence : GrammarCongruence (fun _ _ => True) (Both @Raises) :=
  { tokenCongruence, nameCongruence with
    exhausted := ⟨exhausted, exhausted⟩
    beginning := ⟨look fun _ => rfl, look fun _ => rfl⟩
    assignment := tokenCongruence.assignment (fun _ => ⟨look fun _ => rfl, look fun _ => rfl⟩)
      fun name x => ⟨assign name x, assign name x⟩ }

/-- **One level more.**  An expression does the same one level deeper below a limit that is one
larger. -/
theorem expression (n : Nat) (bindings : Bindings) : Raises (expression n bindings) := by
  induction n generalizing bindings with
  | zero => exact exhausted
  | succ n ih =>
      exact nested (Orderly.level (Orderly.expression n) n bindings)
        (grammarCongruence.level (fun bindings => ⟨ih bindings, ih bindings⟩) n bindings).1

end Raises

end Eval

end LineCalc
