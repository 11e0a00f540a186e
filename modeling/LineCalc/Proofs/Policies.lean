import LineCalc.Proofs.Budget

/-! # What evaluations keep to

A *policy* says three things: which rows of tokens may be left to read, what holds of a machine
wherever its cursor stands, and which faults may be told.  `Policy` has the laws that a policy must
satisfy with it.  Each of them concerns one place of the grammar: a row gets shorter by one token, a
body or the text of a number becomes the row, a variable is written, a fault is found.

An evaluation *keeps to* a policy (`Keeps`) if from every machine that the policy allows it comes to
another one, or stops with a fault that the policy allows.  Whatever the policy, every level of the
grammar keeps to it, and so does every line that is no definition (`Keeps.line`).  What is to be shown of
all evaluations is therefore shown by giving a policy. -/

namespace LineCalc

namespace Token

/-- Whether an operand may begin with the token, a minus sign apart. -/
def beginsOperand : Token → Bool
  | number _ | identifier _ | leftParen => true
  | _ => false

/-- What stands where an operand is wanted: the first token, or the one after it if that is a minus
sign. -/
def operandToken? : List Token → Option Token
  | minus :: rest => rest.head?
  | tokens => tokens.head?

theorem mem_of_operandToken? {tokens : List Token} {t : Token} (h : operandToken? tokens = some t) :
    t ∈ tokens := by
  unfold operandToken? at h
  split at h
  · exact List.mem_cons_of_mem _ (List.mem_of_mem_head? h)
  · exact List.mem_of_mem_head? h

/-- A line with these tokens is a definition. -/
def IsDefinition (tokens : List Token) : Prop :=
  tokens.head? = some (.identifier Definition.keyword)

instance (tokens : List Token) : Decidable (IsDefinition tokens) := by
  unfold IsDefinition
  infer_instance

theorem isDefinition_iff {tokens : List Token} :
    IsDefinition tokens ↔ ∃ rest, tokens = .identifier Definition.keyword :: rest := by
  cases tokens with
  | nil => simp [IsDefinition]
  | cons first rest => simp [IsDefinition]

end Token

namespace Eval

/-- What may be left to read, what holds of the machine, and what may go wrong. -/
structure Policy where
  row : List Token → Prop
  kept : Machine → Prop
  fault : Fault → Prop
  tail : ∀ {t rest}, row (t :: rest) → row rest
  body : ∀ {m name rest f}, kept m → row (.identifier name :: rest) →
    m.calculator.functionOf? name = some f → row (Token.ofText f.joined)
  number : ∀ x, row (Token.ofText (Number.text x))
  moved : ∀ {m}, kept m → ∀ c, kept { m with cursor := c }
  noted : ∀ {m r}, kept m → r.isSilent = true → kept (m.note r)
  entered : ∀ {m}, kept m → m.depth < m.calculator.limit → kept { m with depth := m.depth + 1 }
  left : ∀ {m}, kept m → kept { m with depth := m.depth - 1 }
  assigned : ∀ {m name t rest}, kept m → row (.identifier name :: .equals :: t :: rest) → ∀ x,
    kept { m.note (.assigned name x) with calculator := m.calculator.assign name x }
  endOfInput : fault .endOfInput
  unexpected : ∀ {tokens t}, row tokens → Token.operandToken? tokens = some t →
    t.beginsOperand = false → fault (.unexpectedToken t.text)
  target : ∀ {t next rest}, row (t :: .equals :: next :: rest) → (∀ name, t ≠ .identifier name) →
    fault (.invalidTarget t.text)
  isFunction : ∀ {m name rest}, kept m → row (.identifier name :: rest) →
    m.calculator.functionTable.contains name = true → fault (.nameIsFunction name)
  undefined : ∀ {m name rest}, kept m → row (.identifier name :: rest) →
    m.calculator.functionOf? name = none → m.calculator.valueOf? name = none →
    fault (.undefinedVariable name)
  tooDeep : ∀ {m}, kept m → fault (.depthExceeded m.calculator.limit)

namespace Policy

/-- A machine that the policy allows. -/
structure Holds (p : Policy) (m : Machine) : Prop where
  row : p.row m.cursor.remaining
  kept : p.kept m

theorem nil {p : Policy} {tokens : List Token} (h : p.row tokens) : p.row [] := by
  induction tokens with
  | nil => exact h
  | cons t rest ih => exact ih (p.tail h)

/-- A value that the policy allows: if it is the name of nothing, that is a fault that may be told. -/
def Known (p : Policy) (v : Value) : Prop := ∀ fault, v.toNumber = .error fault → p.fault fault

end Policy

variable {α β : Type} {p : Policy} {post : α → Prop} {post' : β → Prop}

/-- What a policy allows to come of an evaluation whose values have a property.  Where it stops, nothing
is asked of the row. -/
inductive Allowed (p : Policy) (post : α → Prop) : EStateM.Result Stop Machine α → Prop
  | ok {a : α} {m : Machine} (h : p.Holds m) (ha : post a) : Allowed p post (.ok a m)
  | fault {fault : Fault} {m : Machine} (h : p.kept m) (hf : p.fault fault) :
      Allowed p post (.error (.fault fault) m)
  | exhausted {m : Machine} (h : p.kept m) : Allowed p post (.error .exhausted m)

/-- Any value. -/
abbrev AnyValue {α : Type} : α → Prop := fun _ => True

namespace Allowed

variable {x : Eval α} {f : α → Eval β} {m : Machine}

theorem bind (hx : Allowed p post (x m))
    (hf : ∀ a m', p.Holds m' → post a → Allowed p post' (f a m')) :
    Allowed p post' ((x >>= f) m) := by
  rw [bind_apply]
  generalize x m = r at hx
  cases hx with
  | ok h ha => exact hf _ _ h ha
  | fault h hf => exact .fault h hf
  | exhausted h => exact .exhausted h

/-- Changing the machine at the end. -/
theorem onMachine {r : EStateM.Result Stop Machine α} {g : Machine → Machine}
    (h : Allowed p post r) (row : ∀ {m}, p.Holds m → p.row (g m).cursor.remaining)
    (kept : ∀ {m}, p.kept m → p.kept (g m)) : Allowed p post (onMachine g r) := by
  cases h with
  | ok h ha => exact .ok ⟨row h, kept h.kept⟩ ha
  | fault h hf => exact .fault (kept h) hf
  | exhausted h => exact .exhausted (kept h)

/-- Going on after a token has been read. -/
theorem read_bind {f : Option Token → Eval β} (hm : p.Holds m)
    (h : ∀ t c, m.cursor.remaining = t.toList ++ c.remaining → p.Holds { m with cursor := c } →
      Allowed p post' (f t { m with cursor := c })) : Allowed p post' ((read >>= f) m) := by
  rw [bind_apply]
  cases e : m.cursor.next with
  | error fault =>
      rw [read_of_error e, Cursor.eq_endOfInput_of_next e]
      exact .fault hm.kept p.endOfInput
  | ok next =>
      obtain ⟨t, c⟩ := next
      have remaining := Cursor.remaining_of_next e
      have row : p.row c.remaining := by
        have row := hm.row
        rw [remaining] at row
        cases t with
        | none => exact row
        | some t => exact p.tail row
      rw [read_of_next e]
      exact h t c remaining ⟨row, p.moved hm.kept c⟩

end Allowed

/-- From every machine that the policy allows comes what it allows. -/
def Keeps (p : Policy) (post : α → Prop) (x : Eval α) : Prop := ∀ m, p.Holds m → Allowed p post (x m)

namespace Keeps

theorem bind {x : Eval α} {f : α → Eval β} (hx : Keeps p post x)
    (hf : ∀ a, post a → Keeps p post' (f a)) : Keeps p post' (x >>= f) := by
  intro m hm
  apply (hx m hm).bind
  intro a m' hm' ha
  exact hf a ha m' hm'

theorem pure {a : α} (ha : post a) : Keeps p post (pure a : Eval α) := fun _ hm => .ok hm ha

theorem fail {fault : Fault} (h : p.fault fault) : Keeps p post (fail fault : Eval α) :=
  fun _ hm => .fault hm.kept h

theorem exhausted : Keeps p post (throw .exhausted : Eval α) := fun _ hm => .exhausted hm.kept

theorem toNumber {v : Value} (h : p.Known v) : Keeps p AnyValue (ofExcept v.toNumber) := by
  cases e : v.toNumber with
  | ok x => exact pure trivial
  | error fault => exact fail (h fault e)

theorem note {r : Record} (h : r.isSilent = true) : Keeps p AnyValue (note r) :=
  fun _ hm => .ok ⟨hm.row, p.noted hm.kept h⟩ trivial

theorem peek : Keeps p AnyValue peek := by
  intro m hm
  cases e : m.cursor.next with
  | error fault =>
      rw [peek_of_error e, Cursor.eq_endOfInput_of_next e]
      exact .fault hm.kept p.endOfInput
  | ok next =>
      rw [peek_of_next e]
      exact .ok hm trivial

theorem skip : Keeps p AnyValue (discard read) := by
  intro m hm
  exact Allowed.read_bind hm fun t c _ hc => .ok hc trivial

theorem nested {x : Eval α} (h : Keeps p post x) : Keeps p post (nested x) := by
  intro m hm
  by_cases hd : m.depth < m.calculator.limit
  · have deeper : p.Holds { m with depth := m.depth + 1 } := ⟨hm.row, p.entered hm.kept hd⟩
    rw [nested_of_lt x hd]
    apply (h _ deeper).onMachine
    · intro m' hm'
      exact hm'.row
    · intro m' hm'
      exact p.left hm'
  · rw [nested_of_ge x hd]
    exact .fault (p.noted hm.kept rfl) (p.tooDeep hm.kept)

theorem within {x : Eval α} (h : Keeps p post x) {tokens : List Token} (ht : p.row tokens) :
    Keeps p post (within tokens x) := by
  intro m hm
  have inside : p.Holds { m with cursor := .ofTokens tokens } := ⟨ht, p.moved hm.kept _⟩
  rw [within_apply]
  apply (h _ inside).onMachine
  · intro m' _
    exact hm.row
  · intro m' hm'
    exact p.moved hm' _

/-- An evaluation of what a text consists of. -/
theorem lex_within {x : Eval α} (h : Keeps p post x) {text : String}
    (ht : p.row (Token.ofText text)) : Keeps p post (do Eval.within (← lex text) x) := by
  intro m hm
  rw [bind_apply, lex_apply]
  exact within h ht _ ⟨hm.row, p.noted hm.kept rfl⟩

/-! ### The levels of the grammar -/

/-- After a minus sign, if there is one, the next token is that where an operand is wanted. -/
theorem readMinus_apply {m : Machine} (hm : p.Holds m) : ∃ negative c,
    readMinus m = .ok negative { m with cursor := c } ∧ p.Holds { m with cursor := c } ∧
    c.remaining.head? = Token.operandToken? m.cursor.remaining := by
  obtain ⟨calculator, depth, ⟨before, after?⟩, trace⟩ := m
  have stays (h : Cursor.peekIs ⟨before, after?⟩ .minus = false) :
      readMinus ⟨calculator, depth, ⟨before, after?⟩, trace⟩ =
        .ok false ⟨calculator, depth, ⟨before, after?⟩, trace⟩ := by
    simp [readMinus, bind_apply, h]
  rcases after? with _ | _ | ⟨t, after⟩
  · exact ⟨false, _, stays rfl, hm, rfl⟩
  · exact ⟨false, _, stays rfl, hm, rfl⟩
  · cases t with
    | minus => exact ⟨true, ⟨.minus :: before, some after⟩, rfl, ⟨p.tail hm.row, p.moved hm.kept _⟩, rfl⟩
    | _ => exact ⟨false, _, stays rfl, hm, rfl⟩

theorem operand {group : Eval Float} {resolve : String → Eval Value}
    (hg : Keeps p AnyValue group)
    (hr : ∀ {name rest}, p.row (.identifier name :: rest) → Keeps p p.Known (resolve name)) :
    Keeps p p.Known (operand group resolve) := by
  intro m hm
  obtain ⟨negative, c, e, hc, wanted⟩ := readMinus_apply hm
  have number (x : Float) : p.Known (.number x) := fun fault h => by cases h
  rw [Eval.operand, bind_apply, e]
  apply Allowed.read_bind hc
  intro t c' remaining hc'
  have row := hc.row
  rw [remaining] at row wanted
  cases t with
  | none => exact .fault hc'.kept p.endOfInput
  | some t =>
      have stray (h : t.beginsOperand = false) : Allowed p p.Known
          ((do unread; Eval.fail (.unexpectedToken t.text)) { m with cursor := c' }) :=
        .fault (p.moved hc'.kept _) (p.unexpected hm.row wanted.symm h)
      cases t with
      | number numeral => exact .ok hc' (number _)
      | identifier name => exact hr row _ hc'
      | leftParen => exact (hg.bind fun x _ => skip.bind fun _ _ => pure (number x)) _ hc'
      | _ => exact stray rfl

theorem productFrom {operand : Eval Value} (h : Keeps p p.Known operand) (n : Nat) {x : Value}
    (hx : p.Known x) : Keeps p p.Known (productFrom operand n x) := by
  induction n generalizing x with
  | zero => exact exhausted
  | succ n ih =>
      rw [productFrom_succ]
      apply peek.bind
      intro t _
      split
      · exact pure hx
      · exact skip.bind fun _ _ => h.bind fun y hy => (toNumber hx).bind fun x _ =>
          (toNumber hy).bind fun y _ => ih fun fault h => by cases h

theorem product {operand : Eval Value} (h : Keeps p p.Known operand) (n : Nat) :
    Keeps p AnyValue (product operand n) :=
  h.bind fun _ hx => (productFrom h n hx).bind fun _ hy => toNumber hy

theorem sumFrom {product : Eval Float} (h : Keeps p AnyValue product) (n : Nat) (x : Float) :
    Keeps p AnyValue (sumFrom product n x) := by
  induction n generalizing x with
  | zero => exact exhausted
  | succ n ih =>
      rw [sumFrom_succ]
      apply peek.bind
      intro t _
      split
      · exact skip.bind fun _ _ => h.bind fun y _ => ih _
      · exact skip.bind fun _ _ => h.bind fun y _ => ih _
      · exact pure trivial

theorem sum {product : Eval Float} (h : Keeps p AnyValue product) (n : Nat) :
    Keeps p AnyValue (sum product n) :=
  h.bind fun x _ => sumFrom h n x

/-- An assignment is evaluated only where one begins, so its target stands right before `=`. -/
theorem assignment {value : Eval Float} (h : Keeps p AnyValue value) {m : Machine} (hm : p.Holds m)
    (begins : beginsAssignment m.cursor.remaining = true) :
    Allowed p AnyValue (assignment value m) := by
  have row := hm.row
  obtain ⟨target, next, rest, e⟩ := eq_of_beginsAssignment begins
  rw [e] at row
  apply Allowed.read_bind hm
  intro t c remaining hc
  cases t with
  | none => exact .fault hc.kept p.endOfInput
  | some t =>
      have same : t = target := by
        rw [e] at remaining
        exact (List.cons.inj remaining).1.symm
      subst same
      cases t with
      | identifier name =>
          have write : Keeps p AnyValue
              (do discard read; let x ← value; assign name x; return x) := by
            refine skip.bind fun _ _ => h.bind fun x _ => ?_
            intro m' hm'
            exact .ok ⟨hm'.row, p.assigned hm'.kept row x⟩ trivial
          dsimp only
          rw [bind_apply, get_apply]
          dsimp only
          split
          · exact .fault hc.kept (p.isFunction hc.kept row ‹_›)
          · exact write _ hc
      | _ => exact .fault hc.kept (p.target row fun name e => by cases e)

section Levels

variable {deeper : Bindings → Eval Float} (h : ∀ bindings, Keeps p AnyValue (deeper bindings))
include h

theorem arguments (parameters : List String) : Keeps p AnyValue (arguments deeper parameters) := by
  induction parameters with
  | nil => exact pure trivial
  | cons parameter rest ih => exact (h []).bind fun x _ => ih.bind fun bindings _ => pure trivial

theorem call (name : String) {f : Definition} (hf : p.row (Token.ofText f.joined)) :
    Keeps p AnyValue (call deeper name f) :=
  (arguments h f.parameters).bind fun bindings _ => (note rfl).bind fun _ _ =>
    lex_within (h bindings) hf

theorem resolveGlobal {name : String} {rest : List Token} (hn : p.row (.identifier name :: rest)) :
    Keeps p p.Known (resolveGlobal deeper name) := by
  have number (x : Float) : p.Known (.number x) := fun fault h => by cases h
  intro m hm
  rw [resolveGlobal_eq, globalWith, bind_apply, get_apply]
  dsimp only
  cases hf : m.calculator.functionOf? name with
  | some f =>
      exact ((call h name (p.body hm.kept hn hf)).bind fun x _ => pure (number x)) m hm
  | none =>
      simp only [bind_apply, get_apply]
      cases hv : m.calculator.valueOf? name with
      | some x => exact .ok hm (number x)
      | none =>
          refine .ok hm fun fault e => ?_
          cases e
          exact p.undefined hm.kept hn hf hv

theorem reread (x : Float) : Keeps p p.Known (reread deeper x) :=
  (note rfl).bind fun _ _ => lex_within (operand (h []) (resolveGlobal h)) (p.number x)

theorem resolve (bindings : Bindings) {name : String} {rest : List Token}
    (hn : p.row (.identifier name :: rest)) : Keeps p p.Known (resolve deeper bindings name) := by
  intro m hm
  rw [resolve_eq, resolveWith, bind_apply, get_apply]
  dsimp only
  cases m.calculator.functionOf? name with
  | some f => exact resolveGlobal h hn m hm
  | none =>
      cases bindings.lookup name with
      | some x => exact reread h x m hm
      | none => exact resolveGlobal h hn m hm

theorem level (n : Nat) (bindings : Bindings) : Keeps p AnyValue (level deeper n bindings) := by
  intro m hm
  rw [Eval.level, bind_apply, atAssignment_apply]
  dsimp only
  split
  · exact assignment (h []) hm ‹_›
  · exact sum (product (operand (h bindings) (resolve h bindings)) n) n m hm

end Levels

theorem expression (n : Nat) (bindings : Bindings) : Keeps p AnyValue (expression n bindings) := by
  induction n generalizing bindings with
  | zero => exact exhausted
  | succ n ih => exact nested (level ih n bindings)

/-! ### Lines -/

theorem wholeExpression {text : String} (hf : p.fault (.trailingTokens text)) (n : Nat) :
    Keeps p AnyValue (wholeExpression text n) := by
  apply (expression n []).bind
  intro x _ m hm
  rw [bind_apply, get_apply]
  dsimp only
  split
  · exact .ok hm trivial
  · exact .fault hm.kept hf

/-- A line that is no definition keeps to every policy that allows its tokens. -/
theorem line {text : String} (hd : ¬ Token.IsDefinition (Token.ofText text))
    (ht : p.row (Token.ofText text)) (hf : p.fault (.trailingTokens text)) (n : Nat) :
    Keeps p AnyValue (line text n) := by
  intro m hm
  cases e : Token.ofText text with
  | nil =>
      rw [line_blank e]
      exact .ok ⟨hm.row, p.noted hm.kept rfl⟩ trivial
  | cons first rest =>
      have hn : first ≠ .identifier Definition.keyword := by
        rintro rfl
        exact hd (by rw [e]; rfl)
      rw [line_expression e hn]
      have whole := (wholeExpression hf n).within (e ▸ ht)
      have result (x : Float) : Keeps p AnyValue (Pure.pure (some x) : Eval (Option Float)) :=
        pure trivial
      exact (whole.bind fun x _ => result x) _ ⟨hm.row, p.noted hm.kept rfl⟩

end Keeps

end Eval

namespace Calculator

/-- What a policy allows for a line: the faults that may be reported, and what holds of the machine
whose calculator and trace are reported. -/
theorem evaluate_keeps (p : Eval.Policy) {c : Calculator} {text : String}
    (hd : ¬ Token.IsDefinition (Token.ofText text)) (hr : p.row (Token.ofText text))
    (hf : p.fault (.trailingTokens text)) (hk : p.kept (.start c)) :
    (∀ fault, (c.evaluate text).outcome = .error fault → p.fault fault) ∧
    ∃ m, p.kept m ∧ (c.evaluate text).calculator = m.calculator ∧
      (c.evaluate text).trace = m.trace := by
  have finished := line_finished c text
  have allowed := Eval.Keeps.line hd hr hf (c.budget text) (.start c) ⟨Eval.Policy.nil hr, hk⟩
  rw [evaluate_eq]
  generalize Eval.line text (c.budget text) (.start c) = r at finished allowed
  cases allowed with
  | @ok value m h _ =>
      refine ⟨fun fault e => ?_, m, h.kept, rfl, rfl⟩
      cases e
  | @fault fault m h hf =>
      refine ⟨fun other e => ?_, m, h, rfl, rfl⟩
      cases e
      exact hf
  | exhausted => exact absurd finished id

end Calculator

end LineCalc
