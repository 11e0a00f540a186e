import LineCalc.Proofs.Budget

/-! # What is read is announced

The trace of a line tells of every text that is cut into tokens.  The first one is the line.  All others
are announced: the record before says which function is called, whose body is the text, or which text
of a parameter's value is read again.  Where something is announced, the text is cut into tokens at once.
The limit is warned of at most once, at the very end, and exactly if the line fails because of it
(`evaluate_records`).

A failure ends all the levels of the grammar in which it occurs, and none of them may add a record on
the way.  So what an evaluation adds to the trace is an *announced* row of records and, if the limit was
exceeded, the warning (`Eval.Recorded`).  Announced rows may be put one after the other
(`Announced.append`), which carries the property from the steps to the levels. -/

namespace LineCalc

namespace Record

/-- The record of a text that is cut into tokens. -/
def cutting (text : String) : Record := lexed text (Token.ofText text).length

/-- The text that is to be cut into tokens after a record, where some functions are stored. -/
def announced? (functions : Table Definition) : Record → Option String
  | calling name _ => functions[name]?.map Definition.joined
  | reread text => some text
  | _ => none

/-- The record is about a call or about the value of a parameter. -/
def announces : Record → Bool
  | calling .. | reread _ => true
  | _ => false

theorem announces_of_announced? {functions : Table Definition} {r : Record} {text : String}
    (h : r.announced? functions = some text) : r.announces = true := by
  cases r with
  | calling name arguments => rfl
  | reread value => rfl
  | _ => cases h

theorem announces_of_not_isSilent {r : Record} (h : r.isSilent = false) : r.announces = false := by
  cases r with
  | calling name arguments => cases h
  | reread value => cases h
  | _ => rfl

end Record

/-- A row of records that tell of changes, and of texts that are cut into tokens as soon as they have
been announced. -/
inductive Announced (functions : Table Definition) : List Record → Prop
  | nil : Announced functions []
  | change {r : Record} {rest : List Record} (h : r.isSilent = false)
      (hr : Announced functions rest) : Announced functions (r :: rest)
  | text {r : Record} {text : String} {rest : List Record} (h : r.announced? functions = some text)
      (hr : Announced functions rest) : Announced functions (r :: .cutting text :: rest)

namespace Announced

variable {functions : Table Definition} {records more : List Record}

theorem append (h : Announced functions records) (h' : Announced functions more) :
    Announced functions (records ++ more) := by
  induction h with
  | nil => exact h'
  | change silent _ ih => exact .change silent ih
  | text announced _ ih => exact .text announced ih

/-- What is announced follows. -/
theorem follows (h : Announced functions records) {front rest : List Record} {r : Record}
    (hr : r.announces = true) (e : records = front ++ r :: rest) :
    ∃ text, r.announced? functions = some text ∧ rest.head? = some (.cutting text) := by
  induction h generalizing front with
  | nil => simp at e
  | change silent _ ih =>
      cases front with
      | nil =>
          obtain ⟨rfl, -⟩ := List.cons.inj e
          rw [Record.announces_of_not_isSilent silent] at hr
          cases hr
      | cons first front => exact ih (List.cons.inj e).2
  | text announced _ ih =>
      match front with
      | [] =>
          obtain ⟨rfl, rfl⟩ := List.cons.inj e
          exact ⟨_, announced, rfl⟩
      | [_] =>
          obtain ⟨rfl, -⟩ := List.cons.inj (List.cons.inj e).2
          cases hr
      | _ :: _ :: front => exact ih (List.cons.inj (List.cons.inj e).2).2

/-- What is cut into tokens has been announced. -/
theorem precedes (h : Announced functions records) {front rest : List Record} {text : String} {n : Nat}
    (e : records = front ++ .lexed text n :: rest) : front.getLast?.any Record.announces = true := by
  induction h generalizing front with
  | nil => simp at e
  | @change r rest' silent _ ih =>
      cases front with
      | nil =>
          obtain ⟨rfl, -⟩ := List.cons.inj e
          cases silent
      | cons first front =>
          have last := ih (List.cons.inj e).2
          cases front with
          | nil => cases last
          | cons second front => simpa [List.getLast?_cons_cons] using last
  | text announced _ ih =>
      match front with
      | [] =>
          obtain ⟨rfl, -⟩ := List.cons.inj e
          cases announced
      | [first] =>
          obtain ⟨rfl, -⟩ := List.cons.inj e
          exact Record.announces_of_announced? announced
      | _ :: _ :: front =>
          have last := ih (List.cons.inj (List.cons.inj e).2).2
          cases front with
          | nil => cases last
          | cons third front => simpa [List.getLast?_cons_cons] using last

theorem depthReached_not_mem (h : Announced functions records) (limit : Nat) :
    .depthReached limit ∉ records := by
  induction h with
  | nil => simp
  | change silent _ ih =>
      rw [List.mem_cons, not_or]
      refine ⟨?_, ih⟩
      rintro rfl
      cases silent
  | text announced _ ih =>
      rw [List.mem_cons, List.mem_cons, not_or, not_or]
      refine ⟨?_, nofun, ih⟩
      rintro rfl
      cases announced

end Announced

/-- The warning that comes with a fault. -/
def Fault.warning : Fault → List Record
  | depthExceeded limit => [.depthReached limit]
  | _ => []

namespace Eval

variable {α β : Type} {functions : Table Definition}

/-- The records with which an evaluation ends that has such a result. -/
def closing : EStateM.Result Stop Machine α → List Record
  | .ok _ _ => []
  | .error .exhausted _ => []
  | .error (.fault fault) _ => fault.warning

theorem closing_onMachine (f : Machine → Machine) (r : EStateM.Result Stop Machine α) :
    closing (onMachine f r) = closing r := by
  cases r with
  | ok a m => rfl
  | error s m => cases s <;> rfl

/-- The evaluation leaves the functions, and adds to this trace an announced row and perhaps the
warning. -/
structure RecordedAt (functions : Table Definition) (x : Eval α) (m : Machine) : Prop where
  stored : (after x m).calculator.functionTable = functions
  trace : ∃ records, Announced functions records ∧
    (after x m).trace.toList = m.trace.toList ++ (records ++ closing (x m))

/-- The evaluation does so wherever these functions are stored. -/
def Recorded (functions : Table Definition) (x : Eval α) : Prop :=
  ∀ m, m.calculator.functionTable = functions → RecordedAt functions x m

namespace RecordedAt

variable {x : Eval α} {m m' : Machine}

theorem of_ok {a : α} (e : x m = .ok a m') (stored : m'.calculator.functionTable = functions)
    {records : List Record} (announced : Announced functions records)
    (trace : m'.trace.toList = m.trace.toList ++ records) : RecordedAt functions x m := by
  refine ⟨after_of_ok e ▸ stored, records, announced, ?_⟩
  rw [after_of_ok e, e, trace, closing, List.append_nil]

/-- An evaluation that reads at most. -/
theorem quiet {a : α} (e : x m = .ok a m') (hm : m.calculator.functionTable = functions)
    (calculator : m'.calculator = m.calculator) (trace : m'.trace = m.trace) :
    RecordedAt functions x m :=
  of_ok e (calculator ▸ hm) .nil (by rw [trace, List.append_nil])

/-- An evaluation that stops here, not because of the limit. -/
theorem of_error {s : Stop} (e : x m = .error s m) (hm : m.calculator.functionTable = functions)
    (noWarning : closing (x m) = []) : RecordedAt functions x m := by
  refine ⟨by rw [after_of_error e, hm], [], .nil, ?_⟩
  rw [after_of_error e, noWarning, List.append_nil, List.append_nil]

/-- What is done after an announced row has been recorded. -/
theorem continued {y : Eval α} {records : List Record} (e : y m = x m')
    (announced : Announced functions records) (trace : m'.trace.toList = m.trace.toList ++ records)
    (h : RecordedAt functions x m') : RecordedAt functions y m := by
  obtain ⟨stored, more, announced', trace'⟩ := h
  have same : after y m = after x m' := congrArg machineOf e
  refine ⟨same ▸ stored, records ++ more, announced.append announced', ?_⟩
  rw [same, trace', trace, e, List.append_assoc, List.append_assoc]

theorem bind {f : α → Eval β} (hx : RecordedAt functions x m)
    (hf : ∀ a m', x m = .ok a m' → m'.calculator.functionTable = functions →
      RecordedAt functions (f a) m') : RecordedAt functions (x >>= f) m := by
  obtain ⟨stored, records, announced, trace⟩ := hx
  cases e : x m with
  | ok a m' =>
      rw [after_of_ok e] at stored trace
      rw [e, closing, List.append_nil] at trace
      have same : (x >>= f) m = f a m' := by rw [bind_apply, e]
      exact (hf a m' e stored).continued same announced trace
  | error s m' =>
      have same : (x >>= f) m = .error s m' := by rw [bind_apply, e]
      rw [after_of_error e] at stored trace
      refine ⟨after_of_error same ▸ stored, records, announced, ?_⟩
      rw [after_of_error same, trace, e, same]
      cases s <;> rfl

end RecordedAt

namespace Recorded

theorem bind {x : Eval α} {f : α → Eval β} (hx : Recorded functions x)
    (hf : ∀ a, Recorded functions (f a)) : Recorded functions (x >>= f) := by
  intro m hm
  apply (hx m hm).bind
  intro a m' _ hm'
  exact hf a m' hm'

/-! ### Steps -/

theorem pure (a : α) : Recorded functions (pure a : Eval α) := fun _ hm => .quiet rfl hm rfl rfl

theorem look (f : Machine → α) : Recorded functions (look f) := fun _ hm => .quiet rfl hm rfl rfl

/-- What is found in the machine is found where these functions are stored. -/
theorem look_bind {f : Machine → α} {g : α → Eval β}
    (h : ∀ m, m.calculator.functionTable = functions → Recorded functions (g (f m))) :
    Recorded functions (Eval.look f >>= g) := by
  intro m hm
  apply (look f m hm).bind
  intro a m' e hm'
  cases e
  exact h m hm m hm

theorem exhausted : Recorded functions (throw .exhausted : Eval α) := fun _ hm => .of_error rfl hm rfl

/-- No record comes with any other fault than that the limit is exceeded. -/
theorem fail {fault : Fault} (h : ∀ limit, fault ≠ .depthExceeded limit) :
    Recorded functions (fail fault : Eval α) := by
  intro m hm
  apply RecordedAt.of_error rfl hm
  cases fault with
  | depthExceeded limit => exact absurd rfl (h limit)
  | _ => rfl

theorem read : Recorded functions read := by
  intro m hm
  cases h : m.cursor.next with
  | error fault =>
      obtain rfl := Cursor.eq_endOfInput_of_next h
      have e := read_of_error h
      exact .of_error e hm (congrArg closing e)
  | ok next => exact .quiet (read_of_next h) hm rfl rfl

theorem peek : Recorded functions peek := by
  intro m hm
  cases h : m.cursor.next with
  | error fault =>
      obtain rfl := Cursor.eq_endOfInput_of_next h
      have e := peek_of_error h
      exact .of_error e hm (congrArg closing e)
  | ok next => exact .quiet (peek_of_next h) hm rfl rfl

theorem assign (name : String) (x : Float) : Recorded functions (assign name x) := by
  intro m hm
  have change : Announced functions [.assigned name x] := .change rfl .nil
  exact .of_ok rfl hm change Array.toList_push

/-- At the limit, the warning is all that is recorded. -/
theorem nested {x : Eval α} (h : Recorded functions x) : Recorded functions (nested x) := by
  intro m hm
  by_cases hd : m.depth < m.calculator.limit
  · obtain ⟨stored, records, announced, trace⟩ := h { m with depth := m.depth + 1 } hm
    have same : after (Eval.nested x) m =
        { after x { m with depth := m.depth + 1 } with
          depth := (after x { m with depth := m.depth + 1 }).depth - 1 } := by
      unfold after
      rw [nested_of_lt x hd, machineOf_onMachine]
    refine ⟨same ▸ stored, records, announced, ?_⟩
    rw [same, nested_of_lt x hd, closing_onMachine]
    exact trace
  · have e := nested_of_ge x hd
    refine ⟨after_of_error e ▸ hm, [], .nil, ?_⟩
    rw [after_of_error e, e]
    simp [Machine.note, closing, Fault.warning]

theorem within {x : Eval α} (h : Recorded functions x) (tokens : List Token) :
    Recorded functions (within tokens x) := by
  intro m hm
  obtain ⟨stored, records, announced, trace⟩ := h { m with cursor := .ofTokens tokens } hm
  have same : after (Eval.within tokens x) m =
      { after x { m with cursor := .ofTokens tokens } with cursor := m.cursor } := by
    unfold after
    rw [within_apply, machineOf_onMachine]
  refine ⟨same ▸ stored, records, announced, ?_⟩
  rw [same, within_apply, closing_onMachine]
  exact trace

/-- Reading a text that has been announced. -/
theorem announced {x : Eval α} (h : Recorded functions x) {r : Record} {text : String}
    (hr : r.announced? functions = some text) :
    Recorded functions (do note r; let tokens ← lex text; Eval.within tokens x) := by
  intro m hm
  have announced : Announced functions [r, .cutting text] := .text hr .nil
  have read : (do note r; let tokens ← lex text; Eval.within tokens x) m =
      Eval.within (Token.ofText text) x ((m.note r).note (.cutting text)) := rfl
  have inside := h.within (Token.ofText text) ((m.note r).note (.cutting text)) hm
  exact inside.continued read announced (by simp [Machine.note])

/-! ### The levels of the grammar -/

theorem tokenCongruence : TokenCongruence (Both fun {_} => Recorded functions) :=
  Both.tokenCongruence (Both.congruence pure bind fail read) peek (look _)

/-- Only stored functions are called. -/
theorem nameCongruence :
    NameCongruence (fun name f => functions[name]? = some f) (Both fun {_} => Recorded functions) :=
  Both.nameCongruence tokenCongruence.toCongruence
    (fun h => look_bind fun m hm => h _ fun _ hf => hm ▸ hf) (fun _ => look _)
    (fun stored h _ => h.announced (by rw [Record.announced?, stored, Option.map_some]))
    fun h _ => h.announced rfl

theorem grammarCongruence : GrammarCongruence (fun name f => functions[name]? = some f)
    (Both fun {_} => Recorded functions) :=
  { tokenCongruence, nameCongruence with
    exhausted := ⟨exhausted, exhausted⟩
    beginning := ⟨look _, look _⟩
    assignment := tokenCongruence.assignment (fun _ => ⟨look _, look _⟩)
      fun name x => ⟨assign name x, assign name x⟩ }

theorem expression (n : Nat) (bindings : Bindings) : Recorded functions (expression n bindings) := by
  induction n generalizing bindings with
  | zero => exact exhausted
  | succ n ih =>
      exact (grammarCongruence.level (fun bindings => ⟨ih bindings, ih bindings⟩) n bindings).1.nested

/-! ### Lines -/

theorem wholeExpression (text : String) (n : Nat) : Recorded functions (wholeExpression text n) := by
  apply (expression n []).bind
  intro x
  apply (look id).bind
  intro m
  split
  · exact pure x
  · exact fail fun limit => by simp

theorem line {text : String} (hd : ∀ rest, Token.ofText text ≠ .identifier Definition.keyword :: rest)
    (n : Nat) {m : Machine} (hm : m.calculator.functionTable = functions) :
    ∃ records, Announced functions records ∧ (after (line text n) m).trace.toList =
      m.trace.toList ++ .cutting text :: (records ++ closing (line text n m)) := by
  have cut (count : Nat) : (m.note (.lexed text count)).trace.toList =
      m.trace.toList ++ [.lexed text count] := Array.toList_push
  cases ht : Token.ofText text with
  | nil =>
      refine ⟨[], .nil, ?_⟩
      unfold after
      rw [line_blank ht, machineOf, cut, Record.cutting, ht]
      rfl
  | cons first rest =>
      have hf : first ≠ .identifier Definition.keyword := by
        rintro rfl
        exact hd rest ht
      have inner : Recorded functions (do
          let x ← Eval.within (first :: rest) (Eval.wholeExpression text n)
          return some x : Eval (Option Float)) :=
        ((wholeExpression text n).within _).bind fun x => pure (some x)
      obtain ⟨-, records, announced, trace⟩ := inner (m.note (.lexed text (rest.length + 1))) hm
      refine ⟨records, announced, ?_⟩
      unfold after at trace ⊢
      rw [line_expression ht hf, trace, cut, Record.cutting, ht, List.append_assoc]
      rfl

end Recorded

end Eval

/-- The warning that comes with what a line gives. -/
def Outcome.warning : Outcome → List Record
  | .ok _ => []
  | .error fault => fault.warning

theorem Outcome.mem_warning {outcome : Outcome} {r : Record} :
    r ∈ outcome.warning ↔ ∃ limit, r = .depthReached limit ∧ outcome = .error (.depthExceeded limit) := by
  unfold warning
  cases outcome with
  | ok value => simp
  | error fault => cases fault <;> simp [Fault.warning, eq_comm]

theorem Definition.Refused.warning {isVariable : String → Bool} {tokens : List Token} {fault : Fault}
    (h : Refused isVariable tokens fault) : fault.warning = [] := by
  cases h <;> rfl

/-- A member of two rows that is not in the second one is in the first. -/
theorem exists_of_append_eq {α : Type} {first second front rest : List α} {a : α}
    (e : first ++ second = front ++ a :: rest) (ha : a ∉ second) :
    ∃ more, first = front ++ a :: more ∧ rest = more ++ second := by
  obtain ⟨more, -, same⟩ | ⟨more, rfl, same⟩ := List.append_eq_append_iff.mp e
  · exact absurd (by simp [same]) ha
  · cases more with
    | nil =>
        rw [List.nil_append] at same
        exact absurd (same ▸ List.mem_cons_self) ha
    | cons b more =>
        obtain ⟨rfl, rfl⟩ := List.cons.inj same
        exact ⟨more, rfl, rfl⟩

/-! ### Whole traces

The trace of a line is the record of its own text, an announced row, and the warning, if there is one. -/

section Traces

variable {functions : Table Definition} {text : String} {outcome : Outcome}
  {records front rest : List Record} {r : Record}

/-- A record that is no warning is the first one or belongs to the announced row. -/
theorem exists_of_trace_eq (hr : ∀ limit, r ≠ .depthReached limit)
    (e : .cutting text :: (records ++ outcome.warning) = front ++ r :: rest) :
    (front = [] ∧ r = .cutting text) ∨ ∃ before after, front = .cutting text :: before ∧
      records = before ++ r :: after ∧ rest = after ++ outcome.warning := by
  cases front with
  | nil => exact .inl ⟨rfl, (List.cons.inj e).1.symm⟩
  | cons first front =>
      obtain ⟨rfl, tail⟩ := List.cons.inj e
      have notLast : r ∉ outcome.warning := by
        intro mem
        obtain ⟨limit, rfl, -⟩ := Outcome.mem_warning.mp mem
        exact hr limit rfl
      obtain ⟨after, same, rfl⟩ := exists_of_append_eq tail notLast
      exact .inr ⟨front, after, rfl, same, rfl⟩

namespace Announced

variable (h : Announced functions records)
include h

theorem mem_trace {limit : Nat} :
    .depthReached limit ∈ .cutting text :: (records ++ outcome.warning) ↔
      outcome = .error (.depthExceeded limit) := by
  have first : Record.depthReached limit ≠ .cutting text := nofun
  rw [List.mem_cons, List.mem_append, Outcome.mem_warning]
  constructor
  · rintro (e | e | ⟨other, e, outcome⟩)
    · exact absurd e first
    · exact absurd e (h.depthReached_not_mem limit)
    · cases e
      exact outcome
  · intro outcome
    exact .inr (.inr ⟨limit, rfl, outcome⟩)

/-- Nothing comes after the warning. -/
theorem trace_last {limit : Nat}
    (e : .cutting text :: (records ++ outcome.warning) = front ++ .depthReached limit :: rest) :
    rest = [] := by
  have fails : outcome = .error (.depthExceeded limit) := by
    apply h.mem_trace.mp
    rw [e]
    exact List.mem_append_right _ List.mem_cons_self
  rw [fails] at e
  obtain rfl | ⟨more, last, rfl⟩ := List.eq_nil_or_concat rest
  · rfl
  · -- the warning is the last record, and none of those before it
    have same : .cutting text :: records = front ++ .depthReached limit :: more := by
      have split : .cutting text :: records ++ [.depthReached limit] =
          front ++ .depthReached limit :: more ++ [last] := by
        simpa [Outcome.warning, Fault.warning] using e
      exact (List.append_inj' split rfl).1
    have mem : .depthReached limit ∈ .cutting text :: (records ++ Outcome.warning (.ok none)) := by
      simp [Outcome.warning, same]
    cases h.mem_trace.mp mem

/-- What is announced in a trace follows. -/
theorem trace_follows (hr : r.announces = true)
    (e : .cutting text :: (records ++ outcome.warning) = front ++ r :: rest) :
    ∃ next, r.announced? functions = some next ∧ rest.head? = some (.cutting next) := by
  have noWarning (limit : Nat) : r ≠ .depthReached limit := by
    rintro rfl
    cases hr
  obtain ⟨-, rfl⟩ | ⟨before, after, -, same, rfl⟩ := exists_of_trace_eq noWarning e
  · cases hr
  · obtain ⟨next, announced, head⟩ := h.follows hr same
    exact ⟨next, announced, by rw [List.head?_append, head, Option.some_or]⟩

/-- What is cut into tokens in a trace is the line or has been announced. -/
theorem trace_precedes {cut : String} {n : Nat}
    (e : .cutting text :: (records ++ outcome.warning) = front ++ .lexed cut n :: rest) :
    front = [] ∨ front.getLast?.any Record.announces = true := by
  have noWarning (limit : Nat) : Record.lexed cut n ≠ .depthReached limit := nofun
  obtain ⟨rfl, -⟩ | ⟨before, after, rfl, same, -⟩ := exists_of_trace_eq noWarning e
  · exact .inl rfl
  · have last := h.precedes same
    right
    cases before with
    | nil => cases last
    | cons second before => rwa [List.getLast?_cons_cons]

end Announced

end Traces

namespace Calculator

/-- What the trace of a line consists of. -/
theorem trace_evaluate (c : Calculator) (text : String) :
    ∃ records, Announced c.functionTable records ∧ (c.evaluate text).trace.toList =
      .cutting text :: (records ++ (c.evaluate text).outcome.warning) := by
  by_cases h : ∃ rest, Token.ofText text = .identifier Definition.keyword :: rest
  · obtain ⟨rest, ht⟩ := h
    have cut : Record.lexed text (rest.length + 1) = .cutting text := by
      rw [Record.cutting, ht, List.length_cons]
    cases hd : Definition.ofTokens c.variableTable.contains rest with
    | error fault =>
        have warning := (Definition.refused_ofTokens hd).warning
        rw [evaluate_definition_error ht hd, cut, Outcome.warning, warning]
        exact ⟨[], .nil, rfl⟩
    | ok result =>
        rw [evaluate_definition ht hd, cut]
        exact ⟨[.defined result.1 result.2.parameters], .change rfl .nil, rfl⟩
  · obtain ⟨records, announced, trace⟩ :=
      Eval.Recorded.line (not_exists.mp h) (c.budget text) (m := .start c) rfl
    have finished := line_finished c text
    refine ⟨records, announced, ?_⟩
    rw [evaluate_eq, Report.trace_ofResult]
    refine trace.trans ?_
    generalize Eval.line text (c.budget text) (.start c) = r at finished
    rcases r with _ | ⟨_ | _, _⟩
    · rfl
    · rfl
    · exact absurd finished id

/-- **What is read is announced.**  The limit is warned of exactly if the line fails because of it, and
nothing comes after the warning, so there is no other one.  The line is cut into tokens first.  A call and
the text of a parameter's value are followed by the record that says that the body, or this text, is cut
into tokens, and no other text is. -/
theorem evaluate_records (c : Calculator) (text : String) :
    let report := c.evaluate text
    let records : List Record := report.trace.toList
    (∀ limit, Record.depthReached limit ∈ records ↔ report.outcome = .error (.depthExceeded limit)) ∧
    (∀ (front rest : List Record) limit, records = front ++ .depthReached limit :: rest → rest = []) ∧
    records.head? = some (.cutting text) ∧
    (∀ (front rest : List Record) name arguments, records = front ++ .calling name arguments :: rest →
      ∃ f, c.functionOf? name = some f ∧ rest.head? = some (.cutting f.joined)) ∧
    (∀ (front rest : List Record) value, records = front ++ .reread value :: rest →
      rest.head? = some (.cutting value)) ∧
    (∀ (front rest : List Record) cut n, records = front ++ .lexed cut n :: rest →
      front = [] ∨ front.getLast?.any Record.announces = true) := by
  intro report records
  obtain ⟨row, announced, trace⟩ : ∃ row, Announced c.functionTable row ∧
      records = .cutting text :: (row ++ report.outcome.warning) := trace_evaluate c text
  rw [trace]
  refine ⟨fun limit => announced.mem_trace, fun front rest limit e => announced.trace_last e, rfl,
    ?_, ?_, fun front rest cut n e => announced.trace_precedes e⟩
  · intro front rest name arguments e
    obtain ⟨next, body, head⟩ := announced.trace_follows rfl e
    obtain ⟨f, stored, rfl⟩ := Option.map_eq_some_iff.mp body
    exact ⟨f, stored, head⟩
  · intro front rest value e
    obtain ⟨next, same, head⟩ := announced.trace_follows rfl e
    cases same
    exact head

/-- The value of `x` is read, and then the limit is reached. -/
theorem evaluate_records_exceeded :
    let c := (empty 2).afterLines ["fn f x => x + (x)"]
    let rest : List Record := [.lexed "x+(x)" 5, .reread "2", .lexed "2" 1, .depthReached 2]
    (c.evaluate "f 2").trace.toList =
      [.lexed "f 2" 2] ++ .calling "f" [("x", (Numeral.ofWhole "2").value)] :: rest ∧
    (∃ f, c.functionOf? "f" = some f ∧ rest.head? = some (.cutting f.joined)) ∧
    (c.evaluate "f 2").outcome = .error (.depthExceeded 2) := by
  intro c rest
  have trace : (c.evaluate "f 2").trace.toList =
      [.lexed "f 2" 2] ++ .calling "f" [("x", (Numeral.ofWhole "2").value)] :: rest := by decide +kernel
  obtain ⟨warned, -, -, calls, -⟩ := evaluate_records c "f 2"
  refine ⟨trace, calls _ _ _ _ trace, (warned 2).mp ?_⟩
  rw [trace]
  simp [rest]

end Calculator

end LineCalc
