import LineCalc.Proofs.Effect

/-! # One evaluation follows another

Two evaluations are run on two machines that stand *side by side*: what is still to be read is the
same, and the rest of the machines is related by some `S` that does not look at the cursor.  The
second evaluation *follows* the first (`Follows`) if it ends with the same result and leaves the
machines side by side, unless the first one is *cut* short.  If it is, what has been assigned up to
there must be where the assignments of the second begin.

The machines need not remember the same: `S` may relate those that agree on some *names* only.  Then
what is read may mention no others (`MentionOnly`).  Nor may the bodies of functions with these names,
and the texts of numbers, since both are read in turn.

Which stops are cuts is left open, as are the relation `S` and the names; `Lawful` says what is needed
of them.  Then each level of the grammar follows itself as soon as the next expression does. -/

namespace LineCalc

/-- All identifiers among the tokens are among the names. -/
def Token.MentionOnly (names : String → Prop) (tokens : List Token) : Prop :=
  ∀ name, .identifier name ∈ tokens → names name

/-- The name of an identifier. -/
def Token.name? : Token → Option String
  | identifier name => some name
  | _ => none

theorem Token.mentionOnly_iff {names : String → Prop} {tokens : List Token} :
    MentionOnly names tokens ↔ ∀ t ∈ tokens, ∀ name ∈ t.name?, names name := by
  constructor
  · intro h t ht name hn
    cases t with
    | identifier other =>
        cases hn
        exact h _ ht
    | _ => cases hn
  · intro h name mem
    exact h _ mem name rfl

instance (names : String → Prop) [DecidablePred names] (tokens : List Token) :
    Decidable (Token.MentionOnly names tokens) := decidable_of_iff _ Token.mentionOnly_iff.symm

theorem Cursor.remaining_of_next {c d : Cursor} {t : Option Token} (h : c.next = .ok (t, d)) :
    c.remaining = t.toList ++ d.remaining := by
  obtain ⟨before, _ | _ | ⟨u, after⟩⟩ := c <;> cases h <;> rfl

theorem Cursor.next_congr {c c' : Cursor} (h : c'.after? = c.after?) :
    (∃ fault, c.next = .error fault ∧ c'.next = .error fault) ∨
      ∃ t d d', c.next = .ok (t, d) ∧ c'.next = .ok (t, d') ∧ d'.after? = d.after? := by
  obtain ⟨before', after'⟩ := c'
  rcases c with ⟨before, _ | _ | ⟨t, after⟩⟩ <;> cases h
  · exact .inl ⟨.endOfInput, rfl, rfl⟩
  · exact .inr ⟨none, _, _, rfl, rfl, rfl⟩
  · exact .inr ⟨some t, _, _, rfl, rfl, rfl⟩

theorem Cursor.remaining_congr {c c' : Cursor} (h : c'.after? = c.after?) :
    c'.remaining = c.remaining := by
  unfold remaining
  rw [h]

theorem Cursor.remainingCount_congr {c c' : Cursor} (h : c'.after? = c.after?) :
    c'.remainingCount = c.remainingCount := by
  unfold remainingCount
  rw [h]

namespace Eval

variable {α β : Type}

/-- Every name. -/
abbrev AnyName : String → Prop := fun _ => True

/-- What two related machines, the names on which they agree and the stops that are cuts must
satisfy. -/
structure Lawful (names : String → Prop) (S : Machine → Machine → Prop) (cut : Stop → Prop) :
    Prop where
  exhausted : cut .exhausted
  assignments : ∀ {m m'}, S m m' →
    Record.assignments m.trace.toList = Record.assignments m'.trace.toList
  valueOf? : ∀ {m m' name}, S m m' → names name →
    m'.calculator.valueOf? name = m.calculator.valueOf? name
  functionOf? : ∀ {m m' name}, S m m' → names name →
    m'.calculator.functionOf? name = m.calculator.functionOf? name
  body : ∀ {m m' name f}, S m m' → names name → m.calculator.functionOf? name = some f →
    Token.MentionOnly names (Token.ofText f.joined)
  number : ∀ x, Token.MentionOnly names (Token.ofText (Number.text x))
  moved : ∀ {m m'}, S m m' → ∀ c c', S { m with cursor := c } { m' with cursor := c' }
  noted : ∀ {m m' r}, S m m' → r.isSilent = true → S (m.note r) (m'.note r)
  assigned : ∀ {m m' name}, S m m' → names name → ∀ x,
    S { m.note (.assigned name x) with calculator := m.calculator.assign name x }
      { m'.note (.assigned name x) with calculator := m'.calculator.assign name x }
  entered : ∀ {m m'}, S m m' → m.depth < m.calculator.limit →
    m'.depth < m'.calculator.limit ∧
      S { m with depth := m.depth + 1 } { m' with depth := m'.depth + 1 }
  left : ∀ {m m'}, S m m' → S { m with depth := m.depth - 1 } { m' with depth := m'.depth - 1 }
  refused : ∀ {m m'}, S m m' → ¬ m.depth < m.calculator.limit →
    cut (.fault (.depthExceeded m.calculator.limit)) ∨
      (¬ m'.depth < m'.calculator.limit ∧ m'.calculator.limit = m.calculator.limit)

/-- The machines are related, the same is still to be read, and it mentions only the names. -/
structure Beside (names : String → Prop) (S : Machine → Machine → Prop) (m m' : Machine) : Prop where
  rest : S m m'
  after? : m'.cursor.after? = m.cursor.after?
  mention : Token.MentionOnly names m.cursor.remaining

/-- Where all names matter, nothing is asked of what is to be read. -/
theorem Beside.of_after? {S : Machine → Machine → Prop} {m m' : Machine} (h : S m m')
    (ha : m'.cursor.after? = m.cursor.after?) : Beside AnyName S m m' := ⟨h, ha, fun _ _ => trivial⟩

/-- How the result of an evaluation agrees with that of one that follows it. -/
inductive Agree (names : String → Prop) (S : Machine → Machine → Prop) (cut : Stop → Prop) :
    EStateM.Result Stop Machine α → EStateM.Result Stop Machine α → Prop
  | ok {a : α} {m m' : Machine} (h : Beside names S m m') : Agree names S cut (.ok a m) (.ok a m')
  | error {s : Stop} {m m' : Machine} (h : Beside names S m m') :
      Agree names S cut (.error s m) (.error s m')
  | cut {s : Stop} {m : Machine} {r : EStateM.Result Stop Machine α} (hs : cut s)
      (h : Record.assignments m.trace.toList <+: Record.assignments (machineOf r).trace.toList) :
      Agree names S cut (.error s m) r

/-- Changing both machines in the same way keeps the agreement. -/
theorem Agree.onMachine {names : String → Prop} {S : Machine → Machine → Prop} {cut : Stop → Prop}
    {f g : Machine → Machine} {r r' : EStateM.Result Stop Machine α} (h : Agree names S cut r r')
    (hfg : ∀ {m m'}, Beside names S m m' → Beside names S (f m) (g m'))
    (hf : ∀ m, (f m).trace = m.trace) (hg : ∀ m, (g m).trace = m.trace) :
    Agree names S cut (onMachine f r) (onMachine g r') := by
  cases h with
  | ok h => exact .ok (hfg h)
  | error h => exact .error (hfg h)
  | cut hs h =>
      refine .cut hs ?_
      rwa [machineOf_onMachine, hf, hg]

/-- What has been assigned before stays where the assignments begin. -/
def Grows (x : Eval α) : Prop := ∀ m, Record.assignments m.trace.toList <+:
  Record.assignments (after x m).trace.toList

theorem Orderly.grows {x : Eval α} (h : Orderly x) : Grows x := fun m => (h.effect m).assignments

namespace Grows

theorem bind {x : Eval α} {f : α → Eval β} (hx : Grows x) (hf : ∀ a, Grows (f a)) :
    Grows (x >>= f) := by
  intro m
  have grown := hx m
  unfold after at grown ⊢
  rw [bind_apply]
  generalize x m = r at grown
  cases r with
  | ok a m' => exact grown.trans (hf a m')
  | error s m' => exact grown

theorem assign (name : String) (x : Float) : Grows (assign name x) := by
  intro m
  unfold after
  rw [assign_apply, machineOf]
  show _ <+: Record.assignments (m.note _).trace.toList
  rw [Record.assignments_note_assigned]
  exact List.prefix_append _ _

theorem nested {x : Eval α} (h : Grows x) : Grows (nested x) := by
  intro m
  by_cases hd : m.depth < m.calculator.limit
  · unfold after
    rw [nested_of_lt x hd, machineOf_onMachine]
    exact h { m with depth := m.depth + 1 }
  · have e : Record.assignments (m.note (.depthReached m.calculator.limit)).trace.toList =
        Record.assignments m.trace.toList := Record.assignments_note m rfl
    unfold after
    rw [nested_of_ge x hd, machineOf]
    exact e ▸ List.prefix_rfl

theorem within {x : Eval α} (h : Grows x) (tokens : List Token) : Grows (within tokens x) := by
  intro m
  unfold after
  rw [within_apply, machineOf_onMachine]
  exact h { m with cursor := .ofTokens tokens }

theorem tokenCongruence : TokenCongruence (Both @Grows) :=
  Both.tokenCongruence
    (Both.congruence (fun a => (Orderly.pure a).grows) bind (fun _ => (Orderly.fail _).grows)
      Orderly.read.grows)
    Orderly.peek.grows (Orderly.look _).grows

theorem exhausted : Grows (throw .exhausted : Eval α) := (Orderly.throw _).grows

theorem productFrom {operand : Eval Value} (h : Grows operand) (n : Nat) (x : Value) :
    Grows (productFrom operand n x) :=
  (tokenCongruence.productFrom ⟨exhausted, exhausted⟩ ⟨h, h⟩ n x).1

theorem sumFrom {product : Eval Float} (h : Grows product) (n : Nat) (x : Float) :
    Grows (sumFrom product n x) :=
  (tokenCongruence.sumFrom ⟨exhausted, exhausted⟩ ⟨h, h⟩ n x).1

end Grows

/-- The second evaluation follows the first. -/
structure Follows (names : String → Prop) (S : Machine → Machine → Prop) (cut : Stop → Prop)
    (x y : Eval α) : Prop where
  grows : Grows y
  run : ∀ {m m'}, Beside names S m m' → Agree names S cut (x m) (y m')

namespace Follows

variable {names : String → Prop} {S : Machine → Machine → Prop} {cut : Stop → Prop}

theorem pure (a : α) : Follows names S cut (pure a : Eval α) (pure a) :=
  ⟨(Orderly.pure a).grows, fun h => .ok h⟩

theorem throw (s : Stop) : Follows names S cut (throw s : Eval α) (throw s) :=
  ⟨(Orderly.throw s).grows, fun h => .error h⟩

theorem fail (fault : Fault) : Follows names S cut (fail fault : Eval α) (fail fault) := throw _

theorem ofExcept (r : Except Fault α) : Follows names S cut (ofExcept r) (ofExcept r) := by
  cases r with
  | ok a => exact pure a
  | error fault => exact fail fault

theorem bind {x y : Eval α} {f g : α → Eval β} (hx : Follows names S cut x y)
    (hf : ∀ a, Follows names S cut (f a) (g a)) : Follows names S cut (x >>= f) (y >>= g) := by
  constructor
  · exact hx.grows.bind fun a => (hf a).grows
  · intro m m' h
    have agree := hx.run h
    rw [bind_apply, bind_apply]
    generalize x m = r at agree
    generalize y m' = r' at agree
    cases agree with
    | ok h => exact (hf _).run h
    | error h => exact .error h
    | cut hs h =>
        refine .cut hs (h.trans ?_)
        cases r' with
        | ok a m => exact (hf a).grows m
        | error s m => exact List.prefix_rfl

theorem look {f : Machine → α} (h : ∀ {m m'}, Beside names S m m' → f m' = f m) :
    Follows names S cut (look f) (look f) := by
  refine ⟨(Orderly.look f).grows, fun {m m'} hm => ?_⟩
  rw [Eval.look, Eval.look, h hm]
  exact .ok hm

/-- An evaluation that looks at the machine. -/
theorem get_bind {f g : Machine → Eval α} (hg : ∀ m, Grows (g m))
    (h : ∀ {m m'}, Beside names S m m' → Agree names S cut (f m m) (g m' m')) :
    Follows names S cut (get >>= f) (get >>= g) :=
  ⟨Orderly.get.grows.bind hg, fun hm => h hm⟩

/-- An evaluation that looks at the next token. -/
theorem peek_bind {f g : Option Token → Eval α} (hg : ∀ t, Grows (g t))
    (h : ∀ t, Token.MentionOnly names t.toList → Follows names S cut (f t) (g t)) :
    Follows names S cut (peek >>= f) (peek >>= g) := by
  constructor
  · exact Orderly.peek.grows.bind hg
  · intro m m' hm
    rw [bind_apply, bind_apply]
    obtain ⟨fault, e, e'⟩ | ⟨t, d, d', e, e', -⟩ := Cursor.next_congr hm.after?
    · rw [peek_of_error e, peek_of_error e']
      exact .error hm
    · rw [peek_of_next e, peek_of_next e']
      refine (h t ?_).run hm
      intro name hn
      apply hm.mention
      rw [Cursor.remaining_of_next e]
      exact List.mem_append_left _ hn

theorem peek : Follows names S cut peek peek := by
  have h : Follows names S cut (Eval.peek >>= Pure.pure) (Eval.peek >>= Pure.pure) :=
    peek_bind (fun t => (Orderly.pure t).grows) fun t _ => pure t
  rwa [bind_pure] at h

section Steps

variable (law : Lawful names S cut)
include law

/-- Whatever follows an evaluation that is exhausted at once. -/
theorem exhausted {y : Eval α} (hy : Grows y) :
    Follows names S cut (MonadExcept.throw Stop.exhausted) y := by
  constructor
  · exact hy
  · intro m m' h
    apply Agree.cut law.exhausted
    rw [law.assignments h.rest]
    exact hy m'

theorem note {r : Record} (hr : r.isSilent = true) : Follows names S cut (note r) (note r) :=
  ⟨(Orderly.note hr).grows, fun h => .ok ⟨law.noted h.rest hr, h.after?, h.mention⟩⟩

/-- An evaluation that reads the next token. -/
theorem read_bind {f g : Option Token → Eval α} (hg : ∀ t, Grows (g t))
    (h : ∀ t, Token.MentionOnly names t.toList → Follows names S cut (f t) (g t)) :
    Follows names S cut (read >>= f) (read >>= g) := by
  constructor
  · exact Orderly.read.grows.bind hg
  · intro m m' hm
    rw [bind_apply, bind_apply]
    obtain ⟨fault, e, e'⟩ | ⟨t, d, d', e, e', hd⟩ := Cursor.next_congr hm.after?
    · rw [read_of_error e, read_of_error e']
      exact .error hm
    · have mention := hm.mention
      rw [Cursor.remaining_of_next e] at mention
      rw [read_of_next e, read_of_next e']
      refine (h t ?_).run ⟨law.moved hm.rest d d', hd, ?_⟩
      · exact fun name hn => mention name (List.mem_append_left _ hn)
      · exact fun name hn => mention name (List.mem_append_right _ hn)

theorem read : Follows names S cut read read := by
  have h : Follows names S cut (Eval.read >>= Pure.pure) (Eval.read >>= Pure.pure) :=
    read_bind law (fun t => (Orderly.pure t).grows) fun t _ => pure t
  rwa [bind_pure] at h

theorem nested {x y : Eval α} (h : Follows names S cut x y) :
    Follows names S cut (nested x) (nested y) := by
  constructor
  · exact h.grows.nested
  · intro m m' hm
    by_cases hd : m.depth < m.calculator.limit
    · obtain ⟨hd', hs⟩ := law.entered hm.rest hd
      rw [nested_of_lt x hd, nested_of_lt y hd']
      apply (h.run ⟨hs, hm.after?, hm.mention⟩).onMachine
      · intro m₁ m₁' h₁
        exact ⟨law.left h₁.rest, h₁.after?, h₁.mention⟩
      · intro m₁
        rfl
      · intro m₁
        rfl
    · rw [nested_of_ge x hd]
      obtain hc | ⟨hd', hl⟩ := law.refused hm.rest hd
      · apply Agree.cut hc
        rw [Record.assignments_note m rfl, law.assignments hm.rest]
        exact h.grows.nested m'
      · rw [nested_of_ge y hd', hl]
        exact .error ⟨law.noted hm.rest rfl, hm.after?, hm.mention⟩

theorem within {x y : Eval α} (h : Follows names S cut x y) {tokens : List Token}
    (ht : Token.MentionOnly names tokens) :
    Follows names S cut (within tokens x) (within tokens y) := by
  constructor
  · exact h.grows.within tokens
  · intro m m' hm
    have begun : Beside names S { m with cursor := .ofTokens tokens }
        { m' with cursor := .ofTokens tokens } := ⟨law.moved hm.rest _ _, rfl, ht⟩
    rw [within_apply, within_apply]
    apply (h.run begun).onMachine
    · intro m₁ m₁' h₁
      exact ⟨law.moved h₁.rest _ _, hm.after?, hm.mention⟩
    · intro m₁
      rfl
    · intro m₁
      rfl

/-- An evaluation of what a text consists of. -/
theorem lex_within {x y : Eval α} (h : Follows names S cut x y) {text : String}
    (ht : Token.MentionOnly names (Token.ofText text)) :
    Follows names S cut (do Eval.within (← lex text) x) (do Eval.within (← lex text) y) := by
  constructor
  · exact (Orderly.lex text).grows.bind fun tokens => h.grows.within tokens
  · intro m m' hm
    rw [bind_apply, bind_apply, lex_apply, lex_apply]
    exact (within law h ht).run ⟨law.noted hm.rest rfl, hm.after?, hm.mention⟩

/-! ### The levels of the grammar -/

theorem tokenCongruence : TokenCongruence (fun {_} => Follows names S cut) where
  pure := pure
  bind := bind
  fail _ := fail _
  read := read law
  peek := peek
  minus := look fun h => by
    rw [Cursor.peekIs, Cursor.peekIs, Cursor.remaining_congr h.after?]

theorem operand {group group' : Eval Float} {resolve resolve' : String → Eval Value}
    (hg : Follows names S cut group group') (grows : ∀ name, Grows (resolve' name))
    (hr : ∀ name, names name → Follows names S cut (resolve name) (resolve' name)) :
    Follows names S cut (operand group resolve) (operand group' resolve') := by
  have skip := (tokenCongruence law).skip
  rw [operand_eq, operand_eq]
  apply (tokenCongruence law).readMinus.bind
  intro negative
  apply peek_bind
  · intro t
    split
    · exact skip.grows.bind fun _ => (Orderly.pure _).grows
    · exact skip.grows.bind fun _ => grows _
    · exact skip.grows.bind fun _ => hg.grows.bind fun x => skip.grows.bind fun _ =>
        (Orderly.pure _).grows
    · exact (Orderly.fail _).grows
    · exact skip.grows.bind fun _ => (Orderly.fail _).grows
  · intro t ht
    split
    · exact skip.bind fun _ => pure _
    · exact skip.bind fun _ => hr _ (ht _ (List.mem_singleton_self _))
    · exact skip.bind fun _ => hg.bind fun x => skip.bind fun _ => pure _
    · exact fail _
    · exact skip.bind fun _ => fail _

/-- The second product may have the larger budget. -/
theorem productFrom {operand operand' : Eval Value} (h : Follows names S cut operand operand')
    {n n' : Nat} (hn : n ≤ n') (x : Value) :
    Follows names S cut (productFrom operand n x) (productFrom operand' n' x) := by
  induction n generalizing n' x with
  | zero => exact exhausted law (h.grows.productFrom n' x)
  | succ n ih =>
      obtain ⟨n', rfl⟩ : ∃ k, n' = k + 1 := ⟨n' - 1, by omega⟩
      rw [productFrom_succ, productFrom_succ]
      apply peek.bind
      intro t
      split
      · exact pure x
      · exact (tokenCongruence law).skip.bind fun _ => h.bind fun y => (ofExcept _).bind fun x =>
          (ofExcept _).bind fun y => ih (by omega) _

theorem product {operand operand' : Eval Value} (h : Follows names S cut operand operand')
    {n n' : Nat} (hn : n ≤ n') : Follows names S cut (product operand n) (product operand' n') :=
  h.bind fun x => (productFrom law h hn x).bind fun y => ofExcept y.toNumber

theorem sumFrom {product product' : Eval Float} (h : Follows names S cut product product')
    {n n' : Nat} (hn : n ≤ n') (x : Float) :
    Follows names S cut (sumFrom product n x) (sumFrom product' n' x) := by
  induction n generalizing n' x with
  | zero => exact exhausted law (h.grows.sumFrom n' x)
  | succ n ih =>
      obtain ⟨n', rfl⟩ : ∃ k, n' = k + 1 := ⟨n' - 1, by omega⟩
      rw [sumFrom_succ, sumFrom_succ]
      apply peek.bind
      intro t
      split
      · exact (tokenCongruence law).skip.bind fun _ => h.bind fun y => ih (by omega) _
      · exact (tokenCongruence law).skip.bind fun _ => h.bind fun y => ih (by omega) _
      · exact pure x

theorem sum {product product' : Eval Float} (h : Follows names S cut product product') {n n' : Nat}
    (hn : n ≤ n') : Follows names S cut (sum product n) (sum product' n') :=
  h.bind fun x => sumFrom law h hn x

omit law in
theorem atAssignment : Follows names S cut atAssignment atAssignment := by
  rw [atAssignment_eq]
  exact look fun h => by rw [Cursor.remaining_congr h.after?]

theorem assign {name : String} (hn : names name) (x : Float) :
    Follows names S cut (assign name x) (assign name x) :=
  ⟨.assign name x, fun h => .ok ⟨law.assigned h.rest hn x, h.after?, h.mention⟩⟩

theorem assignment {value value' : Eval Float} (h : Follows names S cut value value') :
    Follows names S cut (assignment value) (assignment value') := by
  apply read_bind law
  · intro t
    split
    · apply Orderly.get.grows.bind
      intro m
      split
      · exact (Orderly.fail _).grows
      · exact Orderly.read.discard.grows.bind fun _ => h.grows.bind fun x =>
          (Grows.assign _ x).bind fun _ => (Orderly.pure x).grows
    · exact (Orderly.fail _).grows
    · exact (Orderly.fail _).grows
  · intro t ht
    split
    · rename_i name
      have hn : names name := ht name (List.mem_singleton_self _)
      have write : Follows names S cut
          (do Functor.discard Eval.read; let x ← value; Eval.assign name x; return x)
          (do Functor.discard Eval.read; let x ← value'; Eval.assign name x; return x) :=
        (tokenCongruence law).skip.bind fun _ => h.bind fun x => (assign law hn x).bind fun _ => pure x
      apply get_bind
      · intro m
        split
        · exact (Orderly.fail _).grows
        · exact write.grows
      · intro m m' hm
        have same : m'.calculator.functionTable.contains name =
            m.calculator.functionTable.contains name := by
          rw [Std.ExtTreeMap.contains_eq_isSome_getElem?, Std.ExtTreeMap.contains_eq_isSome_getElem?]
          exact congrArg Option.isSome (law.functionOf? hm.rest hn)
        rw [same]
        split
        · exact .error hm
        · exact write.run hm
    · exact fail _
    · exact fail _

section Levels

variable {deeper deeper' : Bindings → Eval Float}
  (h : ∀ bindings, Follows names S cut (deeper bindings) (deeper' bindings))
include h

theorem arguments (parameters : List String) :
    Follows names S cut (arguments deeper parameters) (arguments deeper' parameters) :=
  (tokenCongruence law).arguments h parameters

theorem call (name : String) {f : Definition} (hf : Token.MentionOnly names (Token.ofText f.joined)) :
    Follows names S cut (call deeper name f) (call deeper' name f) :=
  (arguments law h f.parameters).bind fun bindings => (note law rfl).bind fun _ =>
    lex_within law (h bindings) hf

omit h

theorem globalWith {call call' : Definition → Eval Float} {name : String} (hn : names name)
    (hg : ∀ f, Grows (call' f))
    (hc : ∀ {m m'} f, S m m' → m.calculator.functionOf? name = some f →
      Follows names S cut (call f) (call' f)) :
    Follows names S cut (globalWith call name) (globalWith call' name) := by
  apply get_bind
  · intro m
    split
    · exact (hg _).bind fun x => (Orderly.pure _).grows
    · apply Orderly.get.grows.bind
      intro m
      split
      · exact (Orderly.pure _).grows
      · exact (Orderly.pure _).grows
  · intro m m' hm
    rw [law.functionOf? hm.rest hn]
    cases hf : m.calculator.functionOf? name with
    | some f => exact ((hc f hm.rest hf).bind fun x => pure _).run hm
    | none =>
        simp only [bind_apply, get_apply]
        rw [law.valueOf? hm.rest hn]
        cases m.calculator.valueOf? name with
        | some x => exact .ok hm
        | none => exact .ok hm

theorem resolveWith {parameter parameter' : Float → Eval Value} {global global' : String → Eval Value}
    (hp : ∀ x, Follows names S cut (parameter x) (parameter' x)) {name : String} (hn : names name)
    (hg : Follows names S cut (global name) (global' name)) (bindings : Bindings) :
    Follows names S cut (resolveWith parameter global bindings name)
      (resolveWith parameter' global' bindings name) := by
  apply get_bind
  · intro m
    split
    · exact (hp _).grows
    · exact hg.grows
  · intro m m' hm
    rw [law.functionOf? hm.rest hn]
    cases m.calculator.functionOf? name with
    | some f => exact hg.run hm
    | none =>
        cases bindings.lookup name with
        | some x => exact (hp x).run hm
        | none => exact hg.run hm

theorem levelWith {resolve resolve' : String → Eval Value}
    (h : ∀ bindings, Follows names S cut (deeper bindings) (deeper' bindings))
    (grows : ∀ name, Grows (resolve' name))
    (hr : ∀ name, names name → Follows names S cut (resolve name) (resolve' name)) {n n' : Nat}
    (hn : n ≤ n') (bindings : Bindings) :
    Follows names S cut (levelWith deeper resolve n bindings) (levelWith deeper' resolve' n' bindings) := by
  apply atAssignment.bind
  intro isAssignment
  split
  · exact assignment law (h [])
  · exact sum law (product law (operand law (h bindings) grows hr) hn) hn

include h

theorem resolveGlobal {name : String} (hn : names name) (ho : ∀ bindings, Orderly (deeper' bindings)) :
    Follows names S cut (resolveGlobal deeper name) (resolveGlobal deeper' name) :=
  globalWith law hn (fun f => (Orderly.call ho name f).grows) fun _ hs hf =>
    call law h name (law.body hs hn hf)

theorem reread (ho : ∀ bindings, Orderly (deeper' bindings)) (x : Float) :
    Follows names S cut (reread deeper x) (reread deeper' x) := by
  have inner := operand law (h []) (fun name => (Orderly.resolveGlobal ho name).grows)
    fun name hn => resolveGlobal law h hn ho
  exact (note law rfl).bind fun _ => lex_within law inner (law.number x)

theorem resolve {name : String} (hn : names name) (ho : ∀ bindings, Orderly (deeper' bindings))
    (bindings : Bindings) :
    Follows names S cut (resolve deeper bindings name) (resolve deeper' bindings name) :=
  resolveWith law (reread law h ho) hn (resolveGlobal law h hn ho) bindings

theorem level (ho : ∀ bindings, Orderly (deeper' bindings)) {n n' : Nat} (hn : n ≤ n')
    (bindings : Bindings) :
    Follows names S cut (level deeper n bindings) (level deeper' n' bindings) :=
  levelWith law h (fun name => (Orderly.resolve ho bindings name).grows)
    (fun _ hm => resolve law h hm ho bindings) hn bindings

end Levels

/-- An expression with a larger budget follows the one with the smaller. -/
theorem expression {n n' : Nat} (hn : n ≤ n') (bindings : Bindings) :
    Follows names S cut (expression n bindings) (expression n' bindings) := by
  induction n generalizing n' bindings with
  | zero => exact exhausted law (Orderly.expression n' bindings).grows
  | succ n ih =>
      obtain ⟨n', rfl⟩ : ∃ k, n' = k + 1 := ⟨n' - 1, by omega⟩
      exact nested law (level law (fun bindings => ih (by omega) bindings) (Orderly.expression n')
        (by omega) bindings)

/-! ### Lines -/

omit law in
theorem wholeWith {value value' : Eval Float} (h : Follows names S cut value value') (text : String) :
    Follows names S cut (wholeWith value text) (wholeWith value' text) := by
  apply h.bind
  intro x
  apply get_bind
  · intro m
    split
    · exact (Orderly.pure x).grows
    · exact (Orderly.fail _).grows
  · intro m m' hm
    rw [Cursor.remainingCount_congr hm.after?]
    split
    · exact .ok hm
    · exact .error hm

/-- A line that is no definition follows as its expression does. -/
theorem lineWith {value value' : Eval Float} (h : Follows names S cut value value') {text : String}
    (hd : ∀ rest, Token.ofText text ≠ .identifier Definition.keyword :: rest)
    (ht : Token.MentionOnly names (Token.ofText text)) {m m' : Machine} (hm : Beside names S m m') :
    Agree names S cut (lineWith value text m) (lineWith value' text m') := by
  have hs (n : Nat) := law.noted hm.rest (r := .lexed text n) rfl
  rw [Eval.lineWith, Eval.lineWith, bind_apply, bind_apply, lex_apply, lex_apply]
  cases e : Token.ofText text with
  | nil => exact .ok ⟨hs _, hm.after?, hm.mention⟩
  | cons first rest =>
      have hf : first ≠ .identifier Definition.keyword := by
        rintro rfl
        exact hd rest e
      have inner := (within law (wholeWith h text) (e ▸ ht)).bind fun x => pure (some x)
      simp only [if_neg hf]
      exact inner.run ⟨hs _, hm.after?, hm.mention⟩

end Steps

end Follows

end Eval

end LineCalc
