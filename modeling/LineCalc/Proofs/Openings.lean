import LineCalc.Proofs.Budget

/-! # A limit that cannot be exceeded

Where a line calls no function, every expression inside another one begins right after an opening
parenthesis or an equals sign.  So a limit above the number of these tokens is never exceeded, whatever the
line looks like otherwise (`evaluate_openings`).  Parentheses need not be closed, and what closes them may
be any token.

The invariant is a balance (`Eval.Ample`): the levels that have been entered and the openings that are
still to be read are together no more than the limit.  Reading on only lowers it.  Reading an opening
leaves room for one level more, and entering the level takes that room again. -/

namespace LineCalc

namespace Cursor

theorem remaining_eq_drop (c : Cursor) : c.remaining = c.tokens.drop c.position := by
  obtain ⟨before, _ | after⟩ := c
  · simp [remaining, tokens, position]
  · simp only [remaining, tokens, position, Option.getD_some]
    rw [← List.length_reverse, List.drop_left]

/-- A cursor that stands further on the same tokens has an end of what is left. -/
theorem remaining_suffix {c d : Cursor} (tokens : d.tokens = c.tokens) (le : c.position ≤ d.position) :
    d.remaining <:+ c.remaining := by
  rw [remaining_eq_drop, remaining_eq_drop, tokens]
  exact List.drop_suffix_drop_left _ le

theorem next_of_remaining {c : Cursor} {t : Token} {rest : List Token} (h : c.remaining = t :: rest) :
    ∃ d : Cursor, c.next = .ok (some t, d) ∧ d.remaining = rest := by
  obtain ⟨before, _ | _ | ⟨u, after⟩⟩ := c <;> cases h
  exact ⟨⟨t :: before, some rest⟩, rfl, rfl⟩

end Cursor

/-- How many tokens of a row an expression inside another one can begin after. -/
def Token.openings (tokens : List Token) : Nat := tokens.count .leftParen + tokens.count .equals

theorem Token.openings_suffix {tokens rest : List Token} (h : rest <:+ tokens) :
    openings rest ≤ openings tokens :=
  Nat.add_le_add (h.sublist.count_le _) (h.sublist.count_le _)

namespace Eval

variable {α β : Type}

/-- The result is not that the limit was exceeded. -/
def Unrefused (r : EStateM.Result Stop Machine α) : Prop :=
  ∀ limit m, r ≠ .error (.fault (.depthExceeded limit)) m

theorem Unrefused.ok (a : α) (m : Machine) : Unrefused (.ok a m) := nofun

theorem Unrefused.bind {x : Eval α} {f : α → Eval β} {m : Machine} (hx : Unrefused (x m))
    (hf : ∀ a m', x m = .ok a m' → Unrefused (f a m')) : Unrefused ((x >>= f) m) := by
  intro limit m₂ e
  rw [bind_apply] at e
  cases h : x m with
  | ok a m' =>
      rw [h] at e
      exact hf a m' h limit m₂ e
  | error s m' =>
      rw [h] at e
      cases e
      exact hx limit m₂ h

theorem Unrefused.onMachine {r : EStateM.Result Stop Machine α} (h : Unrefused r)
    (f : Machine → Machine) : Unrefused (onMachine f r) := by
  intro limit m e
  cases r with
  | ok a m' => cases e
  | error s m' =>
      cases e
      exact h limit m' rfl

/-- No name that is left to read is that of a function, and the limit leaves room for the openings that
are left to read and for `k` levels besides. -/
structure Ample (k : Nat) (m : Machine) : Prop where
  names : ∀ name, .identifier name ∈ m.cursor.remaining → m.calculator.functionOf? name = none
  levels : m.depth + Token.openings m.cursor.remaining + k ≤ m.calculator.limit

namespace Ample

variable {k : Nat} {m m' : Machine}

/-- What moves forward leaves the room that there is. -/
theorem after {x : Eval α} {a : α} (hm : Ample k m) (h : Orderly x) (e : x m = .ok a m') :
    Ample k m' := by
  have effect := (h m).effect_of_ok e
  have rest := Cursor.remaining_suffix effect.tokens ((h m).forward e)
  constructor
  · intro name mem
    rw [effect.functionOf?]
    exact hm.names name (rest.subset mem)
  · have fewer := Token.openings_suffix rest
    have levels := hm.levels
    rw [effect.depth, effect.limit]
    omega

/-- Reading an opening leaves room for one more level. -/
theorem opened (hm : Ample 0 m) {t : Token} (opening : t = .leftParen ∨ t = .equals) {c : Cursor}
    (h : m.cursor.next = .ok (some t, c)) : Ample 1 { m with cursor := c } := by
  have remaining : m.cursor.remaining = t :: c.remaining := Cursor.remaining_of_next h
  have one : Token.openings (t :: c.remaining) = Token.openings c.remaining + 1 := by
    unfold Token.openings
    obtain rfl | rfl := opening <;> simp <;> omega
  obtain ⟨names, levels⟩ := hm
  rw [remaining] at names levels
  constructor
  · exact fun name mem => names name (List.mem_cons_of_mem t mem)
  · show m.depth + Token.openings c.remaining + 1 ≤ m.calculator.limit
    omega

end Ample

/-- Where there is room for `k` levels more than for openings, the limit is not exceeded. -/
structure Unhindered (k : Nat) (x : Eval α) : Prop where
  orderly : Orderly x
  run : ∀ m, Ample k m → Unrefused (x m)

namespace Unhindered

variable {k : Nat}

theorem bind {x : Eval α} {f : α → Eval β} (hx : Unhindered k x) (hf : ∀ a, Unhindered k (f a)) :
    Unhindered k (x >>= f) := by
  constructor
  · exact hx.orderly.bind fun a => (hf a).orderly
  · intro m hm
    apply (hx.run m hm).bind
    intro a m' e
    exact (hf a).run m' (hm.after hx.orderly e)

theorem pure (a : α) : Unhindered k (pure a : Eval α) := ⟨.pure a, fun _ _ => nofun⟩

theorem look (f : Machine → α) : Unhindered k (look f) := ⟨.look f, fun _ _ => nofun⟩

theorem exhausted : Unhindered k (throw .exhausted : Eval α) := ⟨.throw _, fun _ _ => nofun⟩

theorem fail {fault : Fault} (h : ∀ limit, fault ≠ .depthExceeded limit) :
    Unhindered k (fail fault : Eval α) := by
  constructor
  · exact .fail fault
  · intro m _ limit m' e
    cases e
    exact h limit rfl

theorem read : Unhindered k read := by
  constructor
  · exact .read
  · intro m _
    cases h : m.cursor.next with
    | error fault =>
        obtain rfl := Cursor.eq_endOfInput_of_next h
        rw [read_of_error h]
        nofun
    | ok next =>
        rw [read_of_next h]
        nofun

theorem peek : Unhindered k peek := by
  constructor
  · exact .peek
  · intro m _
    cases h : m.cursor.next with
    | error fault =>
        obtain rfl := Cursor.eq_endOfInput_of_next h
        rw [peek_of_error h]
        nofun
    | ok next =>
        rw [peek_of_next h]
        nofun

/-- Entering a level takes the room for it. -/
theorem nested {x : Eval α} (h : Unhindered 0 x) : Unhindered 1 (nested x) := by
  constructor
  · exact h.orderly.nested
  · intro m hm
    have levels := hm.levels
    have room : m.depth < m.calculator.limit := by omega
    have entered : m.depth + 1 + Token.openings m.cursor.remaining + 0 ≤ m.calculator.limit := by omega
    rw [nested_of_lt x room]
    exact (h.run { m with depth := m.depth + 1 } ⟨hm.names, entered⟩).onMachine _

/-! ### The levels of the grammar -/

theorem tokenCongruence : TokenCongruence (Both fun {_} => Unhindered k) :=
  Both.tokenCongruence (Both.congruence pure bind fail read) peek (look _)

theorem skip : Unhindered k (discard Eval.read) := tokenCongruence.skip.1

/-- What stands in parentheses may go one level deeper. -/
theorem operand {group : Eval Float} {resolve : String → Eval Value} (hg : Unhindered 1 group)
    (ho : ∀ name, Orderly (resolve name))
    (hr : ∀ {name m}, m.calculator.functionOf? name = none → Unrefused (resolve name m)) :
    Unhindered 0 (operand group resolve) := by
  constructor
  · exact hg.orderly.operand ho
  · intro m hm
    rw [operand_eq]
    apply (tokenCongruence.readMinus.1.run m hm).bind
    intro negative m₁ e
    have hm₁ := hm.after .readMinus e
    rw [bind_apply]
    cases h : m₁.cursor.next with
    | error fault =>
        obtain rfl := Cursor.eq_endOfInput_of_next h
        rw [peek_of_error h]
        nofun
    | ok next =>
        obtain ⟨t, c⟩ := next
        rw [peek_of_next h]
        dsimp only
        split
        · exact (skip.bind fun _ => pure _).run m₁ hm₁
        · rename_i name
          rw [bind_apply, discard_apply, read_of_next h]
          apply hr
          apply hm₁.names
          rw [Cursor.remaining_of_next h]
          exact List.mem_cons_self
        · rw [bind_apply, discard_apply, read_of_next h]
          exact (hg.bind fun x => skip.bind fun _ => pure _).run _ (hm₁.opened (.inl rfl) h)
        · exact (fail (by simp)).run m₁ hm₁
        · exact (skip.bind fun _ => fail (by simp)).run m₁ hm₁

theorem sum {operand : Eval Value} (h : Unhindered 0 operand) (n : Nat) :
    Unhindered 0 (sum (product operand n) n) := by
  have product := tokenCongruence.product ⟨exhausted, exhausted⟩ ⟨h, h⟩ n
  exact (tokenCongruence.sum ⟨exhausted, exhausted⟩ product n).1

/-- The value of an assignment may go one level deeper, because the token right before it is `=`. -/
theorem assignment {value : Eval Float} (hv : Unhindered 1 value) {m : Machine} (hm : Ample 0 m)
    (begins : beginsAssignment m.cursor.remaining = true) : Unrefused (assignment value m) := by
  obtain ⟨target, next, rest, e⟩ := eq_of_beginsAssignment begins
  obtain ⟨c, read, remaining⟩ := Cursor.next_of_remaining e
  obtain ⟨d, equals, -⟩ := Cursor.next_of_remaining remaining
  rw [Eval.assignment, bind_apply, read_of_next read]
  cases target with
  | identifier name =>
      dsimp only
      rw [bind_apply, get_apply]
      dsimp only
      split
      · nofun
      · have hm₁ : Ample 0 { m with cursor := c } := hm.after .read (read_of_next read)
        rw [bind_apply, discard_apply, read_of_next equals]
        apply (hv.run _ (hm₁.opened (.inr rfl) equals)).bind
        intro x m' _
        nofun
  | _ => nofun

section Levels

variable {deeper : Bindings → Eval Float}

theorem resolveGlobal {name : String} {m : Machine} (h : m.calculator.functionOf? name = none) :
    Unrefused (resolveGlobal deeper name m) := by
  rw [resolveGlobal_eq, globalWith, bind_apply, get_apply]
  dsimp only
  cases hf : m.calculator.functionOf? name with
  | some f =>
      rw [h] at hf
      cases hf
  | none =>
      simp only [bind_apply, get_apply]
      cases m.calculator.valueOf? name with
      | some x => exact .ok _ _
      | none => exact .ok _ _

theorem level (h : Unhindered 1 (deeper [])) (orderly : ∀ bindings, Orderly (deeper bindings))
    (n : Nat) : Unhindered 0 (level deeper n []) := by
  constructor
  · exact .level orderly n []
  · intro m hm
    rw [Eval.level, bind_apply, atAssignment_apply, resolve_nil]
    dsimp only
    split
    · exact assignment h hm ‹_›
    · exact (sum (operand h (.resolveGlobal orderly) resolveGlobal) n).run m hm

end Levels

theorem expression (n : Nat) : Unhindered 1 (expression n []) := by
  induction n with
  | zero => exact exhausted
  | succ n ih => exact nested (level ih (Orderly.expression n) n)

end Unhindered

end Eval

namespace Calculator

/-- A limit above the number of opening parentheses and equals signs in a line that calls no function
is not exceeded. -/
theorem evaluate_openings {c : Calculator} {text : String}
    (names : ∀ name, .identifier name ∈ Token.ofText text → c.functionOf? name = none)
    (h : Token.openings (Token.ofText text) < c.limit) (limit : Nat) :
    (c.evaluate text).outcome ≠ .error (.depthExceeded limit) := by
  intro refused
  cases ht : Token.ofText text with
  | nil =>
      rw [evaluate_eq, Eval.line_blank ht] at refused
      cases refused
  | cons first rest =>
      by_cases hf : first = .identifier Definition.keyword
      · subst hf
        cases refused_of_evaluate ht refused
      · have room : Eval.Ample 1 (c.reading text) := by
          constructor
          · exact names
          · show 0 + Token.openings (Token.ofText text) + 1 ≤ c.limit
            omega
        have unrefused := (Eval.Unhindered.expression (c.budget text)).run _ room
        cases e : Eval.expression (c.budget text) [] (c.reading text) with
        | ok x m =>
            rw [(evaluate_of_expression_ok ht hf e).1] at refused
            split at refused
            · cases refused
            · cases refused
        | error s m =>
            obtain ⟨fault, rfl, outcome, -⟩ := evaluate_of_expression_error ht hf e
            rw [outcome] at refused
            cases refused
            exact unrefused limit m e

/-- The line has five openings, all of which are nested, and closes no parenthesis.  With the limit six
it ends too early, and with the limit five it is nested too deeply. -/
theorem evaluate_openings_unclosed :
    let c := (empty 6).afterLines ["fn f a => a"]
    let text := "((a = (b = 1"
    (∀ name, .identifier name ∈ Token.ofText text → c.functionOf? name = none) ∧
    Token.openings (Token.ofText text) = 5 ∧ Token.openings (Token.ofText text) < c.limit ∧
    (∀ limit, (c.evaluate text).outcome ≠ .error (.depthExceeded limit)) ∧
    (c.evaluate text).outcome = .error .endOfInput ∧
    ((c.withLimit 5).evaluate text).outcome = .error (.depthExceeded 5) := by
  intro c text
  have tokens : Token.ofText text = [.leftParen, .leftParen, .identifier "a", .equals, .leftParen,
      .identifier "b", .equals, .number (.ofWhole "1")] := by decide +kernel
  have names : ∀ name, .identifier name ∈ Token.ofText text → c.functionOf? name = none := by
    intro name mem
    obtain rfl | rfl : name = "a" ∨ name = "b" := by simpa [tokens] using mem
    · decide +kernel
    · decide +kernel
  have five : Token.openings (Token.ofText text) = 5 := by decide +kernel
  have enough : Token.openings (Token.ofText text) < c.limit := by decide +kernel
  exact ⟨names, five, enough, evaluate_openings names enough, by decide +kernel, by decide +kernel⟩

end Calculator

end LineCalc
