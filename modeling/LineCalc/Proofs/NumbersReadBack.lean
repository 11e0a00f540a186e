import LineCalc.Proofs.Budget
import LineCalc.Proofs.TreeValues

/-! # Numbers are read back from their texts

The value of a parameter is written out and read again, and a user may enter an answer once more.

* The text of a finite number is read as the number, down to the sign of zero.  It has no name in it, so
  nothing that is remembered plays a part.
* What is not finite is written as a name, and the name is looked up as any other, by itself: a function
  of this name finds no arguments after it (`Number.text_reads_back`).

In the second case the name has been read from a row of tokens, perhaps after a minus sign.  Where the
cursor stands makes no difference as long as nothing is left to read: the evaluations go side by side
(`Follows`), and what they leave is the same once the cursor has been put back. -/

namespace LineCalc

namespace Number

/-- The name as which a number is written that is not finite. -/
def name? (x : Float) : Option String :=
  match Shape.ofFloat x with
  | .finite _ _ => none
  | .infinite _ => some "inf"
  | .nan => some "NaN"

/-- A token, after a minus sign or by itself. -/
def withSign (negative : Bool) (t : Token) : List Token := if negative then [.minus, t] else [t]

/-- The numeral of a number's text, with the sign, is the number. -/
theorem value_withSign {x : Float} {negative : Bool} {p : Nat}
    (h : Shape.ofFloat x = .finite negative p) :
    (if negative then -(numeral p).value else (numeral p).value) = x := by
  have hp := pattern_lt_of_shape h
  rw [value_numeral hp, neg_ofPattern false hp, ← ofPattern_of_shape h]
  cases negative <;> rfl

theorem ofText_named {x : Float} {name : String} (h : name? x = some name) :
    ∃ negative, Token.ofText (text x) = withSign negative (.identifier name) := by
  unfold name? at h
  split at h
  · cases h
  · cases h
    exact ⟨_, ofText_infinite ‹_›⟩
  · cases h
    exact ⟨false, ofText_nan ‹_›⟩

end Number

/-- The machine when the text of a number has been cut into tokens, to be read again. -/
def Machine.rereading (m : Machine) (x : Float) : Machine :=
  (m.note (.reread (Number.text x))).note
    (.lexed (Number.text x) (Token.ofText (Number.text x)).length)

namespace Eval

open Number (withSign)

/-! ### Reading the text of a number -/

/-- The cursor is put back where it was. -/
def restore {α : Type} (c : Cursor) : EStateM.Result Stop Machine α → EStateM.Result Stop Machine α :=
  onMachine fun m => { m with cursor := c }

theorem reread_apply (deeper : Bindings → Eval Float) (x : Float) (m : Machine) :
    reread deeper x m = restore m.cursor (operand (deeper []) (resolveGlobal deeper)
      { m.rereading x with cursor := .ofTokens (Token.ofText (Number.text x)) }) := rfl

/-- The cursor after the only token of a row, with or without a sign before it. -/
def afterOnly (negative : Bool) (t : Token) : Cursor := ⟨(withSign negative t).reverse, some []⟩

section Operand

variable (group : Eval Float) (resolve : String → Eval Value) (negative : Bool) (m : Machine)

theorem operand_number_apply (l : Numeral) :
    operand group resolve { m with cursor := .ofTokens (withSign negative (.number l)) } =
      .ok (.number (if negative then -l.value else l.value))
        { m with cursor := afterOnly negative (.number l) } := by
  cases negative <;> rfl

theorem operand_name_apply (name : String) :
    operand group resolve { m with cursor := .ofTokens (withSign negative (.identifier name)) } =
      resolve name { m with cursor := afterOnly negative (.identifier name) } := by
  cases negative <;> rfl

end Operand

/-- The text of a finite number is read as the number, and nothing else happens. -/
theorem reread_finite (deeper : Bindings → Eval Float) {x : Float} (hx : Number.IsFinite x)
    (m : Machine) : reread deeper x m = .ok (.number x) (m.rereading x) := by
  obtain ⟨negative, p, shape⟩ := hx
  have tokens : Token.ofText (Number.text x) = withSign negative (.number (Number.numeral p)) :=
    Number.ofText_finite shape
  rw [reread_apply, tokens, operand_number_apply, Number.value_withSign shape]
  rfl

/-! ### Names, wherever the cursor stands -/

/-- Machines that differ in their cursors only. -/
structure Elsewhere (m m' : Machine) : Prop where
  calculator : m'.calculator = m.calculator
  depth : m'.depth = m.depth
  trace : m'.trace = m.trace

theorem Elsewhere.restored {m m' : Machine} (h : Elsewhere m m') (c : Cursor) :
    { m' with cursor := c } = { m with cursor := c } := by
  obtain ⟨calculator, depth, cursor, trace⟩ := m
  obtain ⟨rfl, rfl, rfl⟩ := h
  rfl

theorem lawful_elsewhere : Lawful AnyName Elsewhere (· = .exhausted) where
  exhausted := rfl
  assignments h := by rw [h.trace]
  valueOf? h _ := by rw [h.calculator]
  functionOf? h _ := by rw [h.calculator]
  body _ _ _ _ _ := trivial
  number _ _ _ := trivial
  moved h _ _ := ⟨h.calculator, h.depth, h.trace⟩
  noted {_ _ r} h _ := ⟨h.calculator, h.depth, congrArg (·.push r) h.trace⟩
  assigned {_ _ name} h _ x := ⟨congrArg (·.assign name x) h.calculator, h.depth,
    congrArg (·.push (.assigned name x)) h.trace⟩
  entered {m m'} h hd := by
    have hd' : m'.depth < m'.calculator.limit := by
      rw [h.calculator, h.depth]
      exact hd
    exact ⟨hd', h.calculator, congrArg (· + 1) h.depth, h.trace⟩
  left h := ⟨h.calculator, congrArg (· - 1) h.depth, h.trace⟩
  refused h hd := by
    right
    rw [h.calculator, h.depth]
    exact ⟨hd, rfl⟩

/-- Where the same is left to read, an evaluation that finishes does the same. -/
theorem Follows.restore_eq {α : Type} {x : Eval α}
    (h : Follows AnyName Elsewhere (· = .exhausted) x x) {m : Machine} {c c' : Cursor}
    (same : c'.after? = c.after?) (finished : Finished (x { m with cursor := c })) (back : Cursor) :
    restore back (x { m with cursor := c' }) = restore back (x { m with cursor := c }) := by
  have beside : Beside AnyName Elsewhere { m with cursor := c } { m with cursor := c' } :=
    .of_after? ⟨rfl, rfl, rfl⟩ same
  have agree := h.run beside
  generalize x { m with cursor := c } = r at agree finished
  generalize x { m with cursor := c' } = r' at agree
  cases agree with
  | ok beside => exact congrArg (EStateM.Result.ok _) (beside.rest.restored back)
  | error beside => exact congrArg (EStateM.Result.error _) (beside.rest.restored back)
  | cut hs _ =>
      subst hs
      exact absurd finished id

/-- With nothing left to read, a name can be looked up within the budget of an empty line. -/
theorem finished_resolveGlobal {n : Nat} {m : Machine} (hn : m.calculator.budget "" ≤ n)
    (hm : m.cursor.after? = some []) (name : String) :
    Finished (resolveGlobal (expression n) name m) := by
  have hn' : m.calculator.limit + (m.calculator.bodyLength + 2) < n := by
    have h : m.calculator.limit + 0 + m.calculator.bodyLength + 4 ≤ n := hn
    omega
  have room : Room (m.calculator.bodyLength + 2) m.calculator.limit m := by
    refine ⟨?_, fun {name f} stored => ?_, Nat.le_add_left _ _⟩
    · rw [Cursor.remaining, hm]
      exact Nat.zero_le _
    · have tokens := Token.length_ofText_le f.joined
      have length := Calculator.length_joined_le stored
      omega
  have hk := Nat.le_add_left 2 m.calculator.bodyLength
  exact (Completes.resolveGlobal hk (Completes.expression hk hn') name m room).1

/-- What is not finite is looked up by its name, with nothing left to read. -/
theorem reread_named {x : Float} {name : String} (hx : Number.name? x = some name) {n : Nat}
    {m : Machine} (hn : m.calculator.budget "" ≤ n) {c : Cursor} (hc : c.after? = some []) :
    reread (expression n) x m =
      restore m.cursor (resolve (expression n) [] name { m.rereading x with cursor := c }) := by
  obtain ⟨negative, tokens⟩ := Number.ofText_named hx
  have follows : Follows AnyName Elsewhere (· = .exhausted) (resolveGlobal (expression n) name)
      (resolveGlobal (expression n) name) :=
    Follows.resolveGlobal lawful_elsewhere (Follows.expression lawful_elsewhere (Nat.le_refl n))
      trivial (Orderly.expression n)
  have finished : Finished (resolveGlobal (expression n) name { m.rereading x with cursor := c }) :=
    finished_resolveGlobal (m := { m.rereading x with cursor := c }) hn hc name
  rw [reread_apply, tokens, operand_name_apply, resolve_nil]
  exact follows.restore_eq hc.symm finished m.cursor

end Eval

/-! ### Lines -/

namespace Number

/-- The text of a finite number as a printing of a literal. -/
def printing (negative : Bool) (p : Nat) : Printing :=
  let l : Literal := ⟨numeral p, Decimal.wellFormed_numeral _⟩
  if negative then .negated l else .literal l

section Printing

variable (negative : Bool) (p : Nat)

theorem tokens_printing : (printing negative p).tokens = withSign negative (.number (numeral p)) := by
  cases negative <;> rfl

theorem adequate_printing : (printing negative p).Adequate := by
  cases negative <;> trivial

theorem names_printing : (printing negative p).tree.names = [] := by
  cases negative <;> rfl

theorem nesting_printing : (printing negative p).nesting = 0 := by
  cases negative <;> rfl

theorem value_printing {x : Float} (h : Shape.ofFloat x = .finite negative p)
    (valueOf : String → Float) : (printing negative p).tree.value valueOf = x := by
  rw [← value_withSign h]
  cases negative <;> rfl

end Printing

end Number

namespace Calculator

open Number

/-- A line that is the text of a number gives the number. -/
theorem evaluate_text {c : Calculator} (hl : 0 < c.limit) {x : Float} (hx : IsFinite x) :
    (c.evaluate (text x)).outcome = .ok (some x) ∧ (c.evaluate (text x)).calculator = c := by
  obtain ⟨negative, p, shape⟩ := hx
  have tokens : Token.ofText (text x) = (printing negative p).tokens := by
    rw [tokens_printing]
    exact ofText_finite shape
  have resolves : Eval.Resolves [] c (fun _ => 0) (printing negative p).tree.names := by
    intro name mem
    rw [names_printing] at mem
    cases mem
  have levels : 0 + (printing negative p).nesting < c.limit := by
    rw [nesting_printing]
    exact hl
  have length : (printing negative p).tokens.length < c.budget (text x) := by
    have := Token.length_ofText_le (text x)
    rw [tokens] at this
    unfold budget
    omega
  have after? : (c.reading (text x)).cursor.after? = some ((printing negative p).tokens ++ []) := by
    rw [← tokens, List.append_nil]
    rfl
  have reads := (Eval.reads_of_adequate _ (adequate_printing negative p) resolves).sum
  obtain ⟨m, read, e⟩ := reads.whole (m := c.reading (text x)) rfl after? length levels (by simp)
  rw [value_printing negative p shape] at e
  obtain ⟨first, rest, ht, hf⟩ : ∃ first rest, Token.ofText (text x) = first :: rest ∧
      first ≠ .identifier Definition.keyword := by
    rw [tokens, tokens_printing]
    cases negative <;> exact ⟨_, _, rfl, Token.noConfusion⟩
  obtain ⟨outcome, calculator⟩ := evaluate_of_expression_ok ht hf e
  have whole : m.cursor.remainingCount = 0 := by simp [Cursor.remainingCount, read.after?]
  rw [outcome, if_pos whole, calculator]
  exact ⟨rfl, read.calculator⟩

end Calculator

namespace Number

/-- A number that is not finite has a name. -/
theorem isFinite_or_named (x : Float) : IsFinite x ∨ ∃ name, name? x = some name := by
  unfold IsFinite name?
  cases h : Shape.ofFloat x with
  | finite negative p => exact .inl ⟨negative, p, rfl⟩
  | infinite negative => exact .inr ⟨"inf", rfl⟩
  | nan => exact .inr ⟨"NaN", rfl⟩

/-- **Numbers are read back from their texts.**  A number is finite or has a name.

The text of a finite number is read as just this number, wherever and with whatever the value of a
parameter is read again, and by any calculator as a line, if it may evaluate at all.  Nothing changes.

To read the text of another number again is to look its name up where there are no parameters and nothing
is left to read: the result is the same, and so is all that is done, after the two records of the
reading itself. -/
theorem text_reads_back (x : Float) :
    (IsFinite x ∨ ∃ name, name? x = some name) ∧
    (IsFinite x →
      (∀ (n : Nat) (m : Machine),
        Eval.reread (Eval.expression n) x m = .ok (.number x) (m.rereading x)) ∧
      ∀ c : Calculator, 0 < c.limit →
        (c.evaluate (Outcome.text (.ok (some x)))).outcome = .ok (some x) ∧
        (c.evaluate (Outcome.text (.ok (some x)))).calculator = c) ∧
    ∀ name, name? x = some name → ∀ (n : Nat) (m : Machine) (cursor : Cursor),
      m.calculator.budget "" ≤ n → cursor.after? = some [] →
      Eval.reread (Eval.expression n) x m = Eval.restore m.cursor
        (Eval.resolve (Eval.expression n) [] name { m.rereading x with cursor := cursor }) := by
  refine ⟨isFinite_or_named x, fun hx => ⟨fun n m => ?_, fun c hl => ?_⟩, ?_⟩
  · exact Eval.reread_finite (Eval.expression n) hx m
  · exact Calculator.evaluate_text hl hx
  · intro name hx n m cursor hn hc
    exact Eval.reread_named hx hn hc

/-- The negative number next to zero, the text of which has more than three hundred digits, and the
negative infinity where `inf` is a variable. -/
theorem text_reads_back_extreme :
    let least := ofPattern true 1
    let m := Machine.start ((Calculator.empty 9).afterLines ["inf = 7"])
    let n := m.calculator.budget ""
    IsFinite least ∧
    Eval.reread (Eval.expression n) least m = .ok (.number least) (m.rereading least) ∧
    ((Calculator.empty 1).evaluate (Outcome.text (.ok (some least)))).outcome = .ok (some least) ∧
    name? (infinity true) = some "inf" ∧
    Eval.reread (Eval.expression n) (infinity true) m = Eval.restore m.cursor
      (Eval.resolve (Eval.expression n) [] "inf"
        { m.rereading (infinity true) with cursor := .ofTokens [] }) := by
  intro least m n
  have finite : IsFinite least := by decide +kernel
  have named : name? (infinity true) = some "inf" := by decide +kernel
  obtain ⟨-, exact', -⟩ := text_reads_back least
  obtain ⟨again, lines⟩ := exact' finite
  obtain ⟨-, -, byName⟩ := text_reads_back (infinity true)
  exact ⟨finite, again n m, (lines (.empty 1) (by decide)).1, named,
    byName "inf" named n m (.ofTokens []) (Nat.le_refl n) rfl⟩

end Number

end LineCalc
