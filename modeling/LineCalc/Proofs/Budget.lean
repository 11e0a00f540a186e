import LineCalc.Proofs.Lines
import LineCalc.Proofs.Following
import LineCalc.Proofs.NumberTexts

/-! # The budget suffices

No evaluation of a line stops because its budget is used up (`line_finished`).

* Each expression inside another one is one level deeper, and the limit bounds the levels.
* Each operator of a sum or a product is a token that has been read, and no level puts more tokens
  back than it reads.  So there are no more operators than tokens.
* The tokens that are read at any time are those of the line, of a stored body or of a number's text,
  and there is a common bound for their number. -/

namespace LineCalc

/-- Reading a token leaves one token less. -/
theorem Cursor.remaining_lt {c c' : Cursor} {t : Token} (h : c.next = .ok (some t, c')) :
    c'.remaining.length < c.remaining.length := by
  obtain ⟨before, _ | _ | ⟨u, after⟩⟩ := c <;> cases h
  show after.length < after.length + 1
  omega

namespace Eval

variable {α β : Type}

/-- The result is not that the budget was used up. -/
def Finished : EStateM.Result Stop Machine α → Prop
  | .error .exhausted _ => False
  | _ => True

/-- At most `k` tokens are left to read, here and in every body, and at most `d` levels. -/
structure Room (k d : Nat) (m : Machine) : Prop where
  remaining : m.cursor.remaining.length ≤ k
  bodies : ∀ {name f}, m.calculator.functionOf? name = some f →
    (Token.ofText f.joined).length ≤ k
  levels : m.calculator.limit ≤ m.depth + d

/-- What moves forward leaves no more to read. -/
theorem Orderly.remaining_le {x : Eval α} (h : Orderly x) {m m' : Machine} {a : α}
    (e : x m = .ok a m') : m'.cursor.remaining.length ≤ m.cursor.remaining.length := by
  have hp := (h m).forward e
  rw [Cursor.length_remaining, Cursor.length_remaining, ((h m).effect_of_ok e).tokens]
  omega

theorem Room.after {k d : Nat} {x : Eval α} {m m' : Machine} {a : α} (hm : Room k d m)
    (h : Orderly x) (e : x m = .ok a m') : Room k d m' := by
  have effect := (h m).effect_of_ok e
  constructor
  · have h₁ := h.remaining_le e
    have h₂ := hm.remaining
    omega
  · intro name f hf
    rw [effect.functionOf?] at hf
    exact hm.bodies hf
  · rw [effect.limit, effect.depth]
    exact hm.levels

theorem Finished.bind {x : Eval α} {f : α → Eval β} {m : Machine} (hx : Finished (x m))
    (hf : ∀ a m', x m = .ok a m' → Finished (f a m')) : Finished ((x >>= f) m) := by
  rw [bind_apply]
  cases e : x m with
  | ok a m' => exact hf a m' e
  | error s m' =>
      rw [e] at hx
      cases s with
      | fault fault => trivial
      | exhausted => exact hx

/-- Where there is room, the evaluation finishes and leaves the room. -/
def Completes (k d : Nat) (x : Eval α) : Prop :=
  ∀ m, Room k d m → Finished (x m) ∧ ∀ a m', x m = .ok a m' → Room k d m'

namespace Completes

variable {k d : Nat}

theorem of_orderly {x : Eval α} (h : Orderly x) (finished : ∀ m, Room k d m → Finished (x m)) :
    Completes k d x :=
  fun m hm => ⟨finished m hm, fun _ _ e => hm.after h e⟩

theorem bind {x : Eval α} {f : α → Eval β} (hx : Completes k d x)
    (hf : ∀ a, Completes k d (f a)) : Completes k d (x >>= f) := by
  intro m hm
  obtain ⟨finished, room⟩ := hx m hm
  constructor
  · exact finished.bind fun a m' e => (hf a m' (room a m' e)).1
  · intro b m₂ e
    obtain ⟨a, m₁, e₁, e₂⟩ := of_bind_eq_ok e
    exact (hf a m₁ (room a m₁ e₁)).2 b m₂ e₂

theorem pure (a : α) : Completes k d (pure a : Eval α) := of_orderly (.pure a) fun _ _ => trivial

theorem fail (fault : Fault) : Completes k d (fail fault : Eval α) :=
  of_orderly (.fail fault) fun _ _ => trivial

theorem look (f : Machine → α) : Completes k d (look f) := of_orderly (.look f) fun _ _ => trivial

theorem read : Completes k d read := by
  apply of_orderly .read
  intro m hm
  cases h : m.cursor.next with
  | error fault => rw [read_of_error h]; trivial
  | ok next => rw [read_of_next h]; trivial

theorem peek : Completes k d peek := by
  apply of_orderly .peek
  intro m hm
  cases h : m.cursor.next with
  | error fault => rw [peek_of_error h]; trivial
  | ok next => rw [peek_of_next h]; trivial

theorem assign (name : String) (x : Float) : Completes k d (assign name x) := by
  intro m hm
  refine ⟨trivial, fun _ m' e => ?_⟩
  cases e
  exact ⟨hm.remaining, hm.bodies, hm.levels⟩

theorem onMachine {r : EStateM.Result Stop Machine α} (h : Finished r) (f : Machine → Machine) :
    Finished (Eval.onMachine f r) := by
  rcases r with _ | ⟨_ | _, _⟩ <;> exact h

/-- At the limit nothing is evaluated. -/
theorem nested_zero (x : Eval α) : Completes k 0 (nested x) := by
  intro m hm
  have hd : ¬ m.depth < m.calculator.limit := Nat.not_lt.mpr hm.levels
  rw [nested_of_ge x hd]
  exact ⟨trivial, fun _ _ e => by cases e⟩

theorem nested {x : Eval α} (h : Completes k d x) : Completes k (d + 1) (nested x) := by
  intro m hm
  have levels := hm.levels
  have room : Room k d { m with depth := m.depth + 1 } :=
    ⟨hm.remaining, hm.bodies, by show m.calculator.limit ≤ m.depth + 1 + d; omega⟩
  obtain ⟨finished, left⟩ := h _ room
  constructor
  · by_cases hd : m.depth < m.calculator.limit
    · rw [nested_of_lt x hd]
      exact onMachine finished _
    · rw [nested_of_ge x hd]
      trivial
  · intro a m' e
    obtain ⟨-, m₁, e₁, rfl⟩ := of_nested_eq_ok e
    obtain ⟨remaining, bodies, levels⟩ := left a m₁ e₁
    exact ⟨remaining, bodies, by show m₁.calculator.limit ≤ m₁.depth - 1 + (d + 1); omega⟩

theorem within {x : Eval α} (h : Completes k d x) {tokens : List Token} (ht : tokens.length ≤ k) :
    Completes k d (within tokens x) := by
  intro m hm
  obtain ⟨finished, left⟩ := h { m with cursor := .ofTokens tokens } ⟨ht, hm.bodies, hm.levels⟩
  rw [within_apply]
  refine ⟨onMachine finished _, fun a m' e => ?_⟩
  obtain ⟨m₁, e₁, rfl⟩ := of_onMachine_ok e
  obtain ⟨-, bodies, levels⟩ := left a m₁ e₁
  exact ⟨hm.remaining, bodies, levels⟩

/-- Reading a text of its own. -/
theorem announced {x : Eval α} (h : Completes k d x) (r : Record) {text : String}
    (ht : (Token.ofText text).length ≤ k) :
    Completes k d (do note r; let tokens ← lex text; Eval.within tokens x) := by
  intro m hm
  exact h.within ht ((m.note r).note (.lexed text _)) ⟨hm.remaining, hm.bodies, hm.levels⟩

/-! ### The levels of the grammar -/

theorem tokenCongruence : TokenCongruence (Both fun {_} => Completes k d) :=
  Both.tokenCongruence (Both.congruence pure bind (fun _ => fail _) read) peek (look _)

/-- There is room for all stored bodies, and for the texts of numbers. -/
theorem nameCongruence (hk : 2 ≤ k) :
    NameCongruence (fun _ f => (Token.ofText f.joined).length ≤ k) (Both fun {_} => Completes k d) :=
  Both.nameCongruence tokenCongruence.toCongruence
    (fun h m hm => h (m.calculator.functionOf? _) (fun _ hf => hm.bodies hf) m hm) (fun _ => look _)
    (fun hf h _ => h.announced _ hf)
    fun h x => h.announced _ (Nat.le_trans (Number.length_ofText_text x) hk)

theorem toNumber (v : Value) : Completes k d (ofExcept v.toNumber) := (tokenCongruence.toNumber v).1

theorem assignment {value : Eval Float} (h : Completes k d value) :
    Completes k d (assignment value) :=
  (tokenCongruence.assignment (fun _ => ⟨look _, look _⟩) (fun name x => ⟨assign name x, assign name x⟩)
    ⟨h, h⟩).1

/-! A product or a sum has no more operators than there are tokens left. -/

/-- Going on after an operator has been read. -/
theorem after_operator {rest : Eval α} (hr : Completes k d rest) (ho : Orderly rest) {m : Machine}
    (hm : Room k d m) {t : Token} {c : Cursor} (h : m.cursor.next = .ok (some t, c)) {f : α → Eval β}
    (hf : ∀ a m', Room k d m' → m'.cursor.remaining.length < m.cursor.remaining.length →
      Finished (f a m')) :
    Finished ((do Functor.discard Eval.read; let a ← rest; f a : Eval β) m) := by
  have hc := Cursor.remaining_lt h
  have hk : c.remaining.length ≤ k := by
    have := hm.remaining
    omega
  obtain ⟨finished, left⟩ := hr { m with cursor := c } ⟨hk, hm.bodies, hm.levels⟩
  rw [bind_apply, discard_apply, read_of_next h]
  apply finished.bind
  intro a m' e
  apply hf a m' (left a m' e)
  have hle : m'.cursor.remaining.length ≤ c.remaining.length := ho.remaining_le e
  omega

theorem productFrom {operand : Eval Value} (h : Completes k d operand) (ho : Orderly operand) {n : Nat}
    {m : Machine} (hm : Room k d m) (hn : m.cursor.remaining.length < n) (x : Value) :
    Finished (productFrom operand n x m) := by
  induction n generalizing m x with
  | zero => omega
  | succ n ih =>
      rw [productFrom_succ, bind_apply]
      cases e : m.cursor.next with
      | error fault => rw [peek_of_error e]; trivial
      | ok next =>
          obtain ⟨_ | t, c⟩ := next
          · rw [peek_of_next e]
            trivial
          · rw [peek_of_next e]
            simp only [Option.bind_some]
            cases ProductOperator.ofToken? t with
            | none => trivial
            | some op =>
                apply after_operator h ho hm e
                intro y m₁ hm₁ hl
                apply (toNumber x m₁ hm₁).1.bind
                intro x m₂ e₂
                have hm₂ := (toNumber _ m₁ hm₁).2 x m₂ e₂
                apply (toNumber y m₂ hm₂).1.bind
                intro y m₃ e₃
                have hm₃ := (toNumber _ m₂ hm₂).2 y m₃ e₃
                have l₂ := (Orderly.ofExcept _).remaining_le e₂
                have l₃ := (Orderly.ofExcept _).remaining_le e₃
                exact ih hm₃ (by omega) _

theorem product {operand : Eval Value} (h : Completes k d operand) (ho : Orderly operand) {n : Nat}
    (hn : k < n) : Completes k d (product operand n) := by
  apply of_orderly (ho.product n)
  intro m hm
  obtain ⟨finished, left⟩ := h m hm
  apply finished.bind
  intro x m₁ e₁
  have hm₁ := left x m₁ e₁
  have hl := hm₁.remaining
  apply (productFrom h ho hm₁ (by omega) x).bind
  intro y m₂ e₂
  exact (toNumber y m₂ (hm₁.after (ho.productFrom n x) e₂)).1

theorem sumFrom {product : Eval Float} (h : Completes k d product) (ho : Orderly product) {n : Nat}
    {m : Machine} (hm : Room k d m) (hn : m.cursor.remaining.length < n) (x : Float) :
    Finished (sumFrom product n x m) := by
  induction n generalizing m x with
  | zero => omega
  | succ n ih =>
      rw [sumFrom_succ, bind_apply]
      cases e : m.cursor.next with
      | error fault => rw [peek_of_error e]; trivial
      | ok next =>
          obtain ⟨_ | t, c⟩ := next
          · rw [peek_of_next e]
            trivial
          · rw [peek_of_next e]
            have next (y : Float) {m' : Machine} (hm' : Room k d m')
                (hl : m'.cursor.remaining.length < m.cursor.remaining.length) :
                Finished (Eval.sumFrom product n y m') := ih hm' (by omega) y
            cases t with
            | plus => exact after_operator h ho hm e fun y m' hm' hl => next _ hm' hl
            | minus => exact after_operator h ho hm e fun y m' hm' hl => next _ hm' hl
            | _ => trivial

theorem sum {product : Eval Float} (h : Completes k d product) (ho : Orderly product) {n : Nat}
    (hn : k < n) : Completes k d (sum product n) := by
  apply of_orderly (ho.sum n)
  intro m hm
  obtain ⟨finished, left⟩ := h m hm
  apply finished.bind
  intro x m₁ e₁
  have hm₁ := left x m₁ e₁
  have hl := hm₁.remaining
  exact sumFrom h ho hm₁ (by omega) x

section Levels

variable (hk : 2 ≤ k) {deeper : Bindings → Eval Float} (h : ∀ bindings, Completes k d (deeper bindings))
include hk h

theorem resolveGlobal (name : String) : Completes k d (resolveGlobal deeper name) :=
  ((nameCongruence hk).resolveGlobal (fun bindings => ⟨h bindings, h bindings⟩) name).1

theorem operand (bindings : Bindings) :
    Completes k d (operand (deeper bindings) (resolve deeper bindings)) := by
  have related (bindings : Bindings) :
      Both (fun {_} => Completes k d) (deeper bindings) (deeper bindings) := ⟨h bindings, h bindings⟩
  have global := (nameCongruence hk).resolveGlobal related
  have reread (x : Float) := (nameCongruence hk).number (tokenCongruence.operand (related []) global) x
  exact (tokenCongruence.operand (related bindings)
    ((nameCongruence hk).resolveWith reread global bindings)).1

theorem level (ho : ∀ bindings, Orderly (deeper bindings)) {n : Nat} (hn : k < n) (bindings : Bindings) :
    Completes k d (level deeper n bindings) := by
  have orderly : Orderly (Eval.operand (deeper bindings) (Eval.resolve deeper bindings)) :=
    .operand (ho bindings) (.resolve ho bindings)
  rw [level_eq, levelWith, atAssignment_eq]
  apply (look _).bind
  intro isAssignment
  split
  · exact assignment (h [])
  · exact sum (product (operand hk h bindings) orderly hn) (orderly.product n) hn

end Levels

/-- A budget above the levels and tokens that there can be. -/
theorem expression (hk : 2 ≤ k) {n : Nat} (hn : d + k < n) (bindings : Bindings) :
    Completes k d (expression n bindings) := by
  induction d generalizing n bindings with
  | zero =>
      obtain ⟨n, rfl⟩ : ∃ j, n = j + 1 := ⟨n - 1, by omega⟩
      exact nested_zero (Eval.level (Eval.expression n) n bindings)
  | succ d ih =>
      obtain ⟨n, rfl⟩ : ∃ j, n = j + 1 := ⟨n - 1, by omega⟩
      exact nested (level hk (fun bindings => ih (by omega) bindings) (Orderly.expression n) (by omega)
        bindings)

theorem wholeExpression (hk : 2 ≤ k) {n : Nat} (hn : d + k < n) (text : String) :
    Completes k d (wholeExpression text n) := by
  apply (expression hk hn []).bind
  intro x
  apply (look id).bind
  intro m
  split
  · exact pure x
  · exact fail _

end Completes

end Eval

/-- What is reported of a result, unless the budget was used up. -/
def Report.ofFinished? (limit : Nat) : EStateM.Result Stop Machine (Option Float) → Option Report
  | .error .exhausted _ => none
  | r => some (.ofResult limit r)

theorem Report.ofFinished?_of_finished (limit : Nat)
    {r : EStateM.Result Stop Machine (Option Float)} (h : Eval.Finished r) :
    ofFinished? limit r = some (.ofResult limit r) := by
  cases r with
  | ok value m => rfl
  | error s m =>
      cases s with
      | fault fault => rfl
      | exhausted => exact absurd h id

/-- Where an evaluation finishes, one that follows it does so too, and the same outcome is reported. -/
theorem Eval.Agree.of_finished {names : String → Prop} {S : Machine → Machine → Prop}
    {r r' : EStateM.Result Stop Machine (Option Float)} (h : Agree names S (· = .exhausted) r r')
    (finished : Finished r) (limit : Nat) :
    Finished r' ∧ Beside names S (machineOf r) (machineOf r') ∧
      (Report.ofResult limit r').outcome = (Report.ofResult limit r).outcome := by
  cases h with
  | ok beside => exact ⟨trivial, beside, rfl⟩
  | @error s m m' beside =>
      cases s with
      | fault fault => exact ⟨trivial, beside, rfl⟩
      | exhausted => exact absurd finished id
  | cut hs _ =>
      subst hs
      exact absurd finished id

namespace Calculator

theorem length_joined_le {c : Calculator} {name : String} {f : Definition}
    (h : c.functionOf? name = some f) : f.joined.length ≤ c.bodyLength := by
  have stored : (name, f) ∈ c.functionTable.toList :=
    Std.ExtTreeMap.mem_toList_iff_getElem?_eq_some.mpr h
  have sum : c.bodyLength = (c.functionTable.toList.map fun e => e.2.joined.length).sum := by
    unfold bodyLength
    rw [Std.ExtTreeMap.foldl_eq_foldl_toList, List.sum_eq_foldl_nat, List.foldl_map]
  rw [sum]
  apply List.le_sum_of_mem
  exact List.mem_map.mpr ⟨(name, f), stored, rfl⟩

/-- The evaluation of a line never stops because its budget is used up. -/
theorem line_finished (c : Calculator) (text : String) :
    Eval.Finished (Eval.line text (c.budget text) (.start c)) := by
  cases ht : Token.ofText text with
  | nil =>
      rw [Eval.line_blank ht]
      trivial
  | cons first rest =>
      by_cases hf : first = .identifier Definition.keyword
      · subst hf
        cases hd : Definition.ofTokens c.variableTable.contains rest with
        | error fault =>
            rw [Eval.line_definition_error (m := .start c) ht hd]
            trivial
        | ok result =>
            rw [Eval.line_definition (m := .start c) ht hd]
            trivial
      · -- a bound for the tokens of the line, of the bodies and of number texts
        let k := text.length + c.bodyLength + 2
        have hk : c.limit + k < c.budget text := by
          show c.limit + (text.length + c.bodyLength + 2) < c.limit + text.length + c.bodyLength + 4
          omega
        have hl : (first :: rest).length ≤ k := by
          have := Token.length_ofText_le text
          rw [ht] at this
          omega
        have room : Eval.Room k c.limit ((Machine.start c).note (.lexed text (rest.length + 1))) := by
          refine ⟨Nat.zero_le k, fun {name f} h => ?_, Nat.le_add_left _ _⟩
          have h1 := Token.length_ofText_le f.joined
          have h2 : f.joined.length ≤ c.bodyLength := length_joined_le h
          omega
        rw [Eval.line_expression ht hf]
        have whole := Eval.Completes.wholeExpression (k := k) (Nat.le_add_left _ _) hk text
        exact (((whole.within hl).bind fun x => Eval.Completes.pure (some x)) _ room).1

/-! ### What a line gives is what its expression gives -/

/-- The machine that is about to read a line. -/
def reading (c : Calculator) (text : String) : Machine :=
  { (Machine.start c).note (.lexed text (Token.ofText text).length) with
    cursor := .ofTokens (Token.ofText text) }

section Expression

variable {c : Calculator} {text : String} {first : Token} {rest : List Token}

theorem line_reading (ht : Token.ofText text = first :: rest)
    (hf : first ≠ .identifier Definition.keyword) :
    Eval.line text (c.budget text) (.start c) =
      match Eval.wholeExpression text (c.budget text) (c.reading text) with
      | .ok x m => .ok (some x) { m with cursor := .ofTokens [] }
      | .error s m => .error s { m with cursor := .ofTokens [] } := by
  rw [Eval.line_expression ht hf, Eval.bind_apply, Eval.within_apply, reading, ht]
  cases Eval.wholeExpression text (c.budget text) _ <;> rfl

/-- A line whose expression gives a value gives the value, unless tokens are left over. -/
theorem evaluate_of_expression_ok (ht : Token.ofText text = first :: rest)
    (hf : first ≠ .identifier Definition.keyword) {x : Float} {m : Machine}
    (h : Eval.expression (c.budget text) [] (c.reading text) = .ok x m) :
    (c.evaluate text).outcome =
      (if m.cursor.remainingCount = 0 then .ok (some x) else .error (.trailingTokens text)) ∧
    (c.evaluate text).calculator = m.calculator := by
  rw [evaluate_eq, line_reading ht hf, Eval.wholeExpression, Eval.bind_apply, h]
  simp only [Eval.bind_apply, Eval.get_apply]
  by_cases whole : m.cursor.remainingCount = 0
  · rw [if_pos whole, if_pos whole]
    exact ⟨rfl, rfl⟩
  · rw [if_neg whole, if_neg whole]
    exact ⟨rfl, rfl⟩

/-- A line whose expression fails fails with the same fault. -/
theorem evaluate_of_expression_error (ht : Token.ofText text = first :: rest)
    (hf : first ≠ .identifier Definition.keyword) {s : Stop} {m : Machine}
    (h : Eval.expression (c.budget text) [] (c.reading text) = .error s m) :
    ∃ fault, s = .fault fault ∧ (c.evaluate text).outcome = .error fault ∧
      (c.evaluate text).calculator = m.calculator := by
  have finished := line_finished c text
  rw [line_reading ht hf, Eval.wholeExpression, Eval.bind_apply, h] at finished
  cases s with
  | exhausted => exact absurd finished id
  | fault fault =>
      refine ⟨fault, rfl, ?_⟩
      rw [evaluate_eq, line_reading ht hf, Eval.wholeExpression, Eval.bind_apply, h]
      exact ⟨rfl, rfl⟩

end Expression

end Calculator

end LineCalc
