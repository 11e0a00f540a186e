import LineCalc.Proofs.Bodies
import LineCalc.Proofs.Lexing

/-! # Which rows of tokens come back from their joined text

A token is *canonical* if its text is read as just this token.  The canonical tokens are the
well-formed ones, so those of texts and of stored bodies are.

A row of canonical tokens comes back from its joined text exactly if no two neighbours are glued
(`ofText_joinedText_iff`).  That it comes back then is `ofText_of_spaced`.  It does not come back
otherwise, because a text without blanks never has glued neighbours (`isChain_ofText`): each of the
forms of `glued` would have been read on as one token, or as other ones.

The reader keeps to this with every character (`Scan.Chained.step`).  What it holds between two
characters is still to become tokens, and the first of these must not be glued to the last complete
token (`Piece.Follows`); a point that goes on with no stray run may become a stray or begin a numeral,
and neither may be glued to it. -/

namespace LineCalc

namespace Token

/-! ### Canonical tokens -/

/-- The text of the token is read as just this token. -/
def Canonical (t : Token) : Prop := ofText t.text = [t]

instance : DecidablePred Canonical := fun t => inferInstanceAs (Decidable (ofText t.text = [t]))

theorem canonical_iff {t : Token} : t.Canonical ↔ t.WellFormed := by
  constructor
  · intro h
    have mem : t ∈ ofText t.text := by
      rw [h]
      exact List.mem_singleton_self t
    exact ofText_wellFormed t.text t mem
  · intro h
    have spaced := spaced_joinedText [t]
    rw [toList_joinedText, chars_cons, chars_nil, List.append_nil] at spaced
    exact ofText_of_spaced (by simpa using h) (List.isChain_singleton t) spaced

/-- The text of a token has no blanks. -/
theorem WellFormed.not_isBlank {t : Token} (h : t.WellFormed) :
    ∀ c ∈ t.text.toList, isBlank c = false := by
  have read := chars_ofText t.text
  rw [canonical_iff.mpr h, chars_cons, chars_nil, List.append_nil] at read
  intro c hc
  rw [read] at hc
  simpa using (List.mem_filter.mp hc).2

/-! ### Texts without blanks have no glued neighbours -/

/-- A symbol is glued to nothing. -/
theorem glued_of_ofSymbol? {c : Char} {t : Token} (h : ofSymbol? c = some t) (u : Token) :
    glued t u = false ∧ glued u t = false := by
  unfold ofSymbol? at h
  repeat' split at h
  all_goals cases h
  all_goals exact ⟨rfl, by cases u <;> rfl⟩

namespace Piece

/-- The token before the piece is not glued to the first token that may come of the piece. -/
def Follows (u : Token) : Piece → Prop
  | nothing => ∀ t, glued u t = false
  | name text => glued u (.identifier text) = false
  | whole digits | point digits => glued u (.number (.ofWhole digits)) = false
  | pointed digits fraction => glued u (.number (.ofPointed digits fraction)) = false
  | stray text => glued u (.stray text) = false
  | strayPoint text =>
    glued u (.stray (text.push '.')) = false ∧
      (text = "" → ∀ fraction, glued u (.number (.ofPointed "" fraction)) = false)

/-- The stray run, if there is one, does not end in a point. -/
def NoPoint : Piece → Prop
  | stray text => text.toList.getLast? ≠ some '.'
  | _ => True

section Glued

variable {u : Token}

theorem glued_identifier (name other : String) :
    glued u (.identifier name) = glued u (.identifier other) := by
  cases u <;> rfl

theorem glued_stray (text other : String) : glued u (.stray text) = glued u (.stray other) := by
  cases u <;> rfl

/-- Of a numeral after another token only the first character counts. -/
theorem glued_number {a b : Numeral} (h : a.text.toList.head? = b.text.toList.head?) :
    glued u (.number a) = glued u (.number b) := by
  cases u <;> simp [glued, h]

end Glued

theorem Follows.head {p : Piece} {u t : Token} (h : p.Follows u) (ht : t ∈ p.tokens.head?) :
    glued u t = false := by
  cases p with
  | nothing => cases ht
  | strayPoint text =>
      cases ht
      exact h.1
  | _ =>
      cases ht
      exact h

theorem isChain_tokens (p : Piece) : p.tokens.IsChain (glued · · = false) := by
  cases p <;> simp [tokens, glued]

/-- A character that extends a piece: it completes no token, or the first one of the piece. -/
theorem follows_of_extend? {p p' : Piece} {c : Char} {ts : List Token} (hp : p.WellFormed)
    (e : p.extend? c = some (ts, p')) :
    (ts = [] ∧ ∀ u, p.Follows u → p'.Follows u) ∨
      ∃ t, ts = [t] ∧ (∀ u, p.Follows u → glued u t = false) ∧ p'.Follows t := by
  have head_push {digits : String} (h : IsDigits digits) (c : Char) :
      (digits.push c).toList.head? = digits.toList.head? := by
    rw [String.toList_push, List.head?_append_of_ne_nil _ (by simpa using h.1)]
  have head_pointed {digits : String} (h : IsDigits digits) (fraction : String) :
      (Numeral.ofPointed digits fraction).text.toList.head? = digits.toList.head? := by
    rw [Numeral.ofPointed, String.append_assoc, String.toList_append]
    exact List.head?_append_of_ne_nil _ (by simpa using h.1)
  cases p with
  | nothing => cases e
  | name text =>
      simp only [extend?] at e
      split at e <;> cases e
      exact .inl ⟨rfl, fun u h => (glued_identifier _ _).trans h⟩
  | whole digits =>
      simp only [extend?] at e
      split at e
      · cases e
        exact .inl ⟨rfl, fun u h => (glued_number (head_push hp c)).trans h⟩
      split at e <;> cases e
      exact .inl ⟨rfl, fun u h => h⟩
  | point digits =>
      simp only [extend?] at e
      split at e
      · cases e
        exact .inl ⟨rfl, fun u h => (glued_number (head_pointed hp _)).trans h⟩
      split at e
      · cases e
        exact .inr ⟨_, rfl, fun u h => h, rfl, fun h => absurd h (by decide)⟩
      split at e <;> cases e
      exact .inr ⟨_, rfl, fun u h => h, rfl⟩
  | pointed digits fraction =>
      simp only [extend?] at e
      split at e <;> cases e
      refine .inl ⟨rfl, fun u h => (glued_number ?_).trans h⟩
      by_cases hd : digits = ""
      · subst hd
        simp [Numeral.ofPointed]
      · rw [head_pointed ⟨hd, hp.1⟩, head_pointed ⟨hd, hp.1⟩]
  | stray text =>
      simp only [extend?] at e
      split at e
      · cases e
        exact .inl ⟨rfl, fun u h => ⟨(glued_stray _ _).trans h, fun h => absurd h hp.1⟩⟩
      split at e <;> cases e
      exact .inl ⟨rfl, fun u h => (glued_stray _ _).trans h⟩
  | strayPoint text =>
      simp only [extend?] at e
      split at e
      · cases e
        by_cases ht : text = ""
        · exact .inl ⟨if_pos ht, fun u h => h.2 ht _⟩
        · refine .inr ⟨.stray text, if_neg ht, fun u h => (glued_stray _ _).trans h.1, ?_⟩
          simp [Follows, glued, Numeral.ofPointed]
      split at e
      · cases e
        exact .inl ⟨rfl, fun u h =>
          ⟨(glued_stray _ _).trans h.1, fun h => absurd h (push_ne_empty text '.')⟩⟩
      split at e <;> cases e
      exact .inl ⟨rfl, fun u h => (glued_stray _ _).trans h.1⟩

/-- A character is a token by itself, or begins a piece. -/
theorem start_cases (c : Char) :
    (∃ t, ofSymbol? c = some t ∧ start c = ([t], nothing)) ∨ (start c).1 = [] := by
  obtain h | h | h | rfl | ⟨t, h⟩ | h := class_cases c
  · exact .inr (by rw [start_of_isBlank h])
  · exact .inr (by rw [start_of_isNameStart h])
  · exact .inr (by rw [start_of_isDigit h])
  · exact .inr (by rw [start_point])
  · exact .inl ⟨t, h, start_of_ofSymbol? h⟩
  · exact .inr (by rw [start_of_isStray h])

/-- What is not glued to anything may stand before every piece. -/
theorem follows_of_forall {u : Token} (h : ∀ t, glued u t = false) (p : Piece) : p.Follows u := by
  cases p with
  | nothing => exact h
  | strayPoint text => exact ⟨h _, fun _ _ => h _⟩
  | _ => exact h _

/-- A piece that a character begins because it does not extend the one before: it follows the last
token of that one. -/
theorem follows_start {p : Piece} {c : Char} (hp : p.NoPoint) (e : p.extend? c = none)
    (hb : isBlank c = false) (hc : (start c).1 = []) {v : Token} (hv : v ∈ p.tokens.getLast?) :
    (start c).2.Follows v := by
  obtain h | h | h | rfl | ⟨t, h⟩ | h := class_cases c
  · rw [hb] at h
    cases h
  · rw [start_of_isNameStart h]
    cases p with
    | nothing => cases hv
    | name text => simp [extend?, isNamePart_of_isNameStart h] at e
    | _ =>
        cases hv
        rfl
  · rw [start_of_isDigit h]
    cases p with
    | nothing => cases hv
    | name text => simp [extend?, isNamePart_of_isDigit h] at e
    | stray text =>
        cases hv
        simpa [Follows, glued, NoPoint] using fun h => absurd h hp
    | _ => simp [extend?, h] at e
  · cases p with
    | nothing => cases hv
    | name | pointed =>
        cases hv
        simp [start_point, Follows, glued, Numeral.ofPointed]
    | _ => simp [extend?] at e
  · rw [start_of_ofSymbol? h] at hc
    cases hc
  · obtain ⟨-, -, -, hd, hdot, -⟩ := class_of_isStray h
    rw [start_of_isStray h]
    cases p with
    | nothing => cases hv
    | name | whole | pointed =>
        cases hv
        rfl
    | point | stray | strayPoint => simp [extend?, h, hd, hdot] at e

theorem noPoint_extend? {p p' : Piece} {c : Char} {ts : List Token}
    (e : p.extend? c = some (ts, p')) : p'.NoPoint := by
  unfold extend? at e
  repeat' split at e
  all_goals cases e
  all_goals simp_all [NoPoint]

theorem noPoint_start (c : Char) : (start c).2.NoPoint := by
  obtain h | h | h | rfl | ⟨t, h⟩ | h := class_cases c
  · rw [start_of_isBlank h]
    trivial
  · rw [start_of_isNameStart h]
    trivial
  · rw [start_of_isDigit h]
    trivial
  · rw [start_point]
    trivial
  · rw [start_of_ofSymbol? h]
    trivial
  · obtain ⟨-, -, -, -, hdot, -⟩ := class_of_isStray h
    rw [start_of_isStray h]
    simpa [NoPoint] using hdot

end Piece

namespace Scan

/-- No two neighbours among the complete tokens are glued, and the piece follows the last of them. -/
structure Chained (s : Scan) : Prop where
  complete : s.complete.toList.IsChain (glued · · = false)
  last : ∀ u ∈ s.complete.toList.getLast?, s.piece.Follows u
  noPoint : s.piece.NoPoint

theorem chained_initial : initial.Chained := by
  constructor
  · exact List.isChain_nil
  · intro u hu
    cases hu
  · trivial

theorem Chained.finish {s : Scan} (h : s.Chained) : s.finish.IsChain (glued · · = false) := by
  rw [Scan.finish, Array.toList_appendList, List.isChain_append]
  refine ⟨h.complete, s.piece.isChain_tokens, ?_⟩
  intro u hu t ht
  exact (h.last u hu).head ht

/-- What a character begins that does not extend the piece follows the last token. -/
theorem Chained.follows_start {s : Scan} (h : s.Chained) {c : Char} (e : s.piece.extend? c = none)
    (hb : isBlank c = false) (hc : (Piece.start c).1 = []) {u : Token}
    (hu : u ∈ s.finish.getLast?) : (Piece.start c).2.Follows u := by
  rw [Scan.finish, Array.toList_appendList] at hu
  by_cases hp : s.piece.tokens = []
  · have nothing : s.piece = .nothing := by
      cases hs : s.piece with
      | nothing => rfl
      | _ =>
          rw [hs] at hp
          cases hp
    rw [hp, List.append_nil] at hu
    have last := h.last u hu
    rw [nothing] at last
    exact Piece.follows_of_forall last _
  · rw [List.getLast?_append_of_ne_nil _ hp] at hu
    exact Piece.follows_start h.noPoint e hb hc hu

theorem Chained.step {s : Scan} (h : s.Chained) (hw : s.WellFormed) {c : Char}
    (hb : isBlank c = false) : (s.step c).Chained := by
  cases e : s.piece.extend? c with
  | some next =>
      obtain ⟨ts, p⟩ := next
      have noPoint := Piece.noPoint_extend? e
      rw [step_of_extend e]
      obtain ⟨rfl, follows⟩ | ⟨t, rfl, first, follows⟩ := Piece.follows_of_extend? hw.piece e
      · refine ⟨by simpa using h.complete, ?_, noPoint⟩
        intro u hu
        exact follows u (h.last u (by simpa using hu))
      · refine ⟨?_, ?_, noPoint⟩
        · rw [Array.toList_appendList, List.isChain_append]
          refine ⟨h.complete, List.isChain_singleton t, ?_⟩
          intro u hu v hv
          cases hv
          exact first u (h.last u hu)
        · intro u hu
          obtain rfl : u = t := by simpa using hu.symm
          exact follows
  | none =>
      have noPoint := Piece.noPoint_start c
      obtain ⟨t, symbol, start⟩ | start := Piece.start_cases c
      · rw [step_of_start e, start]
        refine ⟨?_, ?_, trivial⟩
        · rw [Array.toList_appendList, ← ended, toList_ended, List.isChain_append]
          refine ⟨h.finish, List.isChain_singleton t, ?_⟩
          intro u _ v hv
          cases hv
          exact (glued_of_ofSymbol? symbol u).2
        · intro u hu
          obtain rfl : u = t := by simpa using hu.symm
          exact fun v => (glued_of_ofSymbol? symbol v).1
      · rw [step_of_fresh (p := (Piece.start c).2) e (Prod.ext start rfl)]
        refine ⟨h.finish, ?_, noPoint⟩
        intro u hu
        exact h.follows_start e hb start hu

theorem Chained.foldl {s : Scan} (h : s.Chained) (hw : s.WellFormed) {cs : List Char}
    (hcs : ∀ c ∈ cs, isBlank c = false) : (cs.foldl Scan.step s).Chained := by
  induction cs generalizing s with
  | nil => exact h
  | cons c cs ih =>
      obtain ⟨hc, hcs⟩ := List.forall_mem_cons.mp hcs
      exact ih (h.step hw hc) (hw.step c) hcs

end Scan

/-- A text without blanks has no glued neighbours. -/
theorem isChain_ofText {text : String} (h : ∀ c ∈ text.toList, isBlank c = false) :
    (ofText text).IsChain (glued · · = false) :=
  (Scan.chained_initial.foldl Scan.initial_wellFormed h).finish

/-- The tokens of a joined text have no glued neighbours. -/
theorem isChain_ofText_joinedText {ts : List Token} (hw : ∀ t ∈ ts, t.WellFormed) :
    (ofText (joinedText ts)).IsChain (glued · · = false) := by
  apply isChain_ofText
  intro c hc
  rw [toList_joinedText] at hc
  obtain ⟨t, ht, mem⟩ := List.mem_flatMap.mp hc
  exact (hw t ht).not_isBlank c mem

/-- **Joining is harmless exactly without glued neighbours.**  Canonical tokens come back from their
joined text if and only if no two neighbours are glued; and all tokens of stored bodies are
canonical. -/
theorem ofText_joinedText_iff :
    (∀ ts : List Token, (∀ t ∈ ts, t.Canonical) →
      (ofText (joinedText ts) = ts ↔ ts.IsChain (glued · · = false))) ∧
    ∀ (c : Calculator) (name : String) (f : Definition), c.Reachable →
      c.functionOf? name = some f → ∀ t ∈ f.body, t.Canonical := by
  constructor
  · intro ts h
    have hw : ∀ t ∈ ts, t.WellFormed := fun t ht => canonical_iff.mp (h t ht)
    constructor
    · intro back
      rw [← back]
      exact isChain_ofText_joinedText hw
    · intro hg
      exact ofText_of_spaced hw hg (spaced_joinedText ts)
  · intro c name f reachable hf t ht
    exact canonical_iff.mpr (reachable.wellFormed_body hf t ht)

/-- `5 . .5` comes back from `5..5`, and `5 . 5`, which may be a body, does not come back from `5.5`. -/
theorem ofText_joinedText_iff_points :
    let five : Token := .number (.ofWhole "5")
    let half : Token := .number (.ofPointed "" "5")
    let c := (Calculator.empty 1).afterLines ["fn f => 5 . 5"]
    (∀ t ∈ [five, .stray ".", half], t.Canonical) ∧
    ofText (joinedText [five, .stray ".", half]) = [five, .stray ".", half] ∧
    c.Reachable ∧ c.functionOf? "f" = some ⟨[], [five, .stray ".", five]⟩ ∧
    (∀ t ∈ [five, .stray ".", five], t.Canonical) ∧
    ofText (joinedText [five, .stray ".", five]) ≠ [five, .stray ".", five] := by
  intro five half c
  obtain ⟨back, bodies⟩ := ofText_joinedText_iff
  have canonical : ∀ t ∈ [five, .stray ".", half], t.Canonical := by decide +kernel
  have reachable : c.Reachable := ⟨1, _, rfl⟩
  have stored : c.functionOf? "f" = some ⟨[], [five, .stray ".", five]⟩ := by decide +kernel
  have canonical' := bodies c "f" _ reachable stored
  have glued : ¬ [five, .stray ".", five].IsChain (glued · · = false) := by decide +kernel
  exact ⟨canonical, (back _ canonical).mpr (by decide +kernel), reachable, stored, canonical',
    mt (back _ canonical').mp glued⟩

end Token

end LineCalc
