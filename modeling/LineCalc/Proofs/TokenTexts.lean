import Mathlib.Data.List.Chain
import LineCalc.Token.Scan

/-! # Tokens come back from their texts

The tokens that come from texts are *well-formed* (`ofText_wellFormed`): a numeral has the digits and
the point that its value is read from, an identifier is a name, and a stray run is not empty and has
no character that another token could begin with.

Texts of well-formed tokens, written one after the other with any blanks between them, are cut into
just these tokens again, unless two neighbours without a blank between them are *glued*
(`ofText_of_spaced`): then the first would run on into the second.

The proof follows the reader from token to token.  What matters of its state is the row of tokens
that it would give if the text ended here (`Scan.finish`).  Reading the text of a token adds it to
that row (`finish_foldl_text`), although in between the row may look otherwise: the numeral `.5` after
a stray run first makes the run longer by a point. -/

namespace LineCalc

namespace Token

/-! ### Classes of characters -/

section Classes

variable {c : Char}

theorem isNamePart_of_isNameStart (h : isNameStart c = true) : isNamePart c = true := by
  simp only [isNameStart, isNamePart, Char.isAlphanum, Bool.or_eq_true] at h ⊢
  cases h with
  | inl h => exact .inl (.inl h)
  | inr h => exact .inr h

theorem isNamePart_of_isDigit (h : c.isDigit = true) : isNamePart c = true := by
  simp [isNamePart, Char.isAlphanum, h]

theorem not_isNameStart_of_isDigit (h : c.isDigit = true) : isNameStart c = false := by
  have hle : c.val.toNat ≤ 57 := (Char.isDigit_iff_toNat.mp h).2
  have above (d : Char) (hd : 57 < d.val.toNat) : ¬ d.val ≤ c.val := fun hc =>
    absurd (UInt32.le_iff_toNat_le.mp hc) (by omega)
  have hu : c.isUpper = false := decide_eq_false fun hc => above 'A' (by decide) hc.1
  have hl : c.isLower = false :=
    Bool.and_eq_false_iff.mpr (.inl (decide_eq_false (above 'a' (by decide))))
  have ha : c.isAlpha = false := Bool.or_eq_false_iff.mpr ⟨hu, hl⟩
  have hne : c ≠ '_' := by
    rintro rfl
    exact absurd hle (by decide)
  simp [isNameStart, ha, hne]

/-- A blank is one of five characters, and so is no part of a token. -/
theorem class_of_isBlank (h : isBlank c = true) :
    isNamePart c = false ∧ isNameStart c = false ∧ c.isDigit = false ∧ c ≠ '.' ∧
      isStray c = false ∧ ofSymbol? c = none := by
  simp only [isBlank, Bool.or_eq_true, decide_eq_true_eq] at h
  rcases h with (((rfl | rfl) | rfl) | rfl) | rfl <;> decide

theorem class_of_ofSymbol? {t : Token} (h : ofSymbol? c = some t) :
    isBlank c = false ∧ isNamePart c = false ∧ isNameStart c = false ∧ c.isDigit = false ∧
      c ≠ '.' ∧ isStray c = false := by
  unfold ofSymbol? at h
  repeat' split at h
  all_goals first
    | (subst c; decide)
    | cases h

theorem class_of_isStray (h : isStray c = true) :
    isBlank c = false ∧ isNamePart c = false ∧ isNameStart c = false ∧ c.isDigit = false ∧
      c ≠ '.' ∧ ofSymbol? c = none := by
  simp only [isStray, Bool.and_eq_true, Bool.not_eq_true', decide_eq_true_eq,
    Option.isNone_iff_eq_none] at h
  obtain ⟨⟨⟨hb, hn⟩, hp⟩, hs⟩ := h
  have hstart : isNameStart c = false := by
    rw [Bool.eq_false_iff]
    intro h'
    simp [isNamePart_of_isNameStart h'] at hn
  have hdigit : c.isDigit = false := by
    rw [Bool.eq_false_iff]
    intro h'
    simp [isNamePart_of_isDigit h'] at hn
  exact ⟨hb, hn, hstart, hdigit, hp, hs⟩

theorem not_isBlank_of_isNamePart (h : isNamePart c = true) : isBlank c = false := by
  rw [Bool.eq_false_iff]
  intro h'
  obtain ⟨hn, -⟩ := class_of_isBlank h'
  simp [hn] at h

theorem not_isStray_of_isNamePart (h : isNamePart c = true) : isStray c = false := by
  rw [Bool.eq_false_iff]
  intro h'
  obtain ⟨-, hn, -⟩ := class_of_isStray h'
  simp [hn] at h

theorem class_of_isNameStart (h : isNameStart c = true) :
    isBlank c = false ∧ isNamePart c = true ∧ c.isDigit = false ∧ c ≠ '.' ∧ isStray c = false := by
  have hn := isNamePart_of_isNameStart h
  have hdigit : c.isDigit = false := by
    rw [Bool.eq_false_iff]
    intro h'
    simp [not_isNameStart_of_isDigit h'] at h
  have hpoint : c ≠ '.' := by
    rintro rfl
    exact absurd h (by decide)
  exact ⟨not_isBlank_of_isNamePart hn, hn, hdigit, hpoint, not_isStray_of_isNamePart hn⟩

theorem class_of_isDigit (h : c.isDigit = true) :
    isBlank c = false ∧ isNamePart c = true ∧ isNameStart c = false ∧ c ≠ '.' ∧
      isStray c = false := by
  have hn := isNamePart_of_isDigit h
  have hpoint : c ≠ '.' := by
    rintro rfl
    exact absurd h (by decide)
  exact ⟨not_isBlank_of_isNamePart hn, hn, not_isNameStart_of_isDigit h, hpoint,
    not_isStray_of_isNamePart hn⟩

end Classes

/-! ### Well-formed tokens -/

/-- Digits, at least one. -/
def IsDigits (text : String) : Prop := text ≠ "" ∧ ∀ c ∈ text.toList, c.isDigit = true

/-- A letter or an underscore, and then letters, digits and underscores. -/
def IsName (text : String) : Prop :=
  text ≠ "" ∧ (∀ c ∈ text.toList.head?, isNameStart c = true) ∧
    ∀ c ∈ text.toList, isNamePart c = true

instance : DecidablePred IsDigits := fun text =>
  decidable_of_iff ((text != "" && text.toList.all Char.isDigit) = true) (by simp [IsDigits])

instance : DecidablePred IsName := fun text =>
  decidable_of_iff ((text != "" && text.toList.head?.all isNameStart &&
    text.toList.all isNamePart) = true) (by simp [IsName, Option.all_eq_true, and_assoc])

/-- Strays and points. -/
def IsStrayRun (text : String) : Prop := ∀ c ∈ text.toList, isStray c = true ∨ c = '.'

/-- The tokens that texts have. -/
inductive WellFormed : Token → Prop
  | whole {digits : String} (h : IsDigits digits) : WellFormed (.number (.ofWhole digits))
  | pointed {whole fraction : String} (hw : ∀ c ∈ whole.toList, c.isDigit = true)
      (hf : IsDigits fraction) : WellFormed (.number (.ofPointed whole fraction))
  | identifier {name : String} (h : IsName name) : WellFormed (.identifier name)
  | stray {text : String} (hne : text ≠ "") (h : IsStrayRun text) : WellFormed (.stray text)
  | symbol {c : Char} {t : Token} (h : ofSymbol? c = some t) : WellFormed t

theorem text_of_ofSymbol? {c : Char} {t : Token} (h : ofSymbol? c = some t) :
    t.text = String.singleton c := by
  unfold ofSymbol? at h
  repeat' split at h
  all_goals first
    | (cases h; subst c; rfl)
    | cases h

theorem WellFormed.isName {name : String} (h : WellFormed (Token.identifier name)) : IsName name := by
  cases h with
  | identifier isName => exact isName
  | symbol symbol =>
      unfold ofSymbol? at symbol
      repeat' split at symbol
      all_goals cases symbol

/-- Two neighbours whose texts, without a blank between them, are not cut between them. -/
def glued : Token → Token → Bool
  | identifier _, identifier _ => true
  | identifier _, number b => b.text.toList.head?.any Char.isDigit
  | number a, number b =>
    b.text.toList.head?.any Char.isDigit ||
      !a.text.toList.contains '.' && b.text.toList.head? == some '.'
  | stray _, stray _ => true
  | stray a, number b =>
    a.toList.getLast? == some '.' && b.text.toList.head?.any Char.isDigit
  | _, _ => false

/-- Tokens written one after the other, with any blanks before, between and after them. -/
inductive Spaced : List Token → List Char → Prop
  | nil {blanks : List Char} (h : ∀ c ∈ blanks, isBlank c = true) : Spaced [] blanks
  | cons {blanks text : List Char} {t : Token} {ts : List Token}
      (h : ∀ c ∈ blanks, isBlank c = true) (rest : Spaced ts text) :
      Spaced (t :: ts) (blanks ++ t.text.toList ++ text)

/-- Tokens with given blanks before each of them. -/
theorem spaced_flatMap (row : List (List Char × Token))
    (h : ∀ r ∈ row, ∀ c ∈ r.1, isBlank c = true) :
    Spaced (row.map Prod.snd) (row.flatMap fun r => r.1 ++ r.2.text.toList) := by
  induction row with
  | nil => exact Spaced.nil (by simp)
  | cons r row ih =>
      obtain ⟨hr, hrow⟩ := List.forall_mem_cons.mp h
      exact Spaced.cons hr (ih hrow)

theorem spaced_joinedText (ts : List Token) : Spaced ts (joinedText ts).toList := by
  have h := spaced_flatMap (ts.map fun t => ([], t)) (by simp)
  simpa [joinedText, String.toList_join, List.flatMap_def, Function.comp_def] using h

/-! ### Texts have well-formed tokens -/

section Runs

variable {c : Char} {text : String}

theorem push_ne_empty (text : String) (c : Char) : text.push c ≠ "" := by
  intro h
  have := congrArg String.toList h
  simp at this

theorem singleton_ne_empty (c : Char) : String.singleton c ≠ "" := push_ne_empty "" c

theorem isDigits_singleton (h : c.isDigit = true) : IsDigits (String.singleton c) :=
  ⟨singleton_ne_empty c, by simpa using h⟩

theorem IsDigits.push (ht : IsDigits text) (h : c.isDigit = true) : IsDigits (text.push c) := by
  constructor
  · exact push_ne_empty text c
  · intro d hd
    rw [String.toList_push, List.mem_append, List.mem_singleton] at hd
    obtain hd | rfl := hd
    · exact ht.2 d hd
    · exact h

theorem isName_singleton (h : isNameStart c = true) : IsName (String.singleton c) :=
  ⟨singleton_ne_empty c, by simpa using h, by simpa using isNamePart_of_isNameStart h⟩

theorem IsName.push (ht : IsName text) (h : isNamePart c = true) : IsName (text.push c) := by
  have hne : text.toList ≠ [] := by simpa using ht.1
  refine ⟨push_ne_empty text c, ?_, ?_⟩
  · rw [String.toList_push, List.head?_append_of_ne_nil _ hne]
    exact ht.2.1
  · intro d hd
    rw [String.toList_push, List.mem_append, List.mem_singleton] at hd
    obtain hd | rfl := hd
    · exact ht.2.2 d hd
    · exact h

theorem isStrayRun_empty : IsStrayRun "" := by simp [IsStrayRun]

theorem isStrayRun_point : IsStrayRun "." := by simp [IsStrayRun]

theorem isStrayRun_singleton (h : isStray c = true) : IsStrayRun (String.singleton c) := by
  intro d hd
  rw [String.toList_singleton, List.mem_singleton] at hd
  exact .inl (hd ▸ h)

theorem IsStrayRun.push (ht : IsStrayRun text) (h : isStray c = true ∨ c = '.') :
    IsStrayRun (text.push c) := by
  intro d hd
  rw [String.toList_push, List.mem_append, List.mem_singleton] at hd
  obtain hd | rfl := hd
  · exact ht d hd
  · exact h

end Runs

namespace Piece

/-- What has been read can be a part of a token. -/
def WellFormed : Piece → Prop
  | nothing => True
  | name text => IsName text
  | whole digits => IsDigits digits
  | point digits => IsDigits digits
  | pointed digits fraction => (∀ c ∈ digits.toList, c.isDigit = true) ∧ IsDigits fraction
  | stray text => text ≠ "" ∧ IsStrayRun text
  | strayPoint text => IsStrayRun text

theorem tokens_wellFormed {p : Piece} (h : p.WellFormed) : ∀ t ∈ p.tokens, t.WellFormed := by
  cases p with
  | nothing => simp [tokens]
  | name text => simpa [tokens] using Token.WellFormed.identifier h
  | whole digits => simpa [tokens] using Token.WellFormed.whole h
  | point digits =>
      have hs : Token.WellFormed (.stray ".") := .stray (by decide) isStrayRun_point
      simpa [tokens, hs] using Token.WellFormed.whole h
  | pointed whole fraction => simpa [tokens] using Token.WellFormed.pointed h.1 h.2
  | stray text => simpa [tokens] using Token.WellFormed.stray h.1 h.2
  | strayPoint text =>
      simpa [tokens] using
        Token.WellFormed.stray (push_ne_empty text '.') (IsStrayRun.push h (.inr rfl))

section Start

variable {c : Char}

theorem start_of_isBlank (h : isBlank c = true) : start c = ([], nothing) := by
  simp [start, h]

theorem start_of_isNameStart (h : isNameStart c = true) :
    start c = ([], name (String.singleton c)) := by
  simp [start, (class_of_isNameStart h).1, h]

theorem start_of_isDigit (h : c.isDigit = true) : start c = ([], whole (String.singleton c)) := by
  obtain ⟨hb, -, hn, -⟩ := class_of_isDigit h
  simp [start, hb, hn, h]

theorem start_point : start '.' = ([], strayPoint "") := rfl

theorem start_of_ofSymbol? {t : Token} (h : ofSymbol? c = some t) : start c = ([t], nothing) := by
  obtain ⟨hb, -, hn, hd, hp, -⟩ := class_of_ofSymbol? h
  simp [start, hb, hn, hd, hp, h]

theorem start_of_isStray (h : isStray c = true) : start c = ([], stray (String.singleton c)) := by
  obtain ⟨hb, -, hn, hd, hp, hs⟩ := class_of_isStray h
  simp [start, hb, hn, hd, hp, hs]

/-- What a character can be. -/
theorem class_cases (c : Char) :
    isBlank c = true ∨ isNameStart c = true ∨ c.isDigit = true ∨ c = '.' ∨
      (∃ t, ofSymbol? c = some t) ∨ isStray c = true := by
  by_cases hb : isBlank c = true
  · exact .inl hb
  by_cases hn : isNameStart c = true
  · exact .inr (.inl hn)
  by_cases hd : c.isDigit = true
  · exact .inr (.inr (.inl hd))
  by_cases hp : c = '.'
  · exact .inr (.inr (.inr (.inl hp)))
  cases hs : ofSymbol? c with
  | some t => exact .inr (.inr (.inr (.inr (.inl ⟨t, rfl⟩))))
  | none =>
      refine .inr (.inr (.inr (.inr (.inr ?_))))
      simp only [isNameStart, Bool.or_eq_true, decide_eq_true_eq, not_or, Bool.not_eq_true] at hn
      simp [isStray, isNamePart, Char.isAlphanum, hb, hn, hd, hp, hs]

end Start

theorem start_wellFormed (c : Char) :
    (∀ t ∈ (start c).1, t.WellFormed) ∧ (start c).2.WellFormed := by
  obtain h | h | h | rfl | ⟨t, h⟩ | h := class_cases c
  · rw [start_of_isBlank h]
    exact ⟨by simp, trivial⟩
  · rw [start_of_isNameStart h]
    exact ⟨by simp, isName_singleton h⟩
  · rw [start_of_isDigit h]
    exact ⟨by simp, isDigits_singleton h⟩
  · rw [start_point]
    exact ⟨by simp, isStrayRun_empty⟩
  · rw [start_of_ofSymbol? h]
    exact ⟨by simpa using Token.WellFormed.symbol h, trivial⟩
  · rw [start_of_isStray h]
    exact ⟨by simp, singleton_ne_empty c, isStrayRun_singleton h⟩

theorem extend?_wellFormed {p p' : Piece} {c : Char} {ts : List Token} (h : p.WellFormed)
    (e : p.extend? c = some (ts, p')) : (∀ t ∈ ts, t.WellFormed) ∧ p'.WellFormed := by
  unfold extend? at e
  split at e
  · cases e
  · split at e <;> cases e
    exact ⟨by simp, IsName.push h ‹_›⟩
  · split at e
    · cases e
      exact ⟨by simp, IsDigits.push h ‹_›⟩
    split at e <;> cases e
    exact ⟨by simp, h⟩
  · have hw := Token.WellFormed.whole h
    split at e
    · cases e
      exact ⟨by simp, h.2, isDigits_singleton ‹_›⟩
    split at e
    · cases e
      exact ⟨by simpa using hw, isStrayRun_point⟩
    split at e <;> cases e
    refine ⟨by simpa using hw, ?_, ?_⟩
    · exact push_ne_empty "." c
    · exact isStrayRun_point.push (.inl ‹_›)
  · split at e <;> cases e
    exact ⟨by simp, h.1, IsDigits.push h.2 ‹_›⟩
  · split at e
    · cases e
      exact ⟨by simp, h.2⟩
    split at e <;> cases e
    exact ⟨by simp, push_ne_empty _ c, IsStrayRun.push h.2 (.inl ‹_›)⟩
  · split at e
    · cases e
      refine ⟨?_, by simp, isDigits_singleton ‹_›⟩
      split
      · simp
      · simpa using Token.WellFormed.stray ‹_› h
    split at e
    · cases e
      exact ⟨by simp, IsStrayRun.push h (.inr rfl)⟩
    split at e <;> cases e
    exact ⟨by simp, push_ne_empty _ c, IsStrayRun.push (IsStrayRun.push h (.inr rfl)) (.inl ‹_›)⟩

end Piece

namespace Scan

/-- The complete tokens are well-formed, and so is the piece. -/
structure WellFormed (s : Scan) : Prop where
  complete : ∀ t ∈ s.complete.toList, t.WellFormed
  piece : s.piece.WellFormed

theorem initial_wellFormed : initial.WellFormed := ⟨by simp [initial], trivial⟩

/-- Reading a character that extends the piece. -/
theorem step_of_extend {s : Scan} {c : Char} {ts : List Token} {p : Piece}
    (h : s.piece.extend? c = some (ts, p)) : s.step c = ⟨s.complete ++ ts, p⟩ := by
  simp [step, h]

/-- Reading a character that ends the piece. -/
theorem step_of_start {s : Scan} {c : Char} (h : s.piece.extend? c = none) :
    s.step c = ⟨s.complete ++ s.piece.tokens ++ (Piece.start c).1, (Piece.start c).2⟩ := by
  simp [step, h]

theorem WellFormed.step {s : Scan} (h : s.WellFormed) (c : Char) : (s.step c).WellFormed := by
  cases e : s.piece.extend? c with
  | none =>
      rw [step_of_start e]
      obtain ⟨hs, hp⟩ := Piece.start_wellFormed c
      constructor
      · intro t ht
        simp only [Array.toList_appendList, List.mem_append] at ht
        obtain (ht | ht) | ht := ht
        · exact h.complete t ht
        · exact Piece.tokens_wellFormed h.piece t ht
        · exact hs t ht
      · exact hp
  | some next =>
      obtain ⟨ts, p⟩ := next
      rw [step_of_extend e]
      obtain ⟨hs, hp⟩ := Piece.extend?_wellFormed h.piece e
      constructor
      · intro t ht
        simp only [Array.toList_appendList, List.mem_append] at ht
        obtain ht | ht := ht
        · exact h.complete t ht
        · exact hs t ht
      · exact hp

theorem WellFormed.foldl {s : Scan} (h : s.WellFormed) (cs : List Char) :
    (cs.foldl Scan.step s).WellFormed := by
  induction cs generalizing s with
  | nil => exact h
  | cons c cs ih => exact ih (h.step c)

theorem WellFormed.finish {s : Scan} (h : s.WellFormed) : ∀ t ∈ s.finish, t.WellFormed := by
  intro t ht
  simp only [Scan.finish, Array.toList_appendList, List.mem_append] at ht
  obtain ht | ht := ht
  · exact h.complete t ht
  · exact Piece.tokens_wellFormed h.piece t ht

end Scan

/-- Every token of a text is well-formed. -/
theorem ofText_wellFormed (text : String) : ∀ t ∈ ofText text, t.WellFormed :=
  (Scan.initial_wellFormed.foldl text.toList).finish

/-! ### Reading the text of one token -/

namespace Piece

/-- The token may follow the piece without a blank. -/
def Admits (p : Piece) (t : Token) : Prop := ∀ u ∈ p.tokens.getLast?, glued u t = false

theorem extend?_of_isBlank {c : Char} (h : isBlank c = true) (p : Piece) : p.extend? c = none := by
  obtain ⟨hn, -, hd, hp, hs, -⟩ := class_of_isBlank h
  cases p <;> simp [extend?, hn, hd, hp, hs]

theorem extend?_of_ofSymbol? {c : Char} {t : Token} (h : ofSymbol? c = some t) (p : Piece) :
    p.extend? c = none := by
  obtain ⟨-, hn, -, hd, hp, hs⟩ := class_of_ofSymbol? h
  cases p <;> simp [extend?, hn, hd, hp, hs]

theorem extend?_of_isNameStart {c : Char} {name : String} {p : Piece} (h : isNameStart c = true)
    (hp : p.Admits (.identifier name)) : p.extend? c = none := by
  obtain ⟨-, hn, hd, hc, hs⟩ := class_of_isNameStart h
  cases p with
  | name text => exact absurd (hp _ rfl) (by simp [glued])
  | nothing | whole | point | pointed | stray | strayPoint => simp [extend?, hd, hc, hs]

theorem extend?_of_isDigit {c : Char} {b : Numeral} {p : Piece} (h : c.isDigit = true)
    (hb : b.text.toList.head? = some c) (hp : p.Admits (.number b)) : p.extend? c = none := by
  obtain ⟨-, hn, -, hc, hs⟩ := class_of_isDigit h
  cases p with
  | nothing => rfl
  | stray text => simp [extend?, hc, hs]
  | name text => exact absurd (hp _ rfl) (by simp [glued, hb, h])
  | whole digits => exact absurd (hp _ rfl) (by simp [glued, hb, h])
  | point digits => exact absurd (hp (.stray ".") rfl) (by simp [glued, hb, h])
  | pointed digits fraction => exact absurd (hp _ rfl) (by simp [glued, hb, h])
  | strayPoint text => exact absurd (hp _ rfl) (by simp [glued, hb, h])

end Piece

namespace Scan

theorem finish_mk (done : Array Token) (p : Piece) : finish ⟨done, p⟩ = done.toList ++ p.tokens := by
  simp [finish]

/-- The complete tokens once the piece is ended. -/
def ended (s : Scan) : Array Token := s.complete ++ s.piece.tokens

theorem toList_ended (s : Scan) : s.ended.toList = s.finish := rfl

/-- A character that ends the piece and begins a new one. -/
theorem step_of_fresh {s : Scan} {c : Char} {p : Piece} (h : s.piece.extend? c = none)
    (hp : Piece.start c = ([], p)) : s.step c = ⟨s.ended, p⟩ := by
  rw [step_of_start h, hp]
  simp [ended]

/-- Characters that extend a piece of the same kind. -/
theorem foldl_run {f : String → Piece} {P : Char → Bool}
    (hf : ∀ text c, P c = true → (f text).extend? c = some ([], f (text.push c)))
    (done : Array Token) (text : String) {cs : List Char} (h : ∀ c ∈ cs, P c = true) :
    cs.foldl step ⟨done, f text⟩ = ⟨done, f (text ++ String.ofList cs)⟩ := by
  induction cs generalizing text with
  | nil => simp
  | cons c cs ih =>
      obtain ⟨hc, hcs⟩ := List.forall_mem_cons.mp h
      have e : step ⟨done, f text⟩ c = ⟨done, f (text.push c)⟩ := by
        simp [step, hf text c hc]
      have hs : text.push c ++ String.ofList cs = text ++ String.ofList (c :: cs) := by
        simp [← String.toList_inj]
      rw [List.foldl_cons, e, ih _ hcs, hs]

theorem foldl_name (done : Array Token) (text : String) {cs : List Char}
    (h : ∀ c ∈ cs, isNamePart c = true) :
    cs.foldl step ⟨done, .name text⟩ = ⟨done, .name (text ++ String.ofList cs)⟩ :=
  foldl_run (fun text c hc => by simp [Piece.extend?, hc]) done text h

theorem foldl_whole (done : Array Token) (digits : String) {cs : List Char}
    (h : ∀ c ∈ cs, c.isDigit = true) :
    cs.foldl step ⟨done, .whole digits⟩ = ⟨done, .whole (digits ++ String.ofList cs)⟩ :=
  foldl_run (fun text c hc => by simp [Piece.extend?, hc]) done digits h

theorem foldl_pointed (done : Array Token) (digits fraction : String) {cs : List Char}
    (h : ∀ c ∈ cs, c.isDigit = true) :
    cs.foldl step ⟨done, .pointed digits fraction⟩ =
      ⟨done, .pointed digits (fraction ++ String.ofList cs)⟩ :=
  foldl_run (fun text c hc => by simp [Piece.extend?, hc]) done fraction h

theorem finish_symbol {c : Char} {t : Token} (h : ofSymbol? c = some t) (s : Scan) :
    (t.text.toList.foldl step s).finish = s.finish ++ [t] := by
  rw [text_of_ofSymbol? h, String.toList_singleton, List.foldl_cons, List.foldl_nil,
    step_of_start (Piece.extend?_of_ofSymbol? h _), Piece.start_of_ofSymbol? h]
  simp [finish, Piece.tokens]

/-- Reading a name where it may begin. -/
theorem foldl_identifier {name : String} (h : IsName name) {s : Scan}
    (hs : s.piece.Admits (.identifier name)) :
    name.toList.foldl step s = ⟨s.ended, .name name⟩ := by
  obtain ⟨hne, hstart, hpart⟩ := h
  cases e : name.toList with
  | nil => exact absurd (by simpa using e) hne
  | cons c rest =>
      rw [e] at hstart hpart
      have hc : isNameStart c = true := by simpa using hstart
      have hn : String.singleton c ++ String.ofList rest = name := by simp [← String.toList_inj, e]
      rw [List.foldl_cons, step_of_fresh (Piece.extend?_of_isNameStart hc hs)
        (Piece.start_of_isNameStart hc), foldl_name _ _ (List.forall_mem_cons.mp hpart).2, hn]

theorem finish_identifier {name : String} (h : IsName name) {s : Scan}
    (hs : s.piece.Admits (.identifier name)) :
    ((Token.identifier name).text.toList.foldl step s).finish =
      s.finish ++ [.identifier name] := by
  rw [text, foldl_identifier h hs, finish_mk, toList_ended]
  rfl

/-- Reading digits that begin a numeral. -/
theorem foldl_digits {digits : String} (h : IsDigits digits) {b : Numeral} {s : Scan}
    (hb : b.text.toList.head? = digits.toList.head?) (hs : s.piece.Admits (.number b)) :
    digits.toList.foldl step s = ⟨s.ended, .whole digits⟩ := by
  obtain ⟨hne, hall⟩ := h
  cases e : digits.toList with
  | nil => exact absurd (by simpa using e) hne
  | cons c rest =>
      rw [e] at hall hb
      obtain ⟨hc, hrest⟩ := List.forall_mem_cons.mp hall
      have hd : String.singleton c ++ String.ofList rest = digits := by
        simp [← String.toList_inj, e]
      rw [List.foldl_cons, step_of_fresh (Piece.extend?_of_isDigit hc hb hs)
        (Piece.start_of_isDigit hc), foldl_whole _ _ hrest, hd]

theorem finish_whole {digits : String} (h : IsDigits digits) {s : Scan}
    (hs : s.piece.Admits (.number (.ofWhole digits))) :
    ((Token.number (.ofWhole digits)).text.toList.foldl step s).finish =
      s.finish ++ [.number (.ofWhole digits)] := by
  have e : (Token.number (.ofWhole digits)).text = digits := rfl
  rw [e, foldl_digits h rfl hs, finish_mk, toList_ended]
  rfl

/-- Where a numeral without digits before its point may follow, a point and a digit begin it,
also where the point at first goes on with a stray run. -/
theorem foldl_point {fraction : String} {s : Scan} (hs : s.WellFormed)
    (hp : s.piece.Admits (.number (.ofPointed "" fraction))) {d : Char} (hd : d.isDigit = true) :
    ∃ done : Array Token, done.toList = s.finish ∧
      ['.', d].foldl step s = ⟨done, .pointed "" (String.singleton d)⟩ := by
  have fresh (h : s.piece.extend? '.' = none) : ∃ done : Array Token, done.toList = s.finish ∧
      ['.', d].foldl step s = ⟨done, .pointed "" (String.singleton d)⟩ := by
    refine ⟨s.ended, rfl, ?_⟩
    rw [List.foldl_cons, step_of_fresh h Piece.start_point]
    simp [step, Piece.extend?, hd]
  cases e : s.piece with
  | nothing => exact fresh (by rw [e]; rfl)
  | name text => exact fresh (by rw [e]; rfl)
  | pointed digits fraction => exact fresh (by rw [e]; rfl)
  | whole digits =>
      have hw := hs.piece
      rw [e] at hp hw
      have hn : '.' ∉ digits.toList := fun h => absurd (hw.2 _ h) (by decide)
      exact absurd (hp _ rfl) (by simp [glued, Numeral.ofWhole, Numeral.ofPointed, hn])
  | point digits =>
      refine ⟨s.ended, rfl, ?_⟩
      simp [step, e, Piece.extend?, hd, ended, Piece.tokens]
  | stray text =>
      have hw := hs.piece
      rw [e] at hw
      refine ⟨s.ended, rfl, ?_⟩
      simp [step, e, Piece.extend?, hd, ended, Piece.tokens, hw.1]
  | strayPoint text =>
      refine ⟨s.ended, rfl, ?_⟩
      simp [step, e, Piece.extend?, hd, ended, Piece.tokens]

/-- Reading a numeral up to the first digit after its point. -/
theorem foldl_pointed_start {digits fraction : String}
    (hw : ∀ c ∈ digits.toList, c.isDigit = true) {s : Scan} (hs : s.WellFormed)
    (hp : s.piece.Admits (.number (.ofPointed digits fraction))) {d : Char} (hd : d.isDigit = true) :
    ∃ done : Array Token, done.toList = s.finish ∧
      ['.', d].foldl step (digits.toList.foldl step s) =
        ⟨done, .pointed digits (String.singleton d)⟩ := by
  by_cases h : digits = ""
  · subst h
    exact foldl_point hs hp hd
  · have hb : (Numeral.ofPointed digits fraction).text.toList.head? = digits.toList.head? := by
      rw [Numeral.ofPointed, String.append_assoc, String.toList_append]
      exact List.head?_append_of_ne_nil _ (by simpa using h)
    have read := foldl_digits ⟨h, hw⟩ hb hp
    refine ⟨s.ended, rfl, ?_⟩
    rw [read]
    simp [step, Piece.extend?, hd]

theorem finish_pointed {digits fraction : String} (hw : ∀ c ∈ digits.toList, c.isDigit = true)
    (hf : IsDigits fraction) {s : Scan} (hs : s.WellFormed)
    (hp : s.piece.Admits (.number (.ofPointed digits fraction))) :
    ((Token.number (.ofPointed digits fraction)).text.toList.foldl step s).finish =
      s.finish ++ [.number (.ofPointed digits fraction)] := by
  obtain ⟨hne, hall⟩ := hf
  cases e : fraction.toList with
  | nil => exact absurd (by simpa using e) hne
  | cons d rest =>
      rw [e] at hall
      obtain ⟨hd, hrest⟩ := List.forall_mem_cons.mp hall
      obtain ⟨done, hdone, start⟩ := foldl_pointed_start hw hs hp hd
      have ht : (Token.number (.ofPointed digits fraction)).text.toList =
          digits.toList ++ (['.', d] ++ rest) := by
        simp [Token.text, Numeral.ofPointed, e]
      have hf : String.singleton d ++ String.ofList rest = fraction := by
        simp [← String.toList_inj, e]
      rw [ht, List.foldl_append, List.foldl_append, start, foldl_pointed _ _ _ hrest, hf, finish_mk,
        hdone]
      rfl

/-- The piece ends in a stray run that strays and points go on with: the tokens before it, and the
run. -/
inductive EndsInStray : Piece → List Token → String → Prop
  | stray (text : String) : EndsInStray (.stray text) [] text
  | strayPoint (text : String) : EndsInStray (.strayPoint text) [] (text.push '.')
  | point (digits : String) : EndsInStray (.point digits) [.number (.ofWhole digits)] "."

theorem EndsInStray.tokens {p : Piece} {ts : List Token} {text : String}
    (h : EndsInStray p ts text) : p.tokens = ts ++ [.stray text] := by
  cases h <;> rfl

theorem EndsInStray.step {p : Piece} {ts : List Token} {text : String} (h : EndsInStray p ts text)
    {c : Char} (hc : isStray c = true ∨ c = '.') (done : Array Token) :
    ∃ done' p' ts', Scan.step ⟨done, p⟩ c = ⟨done', p'⟩ ∧ EndsInStray p' ts' (text.push c) ∧
      done'.toList ++ ts' = done.toList ++ ts := by
  have hd : c.isDigit = false := by
    obtain hc | rfl := hc
    · obtain ⟨-, -, -, hd, -⟩ := class_of_isStray hc
      exact hd
    · decide
  by_cases hp : c = '.'
  · subst hp
    cases h with
    | stray text => exact ⟨done, _, _, by simp [Scan.step, Piece.extend?], .strayPoint text, rfl⟩
    | strayPoint text =>
        exact ⟨done, _, _, by simp [Scan.step, Piece.extend?], .strayPoint (text.push '.'), rfl⟩
    | point digits =>
        exact ⟨done.push (.number (.ofWhole digits)), _, _, by simp [Scan.step, Piece.extend?],
          .strayPoint ".", by simp⟩
  · have hs : isStray c = true := hc.resolve_right hp
    cases h with
    | stray text =>
        exact ⟨done, _, _, by simp [Scan.step, Piece.extend?, hp, hs], .stray (text.push c), rfl⟩
    | strayPoint text =>
        exact ⟨done, _, _, by simp [Scan.step, Piece.extend?, hp, hs, hd],
          .stray ((text.push '.').push c), rfl⟩
    | point digits =>
        exact ⟨done.push (.number (.ofWhole digits)), _, _,
          by simp [Scan.step, Piece.extend?, hp, hs, hd, String.append_singleton],
          .stray (".".push c), by simp⟩

theorem EndsInStray.foldl {p : Piece} {ts : List Token} {text : String} (h : EndsInStray p ts text)
    {cs : List Char} (hcs : ∀ c ∈ cs, isStray c = true ∨ c = '.') (done : Array Token) :
    (cs.foldl Scan.step ⟨done, p⟩).finish =
      done.toList ++ ts ++ [.stray (text ++ String.ofList cs)] := by
  induction cs generalizing p ts text done with
  | nil => simp [finish_mk, h.tokens]
  | cons c cs ih =>
      obtain ⟨hc, hcs⟩ := List.forall_mem_cons.mp hcs
      obtain ⟨done', p', ts', e, h', hts⟩ := h.step hc done
      have ht : text.push c ++ String.ofList cs = text ++ String.ofList (c :: cs) := by
        simp [← String.toList_inj]
      rw [List.foldl_cons, e, ih h' hcs, hts, ht]

/-- Where a stray run may follow, its first character begins it. -/
theorem step_stray {c : Char} (hc : isStray c = true ∨ c = '.') {text : String} {s : Scan}
    (hp : s.piece.Admits (.stray text)) :
    ∃ done p ts, s.step c = ⟨done, p⟩ ∧ EndsInStray p ts (String.singleton c) ∧
      done.toList ++ ts = s.finish := by
  have fresh (hx : s.piece.extend? c = none) : ∃ done p ts, s.step c = ⟨done, p⟩ ∧
      EndsInStray p ts (String.singleton c) ∧ done.toList ++ ts = s.finish := by
    have hts : s.ended.toList ++ [] = s.finish := by rw [List.append_nil, toList_ended]
    obtain hs | rfl := hc
    · exact ⟨_, _, _, step_of_fresh hx (Piece.start_of_isStray hs), .stray _, hts⟩
    · exact ⟨_, _, _, step_of_fresh hx Piece.start_point, .strayPoint "", hts⟩
  cases hpiece : s.piece with
  | nothing => exact fresh (by rw [hpiece]; rfl)
  | name text =>
      obtain hs | rfl := hc
      · obtain ⟨-, hn, -⟩ := class_of_isStray hs
        exact fresh (by simp [hpiece, Piece.extend?, hn])
      · exact fresh (by rw [hpiece]; rfl)
  | pointed digits fraction =>
      obtain hs | rfl := hc
      · obtain ⟨-, -, -, hd, -⟩ := class_of_isStray hs
        exact fresh (by simp [hpiece, Piece.extend?, hd])
      · exact fresh (by rw [hpiece]; rfl)
  | whole digits =>
      obtain hs | rfl := hc
      · obtain ⟨-, -, -, hd, hdot, -⟩ := class_of_isStray hs
        exact fresh (by simp [hpiece, Piece.extend?, hd, hdot])
      · have e : s.step '.' = ⟨s.complete, .point digits⟩ := by
          simp [step, hpiece, Piece.extend?]
        exact ⟨_, _, _, e, .point digits, by simp [finish, hpiece, Piece.tokens]⟩
  | point | stray | strayPoint =>
      rw [hpiece] at hp
      exact absurd (hp _ rfl) (by simp [glued])

theorem finish_stray {text : String} (hne : text ≠ "") (h : IsStrayRun text) {s : Scan}
    (hp : s.piece.Admits (.stray text)) :
    ((Token.stray text).text.toList.foldl step s).finish = s.finish ++ [.stray text] := by
  cases e : text.toList with
  | nil => exact absurd (by simpa using e) hne
  | cons c rest =>
      unfold IsStrayRun at h
      rw [e] at h
      obtain ⟨hc, hrest⟩ := List.forall_mem_cons.mp h
      obtain ⟨done, p, ts, start, ends, hts⟩ := step_stray hc hp
      have ht : String.singleton c ++ String.ofList rest = text := by simp [← String.toList_inj, e]
      rw [Token.text, e, List.foldl_cons, start, ends.foldl hrest, hts, ht]

/-- Reading the text of a token adds the token. -/
theorem finish_foldl_text {t : Token} (ht : t.WellFormed) {s : Scan} (hs : s.WellFormed)
    (hp : s.piece.Admits t) : (t.text.toList.foldl step s).finish = s.finish ++ [t] := by
  cases ht with
  | whole h => exact finish_whole h hp
  | pointed hw hf => exact finish_pointed hw hf hs hp
  | identifier h => exact finish_identifier h hp
  | stray hne h => exact finish_stray hne h hp
  | symbol h => exact finish_symbol h s

/-- Blanks end the piece and add nothing. -/
theorem foldl_blanks {blanks : List Char} (h : ∀ c ∈ blanks, isBlank c = true) (s : Scan) :
    (blanks.foldl step s).finish = s.finish ∧
      (blanks = [] ∨ (blanks.foldl step s).piece = .nothing) := by
  induction blanks generalizing s with
  | nil => exact ⟨rfl, .inl rfl⟩
  | cons c blanks ih =>
      obtain ⟨hc, hrest⟩ := List.forall_mem_cons.mp h
      have e : s.step c = ⟨s.ended, .nothing⟩ :=
        step_of_fresh (Piece.extend?_of_isBlank hc _) (Piece.start_of_isBlank hc)
      obtain ⟨hf, hp⟩ := ih hrest (s.step c)
      rw [List.foldl_cons]
      refine ⟨?_, .inr ?_⟩
      · rw [hf, e, finish_mk, toList_ended]
        simp [Piece.tokens]
      · obtain rfl | hp := hp
        · simp [e]
        · exact hp

end Scan

/-! ### Reading the texts of many tokens -/

/-- The last token of a piece is the last one that would be given. -/
theorem Piece.admits_of_finish {s : Scan} {t u : Token} {ts : List Token}
    (h : s.finish = ts ++ [u]) (hu : glued u t = false) : s.piece.Admits t := by
  intro v hv
  obtain ⟨vs, hvs⟩ := List.getLast?_eq_some_iff.mp hv
  have e : s.complete.toList ++ vs ++ [v] = ts ++ [u] := by
    rw [← h, Scan.finish, Array.toList_appendList, hvs, List.append_assoc]
  have same : v = u := by simpa using (List.append_inj' e rfl).2
  rw [same]
  exact hu

theorem finish_foldl_spaced {ts : List Token} (hw : ∀ t ∈ ts, t.WellFormed)
    (hg : ts.IsChain (glued · · = false)) {text : List Char} (ht : Spaced ts text) {s : Scan}
    (hs : s.WellFormed) (hp : ∀ t ∈ ts.head?, s.piece.Admits t) :
    (text.foldl Scan.step s).finish = s.finish ++ ts := by
  induction ht generalizing s with
  | nil h => rw [(Scan.foldl_blanks h s).1, List.append_nil]
  | @cons blanks text t ts h rest ih =>
      obtain ⟨ht, hts⟩ := List.forall_mem_cons.mp hw
      obtain ⟨hf, hb⟩ := Scan.foldl_blanks h s
      have admits : (blanks.foldl Scan.step s).piece.Admits t := by
        obtain rfl | hb := hb
        · exact hp t rfl
        · simp [hb, Piece.Admits, Piece.tokens]
      have added := Scan.finish_foldl_text ht (hs.foldl blanks) admits
      rw [hf] at added
      rw [List.foldl_append, List.foldl_append,
        ih hts hg.tail ((hs.foldl blanks).foldl t.text.toList) ?_, added, List.append_assoc]
      · rfl
      · intro u hu
        refine Piece.admits_of_finish added ?_
        cases ts with
        | nil => cases hu
        | cons v ts =>
            cases hu
            exact List.isChain_cons_cons.mp hg |>.1

/-- **Tokens come back from their texts.**  Well-formed tokens with any blanks between them, no two
neighbours of which are glued, are the tokens of the text that they make. -/
theorem ofText_of_spaced {ts : List Token} (hw : ∀ t ∈ ts, t.WellFormed)
    (hg : ts.IsChain (glued · · = false)) {text : String} (ht : Spaced ts text.toList) :
    ofText text = ts :=
  finish_foldl_spaced hw hg ht Scan.initial_wellFormed fun t _ => by
    simp [Scan.initial, Piece.Admits, Piece.tokens]

/-! ### How many tokens a text has -/

namespace Piece

theorem length_start (c : Char) : (start c).1.length + (start c).2.tokens.length ≤ 1 := by
  obtain h | h | h | rfl | ⟨t, h⟩ | h := class_cases c
  · simp [start_of_isBlank h, tokens]
  · simp [start_of_isNameStart h, tokens]
  · simp [start_of_isDigit h, tokens]
  · simp [start_point, tokens]
  · simp [start_of_ofSymbol? h, tokens]
  · simp [start_of_isStray h, tokens]

theorem length_extend? {p p' : Piece} {c : Char} {ts : List Token} (e : p.extend? c = some (ts, p')) :
    ts.length + p'.tokens.length ≤ p.tokens.length + 1 := by
  unfold extend? at e
  repeat' split at e
  all_goals cases e <;> simp [tokens]

end Piece

theorem Scan.length_step (s : Scan) (c : Char) : (s.step c).finish.length ≤ s.finish.length + 1 := by
  cases e : s.piece.extend? c with
  | none =>
      rw [step_of_start e]
      have started := Piece.length_start c
      simp only [finish, Array.toList_appendList, List.length_append] at started ⊢
      omega
  | some next =>
      obtain ⟨ts, p⟩ := next
      rw [step_of_extend e]
      have extended := Piece.length_extend? e
      simp only [finish, Array.toList_appendList, List.length_append] at extended ⊢
      omega

theorem Scan.length_foldl (s : Scan) (cs : List Char) :
    (cs.foldl step s).finish.length ≤ s.finish.length + cs.length := by
  induction cs generalizing s with
  | nil => exact Nat.le_refl _
  | cons c cs ih =>
      have h := ih (s.step c)
      have := s.length_step c
      rw [List.foldl_cons, List.length_cons]
      omega

/-- A text has no more tokens than characters. -/
theorem length_ofText_le (text : String) : (ofText text).length ≤ text.length := by
  have h := Scan.initial.length_foldl text.toList
  rwa [String.length_toList, show Scan.initial.finish.length = 0 from rfl, Nat.zero_add] at h

end Token

end LineCalc
