import LineCalc.Proofs.TokenTexts

/-! # Cutting a text into tokens loses nothing

The texts of the tokens of a text, one after the other, are the text without its blanks
(`chars_ofText`).  A character is added to them by each step of the reader: to the text of a token that
it extends, or of one that it begins, or of one that it is (`chars_step`).

Blanks are a boundary that no token reaches across (`ofText_append_blanks`).  After one the reader stands
as it does at the beginning of a text, apart from the tokens that are complete, and these make no
difference to what follows (`Scan.foldl_after`).

A character that occurs in one kind of token only tells of such a token.  A row of tokens without
`=` has none after its text has been read again, whatever its other tokens become
(`equals_of_joinedText`). -/

namespace LineCalc

namespace Token

/-- The characters of a row of tokens. -/
def chars (tokens : List Token) : List Char := tokens.flatMap fun t => t.text.toList

@[simp] theorem chars_nil : chars [] = [] := rfl

@[simp] theorem chars_cons (t : Token) (tokens : List Token) :
    chars (t :: tokens) = t.text.toList ++ chars tokens := rfl

@[simp] theorem chars_append (tokens more : List Token) :
    chars (tokens ++ more) = chars tokens ++ chars more := by
  simp [chars]

theorem toList_joinedText (tokens : List Token) : (joinedText tokens).toList = chars tokens := by
  simp [joinedText, chars, String.toList_join, List.flatMap_def, Function.comp_def]

namespace Piece

/-- The characters that a piece without anything before it has read. -/
theorem chars_start (c : Char) :
    chars ((start c).1 ++ (start c).2.tokens) = if isBlank c then [] else [c] := by
  obtain h | h | h | rfl | ⟨t, h⟩ | h := class_cases c
  · simp [start_of_isBlank h, tokens, h]
  · simp [start_of_isNameStart h, tokens, text, (class_of_isNameStart h).1]
  · simp [start_of_isDigit h, tokens, text, Numeral.ofWhole, (class_of_isDigit h).1]
  · decide
  · simp [start_of_ofSymbol? h, tokens, text_of_ofSymbol? h, (class_of_ofSymbol? h).1]
  · simp [start_of_isStray h, tokens, text, (class_of_isStray h).1]

theorem chars_extend? {p p' : Piece} {c : Char} {ts : List Token} (e : p.extend? c = some (ts, p')) :
    chars (ts ++ p'.tokens) = chars p.tokens ++ [c] := by
  unfold extend? at e
  repeat' split at e
  all_goals cases e
  all_goals simp_all [tokens, text, Numeral.ofWhole, Numeral.ofPointed]

end Piece

namespace Scan

/-- Each character that is no blank is added to the characters of the tokens. -/
theorem chars_step (s : Scan) (c : Char) :
    chars (s.step c).finish = chars s.finish ++ if isBlank c then [] else [c] := by
  cases e : s.piece.extend? c with
  | none =>
      rw [step_of_start e, finish_mk, ← Piece.chars_start c]
      simp [finish]
  | some next =>
      obtain ⟨ts, p⟩ := next
      have hb : isBlank c = false := by
        rw [Bool.eq_false_iff]
        intro hb
        rw [Piece.extend?_of_isBlank hb] at e
        cases e
      have extended := Piece.chars_extend? e
      rw [chars_append] at extended
      rw [step_of_extend e, finish_mk, hb]
      simp [finish, extended]

theorem chars_foldl (s : Scan) (cs : List Char) :
    chars (cs.foldl step s).finish = chars s.finish ++ cs.filter fun c => !isBlank c := by
  induction cs generalizing s with
  | nil => simp
  | cons c cs ih =>
      rw [List.foldl_cons, ih, chars_step, List.append_assoc]
      cases hb : isBlank c <;> simp [hb]

end Scan

/-- The characters of the tokens of a text are those of the text, without its blanks. -/
theorem chars_ofText (text : String) :
    chars (ofText text) = text.toList.filter fun c => !isBlank c :=
  Scan.initial.chars_foldl text.toList

/-! ### Blanks between two texts -/

namespace Scan

/-- The reading of a text after `done`. -/
def after (done : Array Token) (s : Scan) : Scan := ⟨done ++ s.complete, s.piece⟩

theorem step_after (done : Array Token) (s : Scan) (c : Char) :
    (s.after done).step c = (s.step c).after done := by
  unfold step after
  cases s.piece.extend? c with
  | some next => simp [← Array.toList_inj]
  | none => simp [← Array.toList_inj]

theorem foldl_after (done : Array Token) (s : Scan) (cs : List Char) :
    cs.foldl step (s.after done) = (cs.foldl step s).after done := by
  induction cs generalizing s with
  | nil => rfl
  | cons c cs ih => rw [List.foldl_cons, step_after, ih, List.foldl_cons]

theorem finish_after (done : Array Token) (s : Scan) :
    (s.after done).finish = done.toList ++ s.finish := by
  simp [finish, after]

/-- Where nothing has been read of a token, the reader is at the beginning, after its tokens. -/
theorem eq_after_of_piece {s : Scan} (h : s.piece = .nothing) : s = initial.after s.finish.toArray := by
  obtain ⟨complete, piece⟩ := s
  obtain rfl : piece = .nothing := h
  simp [after, initial, finish, Piece.tokens]

/-- After a blank all tokens are complete. -/
theorem foldl_blanks_eq_after {blanks : List Char} (hne : blanks ≠ [])
    (h : ∀ c ∈ blanks, isBlank c = true) (s : Scan) :
    blanks.foldl step s = initial.after s.finish.toArray := by
  obtain ⟨same, nothing⟩ := foldl_blanks h s
  rw [eq_after_of_piece (nothing.resolve_left hne), same]

/-- What follows a blank is read as a text of its own. -/
theorem finish_foldl_blanks {blanks : List Char} (hne : blanks ≠ [])
    (h : ∀ c ∈ blanks, isBlank c = true) (s : Scan) (t : String) :
    (t.toList.foldl step (blanks.foldl step s)).finish = s.finish ++ ofText t := by
  rw [foldl_blanks_eq_after hne h, foldl_after, finish_after, ofText]

end Scan

/-- **Blanks are a boundary of tokens.**  Two texts with blanks between them, at least one, have the
tokens of the first and those of the second; and blanks have no tokens. -/
theorem ofText_append_blanks (s t : String) {w : String} (hne : w ≠ "")
    (blank : ∀ c ∈ w.toList, isBlank c = true) :
    ofText (s ++ w ++ t) = ofText s ++ ofText t ∧ ofText w = [] := by
  have hne' : w.toList ≠ [] := by simpa using hne
  constructor
  · rw [ofText, String.toList_append, String.toList_append, List.foldl_append, List.foldl_append,
      Scan.finish_foldl_blanks hne' blank, ← ofText]
  · unfold ofText
    rw [Scan.foldl_blanks_eq_after hne' blank, Scan.finish_after]
    rfl

/-- The point stays a part of the stray run `?.`.  Without the tab and the form feed it would begin the
numeral `.5`. -/
theorem ofText_append_blanks_point :
    "\t\x0c" ≠ "" ∧ (∀ c ∈ "\t\x0c".toList, isBlank c = true) ∧
    ofText ("x = ?." ++ "\t\x0c" ++ "5") =
      [.identifier "x", .equals, .stray "?."] ++ [.number (.ofWhole "5")] ∧
    ofText "\t\x0c" = [] := by
  have hne : "\t\x0c" ≠ "" := by decide
  have blank : ∀ c ∈ "\t\x0c".toList, isBlank c = true := by simp [isBlank]
  obtain ⟨cut, none⟩ := ofText_append_blanks "x = ?." "5" hne blank
  exact ⟨hne, blank, cut.trans (by decide +kernel), none⟩

/-! ### The sign of an assignment -/

/-- The character occurs in one token only. -/
theorem eq_equals_of_mem {t : Token} (h : t.WellFormed) (mem : '=' ∈ t.text.toList) : t = .equals := by
  cases h with
  | whole h => exact absurd (h.2 _ mem) (by decide)
  | pointed hw hf =>
      simp only [text, Numeral.ofPointed, String.toList_append, List.mem_append] at mem
      obtain (mem | mem) | mem := mem
      · exact absurd (hw _ mem) (by decide)
      · exact absurd mem (by decide)
      · exact absurd (hf.2 _ mem) (by decide)
  | identifier h => exact absurd (h.2.2 _ mem) (by decide)
  | stray hne h => exact absurd (h _ mem) (by decide)
  | @symbol c _ h =>
      rw [text_of_ofSymbol? h] at mem
      have e : '=' = c := by simpa using mem
      subst e
      cases h
      rfl

/-- Reading the text of tokens again makes no `=` out of others. -/
theorem equals_of_joinedText {tokens : List Token} (hw : ∀ t ∈ tokens, t.WellFormed)
    (h : .equals ∈ ofText (joinedText tokens)) : .equals ∈ tokens := by
  have read : '=' ∈ chars (ofText (joinedText tokens)) :=
    List.mem_flatMap.mpr ⟨.equals, h, by decide⟩
  rw [chars_ofText, List.mem_filter, toList_joinedText] at read
  obtain ⟨t, ht, mem⟩ := List.mem_flatMap.mp read.1
  exact eq_equals_of_mem (hw t ht) mem ▸ ht

end Token

end LineCalc
