import Mathlib.Data.List.TakeDrop
import Mathlib.Data.Nat.Find
import LineCalc.Proofs.Joining

/-! # The longest match wins

How a text is cut into tokens, in other words than those of the reader.

* What *matches* is a numeral, a name, a symbol, or any single character that is no blank (`Matches`).
* Blanks are skipped.  Where none stands, the longest beginning of the text that matches is the next
  token, and the single character only if nothing else of its length matches (`Longest`).
* A character that is a token for want of anything better goes on with a token of this kind that ends
  where it begins (`join`).

`Cuts` puts this together, and the reader gives these tokens and no others (`cuts_iff`).  Between two
matches the reader's piece may not yet be a token: after the `5` and the point of `5..5` it may still
become another numeral.  What counts is again the row of tokens that the reader would give if the text
ended there.  Nothing after a longest match is glued to it, since with it the match would be longer
(`Longest.not_glued`); so what follows adds its own token. -/

namespace LineCalc

namespace Token

/-! ### What matches -/

/-- Digits, digits around a point, or a point and digits. -/
inductive IsNumeral : String → Prop
  | whole {digits : String} (h : IsDigits digits) : IsNumeral digits
  | around {digits fraction : String} (h : IsDigits digits) (hf : IsDigits fraction) :
      IsNumeral (digits ++ "." ++ fraction)
  | fraction {fraction : String} (h : IsDigits fraction) : IsNumeral ("." ++ fraction)

/-- A text that matches, and its token.  A numeral that were no number would be stray. -/
inductive Matches : String → Token → Prop
  | numeral {text : String} (h : IsNumeral text) :
      Matches text (((Numeral.parse? text).map number).getD (.stray text))
  | name {text : String} (h : IsName text) : Matches text (.identifier text)
  | symbol {c : Char} {t : Token} (h : ofSymbol? c = some t) : Matches (String.singleton c) t
  | other {c : Char} (h : isBlank c = false) :
      Matches (String.singleton c) (.stray (String.singleton c))

/-- The longest beginning of the characters `cs` that matches, its token, and what is left. -/
structure Longest (cs : List Char) (text : String) (t : Token) (rest : List Char) : Prop where
  cut : cs = text.toList ++ rest
  isMatch : Matches text t
  longest : ∀ {other : String} {u : Token}, Matches other u → other.toList <+: cs →
    other.length ≤ text.length
  preferred : t = .stray text → ∀ {u : Token}, Matches text u → u = t

/-- Adds a token to a row.  If nothing stands between the two, a stray character goes on with a stray
run. -/
def join (ts : List Token) (adjacent : Bool) (t : Token) : List Token :=
  match t, if adjacent then ts.getLast? else none with
  | .stray text, some (.stray run) => ts.dropLast ++ [.stray (run ++ text)]
  | _, _ => ts ++ [t]

/-- The tokens `out` come of the tokens `ts` and what is left of the text.  The last of `ts` may end
directly before that. -/
inductive Cuts : List Token → Bool → List Char → List Token → Prop
  | finished {ts : List Token} {adjacent : Bool} : Cuts ts adjacent [] ts
  | blank {ts out : List Token} {adjacent : Bool} {c : Char} {cs : List Char}
      (h : isBlank c = true) (further : Cuts ts false cs out) : Cuts ts adjacent (c :: cs) out
  | token {ts out : List Token} {adjacent : Bool} {cs rest : List Char} {text : String} {t : Token}
      (h : Longest cs text t rest) (further : Cuts (join ts adjacent t) true rest out) :
      Cuts ts adjacent cs out

/-! ### Numerals are numbers -/

section Reading

variable {digits fraction : String}

theorem splitSign_of_isDigit {c : Char} (h : c.isDigit = true) (rest : List Char) :
    Decimal.splitSign (c :: rest) = (false, c :: rest) := by
  unfold Decimal.splitSign
  split
  · rename_i e
    cases e
    cases h
  · rename_i e
    cases e
    cases h
  · rfl

theorem splitDigits_append {run : List Char} (h : ∀ c ∈ run, c.isDigit = true) (rest : List Char)
    (hr : rest.head?.all (!·.isDigit) = true) : Decimal.splitDigits (run ++ rest) = (run, rest) := by
  rw [Decimal.splitDigits, List.span_eq_takeWhile_dropWhile, List.takeWhile_append_of_pos h,
    List.dropWhile_append_of_pos h]
  cases rest with
  | nil => simp
  | cons c rest => simp_all

theorem splitDigits_all {run : List Char} (h : ∀ c ∈ run, c.isDigit = true) :
    Decimal.splitDigits run = (run, []) := by
  have split := splitDigits_append h [] rfl
  rwa [List.append_nil] at split

theorem ofText?_whole (h : IsDigits digits) :
    Decimal.ofText? digits.toList = some (Decimal.ofDigits digits.toList []) := by
  have hne : digits.toList ≠ [] := by simpa using h.1
  simp [Decimal.ofText?, splitDigits_all h.2, hne, Decimal.exponent?, Decimal.scale]

theorem ofText?_pointed (h : ∀ c ∈ digits.toList, c.isDigit = true) (hf : IsDigits fraction) :
    Decimal.ofText? (digits.toList ++ '.' :: fraction.toList) =
      some (Decimal.ofDigits digits.toList fraction.toList) := by
  have hne : fraction.toList ≠ [] := by simpa using hf.1
  have first := splitDigits_append h ('.' :: fraction.toList) rfl
  simp [Decimal.ofText?, first, splitDigits_all hf.2, hne, Decimal.exponent?, Decimal.scale]

theorem parse?_whole (h : IsDigits digits) : Numeral.parse? digits = some (.ofWhole digits) := by
  have read := ofText?_whole h
  obtain ⟨hne, hall⟩ := h
  cases e : digits.toList with
  | nil => exact absurd (by simpa using e) hne
  | cons c rest =>
      rw [e] at hall read
      have sign := splitSign_of_isDigit (hall c List.mem_cons_self) rest
      simp [Numeral.parse?, Number.parse?, e, sign, read, Numeral.ofWhole]

theorem parse?_pointed (h : ∀ c ∈ digits.toList, c.isDigit = true) (hf : IsDigits fraction) :
    Numeral.parse? (digits ++ "." ++ fraction) = some (.ofPointed digits fraction) := by
  have read := ofText?_pointed h hf
  have noSign : Decimal.splitSign (digits.toList ++ '.' :: fraction.toList) =
      (false, digits.toList ++ '.' :: fraction.toList) := by
    cases e : digits.toList with
    | nil => rfl
    | cons c rest =>
        rw [e] at h
        exact splitSign_of_isDigit (h c List.mem_cons_self) _
  simp [Numeral.parse?, Number.parse?, noSign, read, Numeral.ofPointed]

end Reading

/-! ### The token of a match -/

theorem IsNumeral.pointed {digits fraction : String} (h : ∀ c ∈ digits.toList, c.isDigit = true)
    (hf : IsDigits fraction) : IsNumeral (digits ++ "." ++ fraction) := by
  by_cases hne : digits = ""
  · subst hne
    simpa using IsNumeral.fraction hf
  · exact .around ⟨hne, h⟩ hf

/-- Numerals are the texts of the numerals that texts have. -/
theorem IsNumeral.wellFormed {text : String} (h : IsNumeral text) :
    ∃ n : Numeral, Numeral.parse? text = some n ∧ (number n).WellFormed ∧ n.text = text := by
  cases h with
  | whole h => exact ⟨_, parse?_whole h, .whole h, rfl⟩
  | around h hf => exact ⟨_, parse?_pointed h.2 hf, .pointed h.2 hf, rfl⟩
  | @fraction fraction h =>
      have none : ∀ c ∈ "".toList, c.isDigit = true := by simp
      have read := parse?_pointed none h
      rw [String.empty_append] at read
      refine ⟨_, read, .pointed none h, ?_⟩
      simp [Numeral.ofPointed]

theorem ofSymbol?_ne_stray {c : Char} {t : Token} (h : ofSymbol? c = some t) (run : String) :
    t ≠ .stray run := by
  unfold ofSymbol? at h
  repeat' split at h
  all_goals cases h
  all_goals exact Token.noConfusion

/-! ### Glued tokens begin a longer match -/

/-- A longer match begins with the text, and goes on with the beginning of what follows. -/
def GoesOn (text following : String) : Prop :=
  ∃ more : String, more ≠ "" ∧ more.toList <+: following.toList ∧ ∃ v, Matches (text ++ more) v

theorem GoesOn.of_head? {text following : String} {d : Char} (hd : following.toList.head? = some d)
    {v : Token} (h : Matches (text.push d) v) : GoesOn text following := by
  obtain ⟨rest, e⟩ := List.head?_eq_some_iff.mp hd
  refine ⟨String.singleton d, singleton_ne_empty d, ⟨rest, by simp [e]⟩, v, ?_⟩
  rwa [String.append_singleton]

/-- The only numerals that begin with a point are those without digits before it. -/
theorem WellFormed.fraction_of_head? {n : Numeral} (h : (number n).WellFormed)
    (point : n.text.toList.head? = some '.') :
    ∃ fraction, IsDigits fraction ∧ n.text = "." ++ fraction := by
  have not_digit {digits : String} (hd : ∀ c ∈ digits.toList, c.isDigit = true) :
      digits.toList.head? ≠ some '.' := by
    intro e
    exact absurd (hd _ (List.mem_of_head? e)) (by decide)
  cases h with
  | whole h => exact absurd point (not_digit h.2)
  | @pointed digits fraction hw hf =>
      by_cases hne : digits = ""
      · subst hne
        exact ⟨fraction, hf, by simp [Numeral.ofPointed]⟩
      · rw [Numeral.ofPointed, String.append_assoc, String.toList_append,
          List.head?_append_of_ne_nil _ (by simpa using hne)] at point
        exact absurd point (not_digit hw)
  | symbol h =>
      unfold ofSymbol? at h
      repeat' split at h
      all_goals cases h

/-- A token that is glued to the next one, which is not stray, would be longer together with the
beginning of that.  Of stray tokens, only single characters are matches. -/
theorem goesOn_of_glued {t u : Token} (ht : t.WellFormed)
    (single : ∀ run, t = .stray run → ∃ c, run = String.singleton c) (hu : u.WellFormed)
    (plain : ∀ run, u ≠ .stray run) (hg : glued t u = true) : GoesOn t.text u.text := by
  cases ht with
  | identifier hn =>
      cases u with
      | identifier other =>
          obtain ⟨hne, start, part⟩ := hu.isName
          obtain ⟨d, hd⟩ := Option.ne_none_iff_exists'.mp
            (mt List.head?_eq_none_iff.mp (mt String.toList_eq_nil_iff.mp hne))
          exact .of_head? hd (.name (hn.push (isNamePart_of_isNameStart (start d hd))))
      | number b =>
          obtain ⟨d, hd, digit⟩ := Option.any_eq_true _ _ |>.mp hg
          exact .of_head? hd (.name (hn.push (isNamePart_of_isDigit digit)))
      | _ => cases hg
  | whole h =>
      cases u with
      | number b =>
          simp only [glued, Bool.or_eq_true, Bool.and_eq_true, beq_iff_eq] at hg
          obtain digit | ⟨-, point⟩ := hg
          · obtain ⟨d, hd, digit⟩ := Option.any_eq_true _ _ |>.mp digit
            exact .of_head? hd (.numeral (.whole (h.push digit)))
          · obtain ⟨fraction, hf, same⟩ := hu.fraction_of_head? point
            refine ⟨"." ++ fraction, ?_, ?_, _, .numeral ?_⟩
            · simp
            · exact same ▸ List.prefix_rfl
            · rw [← String.append_assoc]
              exact .around h hf
      | _ => cases hg
  | @pointed digits fraction hw hf =>
      cases u with
      | number b =>
          have point : '.' ∈ (Numeral.ofPointed digits fraction).text.toList := by
            simp [Numeral.ofPointed]
          simp only [glued, List.contains_iff_mem.mpr point, Bool.not_true, Bool.false_and,
            Bool.or_false] at hg
          obtain ⟨d, hd, digit⟩ := Option.any_eq_true _ _ |>.mp hg
          have longer : (Numeral.ofPointed digits fraction).text.push d =
              digits ++ "." ++ fraction.push d := by
            simp [← String.toList_inj, Numeral.ofPointed]
          exact .of_head? hd (.numeral (longer ▸ IsNumeral.pointed hw (hf.push digit)))
      | _ => cases hg
  | stray hne _ =>
      cases u with
      | stray run => exact absurd rfl (plain run)
      | number b =>
          obtain ⟨c, rfl⟩ := single _ rfl
          simp only [glued, String.toList_singleton, List.getLast?_singleton, Bool.and_eq_true,
            beq_iff_eq, Option.some_inj] at hg
          obtain ⟨rfl, digit⟩ := hg
          obtain ⟨d, hd, digit⟩ := Option.any_eq_true _ _ |>.mp digit
          refine .of_head? hd (.numeral ?_)
          rw [← String.append_singleton]
          exact .fraction (isDigits_singleton digit)
      | _ => cases hg
  | symbol h =>
      rw [(glued_of_ofSymbol? h u).1] at hg
      cases hg

namespace Longest

variable {cs rest : List Char} {text : String} {t : Token}

/-- A longest match is a well-formed token that is not stray, or a single character with which no such
token begins. -/
theorem cases (h : Longest cs text t rest) :
    (t.WellFormed ∧ t.text = text ∧ ∀ run, t ≠ .stray run) ∨
      ∃ c, text = String.singleton c ∧ t = .stray text ∧ (isStray c = true ∨ c = '.') := by
  have preferred := @h.preferred
  cases h.isMatch with
  | numeral hn =>
      obtain ⟨n, read, wellFormed, same⟩ := hn.wellFormed
      rw [read]
      exact .inl ⟨wellFormed, same, fun _ => Token.noConfusion⟩
  | name hn => exact .inl ⟨.identifier hn, rfl, fun _ => Token.noConfusion⟩
  | symbol hs => exact .inl ⟨.symbol hs, text_of_ofSymbol? hs, ofSymbol?_ne_stray hs⟩
  | @other c hb =>
      refine .inr ⟨c, rfl, rfl, ?_⟩
      obtain hc | hc | hc | hc | ⟨u, hc⟩ | hc := Piece.class_cases c
      · rw [hb] at hc
        cases hc
      · cases preferred rfl (.name (isName_singleton hc))
      · have numeral := preferred rfl (.numeral (.whole (isDigits_singleton hc)))
        rw [parse?_whole (isDigits_singleton hc)] at numeral
        cases numeral
      · exact .inr hc
      · exact absurd (preferred rfl (.symbol hc)) (ofSymbol?_ne_stray hc _)
      · exact .inl hc

/-- No match goes on with what follows. -/
theorem not_longer (h : Longest cs text t rest) {more : String} (hne : more ≠ "")
    (hm : more.toList <+: rest) (u : Token) : ¬ Matches (text ++ more) u := by
  intro longer
  have beginning : (text ++ more).toList <+: cs := by
    rw [h.cut, String.toList_append, List.prefix_append_right_inj]
    exact hm
  have hle := h.longest longer beginning
  rw [String.length_append] at hle
  have hzero : more.length = 0 := by omega
  exact hne (String.length_eq_zero_iff.mp hzero)

/-- The token of a longest match is well-formed and has the text that matches; a stray one is a single
character. -/
theorem wellFormed (h : Longest cs text t rest) :
    t.WellFormed ∧ t.text = text ∧ ∀ run, t = .stray run → ∃ c, run = String.singleton c := by
  obtain ⟨wellFormed, same, plain⟩ | ⟨c, rfl, rfl, hc⟩ := h.cases
  · exact ⟨wellFormed, same, fun run e => absurd e (plain run)⟩
  · refine ⟨.stray (singleton_ne_empty c) ?_, rfl, fun run e => ?_⟩
    · intro d hd
      obtain rfl : d = c := by simpa using hd
      exact hc
    · cases e
      exact ⟨c, rfl⟩

/-- No token begins after a longest match that would be a part of it. -/
theorem not_glued (h : Longest cs text t rest) {u : Token} (hu : u.WellFormed)
    (plain : ∀ run, u ≠ .stray run) (hp : u.text.toList <+: rest) : glued t u = false := by
  rw [Bool.eq_false_iff]
  intro hg
  obtain ⟨wellFormed, same, single⟩ := h.wellFormed
  obtain ⟨more, hne, beginning, v, longer⟩ := goesOn_of_glued wellFormed single hu plain hg
  exact h.not_longer hne (beginning.trans hp) v (same ▸ longer)

end Longest

/-! ### The reader follows the matches -/

theorem join_of_plain (ts : List Token) (adjacent : Bool) {t : Token} (plain : ∀ run, t ≠ .stray run) :
    join ts adjacent t = ts ++ [t] := by
  cases t with
  | stray run => exact absurd rfl (plain run)
  | _ => rfl

/-- Of a stray run, only the last character tells what it is glued to, if that is not stray. -/
theorem glued_stray_append {u : Token} (plain : ∀ run, u ≠ .stray run) (run : String) (c : Char) :
    glued (.stray (run ++ String.singleton c)) u = glued (.stray (String.singleton c)) u := by
  cases u with
  | stray other => exact absurd rfl (plain other)
  | _ => simp [glued]

namespace Scan

/-- The reader stands between two matches: the tokens `ts` are what it would give, and `cs` is left of
the text.  If the last of `ts` ends here, then what follows is not glued to it, but a stray run may go
on. -/
structure Between (s : Scan) (ts : List Token) (adjacent : Bool) (cs : List Char) : Prop where
  wellFormed : s.WellFormed
  finish : s.finish = ts
  fresh : adjacent = false → s.piece = .nothing
  endsInStray : adjacent = true → ∀ run, ts.getLast? = some (.stray run) →
    ∃ before, EndsInStray s.piece before run
  stops : adjacent = true → ∀ t ∈ ts.getLast?, ∀ u : Token, u.WellFormed → (∀ run, u ≠ .stray run) →
    u.text.toList <+: cs → glued t u = false

namespace Between

variable {s : Scan} {ts : List Token} {adjacent : Bool} {cs rest : List Char} {text : String} {t : Token}

/-- The last token of the piece is the last of the row, and what follows stands directly after it. -/
theorem last_of_piece (h : s.Between ts adjacent cs) {u : Token} (hu : u ∈ s.piece.tokens.getLast?) :
    adjacent = true ∧ u ∈ ts.getLast? := by
  constructor
  · by_contra none
    rw [h.fresh (Bool.not_eq_true _ ▸ none)] at hu
    cases hu
  · rw [← h.finish, Scan.finish, Array.toList_appendList, List.getLast?_append,
      Option.mem_def.mp hu]
    rfl

theorem blank (h : s.Between ts adjacent cs) {c : Char} (hc : isBlank c = true) :
    (s.step c).Between ts false rest := by
  have one : ∀ d ∈ [c], isBlank d = true := by simpa using hc
  obtain ⟨same, nothing⟩ := foldl_blanks one s
  exact ⟨h.wellFormed.step c, same.trans h.finish, fun _ => nothing.resolve_left (by simp),
    fun e => (nomatch e), fun e => (nomatch e)⟩

/-- A token that is not stray is added. -/
theorem plain (h : s.Between ts adjacent cs) (hl : Longest cs text t rest) (ht : t.WellFormed)
    (same : t.text = text) (plain : ∀ run, t ≠ .stray run) :
    (text.toList.foldl step s).Between (ts ++ [t]) true rest := by
  have admits : s.piece.Admits t := by
    intro u hu
    obtain ⟨next, last⟩ := h.last_of_piece hu
    exact h.stops next u last t ht plain (same ▸ hl.cut ▸ List.prefix_append _ _)
  have added := finish_foldl_text ht h.wellFormed admits
  rw [same, h.finish] at added
  refine ⟨h.wellFormed.foldl _, added, fun e => (nomatch e), fun _ run last => ?_, fun _ u last => ?_⟩
  · rw [List.getLast?_concat] at last
    exact absurd (Option.some.inj last) (plain run)
  · rw [List.getLast?_concat] at last
    obtain rfl := Option.some.inj last
    intro v hv plain hp
    exact hl.not_glued hv plain hp

/-- After a stray character. -/
theorem of_endsInStray {done : Array Token} {p : Piece} {before : List Token} {run : String}
    (wellFormed : Scan.WellFormed ⟨done, p⟩) (ends : EndsInStray p before run)
    (complete : done.toList ++ before = ts)
    (stops : ∀ u : Token, u.WellFormed → (∀ run, u ≠ .stray run) → u.text.toList <+: rest →
      glued (.stray run) u = false) :
    Between ⟨done, p⟩ (ts ++ [.stray run]) true rest := by
  refine ⟨wellFormed, ?_, fun e => (nomatch e), fun _ other last => ?_, fun _ u last => ?_⟩
  · rw [finish_mk, ends.tokens, ← List.append_assoc, complete]
  · rw [List.getLast?_concat] at last
    cases last
    exact ⟨before, ends⟩
  · rw [List.getLast?_concat] at last
    cases last
    exact stops

/-- A stray character is added, or the stray run directly before it goes on. -/
theorem stray (h : s.Between ts adjacent cs) {c : Char}
    (hl : Longest cs (String.singleton c) (.stray (String.singleton c)) rest)
    (hc : isStray c = true ∨ c = '.') :
    (s.step c).Between (join ts adjacent (.stray (String.singleton c))) true rest := by
  have stops (u : Token) (hu : u.WellFormed) (plain : ∀ run, u ≠ .stray run)
      (hp : u.text.toList <+: rest) : glued (.stray (String.singleton c)) u = false :=
    hl.not_glued hu plain hp
  have wellFormed := h.wellFormed.step c
  by_cases run : ∃ run, adjacent = true ∧ ts.getLast? = some (.stray run)
  · obtain ⟨run, rfl, last⟩ := run
    obtain ⟨before, ends⟩ := h.endsInStray rfl run last
    obtain ⟨done, p, before', e, ends', same⟩ := ends.step hc s.complete
    have finished : s.complete.toList ++ before ++ [.stray run] = ts := by
      rw [← h.finish, Scan.finish, Array.toList_appendList, ends.tokens, List.append_assoc]
    have joined : join ts true (.stray (String.singleton c)) =
        ts.dropLast ++ [.stray (run ++ String.singleton c)] := by
      simp [join, last]
    rw [joined, show s.step c = ⟨done, p⟩ from e]
    rw [show s.step c = ⟨done, p⟩ from e] at wellFormed
    refine of_endsInStray wellFormed (String.append_singleton ▸ ends') ?_ fun u hu plain hp => ?_
    · rw [same, ← finished, List.dropLast_concat]
    · rw [glued_stray_append plain]
      exact stops u hu plain hp
  · have joined : join ts adjacent (.stray (String.singleton c)) =
        ts ++ [.stray (String.singleton c)] := by
      unfold join
      split
      · rename_i last
        split at last
        · exact absurd ⟨_, ‹_›, last⟩ run
        · cases last
      · rfl
    have admits : s.piece.Admits (.stray (String.singleton c)) := by
      intro u hu
      obtain ⟨next, last⟩ := h.last_of_piece hu
      cases u with
      | stray other => exact absurd ⟨other, next, last⟩ run
      | _ => rfl
    obtain ⟨done, p, before, e, ends, same⟩ := step_stray hc admits
    rw [joined, e]
    rw [e] at wellFormed
    exact of_endsInStray wellFormed ends (same.trans h.finish) stops

/-- The reader follows a longest match. -/
theorem token (h : s.Between ts adjacent cs) (hl : Longest cs text t rest) :
    (text.toList.foldl step s).Between (join ts adjacent t) true rest := by
  obtain ⟨wellFormed, same, plain⟩ | ⟨c, rfl, rfl, hc⟩ := hl.cases
  · rw [join_of_plain ts adjacent plain]
    exact h.plain hl wellFormed same plain
  · rw [String.toList_singleton]
    exact h.stray hl hc

end Between

/-- Cutting by longest matches gives the tokens that the reader gives. -/
theorem Between.finish_foldl {s : Scan} {ts out : List Token} {adjacent : Bool} {cs : List Char}
    (h : s.Between ts adjacent cs) (cuts : Cuts ts adjacent cs out) :
    (cs.foldl step s).finish = out := by
  induction cuts generalizing s with
  | finished => exact h.finish
  | blank hc _ ih => exact ih (h.blank hc)
  | token hl _ ih =>
      rw [hl.cut, List.foldl_append]
      exact ih (h.token hl)

theorem between_initial (cs : List Char) : initial.Between [] false cs :=
  ⟨initial_wellFormed, rfl, fun _ => rfl, fun e => (nomatch e), fun e => (nomatch e)⟩

end Scan

/-! ### There always is a longest match -/

/-- A character that is no blank begins a match, so there is a longest one. -/
theorem exists_longest {c : Char} (h : isBlank c = false) (cs : List Char) :
    ∃ text t rest, Longest (c :: cs) text t rest ∧ rest.length ≤ cs.length := by
  classical
  let begins (n : Nat) : Prop := ∃ t, Matches (String.ofList ((c :: cs).take n)) t
  have one : begins 1 := ⟨_, .other h⟩
  have some : 1 ≤ (c :: cs).length := Nat.succ_le_succ (Nat.zero_le _)
  let n := Nat.findGreatest begins (c :: cs).length
  have hn : begins n := Nat.findGreatest_spec some one
  have pos : 1 ≤ n := Nat.le_findGreatest some one
  have le : n ≤ (c :: cs).length := Nat.findGreatest_le _
  let text := String.ofList ((c :: cs).take n)
  have length : text.length = n := by
    rw [String.length_ofList, List.length_take, Nat.min_eq_left le]
  have cut : c :: cs = text.toList ++ (c :: cs).drop n := by
    rw [String.toList_ofList, List.take_append_drop]
  have longest {other : String} {u : Token} (hm : Matches other u) (hp : other.toList <+: c :: cs) :
      other.length ≤ text.length := by
    have e : String.ofList ((c :: cs).take other.length) = other := by
      rw [← String.length_toList, ← List.prefix_iff_eq_take.mp hp, String.ofList_toList]
    have fits : other.length ≤ (c :: cs).length := String.length_toList ▸ hp.length_le
    rw [length]
    exact Nat.le_findGreatest fits ⟨u, e.symm ▸ hm⟩
  have shorter : ((c :: cs).drop n).length ≤ cs.length := by
    rw [List.length_drop, List.length_cons]
    omega
  by_cases better : ∃ t, Matches text t ∧ t ≠ .stray text
  · obtain ⟨t, hm, ne⟩ := better
    exact ⟨text, t, _, ⟨cut, hm, longest, fun e => absurd e ne⟩, shorter⟩
  · obtain ⟨t, hm⟩ := hn
    have only {u : Token} (hu : Matches text u) : u = .stray text :=
      not_not.mp fun ne => better ⟨u, hu, ne⟩
    exact ⟨text, t, _, ⟨cut, hm, longest, fun e _ hu => (only hu).trans e.symm⟩, shorter⟩

theorem exists_cuts (ts : List Token) (adjacent : Bool) (cs : List Char) :
    ∃ out, Cuts ts adjacent cs out := by
  induction hn : cs.length using Nat.strongRecOn generalizing ts adjacent cs with
  | ind n ih =>
      subst hn
      cases cs with
      | nil => exact ⟨ts, .finished⟩
      | cons c cs =>
          by_cases hc : isBlank c = true
          · obtain ⟨out, further⟩ := ih cs.length (Nat.lt_succ_self _) ts false cs rfl
            exact ⟨out, .blank hc further⟩
          · obtain ⟨text, t, rest, hl, shorter⟩ := exists_longest (Bool.not_eq_true _ ▸ hc) cs
            obtain ⟨out, further⟩ :=
              ih rest.length (Nat.lt_succ_of_le shorter) (join ts adjacent t) true rest rfl
            exact ⟨out, .token hl further⟩

/-- The tokens of a text are those that longest matches give. -/
theorem cuts_iff {text : String} {ts : List Token} :
    Cuts [] false text.toList ts ↔ ts = ofText text := by
  constructor
  · intro cuts
    exact ((Scan.between_initial _).finish_foldl cuts).symm
  · rintro rfl
    obtain ⟨out, cuts⟩ := exists_cuts [] false text.toList
    rwa [show ofText text = out from (Scan.between_initial _).finish_foldl cuts]

/-- **Cutting a text loses, invents and reorders nothing.**  The tokens of a text, which are those of
longest matches, have the characters of the text without its blanks as their texts; and the text of each
of them by itself is cut into just this token, with the same number if it is a numeral. -/
theorem ofText_lossless (text : String) :
    (∀ ts, Cuts [] false text.toList ts ↔ ts = ofText text) ∧
    joinedText (ofText text) = String.ofList (text.toList.filter fun c => !isBlank c) ∧
    ∀ t ∈ ofText text, ofText t.text = [t] := by
  refine ⟨fun ts => cuts_iff, ?_, ?_⟩
  · rw [← String.toList_inj, toList_joinedText, chars_ofText, String.toList_ofList]
  · intro t ht
    exact canonical_iff.mpr (ofText_wellFormed text t ht)

/-- Points that belong to a numeral, end a stray run or begin one. -/
theorem ofText_lossless_points :
    let text := "x5. 1.2.3..5\té$"
    ofText text = [.identifier "x5", .stray ".", .number (.ofPointed "1" "2"),
      .number (.ofPointed "" "3"), .stray ".", .number (.ofPointed "" "5"), .stray "é$"] ∧
    joinedText (ofText text) = "x5.1.2.3..5é$" ∧
    ofText ".3" = [.number (.ofPointed "" "3")] := by
  intro text
  have tokens : ofText text = [.identifier "x5", .stray ".", .number (.ofPointed "1" "2"),
      .number (.ofPointed "" "3"), .stray ".", .number (.ofPointed "" "5"), .stray "é$"] := by
    decide +kernel
  obtain ⟨-, joined, canonical⟩ := ofText_lossless text
  refine ⟨tokens, joined.trans (by decide +kernel), ?_⟩
  exact canonical (.number (.ofPointed "" "3")) (by simp [tokens])

end Token

end LineCalc
