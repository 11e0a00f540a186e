import LineCalc.Proofs.CutSessions
import LineCalc.Proofs.Encoding
import LineCalc.Proofs.Joining
import LineCalc.Proofs.Policies

/-! # One line of output for each line of input

What a line gives takes up one line, so a session without a prompt answers line for line
(`run_line_for_line`).

* Every fault is about one text (`Fault.subject`).  It is a token that has been read, the line itself or
  a number.  Tokens have no blanks, wherever they were read, so what is remembered plays no part
  (`quoting`, `evaluate_oneLine`).
* A text without a newline has no line feed among its bytes (`lineFeed_not_mem_encode`).
* Bytes have as many lines as line feeds, and one more if the last line is broken off
  (`Lines.length_cut`). -/

namespace LineCalc

/-- A text that has no newline. -/
def OneLine (text : String) : Prop := '\n' ∉ text.toList

instance : DecidablePred OneLine := fun text => inferInstanceAs (Decidable ('\n' ∉ text.toList))

theorem oneLine_append {s t : String} : OneLine (s ++ t) ↔ OneLine s ∧ OneLine t := by
  simp [OneLine]

theorem oneLine_toString (n : Nat) : OneLine (toString n) := by
  have chars : (toString n).toList = Nat.toDigits 10 n := String.toList_ofList
  unfold OneLine
  rw [chars]
  exact fun mem => absurd (Decimal.isDigit_of_mem_toDigits mem) (by decide)

/-! ### Tokens and numbers -/

theorem Token.WellFormed.oneLine {t : Token} (h : t.WellFormed) : OneLine t.text :=
  fun mem => absurd (h.not_isBlank _ mem) (by decide)

theorem Number.oneLine_text (x : Float) : OneLine (text x) := by
  have signed {s : String} (h : OneLine s) : ∀ negative, OneLine (signed negative s)
    | true => oneLine_append.mpr ⟨by decide, h⟩
    | false => h
  unfold text
  cases Shape.ofFloat x with
  | nan => decide
  | infinite negative => exact signed (by decide) negative
  | finite negative p =>
      apply signed
      rw [← Decimal.text_numeral]
      exact (Decimal.wellFormed_numeral (.shortest p)).oneLine

/-! ### Faults -/

namespace Fault

/-- The text that a fault is about. -/
def subject : Fault → String
  | endOfInput => ""
  | trailingTokens text | repeatedParameter text | malformedDefinition text | emptyBody text
  | unexpectedToken text | invalidTarget text | nameIsVariable text | nameIsFunction text
  | unknownIdentifier text | undefinedVariable text => text
  | depthExceeded limit => toString limit

theorem oneLine_message {fault : Fault} (h : OneLine fault.subject) : OneLine fault.message := by
  have around {s t : String} (hs : OneLine s) (ht : OneLine t) : OneLine (s ++ fault.subject ++ t) :=
    oneLine_append.mpr ⟨oneLine_append.mpr ⟨hs, h⟩, ht⟩
  cases fault with
  | endOfInput => decide
  | _ => exact around (by decide) (by decide)

end Fault

/-- A definition is refused because of one of its tokens, or because it ends too early. -/
theorem Definition.Refused.subject {isVariable : String → Bool} {tokens : List Token} {fault : Fault}
    (h : Refused isVariable tokens fault) :
    (∃ t ∈ tokens, fault.subject = t.text) ∨ fault.subject = "" ∨ fault.subject = "end of input" := by
  cases h with
  | endOfInput => exact .inr (.inl rfl)
  | nameIsVariable h => exact .inl ⟨_, List.mem_of_mem_head? h, rfl⟩
  | @repeatedParameter name parameter names rest h =>
      exact .inl ⟨.identifier parameter, by simp [h], rfl⟩
  | misplaced h => exact .inl ⟨_, h, rfl⟩
  | unfinished => exact .inr (.inr rfl)
  | @emptyBody name parameters h => exact .inl ⟨.identifier name, by simp [h, written], rfl⟩
  | @unknownIdentifier name unknown f h hb =>
      exact .inl ⟨.identifier unknown, by simp [h, written, hb], rfl⟩

/-- Where an expression is evaluated, tokens are well formed, and faults are about one line of text. -/
def Eval.quoting : Policy where
  row r := ∀ t ∈ r, t.WellFormed
  kept _ := True
  fault f := OneLine f.subject
  tail h t ht := h t (List.mem_cons_of_mem _ ht)
  body _ _ _ := Token.ofText_wellFormed _
  number _ := Token.ofText_wellFormed _
  moved _ _ := trivial
  noted _ _ := trivial
  entered _ _ := trivial
  left _ := trivial
  assigned _ _ _ := trivial
  endOfInput := by decide
  unexpected row wanted _ := (row _ (Token.mem_of_operandToken? wanted)).oneLine
  target row _ := (row _ List.mem_cons_self).oneLine
  isFunction _ row _ := (row _ List.mem_cons_self).oneLine
  undefined _ row _ _ := (row _ List.mem_cons_self).oneLine
  tooDeep _ := oneLine_toString _

/-- A line without a newline gives a text without a newline, whatever is remembered. -/
theorem Calculator.evaluate_oneLine (c : Calculator) {text : String} (h : OneLine text) :
    OneLine (c.evaluate text).outcome.text := by
  have wellFormed := Token.ofText_wellFormed text
  cases e : (c.evaluate text).outcome with
  | ok value =>
      cases value with
      | none => decide
      | some x => exact Number.oneLine_text x
  | error fault =>
      apply Fault.oneLine_message
      by_cases hd : Token.IsDefinition (Token.ofText text)
      · obtain ⟨rest, tokens⟩ := Token.isDefinition_iff.mp hd
        rw [tokens] at wellFormed
        obtain ⟨t, mem, same⟩ | same | same := (refused_of_evaluate tokens e).subject
        · rw [same]
          exact (wellFormed t (List.mem_cons_of_mem _ mem)).oneLine
        · rw [same]
          decide
        · rw [same]
          decide
      · exact (evaluate_keeps Eval.quoting hd wellFormed h trivial).1 fault e

/-! ### Rows that are cut into lines -/

namespace Lines

variable {α : Type} {isEnd : α → Bool}

/-- A line is a row without an end, or such a row with an end after it. -/
theorem of_mem_cut {row line : List α} (h : line ∈ cut isEnd row) :
    ∃ body, (∀ a ∈ body, isEnd a = false) ∧ (line = body ∨ ∃ e, isEnd e = true ∧ line = body ++ [e]) := by
  refine line_induction isEnd (P := fun row => line ∈ cut isEnd row → ∃ body,
    (∀ a ∈ body, isEnd a = false) ∧ (line = body ∨ ∃ e, isEnd e = true ∧ line = body ++ [e]))
    ?last ?line row h
  case last =>
      intro row none h
      by_cases hne : row = []
      · rw [hne] at h
        cases h
      · rw [cut_of_not_isEnd none hne, List.mem_singleton] at h
        exact ⟨row, none, .inl h⟩
  case line =>
      intro body e rest none he ih h
      rw [cut_append_cons none he, List.mem_cons] at h
      obtain rfl | h := h
      · exact ⟨body, none, .inr ⟨e, he, rfl⟩⟩
      · exact ih h

/-- There are as many lines as ends, and one more if the last line is broken off. -/
theorem length_cut (row : List α) :
    (cut isEnd row).length = row.countP isEnd + if Whole isEnd row then 0 else 1 := by
  refine line_induction isEnd (P := fun row =>
    (cut isEnd row).length = row.countP isEnd + if Whole isEnd row then 0 else 1) ?last ?line row
  case last =>
      intro row none
      have noEnd : row.countP isEnd = 0 := by simpa [List.countP_eq_zero] using none
      by_cases hne : row = []
      · subst hne
        rfl
      · have broken : ¬ Whole isEnd row := fun whole => hne (whole.eq_nil none)
        rw [cut_of_not_isEnd none hne, noEnd, if_neg broken]
        rfl
  case line =>
      intro line e rest none he ih
      have noEnd : line.countP isEnd = 0 := by simpa [List.countP_eq_zero] using none
      have whole : Whole isEnd (line ++ e :: rest) ↔ Whole isEnd rest := by
        cases rest with
        | nil => simp [Whole, he]
        | cons a rest => simp [Whole, List.getLast?_append, List.getLast?_cons]
      rw [cut_append_cons none he, List.length_cons, ih, List.countP_append, noEnd, List.countP_cons,
        if_pos he]
      simp only [whole]
      omega

variable {e : α} (he : isEnd e = true) {rows : List (List α)}
  (h : ∀ row ∈ rows, ∀ a ∈ row, isEnd a = false)
include he h

/-- Rows without an end, each with an end after it, are the lines of what they make up. -/
theorem cut_flatMap : cut isEnd (rows.flatMap (· ++ [e])) = rows.map (· ++ [e]) := by
  induction rows with
  | nil => rfl
  | cons row rows ih =>
      rw [List.flatMap_cons, List.map_cons, List.append_assoc, List.singleton_append,
        cut_append_cons (h row List.mem_cons_self) he,
        ih fun row mem => h row (List.mem_cons_of_mem _ mem)]

theorem countP_flatMap : (rows.flatMap (· ++ [e])).countP isEnd = rows.length := by
  induction rows with
  | nil => rfl
  | cons row rows ih =>
      have noEnd : row.countP isEnd = 0 := by simpa [List.countP_eq_zero] using h row List.mem_cons_self
      rw [List.flatMap_cons, List.countP_append, List.countP_append, noEnd,
        ih fun row mem => h row (List.mem_cons_of_mem _ mem), List.countP_singleton, if_pos he,
        List.length_cons]
      omega

end Lines

/-- What a line says has no newline where the line has none before its end. -/
theorem Lines.newline_not_mem_content {line : List Char} (h : '\n' ∉ line) :
    '\n' ∉ content line ∧ '\n' ∉ content (line ++ ['\n']) := by
  constructor
  · have other : line.getLast? ≠ some '\n' := fun last => h (List.mem_of_getLast? last)
    rwa [content, if_neg other]
  · rw [content, if_pos (by simp), List.dropLast_concat]
    dsimp only
    split
    · exact fun mem => h (List.mem_of_mem_dropLast mem)
    · exact h

/-- What has no newline has no line feed among its bytes. -/
theorem Utf8.lineFeed_not_mem_encode {text : String} (h : OneLine text) :
    ∀ b ∈ encode text, Session.isLineFeed b = false := by
  intro b hb
  by_contra feed
  obtain rfl : b = 10 := by simpa [Session.isLineFeed] using feed
  obtain ⟨before, after, split⟩ := List.append_of_mem hb
  apply h
  rw [← decode_encode text, split, toList_decode_append_lineFeed]
  simp

namespace Session

/-- A session evaluates texts without a newline. -/
theorem oneLine_lineText {bytes line : List UInt8} (h : line ∈ Lines.cut isLineFeed bytes) :
    OneLine (lineText line) := by
  obtain ⟨body, none, shape⟩ := Lines.of_mem_cut h
  have chars : '\n' ∉ (Utf8.decode body).toList :=
    Utf8.newline_not_mem_decode fun b hb => by simpa [isLineFeed] using none b hb
  unfold OneLine lineText
  rw [String.toList_ofList]
  obtain rfl | ⟨e, he, rfl⟩ := shape
  · exact (Lines.newline_not_mem_content chars).1
  · obtain rfl : e = 10 := by simpa [isLineFeed] using he
    have ended : (Utf8.decode (body ++ [10])).toList = (Utf8.decode body).toList ++ ['\n'] :=
      Utf8.toList_decode_append_lineFeed body []
    rw [ended]
    exact (Lines.newline_not_mem_content chars).2

theorem outputLine_eq (outcome : Outcome) : outputLine outcome = Utf8.encode outcome.text ++ [10] :=
  Utf8.encode_append outcome.text "\n"

/-- The bytes of what lines give. -/
def answers (c : Calculator) (lines : List (List UInt8)) : List (List UInt8) :=
  (c.evaluateAll (lines.map lineText)).map fun report => Utf8.encode report.outcome.text

theorem length_answers (c : Calculator) (lines : List (List UInt8)) :
    (answers c lines).length = lines.length := by
  rw [answers, List.length_map, Calculator.length_evaluateAll, List.length_map]

theorem getElem?_answers (c : Calculator) (lines : List (List UInt8)) (i : Nat) :
    (answers c lines)[i]? = lines[i]?.map fun line =>
      Utf8.encode ((c.afterLines ((lines.take i).map lineText)).evaluate (lineText line)).outcome.text := by
  rw [answers, List.getElem?_map, Calculator.getElem?_evaluateAll, List.getElem?_map, List.map_take]
  cases lines[i]? with
  | none => rfl
  | some line => rfl

theorem lineFeed_not_mem_answers (c : Calculator) (bytes : List UInt8) :
    ∀ answer ∈ answers c (Lines.cut isLineFeed bytes), ∀ b ∈ answer, isLineFeed b = false := by
  intro answer mem
  obtain ⟨i, here⟩ := List.mem_iff_getElem?.mp mem
  rw [getElem?_answers] at here
  obtain ⟨line, found, rfl⟩ := Option.map_eq_some_iff.mp here
  apply Utf8.lineFeed_not_mem_encode
  apply Calculator.evaluate_oneLine
  exact oneLine_lineText (List.mem_of_getElem? found)

/-- A session without a prompt writes what its lines give, with a line feed after each of them. -/
theorem written_run_eq_answers (c : Calculator) (bytes : List UInt8) :
    (run c ⟨bytes, false⟩ "" none).sink.written.toList =
      (answers c (Lines.cut isLineFeed bytes)).flatMap (· ++ [10]) := by
  have noPrompt : Utf8.encode "" = [] := rfl
  rw [written_run, lines_of_ends, dialogue, noPrompt, List.append_nil, answers, List.flatMap_map]
  simp only [List.nil_append, outputLine_eq]

/-- **A session answers line for line.**  What a line without a newline gives has no newline.  So a
session without a prompt writes as many line feeds as it reads lines, and what stands between them is what
the lines give, in their order. -/
theorem run_line_for_line (c : Calculator) :
    (∀ text, OneLine text → OneLine (c.evaluate text).outcome.text) ∧
    ∀ bytes,
      let lines := Lines.cut isLineFeed bytes
      let progress := run c ⟨bytes, false⟩ "" none
      let written := progress.sink.written.toList
      progress.failure? = none ∧
      written.countP isLineFeed = lines.length ∧
      lines.length = bytes.countP isLineFeed + (if Lines.Whole isLineFeed bytes then 0 else 1) ∧
      (Lines.cut isLineFeed written).length = lines.length ∧
      ∀ i, (Lines.cut isLineFeed written)[i]? = lines[i]?.map fun line =>
        outputLine ((c.afterLines ((lines.take i).map lineText)).evaluate (lineText line)).outcome := by
  refine ⟨fun text h => c.evaluate_oneLine h, ?_⟩
  intro bytes lines progress written
  have noFeeds := lineFeed_not_mem_answers c bytes
  have said : written = (answers c lines).flatMap (· ++ [10]) := written_run_eq_answers c bytes
  have cut : Lines.cut isLineFeed written = (answers c lines).map (· ++ [10]) := by
    rw [said, Lines.cut_flatMap rfl noFeeds]
  refine ⟨failure?_run c ⟨bytes, false⟩ "", ?_, Lines.length_cut bytes, ?_, ?_⟩
  · rw [said, Lines.countP_flatMap rfl noFeeds, length_answers]
  · rw [cut, List.length_map, length_answers]
  · intro i
    rw [cut, List.getElem?_map, getElem?_answers, Option.map_map]
    simp only [outputLine_eq, Function.comp_def]

/-- The last line is broken off; one fault quotes a stored body, and one the line itself. -/
theorem run_line_for_line_quoting :
    let c := Calculator.empty 9
    let bytes := Utf8.encode "fn g => )\ng\r\nx = 1 2"
    let written := (run c ⟨bytes, false⟩ "" none).sink.written.toList
    OneLine "x = 1 2" ∧ OneLine (c.evaluate "x = 1 2").outcome.text ∧
    written = Utf8.encode "\nError: unexpected token ')'\nError: illegal expression 'x = 1 2'\n" ∧
    (Lines.cut isLineFeed bytes).length = 3 ∧ written.countP isLineFeed = 3 := by
  intro c bytes written
  have one : OneLine "x = 1 2" := by decide
  have three : (Lines.cut isLineFeed bytes).length = 3 := by decide +kernel
  obtain ⟨oneLine, session⟩ := run_line_for_line c
  exact ⟨one, oneLine _ one, by decide +kernel, three, (session bytes).2.1.trans three⟩

end Session

end LineCalc
