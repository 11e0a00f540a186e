import LineCalc.CommandLine
import LineCalc.Proofs.CutSessions
import LineCalc.Proofs.Encoding
import LineCalc.Proofs.NumberTexts

/-! # Where the lines come from

The lines of a text may stand in a file, on the standard input or on the command line.  They give the
same, and the program ends well whatever they give (`execute_text`).

* `Sets` says how settings are written on the command line, in any order.  That they are read so is shown
  argument by argument (`Sets.read`).
* Each of the three ways is a session over the bytes of the text, which are decoded as the text
  (`runOn_encode`).  A session fails only with its source or its sink, not with a line. -/

namespace LineCalc

namespace CommandLine

/-! ### Settings on the command line -/

/-- The arguments, of which none asks for help or the version, lead from some settings to others. -/
inductive Sets : Options → List String → Options → Prop where
  | nil (o : Options) : Sets o [] o
  | file {o o' : Options} {arguments : List String} {option : String}
      (h : o.file = false) (spelling : option ∈ ["-f", "--file"])
      (rest : Sets { o with file := true } arguments o') : Sets o (option :: arguments) o'
  | quiet {o o' : Options} {arguments : List String} {option : String}
      (h : o.quiet = false) (spelling : option ∈ ["-q", "--quiet"])
      (rest : Sets { o with quiet := true } arguments o') : Sets o (option :: arguments) o'
  | depth {o o' : Options} {arguments : List String} {value : String} {n : Nat}
      (h : o.limit? = none) (hn : limit? value = some n)
      (rest : Sets { o with limit? := some n } arguments o') :
      Sets o ("--max-depth" :: value :: arguments) o'
  | depthAttached {o o' : Options} {arguments : List String} {value : String} {n : Nat}
      (h : o.limit? = none) (hn : limit? value = some n)
      (rest : Sets { o with limit? := some n } arguments o') :
      Sets o (("--max-depth=" ++ value) :: arguments) o'
  | contents {o o' : Options} {arguments : List String} {text : String}
      (h : o.contents? = none) (plain : ∀ c more, text.toList ≠ '-' :: c :: more)
      (rest : Sets { o with contents? := some text } arguments o') : Sets o (text :: arguments) o'
  | contentsAfterDashes {o : Options} {text : String} (h : o.contents? = none) :
      Sets o ["--", text] { o with contents? := some text }

/-- Every limit that a machine word has room for can be given. -/
theorem limit?_repr {n : Nat} (h : n < Nat.pow 2 64) : limit? n.repr = some n := by
  have chars : n.repr.toList = Nat.toDigits 10 n := String.toList_ofList
  have digits : ∀ c ∈ Nat.toDigits 10 n, c.isDigit = true := fun c => Decimal.isDigit_of_mem_toDigits
  have all : (Nat.toDigits 10 n).all Char.isDigit = true := List.all_eq_true.mpr digits
  unfold limit?
  rw [chars]
  extract_lets unsigned value
  have same : unsigned = Nat.toDigits 10 n := by
    unfold unsigned
    split
    · rename_i rest e
      rw [e] at digits
      exact absurd (digits '+' List.mem_cons_self) (by decide)
    · rfl
  have valid : ¬ (unsigned = [] ∨ ¬ unsigned.all Char.isDigit = true) := by
    simp [same, all, Nat.toDigits_ne_nil]
  have value_eq : value = n := by
    unfold value
    rw [same, Decimal.wholeValue_toDigits]
  rw [if_neg valid, value_eq, if_pos h]

/-- A letter after one dash. -/
theorem read_letter {letter : Char} (hl : letter ≠ '-') {o o' : Options}
    (ho : shortOptions o [letter] = some (.inl o')) (rest : List String) :
    read o (String.ofList ['-', letter] :: rest) = read o' rest := by
  have chars : (String.ofList ['-', letter]).toList = ['-', letter] := String.toList_ofList
  have ne : ∀ more, ['-', letter] ≠ '-' :: '-' :: more := by
    intro more e
    exact hl (List.cons.inj (List.cons.inj e).2).1
  rw [read]
  · rw [chars]
    split
    · rename_i more e
      exact absurd e (ne more)
    · rename_i e
      obtain ⟨rfl, rfl⟩ := List.cons.inj (List.cons.inj e).2
      rw [ho]
    · rename_i none
      exact absurd rfl (none letter [])
  all_goals simp [← String.toList_inj, hl]

theorem read_plain {text : String} (plain : ∀ c more, text.toList ≠ '-' :: c :: more) (o : Options)
    (rest : List String) : read o (text :: rest) = (setContents o text).bind (read · rest) := by
  rw [read]
  · split
    · rename_i more e
      exact absurd e (plain '-' more)
    · rename_i c more _ e
      exact absurd e (plain c more)
    · rfl
  all_goals
    intros
    subst_vars
    simp at plain

theorem read_attached (o : Options) (value : String) (rest : List String) :
    read o (("--max-depth=" ++ value) :: rest) = (setLimit o value).bind (read · rest) := by
  have start : "--max-depth".toList ++ ['='] = "--max-depth=".toList := by decide
  have chars : ("--max-depth=" ++ value).toList = "--max-depth=".toList ++ value.toList :=
    String.toList_append
  have attached : attached? "--max-depth" ("--max-depth=" ++ value) = some value := by
    unfold attached?
    rw [start, chars, if_pos, List.drop_left, String.ofList_toList]
    exact List.isPrefixOf_iff_prefix.mpr (List.prefix_append _ _)
  rw [read]
  · rw [chars]
    show ((attached? _ _).bind (setLimit o)).bind _ = _
    rw [attached]
    rfl
  all_goals simp [← String.toList_inj]

/-- The settings are read as they are written. -/
theorem Sets.read {o o' : Options} {arguments : List String} (h : Sets o arguments o') :
    read o arguments = some (.run o') := by
  induction h with
  | nil o => rw [CommandLine.read]
  | file h spelling rest ih =>
      simp only [List.mem_cons, List.not_mem_nil, or_false] at spelling
      obtain rfl | rfl := spelling
      · rw [← ih]
        apply read_letter (by decide)
        simp [shortOptions, setFile, h]
      · rw [CommandLine.read, setFile, h]
        exact ih
  | quiet h spelling rest ih =>
      simp only [List.mem_cons, List.not_mem_nil, or_false] at spelling
      obtain rfl | rfl := spelling
      · rw [← ih]
        apply read_letter (by decide)
        simp [shortOptions, setQuiet, h]
      · rw [CommandLine.read, setQuiet, h]
        exact ih
  | depth h hn rest ih =>
      rw [CommandLine.read, setLimit, h, hn]
      exact ih
  | depthAttached h hn rest ih =>
      rw [read_attached, setLimit, h, hn]
      exact ih
  | contents h plain rest ih =>
      rw [read_plain plain, setContents, h]
      exact ih
  | contentsAfterDashes h =>
      rw [CommandLine.read, plainArguments, setContents, h]
      rfl

/-! ### A session over a text -/

/-- The lines of a text give what they give a script, and none of them lets the session fail. -/
theorem runOn_encode (o : Options) (text prompt : String) :
    let reports := (Calculator.empty o.limit).evaluateAll (Lines.ofText text)
    runOn o (Utf8.encode text) prompt =
      ⟨0, (reports.flatMap fun report =>
          Utf8.encode prompt ++ Session.outputLine report.outcome) ++ Utf8.encode prompt, ""⟩ := by
  intro reports
  have lines : (Lines.cut Session.isLineFeed (Utf8.encode text)).map Session.lineText =
      Lines.ofText text := by
    rw [← Session.ofText_decode, Utf8.decode_encode]
  have failure := Session.failure?_run (.empty o.limit) ⟨Utf8.encode text, false⟩ prompt
  have written := Session.written_run (.empty o.limit) ⟨Utf8.encode text, false⟩ prompt
  unfold runOn
  dsimp only
  rw [failure, written]
  unfold Session.dialogue Session.Source.lines
  dsimp only
  rw [if_neg Bool.false_ne_true, if_neg Bool.false_ne_true, lines]
  rfl

/-- The program ends so, however the settings are written on the command line. -/
def EndsWith (files : String → Option (List UInt8)) (input : List UInt8) (o : Options) (exit : Exit) :
    Prop :=
  ∀ arguments, Sets .initial arguments o → execute files input arguments = exit

/-- **A text gives the same wherever it stands**: in a file, on the standard input, or on the command
line.  Whatever its lines give, the program ends well.  From the standard input they are answered with
a prompt before each result and one more at the end, unless that is not wanted.  A file that there is
not, or that holds no text, gives nothing, and the program does not end well. -/
theorem execute_text (text : String) (depth? : Option Nat) (file quiet : Bool)
    (files : String → Option (List UInt8)) (input : List UInt8) :
    let limit := depth?.getD Calculator.defaultLimit
    let results := ((Calculator.empty limit).evaluateAll (Lines.ofText text)).map fun report =>
      Utf8.encode (report.outcome.text ++ "\n")
    let prompt := Utf8.encode ">>> "
    (∀ name, files name = some (Utf8.encode text) →
        EndsWith files input ⟨true, quiet, depth?, some name⟩ ⟨0, results.flatten, ""⟩) ∧
      EndsWith files (Utf8.encode text) ⟨file, true, depth?, none⟩ ⟨0, results.flatten, ""⟩ ∧
      EndsWith files input ⟨false, quiet, depth?, some text⟩ ⟨0, results.flatten, ""⟩ ∧
      EndsWith files (Utf8.encode text) ⟨file, false, depth?, none⟩
        ⟨0, results.flatMap (prompt ++ ·) ++ prompt, ""⟩ ∧
      ∀ other, (∀ text, files other ≠ some (Utf8.encode text)) →
        EndsWith files input ⟨true, quiet, depth?, some other⟩ ⟨1, [], unreadableText other⟩ := by
  intro limit results prompt
  -- the lines of the text, in a session with these settings
  have run (o : Options) (ho : o.limit? = depth?) (before : String) :
      runOn o (Utf8.encode text) before =
        ⟨0, results.flatMap (Utf8.encode before ++ ·) ++ Utf8.encode before, ""⟩ := by
    rw [runOn_encode, Options.limit, ho]
    unfold results
    rw [List.flatMap_map]
    rfl
  have silent (o : Options) (ho : o.limit? = depth?) :
      runOn o (Utf8.encode text) "" = ⟨0, results.flatten, ""⟩ := by
    rw [run o ho, List.flatten_eq_flatMap]
    simp [Utf8.encode]
  have valid : Utf8.isValid (Utf8.encode text) = true := Utf8.isValid_iff.mpr ⟨text, rfl⟩
  refine ⟨?fromFile, ?quietly, ?outright, ?prompted, ?unreadable⟩
  case fromFile =>
      intro name holds arguments h
      rw [execute, ofArguments, h.read]
      dsimp only
      rw [if_pos rfl, holds, Option.filter_some, if_pos valid]
      exact silent _ rfl
  case quietly =>
      intro arguments h
      rw [execute, ofArguments, h.read]
      exact silent _ rfl
  case outright =>
      intro arguments h
      rw [execute, ofArguments, h.read]
      exact silent _ rfl
  case prompted =>
      intro arguments h
      rw [execute, ofArguments, h.read]
      exact run _ rfl ">>> "
  case unreadable =>
      intro other none arguments h
      have refused : (files other).filter Utf8.isValid = Option.none := by
        rw [Option.filter_eq_none_iff]
        intro bytes hb valid
        obtain ⟨text, rfl⟩ := Utf8.isValid_iff.mp valid
        exact none text hb
      rw [execute, ofArguments, h.read]
      dsimp only
      rw [if_pos rfl, refused]

/-- The second of three lines fails. -/
theorem execute_text_three_lines :
    let text := "x = 2\r\nx +\nx * 3"
    let files := fun name => if name = "script" then some (Utf8.encode text) else none
    let output := Utf8.encode "2\nError: unexpected end of input\n6\n"
    let prompted := Utf8.encode ">>> 2\n>>> Error: unexpected end of input\n>>> 6\n>>> "
    files "script" = some (Utf8.encode text) ∧
      execute files [] ["--max-depth", "12", "-f", "script"] = ⟨0, output, ""⟩ ∧
      execute files (Utf8.encode text) ["--max-depth=+12", "--quiet"] = ⟨0, output, ""⟩ ∧
      execute files [] ["--max-depth", "12", "--", text] = ⟨0, output, ""⟩ ∧
      execute files (Utf8.encode text) ["--max-depth", "12"] = ⟨0, prompted, ""⟩ ∧
      execute files [] ["-f", "--max-depth", "12", "--", "missing"] =
        ⟨1, [], unreadableText "missing"⟩ := by
  intro text files output prompted
  have holds : files "script" = some (Utf8.encode text) := by decide +kernel
  have missing : ∀ text, files "missing" ≠ some (Utf8.encode text) := by
    intro text h
    cases h
  have written : (((Calculator.empty ((some 12).getD Calculator.defaultLimit)).evaluateAll
      (Lines.ofText text)).map fun report => Utf8.encode (report.outcome.text ++ "\n")).flatten =
        output := by decide +kernel
  have asked : (((Calculator.empty ((some 12).getD Calculator.defaultLimit)).evaluateAll
      (Lines.ofText text)).map fun report => Utf8.encode (report.outcome.text ++ "\n")).flatMap
        (Utf8.encode ">>> " ++ ·) ++ Utf8.encode ">>> " = prompted := by decide +kernel
  have twelve : limit? "12" = some 12 := limit?_repr (n := 12) (by decide)
  obtain ⟨fromFile, quietly, outright, prompting, unreadable⟩ :=
    execute_text text (some 12) false false files []
  have fromFile := fromFile "script" holds
  rw [written] at fromFile quietly outright
  rw [asked] at prompting
  refine ⟨holds, ?_, ?_, ?_, ?_, ?_⟩
  · have plain : ∀ c more, "script".toList ≠ '-' :: c :: more := by
      intro c more e
      exact absurd (List.cons.inj e).1 (by decide)
    exact fromFile _ (.depth rfl twelve (.file rfl (by decide) (.contents rfl plain (.nil _))))
  · have signed : limit? "+12" = some 12 := by decide
    have attached : "--max-depth=" ++ "+12" = "--max-depth=+12" := by decide
    rw [← attached]
    exact quietly _ (.depthAttached rfl signed (.quiet rfl (by decide) (.nil _)))
  · exact outright _ (.depth rfl twelve (.contentsAfterDashes rfl))
  · exact prompting _ (.depth rfl twelve (.nil _))
  · exact unreadable "missing" missing _
      (.file rfl (by decide) (.depth rfl twelve (.contentsAfterDashes rfl)))

end CommandLine

end LineCalc
