import LineCalc.Proofs.Bodies
import LineCalc.Proofs.Lexing
import LineCalc.Proofs.Mentioned

/-! # Plain names of bodies come from parameters

A name is *plain* if it consists of letters only.  A definition is refused if a plain name among the
tokens of its body is no parameter, but a call reads the text of the body, in which neighbouring names
run together: the body `a b` is the name `ab`.

* A plain name of a joined text is the texts of one or more neighbouring identifiers, which are plain
  themselves (`runTogether_of_joinedText`).  The reader is followed from token to token: what it has
  read of a plain name begins where a token begins (`Runs`).  Characters of other tokens begin no name
  and make a name that they go on with one that is not plain (`plainNames_step`).
* So the plain names of a stored body are made of parameters, and they are parameters where no two plain
  names are neighbours.  Apart from the two that texts of numbers have, plain names that come neither
  from parameters in this way nor from what is read at first are *foreign*: they play no part in the
  evaluation of a body (`agree_of_foreign`) or a line (`evaluate_foreign`). -/

namespace LineCalc

namespace Token

/-- The names of a row of tokens that consist of letters only. -/
def plainNames (tokens : List Token) : List String := tokens.filterMap plainName?

@[simp] theorem plainNames_append (tokens more : List Token) :
    plainNames (tokens ++ more) = plainNames tokens ++ plainNames more := List.filterMap_append

theorem mem_plainNames {tokens : List Token} {name : String} :
    name ∈ plainNames tokens ↔ .identifier name ∈ tokens ∧ name.toList.all Char.isAlpha = true := by
  simp only [plainNames, List.mem_filterMap]
  constructor
  · rintro ⟨t, ht, plain⟩
    unfold plainName? at plain
    split at plain
    · split at plain
      · cases plain
        exact ⟨ht, ‹_›⟩
      · cases plain
    · cases plain
  · rintro ⟨ht, plain⟩
    exact ⟨_, ht, by simp only [plainName?, plain, if_true]⟩

/-- The texts of neighbouring identifiers, one or more, are together the name. -/
def RunTogether (tokens : List Token) (name : String) : Prop :=
  ∃ parts : List String, parts ≠ [] ∧ String.join parts = name ∧
    parts.map .identifier <:+: tokens

/-- The same of the last tokens of the row. -/
def RunTogetherLast (tokens : List Token) (name : String) : Prop :=
  ∃ parts : List String, parts ≠ [] ∧ String.join parts = name ∧
    parts.map .identifier <:+ tokens

theorem RunTogetherLast.runTogether {tokens : List Token} {name : String}
    (h : RunTogetherLast tokens name) : RunTogether tokens name := by
  obtain ⟨parts, hne, join, suffix⟩ := h
  exact ⟨parts, hne, join, suffix.isInfix⟩

theorem RunTogether.append {tokens : List Token} {name : String} (h : RunTogether tokens name)
    (more : List Token) : RunTogether (tokens ++ more) name := by
  obtain ⟨parts, hne, join, inside⟩ := h
  exact ⟨parts, hne, join, inside.trans (List.prefix_append _ _).isInfix⟩

theorem RunTogetherLast.single (tokens : List Token) (name : String) :
    RunTogetherLast (tokens ++ [.identifier name]) name :=
  ⟨[name], by simp, by simp, List.suffix_append _ _⟩

theorem RunTogetherLast.append {tokens : List Token} {name : String}
    (h : RunTogetherLast tokens name) (next : String) :
    RunTogetherLast (tokens ++ [.identifier next]) (name ++ next) := by
  obtain ⟨parts, hne, rfl, before, rfl⟩ := h
  exact ⟨parts ++ [next], by simp, by simp, before, by simp⟩

/-! ### Characters that begin no name -/

theorem not_isAlpha_of_not_isNameStart {c : Char} (h : isNameStart c = false) : c.isAlpha = false := by
  simp only [isNameStart, Bool.or_eq_false_iff] at h
  exact h.1

/-- Where a token is no identifier, its text consists of such characters. -/
theorem WellFormed.identifier_or {t : Token} (ht : t.WellFormed) :
    (∃ name, IsName name ∧ t = .identifier name) ∨
    t.text.toList ≠ [] ∧ ∀ c ∈ t.text.toList, isNameStart c = false := by
  cases ht with
  | whole h =>
      refine .inr ⟨by simpa [text, Numeral.ofWhole] using h.1, fun c hc => ?_⟩
      exact not_isNameStart_of_isDigit (h.2 c hc)
  | @pointed whole fraction hw hf =>
      have e : (Token.number (.ofPointed whole fraction)).text.toList =
          whole.toList ++ '.' :: fraction.toList := by simp [text, Numeral.ofPointed]
      rw [e]
      refine .inr ⟨by simp, fun c hc => ?_⟩
      rw [List.mem_append, List.mem_cons] at hc
      obtain hc | rfl | hc := hc
      · exact not_isNameStart_of_isDigit (hw c hc)
      · decide
      · exact not_isNameStart_of_isDigit (hf.2 c hc)
  | identifier h => exact .inl ⟨_, h, rfl⟩
  | stray hne h =>
      refine .inr ⟨by simpa [text] using hne, fun c hc => ?_⟩
      obtain hs | rfl := h c hc
      · obtain ⟨-, -, start, -⟩ := class_of_isStray hs
        exact start
      · decide
  | symbol h =>
      obtain ⟨-, -, start, -⟩ := class_of_ofSymbol? h
      rw [text_of_ofSymbol? h, String.toList_singleton]
      exact .inr ⟨by simp, by simpa using start⟩

namespace Piece

theorem plainName?_of_ofSymbol? {c : Char} {t : Token} (h : ofSymbol? c = some t) :
    t.plainName? = none := by
  cases t with
  | identifier name =>
      obtain ⟨-, -, start, -⟩ := class_of_ofSymbol? h
      have letter := not_isAlpha_of_not_isNameStart start
      have e : name = String.singleton c := text_of_ofSymbol? h
      simp [plainName?, e, letter]
  | _ => rfl

theorem plainNames_start {c : Char} (h : isNameStart c = false) :
    plainNames ((start c).1 ++ (start c).2.tokens) = [] ∧ ∀ text, (start c).2 ≠ .name text := by
  obtain hc | hc | hc | rfl | ⟨t, hc⟩ | hc := class_cases c
  · rw [start_of_isBlank hc]
    exact ⟨rfl, fun _ => nofun⟩
  · rw [h] at hc
    cases hc
  · rw [start_of_isDigit hc]
    exact ⟨rfl, fun _ => nofun⟩
  · exact ⟨rfl, fun _ => nofun⟩
  · rw [start_of_ofSymbol? hc]
    exact ⟨List.filterMap_cons_none (plainName?_of_ofSymbol? hc), fun _ => nofun⟩
  · rw [start_of_isStray hc]
    exact ⟨rfl, fun _ => nofun⟩

theorem plainNames_extend? {p p' : Piece} {c : Char} {ts : List Token} (h : isNameStart c = false)
    (e : p.extend? c = some (ts, p')) :
    plainNames (ts ++ p'.tokens) = [] ∧
      ∀ text, p' = .name text → text.toList.all Char.isAlpha = false := by
  unfold extend? at e
  cases p with
  | nothing => cases e
  | name text =>
      have letters : (text.push c).toList.all Char.isAlpha = false := by
        simp [not_isAlpha_of_not_isNameStart h]
      have notPlain : (Token.identifier (text.push c)).plainName? = none := by
        simp only [plainName?, letters, Bool.false_eq_true, if_false]
      dsimp only at e
      split at e <;> cases e
      constructor
      · exact List.filterMap_cons_none notPlain
      · rintro _ ⟨⟩
        exact letters
  | _ =>
      dsimp only at e
      repeat' split at e
      all_goals cases e
      all_goals exact ⟨rfl, fun _ => nofun⟩

end Piece

namespace Scan

/-- A character that begins no name adds no plain name, and leaves none unfinished. -/
theorem plainNames_step (s : Scan) {c : Char} (h : isNameStart c = false) :
    plainNames (s.step c).finish ⊆ plainNames s.finish ∧
      ∀ text, (s.step c).piece = .name text → text.toList.all Char.isAlpha = false := by
  cases e : s.piece.extend? c with
  | none =>
      obtain ⟨started, piece⟩ := Piece.plainNames_start h
      rw [step_of_start e]
      refine ⟨?_, fun text named => absurd named (piece text)⟩
      simp only [plainNames_append] at started
      simp [finish, started]
  | some next =>
      obtain ⟨ts, p⟩ := next
      obtain ⟨extended, piece⟩ := Piece.plainNames_extend? h e
      rw [step_of_extend e]
      refine ⟨?_, piece⟩
      simp only [plainNames_append] at extended
      simp [finish, extended]

/-- The same of a row of such characters. -/
theorem plainNames_foldl (s : Scan) {cs : List Char} (hne : cs ≠ [])
    (h : ∀ c ∈ cs, isNameStart c = false) :
    plainNames (cs.foldl step s).finish ⊆ plainNames s.finish ∧
      ∀ text, (cs.foldl step s).piece = .name text → text.toList.all Char.isAlpha = false := by
  induction cs generalizing s with
  | nil => exact absurd rfl hne
  | cons c cs ih =>
      obtain ⟨hc, hcs⟩ := List.forall_mem_cons.mp h
      have first := s.plainNames_step hc
      cases cs with
      | nil => exact first
      | cons d cs =>
          obtain ⟨names, piece⟩ := ih (s.step c) (List.cons_ne_nil d cs) hcs
          exact ⟨fun name mem => first.1 (names mem), piece⟩

/-! ### From token to token -/

/-- The text of an identifier goes on with a name, or begins one. -/
theorem foldl_identifier_cases {name : String} (h : IsName name) (s : Scan) :
    (∃ before, s.piece = .name before ∧
      name.toList.foldl step s = ⟨s.complete, .name (before ++ name)⟩) ∨
    name.toList.foldl step s = ⟨s.ended, .name name⟩ := by
  by_cases hp : ∃ before, s.piece = .name before
  · obtain ⟨before, hp⟩ := hp
    have e : s = ⟨s.complete, .name before⟩ := by rw [← hp]
    left
    refine ⟨before, hp, ?_⟩
    rw [e, foldl_name _ _ h.2.2, String.ofList_toList]
  · right
    apply foldl_identifier h
    intro u hu
    cases e : s.piece with
    | name text => exact absurd ⟨text, e⟩ hp
    | _ =>
        rw [e] at hu
        cases hu <;> rfl

/-- All plain names that have been read are made of names of the tokens whose texts have been read; one
that is unfinished is made of the last of them. -/
structure Runs (done : List Token) (s : Scan) : Prop where
  read : ∀ name ∈ plainNames s.finish, RunTogether done name
  last : ∀ name, s.piece = .name name → name.toList.all Char.isAlpha = true →
    RunTogetherLast done name

theorem runs_initial : Runs [] initial := by
  constructor
  · intro name mem
    cases mem
  · intro name piece
    cases piece

/-- After the text of an identifier. -/
theorem Runs.of_name {done : List Token} {complete : Array Token} {name : String}
    (h : ∀ other ∈ plainNames complete.toList, RunTogether done other)
    (last : name.toList.all Char.isAlpha = true → RunTogetherLast done name) :
    Runs done ⟨complete, .name name⟩ := by
  constructor
  · intro other mem
    rw [finish_mk, plainNames_append, List.mem_append] at mem
    obtain mem | mem := mem
    · exact h other mem
    · obtain ⟨named, plain⟩ := mem_plainNames.mp mem
      cases List.mem_singleton.mp named
      exact (last plain).runTogether
  · intro other piece plain
    cases piece
    exact last plain

theorem Runs.token {done : List Token} {s : Scan} (h : Runs done s) {t : Token} (ht : t.WellFormed) :
    Runs (done ++ [t]) (t.text.toList.foldl step s) := by
  have read : ∀ name ∈ plainNames s.finish, RunTogether (done ++ [t]) name :=
    fun name mem => (h.read name mem).append [t]
  obtain ⟨name, hname, rfl⟩ | ⟨hne, chars⟩ := ht.identifier_or
  · obtain ⟨before, piece, e⟩ | e := foldl_identifier_cases hname s
    · rw [text, e]
      apply Runs.of_name
      · intro other mem
        apply read
        simp only [finish, Array.toList_appendList, plainNames_append]
        exact List.mem_append_left _ mem
      · intro plain
        rw [String.toList_append, List.all_append, Bool.and_eq_true] at plain
        exact (h.last before piece plain.1).append name
    · rw [text, e]
      exact Runs.of_name read fun _ => .single done name
  · obtain ⟨names, piece⟩ := s.plainNames_foldl hne chars
    constructor
    · intro name mem
      exact read name (names mem)
    · intro name named plain
      rw [piece name named] at plain
      cases plain

theorem Runs.foldl {done : List Token} {s : Scan} (h : Runs done s) {tokens : List Token}
    (hw : ∀ t ∈ tokens, t.WellFormed) : Runs (done ++ tokens) ((chars tokens).foldl step s) := by
  induction tokens generalizing done s with
  | nil => simpa using h
  | cons t tokens ih =>
      obtain ⟨ht, hts⟩ := List.forall_mem_cons.mp hw
      have rest := ih (h.token ht) hts
      rwa [List.append_assoc, List.singleton_append, ← List.foldl_append, ← chars_cons] at rest

end Scan

/-- The plain names of a joined text are made of names of neighbouring tokens. -/
theorem runTogether_of_joinedText {tokens : List Token} (hw : ∀ t ∈ tokens, t.WellFormed)
    {name : String} (h : name ∈ plainNames (ofText (joinedText tokens))) :
    RunTogether tokens name := by
  rw [ofText, toList_joinedText] at h
  exact (Scan.runs_initial.foldl hw).read name h

end Token

namespace Definition

variable {f : Definition} {name : String}

/-- The name is a parameter in the body, or neighbouring parameters that run together. -/
def Spells (f : Definition) (name : String) : Prop :=
  ∃ parts : List String, parts ≠ [] ∧ (∀ p ∈ parts, p ∈ f.parameters) ∧
    String.join parts = name ∧ parts.map .identifier <:+: f.body

/-- No two neighbours in the body are plain names. -/
def Apart (f : Definition) : Prop :=
  f.body.IsChain fun t u => t.plainName? = none ∨ u.plainName? = none

instance : DecidablePred Apart := fun f =>
  inferInstanceAs (Decidable (f.body.IsChain fun t u => t.plainName? = none ∨ u.plainName? = none))

/-- The check of a body. -/
theorem plainNames_body {isVariable : String → Bool} {tokens : List Token}
    (h : ofTokens isVariable tokens = .ok (name, f)) :
    ∀ plain ∈ Token.plainNames f.body, plain ∈ f.parameters := by
  obtain ⟨rest, arrow, -, -, -, -, -, known⟩ := ofTokens_eq_ok h
  intro plain mem
  by_contra outside
  exact List.find?_eq_none.mp known plain mem (by simpa using outside)

/-- The plain names of the text of a body that has been checked. -/
theorem spells_of_mem (hw : ∀ t ∈ f.body, t.WellFormed)
    (checked : ∀ plain ∈ Token.plainNames f.body, plain ∈ f.parameters)
    (h : name ∈ Token.plainNames (Token.ofText f.joined)) : f.Spells name := by
  obtain ⟨parts, hne, rfl, inside⟩ := Token.runTogether_of_joinedText hw h
  obtain ⟨-, plain⟩ := Token.mem_plainNames.mp h
  refine ⟨parts, hne, fun p hp => ?_, rfl, inside⟩
  have letters : p.toList.all Char.isAlpha = true := by
    rw [String.toList_join, List.all_flatMap, List.all_eq_true] at plain
    exact plain p hp
  have mem : .identifier p ∈ f.body := inside.subset (List.mem_map_of_mem hp)
  exact checked p (Token.mem_plainNames.mpr ⟨mem, letters⟩)

/-- Where no two plain names are neighbours, nothing runs together to a plain name. -/
theorem Spells.mem_parameters (h : f.Spells name) (apart : f.Apart)
    (plain : name.toList.all Char.isAlpha = true) : name ∈ f.parameters := by
  obtain ⟨parts, hne, parameters, rfl, inside⟩ := h
  rw [String.toList_join, List.all_flatMap, List.all_eq_true] at plain
  match parts with
  | [] => exact absurd rfl hne
  | [p] => simpa using parameters p List.mem_cons_self
  | p :: q :: rest =>
      have chain := List.IsChain.infix apart inside
      have neighbours := (List.isChain_cons_cons.mp chain).1
      have hp := plain p (by simp)
      have hq := plain q (by simp)
      simp [Token.plainName?, hp, hq] at neighbours

end Definition

/-- A plain name that a row of tokens does not have, nor the texts of numbers, and that does not come
from the parameters of the functions that the row mentions. -/
structure Foreign (functions : Table Definition) (tokens : List Token) (name : String) : Prop where
  plain : name.toList.all Char.isAlpha = true
  token : .identifier name ∉ tokens
  infinite : name ≠ "inf"
  nan : name ≠ "NaN"
  parameters : ∀ other f, Mentioned functions tokens other → functions[other]? = some f →
    name ∉ f.parameters ∧ ¬ f.Spells name

namespace Eval

variable {names : String → Prop} {functions : Table Definition} {foreign : String}
  {c c' : Calculator}

/-- Machines that differ at most in what they remember under one name, and under that name still
remember what two calculators do. -/
structure DifferAt (foreign : String) (functions : Table Definition) (c c' : Calculator)
    (m m' : Machine) : Prop where
  others : m.calculator.AgreeOn (· ≠ foreign) m'.calculator
  first : c.AgreeOn (· = foreign) m.calculator
  second : c'.AgreeOn (· = foreign) m'.calculator
  functions : m.calculator.functionTable = functions
  limit : m'.calculator.limit = m.calculator.limit
  depth : m'.depth = m.depth
  trace : m'.trace = m.trace

theorem lawful_differAt (closed : Closed names functions)
    (hne : ∀ {name}, names name → name ≠ foreign) :
    Lawful names (DifferAt foreign functions c c') (· = .exhausted) where
  exhausted := rfl
  assignments h := by rw [h.trace]
  valueOf? h hn := h.others.valueOf? (hne hn)
  functionOf? h hn := h.others.functionOf? (hne hn)
  body h hn stored := closed.body hn (h.functions ▸ stored)
  number := closed.number
  moved h _ _ := ⟨h.others, h.first, h.second, h.functions, h.limit, h.depth, h.trace⟩
  noted {_ _ r} h _ := ⟨h.others, h.first, h.second, h.functions, h.limit, h.depth,
    congrArg (·.push r) h.trace⟩
  assigned {_ _ name} h hn x := ⟨h.others.assign name x, h.first.trans (.assign_ne (hne hn) x _),
    h.second.trans (.assign_ne (hne hn) x _), h.functions, h.limit, h.depth,
    congrArg (·.push (.assigned name x)) h.trace⟩
  entered {m m'} h hd := by
    have hd' : m'.depth < m'.calculator.limit := by
      rw [h.limit, h.depth]
      exact hd
    exact ⟨hd', h.others, h.first, h.second, h.functions, h.limit, congrArg (· + 1) h.depth, h.trace⟩
  left h := ⟨h.others, h.first, h.second, h.functions, h.limit, congrArg (· - 1) h.depth, h.trace⟩
  refused h hd := by
    right
    rw [h.limit, h.depth]
    exact ⟨hd, rfl⟩

end Eval

namespace Calculator

variable {c : Calculator}

/-- The plain names of stored bodies are made of parameters. -/
theorem Reachable.spells (hc : Reachable c) {name plain : String} {f : Definition}
    (stored : c.functionOf? name = some f)
    (h : plain ∈ Token.plainNames (Token.ofText f.joined)) : f.Spells plain := by
  refine Definition.spells_of_mem (hc.wellFormed_body stored) ?_ h
  exact hc.of_accepted (P := fun f => ∀ plain ∈ Token.plainNames f.body, plain ∈ f.parameters)
    (fun _ accepted => Definition.plainNames_body accepted) stored

/-- What is foreign is not mentioned, whatever the bodies call. -/
theorem Reachable.ne_of_mentioned (hc : Reachable c) {tokens : List Token} {foreign : String}
    (h : Foreign c.functionTable tokens foreign) {name : String}
    (hn : Mentioned c.functionTable tokens name) : name ≠ foreign := by
  induction hn with
  | token mem =>
      rintro rfl
      exact h.token mem
  | infinite => exact h.infinite.symm
  | nan => exact h.nan.symm
  | @parameter other parameter f mentioned stored mem ih =>
      rintro rfl
      exact (h.parameters other f mentioned stored).1 mem
  | @body other name f mentioned stored mem ih =>
      rintro rfl
      exact (h.parameters other f mentioned stored).2
        (hc.spells stored (Token.mem_plainNames.mpr ⟨mem, h.plain⟩))

/-- An evaluation of tokens does not look at what is foreign to them, and does not change it. -/
theorem Reachable.agree_of_foreign (hc : Reachable c) {tokens : List Token} {foreign : String}
    (h : Foreign c.functionTable tokens foreign) {d d' : Calculator} {m m' : Machine}
    (begun : m.cursor = .ofTokens tokens) (beside : m'.cursor = m.cursor)
    (differ : Eval.DifferAt foreign c.functionTable d d' m m') (budget : Nat)
    (bindings : Eval.Bindings) :
    Eval.Agree (Mentioned c.functionTable tokens) (Eval.DifferAt foreign c.functionTable d d')
      (· = .exhausted) (Eval.expression budget bindings m) (Eval.expression budget bindings m') := by
  have law : Eval.Lawful (Mentioned c.functionTable tokens)
      (Eval.DifferAt foreign c.functionTable d d') (· = .exhausted) :=
    Eval.lawful_differAt (closed_mentioned c.functionTable tokens) (hc.ne_of_mentioned h)
  apply (Eval.Follows.expression law (Nat.le_refl budget) bindings).run
  refine ⟨differ, by rw [beside], ?_⟩
  rw [begun, Cursor.remaining_ofTokens]
  exact fun name mem => .token mem

/-- A line gives the same whatever is remembered under a name that is foreign to it, and what is
remembered under that name stays. -/
theorem Reachable.evaluate_foreign (hc : Reachable c) {text foreign : String}
    (h : Foreign c.functionTable (Token.ofText text) foreign) {c' : Calculator}
    (hl : c'.limit = c.limit) (agree : c.AgreeOn (· ≠ foreign) c') :
    (c'.evaluate text).outcome = (c.evaluate text).outcome ∧
    (c.evaluate text).calculator.AgreeOn (· ≠ foreign) (c'.evaluate text).calculator ∧
    c.AgreeOn (· = foreign) (c.evaluate text).calculator ∧
    c'.AgreeOn (· = foreign) (c'.evaluate text).calculator := by
  have mention : Token.MentionOnly (Mentioned c.functionTable (Token.ofText text))
      (Token.ofText text) := fun name mem => .token mem
  have unmentioned : ¬ Mentioned c.functionTable (Token.ofText text) foreign :=
    fun hn => hc.ne_of_mentioned h hn rfl
  have reports := (agree.mono fun hn => hc.ne_of_mentioned h hn).evaluate hl
    (closed_mentioned c.functionTable (Token.ofText text)) mention
  have kept := (evaluate_change c text).agreeOn mention reports.written
  have kept' := (evaluate_change c' text).agreeOn mention reports.symm.written
  refine ⟨reports.outcome, ?_, kept.one unmentioned, kept'.one unmentioned⟩
  have others {name : String} (hn : name ≠ foreign) :
      (c.evaluate text).calculator.AgreeOn (· = name) (c'.evaluate text).calculator := by
    by_cases mentioned : Mentioned c.functionTable (Token.ofText text) name
    · exact reports.calculator.one mentioned
    · exact (kept.one mentioned).symm.trans ((agree.one hn).trans (kept'.one mentioned))
  exact ⟨fun hn => (others hn).valueOf? rfl, fun hn => (others hn).functionOf? rfl⟩

/-- **Plain names of bodies come from parameters.**  A plain name in the text that a call reads is a
parameter, or neighbouring parameters in the body that run together; it is a parameter if no two
neighbours in the body are plain names.  So neither a body, with any values for its parameters, nor a
line reads, writes or calls what is foreign to it: another thing remembered under that name changes
neither what the evaluation gives nor what it does to other names, and stays what it is. -/
theorem plainNames_of_bodies (hc : Reachable c) :
    (∀ name f, c.functionOf? name = some f →
      (∀ plain ∈ Token.plainNames (Token.ofText f.joined),
        f.Spells plain ∧ (f.Apart → plain ∈ f.parameters)) ∧
      ∀ foreign, Foreign c.functionTable (Token.ofText f.joined) foreign →
        ∀ (d d' : Calculator) (m m' : Machine),
          m.cursor = .ofTokens (Token.ofText f.joined) → m'.cursor = m.cursor →
          Eval.DifferAt foreign c.functionTable d d' m m' →
          ∀ budget bindings, Eval.Agree (Mentioned c.functionTable (Token.ofText f.joined))
            (Eval.DifferAt foreign c.functionTable d d') (· = .exhausted)
            (Eval.expression budget bindings m) (Eval.expression budget bindings m')) ∧
    (∀ text foreign, Foreign c.functionTable (Token.ofText text) foreign →
      ∀ c' : Calculator, c'.limit = c.limit → c.AgreeOn (· ≠ foreign) c' →
        (c'.evaluate text).outcome = (c.evaluate text).outcome ∧
        (c.evaluate text).calculator.AgreeOn (· ≠ foreign) (c'.evaluate text).calculator ∧
        c.AgreeOn (· = foreign) (c.evaluate text).calculator ∧
        c'.AgreeOn (· = foreign) (c'.evaluate text).calculator) := by
  refine ⟨fun name f stored => ⟨fun plain mem => ?_, ?_⟩, ?_⟩
  · have spells := hc.spells stored mem
    exact ⟨spells, fun apart => spells.mem_parameters apart (Token.mem_plainNames.mp mem).2⟩
  · intro foreign h d d' m m' begun beside differ budget bindings
    exact hc.agree_of_foreign h begun beside differ budget bindings
  · intro text foreign h c' hl agree
    exact hc.evaluate_foreign h hl agree

/-- The names in the body of `add` are apart, so they are parameters, and neither the body nor a call
looks at `ab`. -/
theorem plainNames_of_bodies_add :
    let c := (empty 9).afterLines ["ab = 5", "fn pair a b => a b", "fn add a b => a + b"]
    let c' := c.assign "ab" (Numeral.ofWhole "6").value
    let tokens := [.identifier "a", .plus, .identifier "b"]
    let bindings := [("a", (Numeral.ofWhole "1").value), ("b", (Numeral.ofWhole "2").value)]
    let machine (c : Calculator) : Machine := { Machine.start c with cursor := .ofTokens tokens }
    Reachable c ∧ Foreign c.functionTable tokens "ab" ∧
    Foreign c.functionTable (Token.ofText "add 1 2") "ab" ∧
    c'.limit = c.limit ∧ c.AgreeOn (· ≠ "ab") c' ∧
    (∃ f, c.functionOf? "add" = some f ∧ f.Apart ∧ Token.ofText f.joined = tokens ∧
      "a" ∈ Token.plainNames tokens ∧ "a" ∈ f.parameters) ∧
    Eval.Agree (Mentioned c.functionTable tokens) (Eval.DifferAt "ab" c.functionTable c c')
      (· = .exhausted) (Eval.expression 9 bindings (machine c))
      (Eval.expression 9 bindings (machine c')) ∧
    (c.evaluate "add 1 2").outcome = .ok (some (Numeral.ofWhole "3").value) ∧
    (c'.evaluate "add 1 2").outcome = (c.evaluate "add 1 2").outcome ∧
    (c'.evaluate "add 1 2").calculator.valueOf? "ab" = some (Numeral.ofWhole "6").value := by
  intro c c' tokens bindings machine
  have hc : Reachable c := ⟨9, _, rfl⟩
  have closed : Closed (· ∈ ["add", "a", "b", "inf", "NaN"]) c.functionTable := by decide +kernel
  have bodies : ∀ other ∈ ["add", "a", "b", "inf", "NaN"], ∀ f ∈ c.functionOf? other,
      "ab" ∉ f.parameters ∧ f.Apart := by decide +kernel
  have add : c.functionOf? "add" = some ⟨["a", "b"], tokens⟩ := by decide +kernel
  have joined : Token.ofText (Definition.joined ⟨["a", "b"], tokens⟩) = tokens := by decide +kernel
  have three : (c.evaluate "add 1 2").outcome = .ok (some (Numeral.ofWhole "3").value) := by
    decide +kernel
  -- nothing further is evaluated
  clear_value c
  have foreign {read : List Token} (absent : .identifier "ab" ∉ read)
      (mention : Token.MentionOnly (· ∈ ["add", "a", "b", "inf", "NaN"]) read) :
      Foreign c.functionTable read "ab" := by
    refine ⟨by decide, absent, by decide, by decide, ?_⟩
    intro other f mentioned stored
    obtain ⟨outside, apart⟩ := bodies other (mentioned.of_closed closed mention) f stored
    exact ⟨outside, fun spells => outside (spells.mem_parameters apart (by decide))⟩
  have inBody : Foreign c.functionTable tokens "ab" := foreign (by decide) (by decide)
  have inLine : Foreign c.functionTable (Token.ofText "add 1 2") "ab" :=
    foreign (by decide +kernel) (by decide +kernel)
  have agree : c.AgreeOn (· ≠ "ab") c' := by
    constructor
    · intro name hn
      rw [valueOf?_assign, if_neg hn.symm]
    · intro name _
      rfl
  have apart := (bodies "add" (by decide) _ add).2
  have mem : "a" ∈ Token.plainNames tokens := by decide +kernel
  have differ : Eval.DifferAt "ab" c.functionTable c c' (machine c) (machine c') :=
    ⟨agree, ⟨fun _ => rfl, fun _ => rfl⟩, ⟨fun _ => rfl, fun _ => rfl⟩, rfl, rfl, rfl, rfl⟩
  obtain ⟨ofBody, unseen⟩ := plainNames_of_bodies hc
  obtain ⟨names, apartFrom⟩ := ofBody "add" _ add
  rw [joined] at names apartFrom
  have evaluated := apartFrom "ab" inBody c c' (machine c) (machine c') rfl rfl differ 9 bindings
  obtain ⟨outcome, -, -, kept⟩ := unseen "add 1 2" "ab" inLine c' rfl agree
  refine ⟨hc, inBody, inLine, rfl, agree,
    ⟨_, add, apart, joined, mem, (names "a" mem).2 apart⟩, evaluated, three, outcome, ?_⟩
  rw [kept.valueOf? rfl, valueOf?_assign, if_pos rfl]

/-- Parameters that run together are a name that is none: `pair` has the parameters `a` and `b` and
reads the variable `ab`.  And `same` reads the variable `NaN`, which is the text of its parameter's
value. -/
theorem plainNames_of_bodies_pair :
    let c := (empty 9).afterLines
      ["ab = 5", "NaN = 7", "fn pair a b => a b", "fn same a => a"]
    Reachable c ∧
    (∃ f, c.functionOf? "pair" = some f ∧ "ab" ∈ Token.plainNames (Token.ofText f.joined) ∧
      "ab" ∉ f.parameters) ∧
    (c.evaluate "pair 1 2").outcome = .ok (some (Numeral.ofWhole "5").value) ∧
    (c.evaluate "same (0 / 0)").outcome = .ok (some (Numeral.ofWhole "7").value) := by
  intro c
  have hc : Reachable c := ⟨9, _, rfl⟩
  have stored : c.functionOf? "pair" = some ⟨["a", "b"], [.identifier "a", .identifier "b"]⟩ := by
    decide +kernel
  have five : (c.evaluate "pair 1 2").outcome = .ok (some (Numeral.ofWhole "5").value) := by
    decide +kernel
  have seven : (c.evaluate "same (0 / 0)").outcome = .ok (some (Numeral.ofWhole "7").value) := by
    decide +kernel
  exact ⟨hc, ⟨_, stored, by decide +kernel, by decide⟩, five, seven⟩

end Calculator

end LineCalc
