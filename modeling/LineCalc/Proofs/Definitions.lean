import LineCalc.Definition

/-! # How definitions are read

`Definition.ofTokens_eq_ok` takes an accepted definition apart: the name, what the parameters are read
from, what the body is read from, and what has been checked on the way.  The rest follows from it.

* The tokens of the line are those of the definition (`written_of_ofTokens`).  The body is what stands
  after the arrow (`body_eq_bodyOf`), so it is the end of the line.
* A definition that is refused has what the fault says (`refused_ofTokens`).
* The variables matter only through the names that the line mentions (`ofTokens_congr`). -/

namespace LineCalc

namespace Definition

variable {isVariable : String → Bool} {tokens : List Token} {name : String} {f : Definition}

/-- Parameters are read from their names and the `=` after them. -/
theorem readParameters_eq_ok {names parameters : List String} {rest : List Token}
    (h : readParameters names tokens = .ok (parameters, rest)) :
    ∃ more, parameters = names ++ more ∧ tokens = more.map .identifier ++ .equals :: rest := by
  fun_induction readParameters names tokens with
  | case1 names => cases h
  | case2 names tokens =>
      cases h
      exact ⟨[], by simp, rfl⟩
  | case3 names name tokens hn => cases h
  | case4 names name tokens hn ih =>
      obtain ⟨more, rfl, rfl⟩ := ih h
      exact ⟨name :: more, by simp, rfl⟩
  | case5 names t tokens => cases h

theorem readBody_eq_ok {body : List Token} (h : readBody tokens = .ok body) :
    tokens = .greater :: body := by
  unfold readBody at h
  split at h <;> cases h
  rfl

theorem ofRest_eq_ok {rest : List Token} (h : ofRest name rest = .ok f) :
    ∃ arrow, readParameters [] rest = .ok (f.parameters, arrow) ∧ readBody arrow = .ok f.body ∧
      f.body ≠ [] ∧ unknown? f.parameters f.body = none := by
  unfold ofRest at h
  cases hp : readParameters [] rest with
  | error fault => simp [hp, bind, Except.bind] at h
  | ok read =>
      obtain ⟨parameters, arrow⟩ := read
      cases hb : readBody arrow with
      | error fault => simp [hp, hb, bind, Except.bind] at h
      | ok body =>
          simp only [hp, hb, bind, Except.bind] at h
          split at h
          · cases h
          · rename_i nonempty
            split at h
            · cases h
            · rename_i known
              cases h
              exact ⟨arrow, rfl, hb, nonempty, known⟩

/-- What an accepted definition consists of. -/
theorem ofTokens_eq_ok (h : ofTokens isVariable tokens = .ok (name, f)) :
    ∃ rest arrow, tokens = .identifier name :: rest ∧ isVariable name = false ∧
      readParameters [] rest = .ok (f.parameters, arrow) ∧ readBody arrow = .ok f.body ∧
      f.body ≠ [] ∧ unknown? f.parameters f.body = none := by
  unfold ofTokens at h
  split at h
  · cases h
  · rename_i other rest
    split at h
    · cases h
    · rename_i hv
      cases hr : ofRest other rest with
      | error fault => simp [hr, Except.map] at h
      | ok g =>
          simp only [hr, Except.map, Except.ok.injEq, Prod.mk.injEq] at h
          obtain ⟨rfl, rfl⟩ := h
          obtain ⟨arrow, read⟩ := ofRest_eq_ok hr
          exact ⟨rest, arrow, rfl, Bool.eq_false_iff.mpr hv, read⟩
  · cases h

/-- The tokens of a definition, after the word `fn`. -/
def written (name : String) (f : Definition) : List Token :=
  .identifier name :: (f.parameters.map .identifier ++ .equals :: .greater :: f.body)

theorem written_of_ofTokens (h : ofTokens isVariable tokens = .ok (name, f)) :
    tokens = written name f := by
  obtain ⟨rest, arrow, rfl, -, parameters, body, -⟩ := ofTokens_eq_ok h
  obtain ⟨more, same, rfl⟩ := readParameters_eq_ok parameters
  rw [readBody_eq_ok body, ← List.nil_append more, ← same]
  rfl

/-! ### Refused definitions -/

/-- What is wrong with a definition that is refused, where its tokens follow the word `fn`. -/
inductive Refused (isVariable : String → Bool) (tokens : List Token) : Fault → Prop
  | endOfInput : Refused isVariable tokens .endOfInput
  | nameIsVariable {name : String} (h : tokens.head? = some (.identifier name))
      (hv : isVariable name = true) : Refused isVariable tokens (.nameIsVariable name)
  | repeatedParameter {name parameter : String} {names : List String} {rest : List Token}
      (h : tokens = .identifier name :: (names.map .identifier ++ .identifier parameter :: rest))
      (hp : parameter ∈ names) : Refused isVariable tokens (.repeatedParameter parameter)
  /-- The token stands where the name, a parameter or a half of the arrow is wanted. -/
  | misplaced {t : Token} (h : t ∈ tokens) : Refused isVariable tokens (.malformedDefinition t.text)
  /-- The line ends with the first half of the arrow. -/
  | unfinished (h : tokens.getLast? = some .equals) :
      Refused isVariable tokens (.malformedDefinition "end of input")
  | emptyBody {name : String} {parameters : List String} (h : tokens = written name ⟨parameters, []⟩) :
      Refused isVariable tokens (.emptyBody name)
  | unknownIdentifier {name unknown : String} {f : Definition} (h : tokens = written name f)
      (hb : .identifier unknown ∈ f.body) (plain : unknown.toList.all Char.isAlpha = true)
      (hp : unknown ∉ f.parameters) : Refused isVariable tokens (.unknownIdentifier unknown)

theorem readParameters_eq_error {names : List String} {fault : Fault}
    (h : readParameters names tokens = .error fault) :
    fault = .endOfInput ∨
    (∃ more parameter rest, fault = .repeatedParameter parameter ∧
      tokens = more.map .identifier ++ .identifier parameter :: rest ∧ parameter ∈ names ++ more) ∨
    ∃ t ∈ tokens, fault = .malformedDefinition t.text := by
  fun_induction readParameters names tokens with
  | case1 names =>
      cases h
      exact .inl rfl
  | case2 names tokens => cases h
  | case3 names parameter rest hn =>
      cases h
      exact .inr (.inl ⟨[], parameter, rest, rfl, rfl, by simpa using hn⟩)
  | case4 names name tokens hn ih =>
      obtain rfl | ⟨more, parameter, rest, rfl, rfl, mem⟩ | ⟨t, mem, rfl⟩ := ih h
      · exact .inl rfl
      · exact .inr (.inl ⟨name :: more, parameter, rest, rfl, rfl, by simpa using mem⟩)
      · exact .inr (.inr ⟨t, List.mem_cons_of_mem _ mem, rfl⟩)
  | case5 names t tokens =>
      cases h
      exact .inr (.inr ⟨t, List.mem_cons_self, rfl⟩)

theorem readBody_eq_error {fault : Fault} (h : readBody tokens = .error fault) :
    (∃ t ∈ tokens, fault = .malformedDefinition t.text) ∨
    tokens = [] ∧ fault = .malformedDefinition "end of input" := by
  unfold readBody at h
  split at h
  · cases h
  · cases h
    exact .inl ⟨_, List.mem_cons_self, rfl⟩
  · cases h
    exact .inr ⟨rfl, rfl⟩

theorem unknown?_eq_some {parameters : List String} {body : List Token} {unknown : String}
    (h : unknown? parameters body = some unknown) :
    .identifier unknown ∈ body ∧ unknown.toList.all Char.isAlpha = true ∧ unknown ∉ parameters := by
  have mem := List.mem_of_find?_eq_some h
  have outside := List.find?_some h
  obtain ⟨t, ht, plain⟩ := List.mem_filterMap.mp mem
  unfold Token.plainName? at plain
  split at plain
  · split at plain
    · rename_i letters
      cases plain
      exact ⟨ht, letters, by simpa using outside⟩
    · cases plain
  · cases plain

theorem refused_ofRest {rest : List Token} {fault : Fault} (h : ofRest name rest = .error fault) :
    Refused isVariable (.identifier name :: rest) fault := by
  unfold ofRest at h
  cases hp : readParameters [] rest with
  | error other =>
      have same : other = fault := by simpa [hp, bind, Except.bind] using h
      subst same
      obtain rfl | ⟨more, parameter, after, rfl, rfl, mem⟩ | ⟨t, mem, rfl⟩ := readParameters_eq_error hp
      · exact .endOfInput
      · exact .repeatedParameter rfl mem
      · exact .misplaced (List.mem_cons_of_mem _ mem)
  | ok read =>
      obtain ⟨parameters, arrow⟩ := read
      obtain ⟨more, rfl, rfl⟩ := readParameters_eq_ok hp
      cases hb : readBody arrow with
      | error other =>
          have same : other = fault := by simpa [hp, hb, bind, Except.bind] using h
          subst same
          obtain ⟨t, mem, rfl⟩ | ⟨rfl, rfl⟩ := readBody_eq_error hb
          · exact .misplaced (by simp [mem])
          · exact .unfinished (by simp [List.getLast?_cons])
      | ok body =>
          have arrows := readBody_eq_ok hb
          subst arrows
          simp only [hp, hb, bind, Except.bind] at h
          split at h
          · rename_i empty
            cases h
            subst empty
            exact .emptyBody rfl
          · split at h
            · rename_i unknown found
              cases h
              obtain ⟨mem, plain, outside⟩ := unknown?_eq_some found
              exact .unknownIdentifier (f := ⟨_, body⟩) rfl mem plain outside
            · cases h

/-- Why a definition is refused. -/
theorem refused_ofTokens {fault : Fault} (h : ofTokens isVariable tokens = .error fault) :
    Refused isVariable tokens fault := by
  unfold ofTokens at h
  split at h
  · cases h
    exact .endOfInput
  · rename_i other rest
    split at h
    · rename_i hv
      cases h
      exact .nameIsVariable rfl hv
    · cases hr : ofRest other rest with
      | error fault' =>
          have same : fault' = fault := by simpa [hr, Except.map] using h
          subst same
          exact refused_ofRest hr
      | ok g => simp [hr, Except.map] at h
  · cases h
    exact .misplaced List.mem_cons_self

/-! ### The body -/

/-- What stands after the arrow: the `=` that comes first and the token after it are left out. -/
def bodyOf (tokens : List Token) : List Token := (tokens.dropWhile (· ≠ .equals)).drop 2

theorem bodyOf_suffix (tokens : List Token) : bodyOf tokens <:+ tokens :=
  (List.drop_suffix _ _).trans (List.dropWhile_suffix _)

theorem bodyOf_written (name : String) (f : Definition) : bodyOf (written name f) = f.body := by
  rw [bodyOf, written, ← List.cons_append, List.dropWhile_append_of_pos (by simp)]
  rfl

theorem body_eq_bodyOf (h : ofTokens isVariable tokens = .ok (name, f)) : f.body = bodyOf tokens := by
  rw [written_of_ofTokens h, bodyOf_written]

/-! ### The names of variables -/

/-- Only the names among the tokens are looked up. -/
theorem ofTokens_congr {isVariable' : String → Bool}
    (h : ∀ name, .identifier name ∈ tokens → isVariable' name = isVariable name) :
    ofTokens isVariable' tokens = ofTokens isVariable tokens := by
  rcases tokens with _ | ⟨t, rest⟩
  · rfl
  · cases t with
    | identifier name =>
        simp only [ofTokens]
        rw [h name List.mem_cons_self]
    | _ => rfl

end Definition

end LineCalc
