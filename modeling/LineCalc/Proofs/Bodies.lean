import LineCalc.Proofs.Lines
import LineCalc.Proofs.Definitions
import LineCalc.Proofs.TokenTexts

/-! # Stored bodies

The body of a definition is the end of the line that defines it (`Definition.body_suffix`).  So all
stored bodies consist of tokens that come from texts (`Reachable.wellFormed_body`), as the names of
functions do (`Reachable.isName`), and a body without glued neighbours comes back from its own text
(`Definition.ofText_joined`). -/

namespace LineCalc

namespace Definition

/-- The body is the end of what is read. -/
theorem body_suffix {isVariable : String → Bool} {tokens : List Token} {name : String}
    {f : Definition} (h : ofTokens isVariable tokens = .ok (name, f)) : f.body <:+ tokens :=
  body_eq_bodyOf h ▸ bodyOf_suffix tokens

/-- A body without glued neighbours comes back from its text. -/
theorem ofText_joined {f : Definition} (hw : ∀ t ∈ f.body, t.WellFormed)
    (hg : f.body.IsChain (Token.glued · · = false)) : Token.ofText f.joined = f.body :=
  Token.ofText_of_spaced hw hg (Token.spaced_joinedText f.body)

end Definition

namespace Calculator

/-- What holds of every definition that is accepted, and its name, holds of all stored functions. -/
theorem Reachable.of_accepted_named {P : String → Definition → Prop}
    (accepted : ∀ {text rest isVariable name f},
      Token.ofText text = .identifier Definition.keyword :: rest →
      Definition.ofTokens isVariable rest = .ok (name, f) → P name f)
    {c : Calculator} (h : Reachable c) {name : String} {f : Definition}
    (hf : c.functionOf? name = some f) : P name f := by
  refine h.induction_on (P := fun c => ∀ {name f}, c.functionOf? name = some f → P name f) ?_ ?_ hf
  · intro limit name f hf
    simp [functionOf?, Calculator.empty] at hf
  · intro c text hc name f hf
    cases evaluate_change c text with
    | assigned h names =>
        rw [h, functionOf?_assignAll] at hf
        exact hc hf
    | defined tokens h calculator trace =>
        rw [calculator, functionOf?_define] at hf
        split at hf
        · rename_i same
          cases hf
          exact same ▸ accepted tokens h
        · exact hc hf

theorem Reachable.of_accepted {P : Definition → Prop}
    (accepted : ∀ {text rest isVariable name f},
      Token.ofText text = .identifier Definition.keyword :: rest →
      Definition.ofTokens isVariable rest = .ok (name, f) → P f)
    {c : Calculator} (h : Reachable c) {name : String} {f : Definition}
    (hf : c.functionOf? name = some f) : P f :=
  h.of_accepted_named (P := fun _ f => P f) accepted hf

/-- The names of stored functions come from texts. -/
theorem Reachable.isName {c : Calculator} (h : Reachable c) {name : String} {f : Definition}
    (hf : c.functionOf? name = some f) : Token.IsName name := by
  refine h.of_accepted_named (P := fun name _ => Token.IsName name) ?_ hf
  intro text rest isVariable name f tokens accepted
  have mem : Token.identifier name ∈ Token.ofText text := by
    rw [tokens, Definition.written_of_ofTokens accepted]
    simp [Definition.written]
  exact (Token.ofText_wellFormed text _ mem).isName

/-- All tokens of stored bodies come from texts. -/
theorem Reachable.wellFormed_body {c : Calculator} (h : Reachable c) {name : String} {f : Definition}
    (hf : c.functionOf? name = some f) : ∀ t ∈ f.body, t.WellFormed := by
  refine h.of_accepted (P := fun f => ∀ t ∈ f.body, t.WellFormed) ?_ hf
  intro text rest isVariable name f tokens accepted t ht
  have hrest : t ∈ rest := (Definition.body_suffix accepted).subset ht
  apply Token.ofText_wellFormed text t
  rw [tokens]
  exact List.mem_cons_of_mem _ hrest

end Calculator

end LineCalc
