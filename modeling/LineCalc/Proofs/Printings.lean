import LineCalc.Proofs.TokenTexts
import LineCalc.Value

/-! # Expression trees and how they are written

A *tree* is made of literals, negated literals, variables and binary operators.  Its value is worked
out with the operations on numbers themselves (`Tree.value`).

A *printing* is a tree with some pairs of parentheses around any of its parts.  It is *adequate* if
there are parentheses at least where they are needed: around an operand on the left that binds less
tightly than the operator, and around one on the right that does not bind more tightly.

Between the tokens of a printing no blank is needed (`Printing.isChain_tokens`): a number or a name
always has a sign, an operator or a parenthesis next to it. -/

namespace LineCalc

/-- A numeral as it can stand in a line: digits, digits around a point, or a point and digits. -/
structure Literal where
  numeral : Numeral
  wellFormed : (Token.number numeral).WellFormed

/-- A name as it can stand in a line. -/
structure Name where
  text : String
  isName : Token.IsName text

/-- The binary operators. -/
inductive Operator where
  | plus
  | minus
  | ofProduct (op : ProductOperator)
deriving DecidableEq

namespace ProductOperator

def token : ProductOperator → Token
  | times => .star
  | dividedBy => .slash
  | remainder => .percent

@[simp] theorem ofToken?_token (op : ProductOperator) : ofToken? op.token = some op := by
  cases op <;> rfl

end ProductOperator

namespace Operator

def token : Operator → Token
  | plus => .plus
  | minus => .minus
  | ofProduct op => op.token

/-- Computes with the operator. -/
def apply : Operator → Float → Float → Float
  | plus, x, y => x + y
  | minus, x, y => x - y
  | ofProduct op, x, y => op.apply x y

/-- How tightly the operator binds. -/
def binding : Operator → Nat
  | plus => 1
  | minus => 1
  | ofProduct _ => 2

end Operator

/-- An expression without assignments and calls. -/
inductive Tree where
  | literal (l : Literal)
  | negated (l : Literal)
  | named (x : Name)
  | binary (op : Operator) (left right : Tree)

namespace Tree

/-- The value of a tree, given those of its variables. -/
def value (valueOf : String → Float) : Tree → Float
  | literal l => l.numeral.value
  | negated l => -l.numeral.value
  | named x => valueOf x.text
  | binary op left right => op.apply (left.value valueOf) (right.value valueOf)

/-- The names of the variables of a tree. -/
def names : Tree → List String
  | literal _ => []
  | negated _ => []
  | named x => [x.text]
  | binary _ left right => left.names ++ right.names

end Tree

/-- A tree with pairs of parentheses around some of its parts. -/
inductive Printing where
  | literal (l : Literal)
  | negated (l : Literal)
  | named (x : Name)
  | binary (op : Operator) (left right : Printing)
  | group (inner : Printing)

namespace Printing

/-- The tree that is written. -/
def tree : Printing → Tree
  | literal l => .literal l
  | negated l => .negated l
  | named x => .named x
  | binary op left right => .binary op left.tree right.tree
  | group inner => inner.tree

/-- The tokens that are written. -/
def tokens : Printing → List Token
  | literal l => [.number l.numeral]
  | negated l => [.minus, .number l.numeral]
  | named x => [.identifier x.text]
  | binary op left right => left.tokens ++ op.token :: right.tokens
  | group inner => .leftParen :: (inner.tokens ++ [.rightParen])

/-- How deep the parentheses are nested. -/
def nesting : Printing → Nat
  | literal _ => 0
  | negated _ => 0
  | named _ => 0
  | binary _ left right => max left.nesting right.nesting
  | group inner => inner.nesting + 1

/-- How tightly the outermost operator binds; what has none binds most tightly. -/
def binding : Printing → Nat
  | binary op _ _ => op.binding
  | _ => 3

/-- There are parentheses at least where they are needed. -/
def Adequate : Printing → Prop
  | binary op left right =>
    op.binding ≤ left.binding ∧ op.binding < right.binding ∧ left.Adequate ∧ right.Adequate
  | group inner => inner.Adequate
  | _ => True

end Printing

namespace Token

/-- Whether a token is a character by itself. -/
def isSymbol : Token → Bool
  | number _ => false
  | identifier _ => false
  | stray _ => false
  | _ => true

theorem glued_of_isSymbol {a b : Token} (h : a.isSymbol = true ∨ b.isSymbol = true) :
    glued a b = false := by
  cases a <;> cases b <;> simp [isSymbol] at h <;> rfl

end Token

theorem Operator.isSymbol_token (op : Operator) : op.token.isSymbol = true := by
  cases op with
  | plus | minus => rfl
  | ofProduct op => cases op <;> rfl

theorem Operator.wellFormed_token (op : Operator) : op.token.WellFormed := by
  cases op with
  | plus => exact .symbol (c := '+') rfl
  | minus => exact .symbol (c := '-') rfl
  | ofProduct op =>
      cases op with
      | times => exact .symbol (c := '*') rfl
      | dividedBy => exact .symbol (c := '/') rfl
      | remainder => exact .symbol (c := '%') rfl

theorem Operator.token_ne_equals (op : Operator) : Token.equals ≠ op.token := by
  intro h
  cases op with
  | plus | minus => cases h
  | ofProduct op => cases op <;> cases h

namespace Printing

theorem tokens_wellFormed (p : Printing) : ∀ t ∈ p.tokens, t.WellFormed := by
  induction p with
  | literal l => simpa [tokens] using l.wellFormed
  | negated l =>
      have hm : Token.WellFormed .minus := Operator.wellFormed_token .minus
      simpa [tokens, hm] using l.wellFormed
  | named x => simpa [tokens] using Token.WellFormed.identifier x.isName
  | binary op left right ihl ihr =>
      intro t ht
      simp only [tokens, List.mem_append, List.mem_cons] at ht
      obtain ht | rfl | ht := ht
      · exact ihl t ht
      · exact op.wellFormed_token
      · exact ihr t ht
  | group inner ih =>
      intro t ht
      simp only [tokens, List.mem_append, List.mem_cons, List.not_mem_nil, or_false] at ht
      obtain rfl | ht | rfl := ht
      · exact .symbol (c := '(') rfl
      · exact ih t ht
      · exact .symbol (c := ')') rfl

theorem isChain_cons {us : List Token} {t : Token} (ht : t.isSymbol = true)
    (h : us.IsChain (Token.glued · · = false)) : (t :: us).IsChain (Token.glued · · = false) := by
  apply List.isChain_cons.mpr
  constructor
  · intro u _
    exact Token.glued_of_isSymbol (.inl ht)
  · exact h

/-- A symbol between two rows keeps them apart. -/
theorem isChain_append_cons {ts us : List Token} {t : Token} (ht : t.isSymbol = true)
    (h : ts.IsChain (Token.glued · · = false)) (h' : us.IsChain (Token.glued · · = false)) :
    (ts ++ t :: us).IsChain (Token.glued · · = false) := by
  apply List.isChain_append.mpr
  refine ⟨h, isChain_cons ht h', ?_⟩
  intro a _ b hb
  cases hb
  exact Token.glued_of_isSymbol (.inr ht)

theorem isChain_tokens (p : Printing) : p.tokens.IsChain (Token.glued · · = false) := by
  induction p with
  | literal l => exact List.isChain_singleton _
  | negated l => exact isChain_cons rfl (List.isChain_singleton _)
  | named x => exact List.isChain_singleton _
  | binary op left right ihl ihr => exact isChain_append_cons op.isSymbol_token ihl ihr
  | group inner ih => exact isChain_cons rfl (isChain_append_cons rfl ih .nil)

/-- The tokens of a line in which a printing is written, with any blanks between its tokens. -/
theorem ofText_of_spaced (p : Printing) {text : String} (h : Token.Spaced p.tokens text.toList) :
    Token.ofText text = p.tokens :=
  Token.ofText_of_spaced p.tokens_wellFormed p.isChain_tokens h

theorem equals_not_mem_tokens (p : Printing) : Token.equals ∉ p.tokens := by
  induction p with
  | literal l => simp [tokens]
  | negated l => simp [tokens]
  | named x => simp [tokens]
  | binary op left right ihl ihr => simp [tokens, ihl, ihr, op.token_ne_equals]
  | group inner ih => simp [tokens, ih]

theorem length_tokens_binary (op : Operator) (left right : Printing) :
    (binary op left right).tokens.length = left.tokens.length + 1 + right.tokens.length := by
  simp only [tokens, List.length_append, List.length_cons]
  omega

theorem length_tokens_pos (p : Printing) : 0 < p.tokens.length := by
  cases p with
  | binary op left right =>
      rw [length_tokens_binary]
      omega
  | literal | negated | named | group => simp [tokens]

end Printing

end LineCalc
