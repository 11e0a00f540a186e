import LineCalc.Proofs.Patterns
import LineCalc.Proofs.TokenTexts
import LineCalc.Number.Text

/-! # The text of a number is read back

`Number.text` writes a finite number as one numeral, after a minus sign if it is negative, and the
numeral has the value of the number without its sign (`ofText_finite`, `value_numeral`).  There are
three steps.

* The shortest decimal of a pattern is read as the pattern.  If no grid has a neighbour that reads
  back, all digits of the number are written, and `nearest` finds the number itself
  (`Pattern.nearest_units`, `Decimal.pattern_shortest`).
* The plain layout of a decimal is digits, perhaps a point, and digits, and these are read as a decimal
  with the same pattern (`Decimal.pattern_places`).
* So the text is that of a well-formed numeral. -/

namespace LineCalc

namespace Pattern

theorem units_pos {p : Nat} (hp : p ≠ 0) : 0 < units p := by
  have hb : 0 < binade := by decide
  unfold units
  split
  · omega
  · exact Nat.mul_pos (by omega) (Nat.pow_pos (by decide))

theorem doublings_units {p : Nat} : doublings (units p) = p / binade - 1 := by
  have hb : binade = 2 ^ 52 := rfl
  unfold doublings units
  split
  · rename_i hlt
    have h : p.log2 ≤ 52 := by
      by_cases hz : p = 0
      · subst hz
        decide
      · have hlog : p.log2 < 52 := (Nat.log2_lt hz).mpr (hb ▸ hlt)
        omega
    rw [Nat.div_eq_of_lt hlt]
    omega
  · have hm : p % binade < binade := Nat.mod_lt _ (by decide)
    have hlog : ((binade + p % binade) * Nat.pow 2 (p / binade - 1)).log2 =
        52 + (p / binade - 1) := by
      have hpos : 0 < (binade + p % binade) * Nat.pow 2 (p / binade - 1) :=
        Nat.mul_pos (by omega) (Nat.pow_pos (by decide))
      rw [Nat.log2_eq_iff (Nat.ne_of_gt hpos)]
      constructor
      · rw [Nat.pow_add, ← hb]
        exact Nat.mul_le_mul_right _ (Nat.le_add_right _ _)
      · rw [Nat.add_right_comm, Nat.pow_add, Nat.pow_succ, ← hb]
        exact Nat.mul_lt_mul_of_pos_right (by omega) (Nat.pow_pos (by decide))
    rw [hlog]
    omega

/-- A finite number is nearest to itself. -/
theorem nearest_units {p d : Nat} (hp : p < infinity) (hd : 0 < d) :
    nearest (units p * d) d = p := by
  have hk : 0 < d * Nat.pow 2 (p / binade - 1) := Nat.mul_pos hd (Nat.pow_pos (by decide))
  simp only [nearest, Nat.mul_div_cancel _ hd, doublings_units]
  suffices h : (p / binade - 1) * binade +
      roundEven (units p * d) (d * Nat.pow 2 (p / binade - 1)) = p by
    rw [h, Nat.min_eq_right (Nat.le_of_lt hp)]
  unfold units
  split
  · rename_i hlt
    rw [Nat.div_eq_of_lt hlt] at hk ⊢
    have hone : Nat.pow 2 0 = 1 := rfl
    rw [Nat.zero_sub, Nat.zero_mul, Nat.zero_add, hone, Nat.mul_one, roundEven_mul_self p hd]
  · rename_i hge
    have hdiv : 0 < p / binade := Nat.div_pos (by omega) (by decide)
    rw [Nat.mul_assoc, Nat.mul_comm _ d, roundEven_mul_self _ hk, Nat.sub_mul, Nat.one_mul]
    have h1 : p / binade * binade + p % binade = p := by
      rw [Nat.mul_comm]
      exact Nat.div_add_mod p binade
    have h2 : binade ≤ p / binade * binade := Nat.le_mul_of_pos_left _ hdiv
    omega

end Pattern

namespace Decimal

/-- The pattern of a decimal that is neither zero nor out of reach. -/
theorem pattern_of_reach {c : Nat} {e : Int} (hc : c ≠ 0) (he : e < 400)
    (hl : -(400 + c.log2 : Nat) < e) :
    (⟨c, e⟩ : Decimal).pattern =
      Pattern.nearest (c * Nat.pow 10 e.toNat * Pattern.one) (Nat.pow 10 (-e).toNat) := by
  unfold pattern
  rw [if_neg hc, if_neg (Int.not_le.mpr he), if_neg (Int.not_le.mpr hl)]

/-- Five to a power takes up more bits than two to it, so a decimal of fives is within reach. -/
theorem pattern_of_fives {u : Nat} (hu : 0 < u) (n : Nat) :
    (⟨u * Nat.pow 5 n, -(n : Int)⟩ : Decimal).pattern =
      Pattern.nearest (u * Nat.pow 5 n * Pattern.one) (Nat.pow 10 n) := by
  have hc : u * Nat.pow 5 n ≠ 0 := Nat.ne_of_gt (Nat.mul_pos hu (Nat.pow_pos (by decide)))
  have hlog : n ≤ (u * Nat.pow 5 n).log2 := by
    rw [Nat.le_log2 hc]
    calc Nat.pow 2 n ≤ Nat.pow 5 n := Nat.pow_le_pow_left (by decide) n
      _ ≤ u * Nat.pow 5 n := Nat.le_mul_of_pos_left _ hu
  have hone : Nat.pow 10 0 = 1 := rfl
  rw [pattern_of_reach hc (by omega) (by omega), Int.neg_neg, Int.toNat_neg_natCast,
    Int.toNat_natCast, hone, Nat.mul_one]

theorem ten_pow_pos (n : Nat) : 0 < Nat.pow 10 n := Nat.pow_pos (by decide)

theorem nearest_fives_mul_twos {p : Nat} (hp : p < Pattern.infinity) (n : Nat) :
    Pattern.nearest (Pattern.units p * Nat.pow 5 n * Nat.pow 2 n) (Nat.pow 10 n) = p := by
  have h : Nat.pow 5 n * Nat.pow 2 n = Nat.pow 10 n := (Nat.mul_pow 5 2 n).symm
  rw [Nat.mul_assoc, h, Pattern.nearest_units hp (ten_pow_pos n)]

/-- All digits of a finite number are read as the number. -/
theorem pattern_exact {p : Nat} (hp : p < Pattern.infinity) (hz : p ≠ 0) : (exact p).pattern = p := by
  have h := pattern_of_fives (Pattern.units_pos hz) Pattern.unitBits
  unfold Pattern.one at h
  exact h.trans (nearest_fives_mul_twos hp Pattern.unitBits)

/-- The shortest decimal of a finite number is read as the number. -/
theorem pattern_shortest {p : Nat} (hp : p < Pattern.infinity) : (shortest p).pattern = p := by
  unfold shortest
  split
  · rename_i hz
    exact hz.symm
  · rename_i hz
    cases h : (List.range 20).findSome? fun (i : Nat) => closest? p (magnitude p - i) with
    | none => exact pattern_exact hp hz
    | some d =>
        obtain ⟨i, -, hi⟩ := List.exists_of_findSome?_eq_some h
        exact pattern_of_closest? hi

/-! ### The plain layout -/

theorem wholeValue_append (digits more : List Char) :
    wholeValue (digits ++ more) = Nat.ofDigitChars 10 more (wholeValue digits) :=
  Nat.ofDigitChars_append 0

theorem wholeValue_toDigits (n : Nat) : wholeValue (Nat.toDigits 10 n) = n :=
  Nat.ofDigitChars_ten_toDigits

/-- Zeros after the digits of a whole number multiply it by a power of ten. -/
theorem wholeValue_zeros_after (c n : Nat) :
    wholeValue (Nat.toDigits 10 c ++ List.replicate n '0') = c * Nat.pow 10 n := by
  rw [wholeValue_append, wholeValue_toDigits, Nat.ofDigitChars_replicate_zero, Nat.mul_comm]
  rfl

/-- Zeros before the digits of a whole number change nothing. -/
theorem wholeValue_zeros_before (c n : Nat) :
    wholeValue (List.replicate n '0' ++ Nat.toDigits 10 c) = c := by
  have h : wholeValue (List.replicate n '0') = 0 := by
    show Nat.ofDigitChars 10 _ 0 = 0
    rw [Nat.ofDigitChars_replicate_zero, Nat.mul_zero]
  rw [wholeValue_append, h]
  exact Nat.ofDigitChars_ten_toDigits

theorem isDigit_of_mem_toDigits {n : Nat} {c : Char} (h : c ∈ Nat.toDigits 10 n) :
    c.isDigit = true :=
  Nat.isDigit_of_mem_toDigits (by decide) (by decide) h

/-- What `places` gives: digits before the point, at least one, and digits after it. -/
structure IsLayout (places : List Char × List Char) : Prop where
  whole_ne : places.1 ≠ []
  whole : ∀ c ∈ places.1, c.isDigit = true
  fraction : ∀ c ∈ places.2, c.isDigit = true

theorem places_of_nonneg {d : Decimal} (h : 0 ≤ d.exponent) :
    d.places = (Nat.toDigits 10 d.coefficient ++ List.replicate d.exponent.toNat '0', []) := by
  unfold places
  rw [if_pos h]

/-- The digits of a decimal with places after the point, with zeros in front where there are too
few. -/
def padded (d : Decimal) : List Char :=
  List.replicate ((-d.exponent).toNat + 1 - (Nat.toDigits 10 d.coefficient).length) '0' ++
    Nat.toDigits 10 d.coefficient

theorem length_padded (d : Decimal) : (-d.exponent).toNat < d.padded.length := by
  unfold padded
  rw [List.length_append, List.length_replicate]
  omega

theorem places_of_neg {d : Decimal} (h : ¬ 0 ≤ d.exponent) :
    d.places = (d.padded.take (d.padded.length - (-d.exponent).toNat),
      d.padded.drop (d.padded.length - (-d.exponent).toNat)) := by
  unfold places
  rw [if_neg h]
  exact List.splitAt_eq

theorem isDigit_padded {d : Decimal} : ∀ c ∈ d.padded, c.isDigit = true := by
  intro c hc
  unfold padded at hc
  rw [List.mem_append] at hc
  obtain hc | hc := hc
  · rw [List.eq_of_mem_replicate hc]
    decide
  · exact isDigit_of_mem_toDigits hc

theorem isLayout_places (d : Decimal) : IsLayout d.places := by
  by_cases h : 0 ≤ d.exponent
  · rw [places_of_nonneg h]
    refine ⟨by simp, fun c hc => ?_, by simp⟩
    rw [List.mem_append] at hc
    obtain hc | hc := hc
    · exact isDigit_of_mem_toDigits hc
    · rw [List.eq_of_mem_replicate hc]
      decide
  · rw [places_of_neg h]
    have hl := d.length_padded
    constructor
    · rw [ne_eq, List.take_eq_nil_iff, not_or, ← List.length_eq_zero_iff]
      omega
    · intro c hc
      exact isDigit_padded c (List.mem_of_mem_take hc)
    · intro c hc
      exact isDigit_padded c (List.mem_of_mem_drop hc)

theorem pattern_mul_ten {c n : Nat} (h : (⟨c, n⟩ : Decimal).pattern < Pattern.infinity) :
    (⟨c * Nat.pow 10 n, 0⟩ : Decimal).pattern = (⟨c, n⟩ : Decimal).pattern := by
  by_cases hc : c = 0
  · subst hc
    simp [pattern]
  · have hc' : c * Nat.pow 10 n ≠ 0 := Nat.mul_ne_zero hc (Nat.ne_of_gt (ten_pow_pos n))
    have hn : (n : Int) < 400 := by
      by_contra hn
      simp [pattern, hc, Int.not_lt.mp hn] at h
    rw [pattern_of_reach hc' (by decide) (by omega), pattern_of_reach hc hn (by omega)]
    simp

/-- The places of a decimal are read as a decimal with the same pattern. -/
theorem pattern_places {d : Decimal} (h : d.pattern < Pattern.infinity) :
    (ofDigits d.places.1 d.places.2).pattern = d.pattern := by
  by_cases he : 0 ≤ d.exponent
  · obtain ⟨c, e⟩ := d
    obtain ⟨n, rfl⟩ := Int.eq_ofNat_of_zero_le he
    rw [places_of_nonneg he, ofDigits, List.append_nil]
    show (⟨wholeValue (Nat.toDigits 10 c ++ List.replicate n '0'), 0⟩ : Decimal).pattern = _
    rw [wholeValue_zeros_after, pattern_mul_ten h]
  · have hl := d.length_padded
    have hn : -((d.padded.length - (d.padded.length - (-d.exponent).toNat) : Nat) : Int) =
        d.exponent := by omega
    rw [places_of_neg he, ofDigits, List.take_append_drop, List.length_drop, hn, padded,
      wholeValue_zeros_before]

end Decimal

/-! ### The tokens of a number's text -/

/-- The numeral that the plain layout of a decimal is. -/
def Decimal.numeral (d : Decimal) : Numeral :=
  match d.places with
  | (whole, []) => .ofWhole (String.ofList whole)
  | (whole, fraction) => .ofPointed (String.ofList whole) (String.ofList fraction)

theorem Decimal.text_numeral (d : Decimal) : d.numeral.text = d.plain := by
  rcases h : d.places with ⟨whole, _ | ⟨c, fraction⟩⟩
  · simp only [numeral, plain, h, Numeral.ofWhole]
  · simp only [numeral, plain, h, Numeral.ofPointed]
    simp [← String.toList_inj]

theorem isDigits_ofList {digits : List Char} (hne : digits ≠ [])
    (h : ∀ c ∈ digits, c.isDigit = true) : Token.IsDigits (String.ofList digits) :=
  ⟨by simpa using hne, by simpa using h⟩

theorem Decimal.wellFormed_numeral (d : Decimal) : (Token.number d.numeral).WellFormed := by
  have hl := d.isLayout_places
  rcases h : d.places with ⟨whole, _ | ⟨c, fraction⟩⟩
  · rw [h] at hl
    simp only [numeral, h]
    exact .whole (isDigits_ofList hl.whole_ne hl.whole)
  · rw [h] at hl
    simp only [numeral, h]
    exact .pointed (by simpa using hl.whole) (isDigits_ofList (by simp) hl.fraction)

theorem Decimal.value_numeral {d : Decimal} (hd : d.pattern < Pattern.infinity) :
    d.numeral.value = Number.ofPattern false d.pattern := by
  have hp := pattern_places hd
  rcases h : d.places with ⟨whole, _ | ⟨c, fraction⟩⟩
  · rw [h] at hp
    simp only [numeral, h, Numeral.ofWhole, Number.ofDecimal, String.toList_ofList, hp]
  · rw [h] at hp
    simp only [numeral, h, Numeral.ofPointed, Number.ofDecimal, String.toList_ofList, hp]

namespace Number

/-- The numeral of a pattern. -/
def numeral (p : Nat) : Numeral := (Decimal.shortest p).numeral

theorem value_numeral {p : Nat} (hp : p < Pattern.infinity) :
    (numeral p).value = ofPattern false p := by
  have h := Decimal.pattern_shortest hp
  unfold numeral
  rw [Decimal.value_numeral (h.symm ▸ hp), h]

/-- Neither infinite nor no number at all. -/
def IsFinite (x : Float) : Prop := ∃ negative p, Shape.ofFloat x = .finite negative p

instance (x : Float) : Decidable (IsFinite x) :=
  match h : Shape.ofFloat x with
  | .finite negative p => .isTrue ⟨negative, p, h⟩
  | .infinite _ => .isFalse fun ⟨_, _, e⟩ => nomatch h.symm.trans e
  | .nan => .isFalse fun ⟨_, _, e⟩ => nomatch h.symm.trans e

theorem IsFinite.neg {x : Float} (h : IsFinite x) : IsFinite (-x) := by
  obtain ⟨negative, p, shape⟩ := h
  have hp := pattern_lt_of_shape shape
  rw [← ofPattern_of_shape shape, neg_ofPattern negative hp]
  exact ⟨!negative, p, shape_ofPattern (!negative) hp⟩

/-- The text of a finite number is a numeral, after a minus sign if the number is negative. -/
theorem ofText_finite {x : Float} {negative : Bool} {p : Nat}
    (h : Shape.ofFloat x = .finite negative p) :
    Token.ofText (text x) =
      if negative then [.minus, .number (numeral p)] else [.number (numeral p)] := by
  have hn : (Token.number (numeral p)).WellFormed := Decimal.wellFormed_numeral _
  have ht : (Decimal.shortest p).plain = (Token.number (numeral p)).text :=
    (Decimal.text_numeral _).symm
  have hm : Token.minus.WellFormed := .symbol (c := '-') rfl
  unfold text
  simp only [h, ht]
  cases negative with
  | true =>
      refine Token.ofText_of_spaced (by simp [hm, hn]) (by simp [Token.glued]) ?_
      have e : (signed true (Token.number (numeral p)).text).toList =
          (Token.joinedText [.minus, .number (numeral p)]).toList := by
        simp [signed, Token.joinedText, Token.text]
      exact e ▸ Token.spaced_joinedText _
  | false =>
      refine Token.ofText_of_spaced (by simp [hn]) (by simp) ?_
      have e : (signed false (Token.number (numeral p)).text).toList =
          (Token.joinedText [.number (numeral p)]).toList := by
        simp [signed, Token.joinedText]
      exact e ▸ Token.spaced_joinedText _

/-- What is no finite number is written as a name, after a minus sign if it is negative. -/
theorem ofText_infinite {x : Float} {negative : Bool} (h : Shape.ofFloat x = .infinite negative) :
    Token.ofText (text x) =
      if negative then [.minus, .identifier "inf"] else [.identifier "inf"] := by
  unfold text
  rw [h]
  cases negative with
  | true => decide
  | false => decide

theorem ofText_nan {x : Float} (h : Shape.ofFloat x = .nan) :
    Token.ofText (text x) = [.identifier "NaN"] := by
  unfold text
  rw [h]
  decide

/-- The text of a number consists of a numeral or one of two names, perhaps after a minus sign. -/
theorem ofText_text (x : Float) : ∃ t,
    (Token.ofText (text x) = [t] ∨ Token.ofText (text x) = [.minus, t]) ∧
    ((∃ n, t = .number n) ∨ t = .identifier "inf" ∨ t = .identifier "NaN") := by
  cases h : Shape.ofFloat x with
  | nan => exact ⟨_, .inl (ofText_nan h), .inr (.inr rfl)⟩
  | infinite negative =>
      refine ⟨.identifier "inf", ?_, .inr (.inl rfl)⟩
      rw [ofText_infinite h]
      cases negative <;> simp
  | finite negative p =>
      refine ⟨.number (numeral p), ?_, .inl ⟨_, rfl⟩⟩
      rw [ofText_finite h]
      cases negative <;> simp

theorem length_ofText_text (x : Float) : (Token.ofText (text x)).length ≤ 2 := by
  obtain ⟨t, e | e, -⟩ := ofText_text x <;> simp [e]

theorem equals_not_mem_ofText_text (x : Float) : .equals ∉ Token.ofText (text x) := by
  obtain ⟨t, e | e, ⟨n, rfl⟩ | rfl | rfl⟩ := ofText_text x <;> simp [e]

end Number

end LineCalc
