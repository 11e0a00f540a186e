import Mathlib
import LineCalc.Number.Binary

/-! # Numbers and their patterns

A finite number is its sign and its pattern: `Number.ofPattern` gives back the number that
`Shape.ofFloat` takes apart (`ofPattern_of_shape`), and a minus sign changes the sign and keeps the
pattern (`neg_ofPattern`).

Negation unpacks the bits into a sign, an exponent and a mantissa, changes the sign and packs the
result.  Unpacking bits with the other sign gives the same as changing the sign after unpacking
(`unpack_neg`), and bits whose exponent is not the one of the infinities are packed as they were. -/

namespace LineCalc

open Float.Model (Format UnpackedFloat)
open Float.Model.UnpackedFloat

/-- The layout of binary64 numbers. -/
abbrev layout : Format := .binary64

/-! ### Signs and patterns -/

/-- The sign of a negative number, or of one that is not. -/
def signOf (negative : Bool) : Sign := if negative then .negative else .positive

/-- The bits of a sign and a pattern. -/
def bitsOf (negative : Bool) (p : Nat) : BitVec 64 :=
  packComponents layout (signOf negative) (BitVec.ofNat 11 (p / Pattern.binade))
    (BitVec.ofNat 52 p)

theorem toNat_bitsOf (negative : Bool) {p : Nat} (hp : p < Pattern.signBit) :
    (bitsOf negative p).toNat = if negative then Pattern.signBit + p else p := by
  have hs : Pattern.signBit = 9223372036854775808 := rfl
  have hb : Pattern.binade = 4503599627370496 := rfl
  simp only [bitsOf, packComponents, BitVec.toNat_append]
  rw [← Nat.shiftLeft_add_eq_or_of_lt (BitVec.isLt _), ← Nat.shiftLeft_add_eq_or_of_lt (BitVec.isLt _)]
  rw [hs] at hp
  cases negative with
  | true =>
      simp only [signOf, if_true, Sign.toBitVec, BitVec.toNat_ofNat, Nat.shiftLeft_eq, hs, hb]
      omega
  | false =>
      simp only [signOf, Bool.false_eq_true, if_false, Sign.toBitVec, BitVec.toNat_ofNat,
        Nat.shiftLeft_eq, hb]
      omega

theorem exponent_ne {p : Nat} (hp : p < Pattern.infinity) :
    BitVec.ofNat 11 (p / Pattern.binade) ≠ -1#11 := by
  intro h
  have h := congrArg BitVec.toNat h
  have h' : p / Pattern.binade < 2047 := Nat.div_lt_of_lt_mul (by rwa [Nat.mul_comm])
  rw [BitVec.toNat_ofNat, Nat.mod_eq_of_lt (by omega)] at h
  exact absurd h (Nat.ne_of_lt h')

theorem lt_signBit {p : Nat} (hp : p < Pattern.infinity) : p < Pattern.signBit :=
  Nat.lt_trans hp (by decide)

/-! ### Unpacking and packing -/

/-- Bits with the other sign are unpacked to the number with the other sign. -/
theorem unpack_neg (s : Sign) (e : BitVec 11) (m : BitVec 52) :
    UnpackedFloat.unpack layout (packComponents layout (-s) e m) =
      (UnpackedFloat.unpack layout (packComponents layout s e m)).neg := by
  unfold UnpackedFloat.unpack
  simp only [unpackMantissa_packComponents, unpackExponent_packComponents,
    unpackSign_packComponents, Sign.ofBitVec_toBitVec]
  split_ifs <;> rfl

/-- The bits of a finite number are no bits of what is not a number. -/
theorem pack_unpack_bitsOf (negative : Bool) {p : Nat} (hp : p < Pattern.infinity) :
    pack layout (UnpackedFloat.unpack layout (bitsOf negative p)) = bitsOf negative p := by
  have h : @isNaNBits layout (bitsOf negative p) = false := by
    unfold isNaNBits bitsOf
    rw [unpackExponent_packComponents]
    simp only [exponent_ne hp, false_and, decide_false]
  rw [pack_unpack, h]
  rfl

namespace Number

theorem toBitVec_eq (negative : Bool) {p : Nat} (hp : p < Pattern.signBit) :
    (UInt64.ofNat (if negative then Pattern.signBit + p else p)).toBitVec = bitsOf negative p := by
  apply BitVec.eq_of_toNat_eq
  have hs : Pattern.signBit = 9223372036854775808 := rfl
  rw [toNat_bitsOf negative hp, UInt64.toNat_toBitVec, UInt64.toNat_ofNat']
  split <;> omega

/-- The bits of a finite number are those of its sign and its pattern. -/
theorem toBits_ofPattern (negative : Bool) {p : Nat} (hp : p < Pattern.infinity) :
    (ofPattern negative p).toBits.toBitVec = bitsOf negative p := by
  show pack layout (UnpackedFloat.unpack layout (UInt64.toBitVec _)) = _
  rw [toBitVec_eq negative (lt_signBit hp)]
  exact pack_unpack_bitsOf negative hp

theorem neg_signOf (negative : Bool) : -signOf negative = signOf !negative := by
  cases negative <;> rfl

/-- A minus sign changes the sign and keeps the pattern. -/
theorem neg_ofPattern (negative : Bool) {p : Nat} (hp : p < Pattern.infinity) :
    -ofPattern negative p = ofPattern (!negative) p := by
  apply Float.toBits_inj.mp
  apply UInt64.toBitVec_inj.mp
  rw [toBits_ofPattern (!negative) hp]
  show pack layout (UnpackedFloat.unpack layout (ofPattern negative p).toBits.toBitVec).neg = _
  rw [toBits_ofPattern negative hp, bitsOf, ← unpack_neg, neg_signOf]
  exact pack_unpack_bitsOf (!negative) hp

/-- The number with a sign and a pattern has this sign and this pattern. -/
theorem shape_ofPattern (negative : Bool) {p : Nat} (hp : p < Pattern.infinity) :
    Shape.ofFloat (ofPattern negative p) = .finite negative p := by
  have small := lt_signBit hp
  have bits : (ofPattern negative p).toBits.toNat =
      if negative then Pattern.signBit + p else p := by
    rw [← UInt64.toNat_toBitVec, toBits_ofPattern negative hp, toNat_bitsOf negative small]
  simp only [Shape.ofFloat, bits]
  cases negative with
  | true =>
      have rest : (Pattern.signBit + p) % Pattern.signBit = p := by
        rw [Nat.add_mod_left, Nat.mod_eq_of_lt small]
      simp [rest, hp]
  | false =>
      simp [Nat.mod_eq_of_lt small, hp, Nat.not_le.mpr small]

theorem pattern_lt_of_shape {x : Float} {negative : Bool} {p : Nat}
    (h : Shape.ofFloat x = .finite negative p) : p < Pattern.infinity := by
  simp only [Shape.ofFloat] at h
  split at h
  · cases h
    assumption
  · split at h <;> cases h

/-- A finite number is its sign and its pattern. -/
theorem ofPattern_of_shape {x : Float} {negative : Bool} {p : Nat}
    (h : Shape.ofFloat x = .finite negative p) : ofPattern negative p = x := by
  have hlt : x.toBits.toNat < 18446744073709551616 := x.toBits.toNat_lt
  have hs : Pattern.signBit = 9223372036854775808 := rfl
  have e : UInt64.ofNat (if negative then Pattern.signBit + p else p) = x.toBits := by
    apply UInt64.toNat_inj.mp
    rw [UInt64.toNat_ofNat']
    simp only [Shape.ofFloat] at h
    split at h
    · cases h
      simp only [decide_eq_true_eq, hs]
      split <;> omega
    · split at h <;> cases h
  unfold ofPattern
  rw [e, Float.ofBits_toBits]

end Number

end LineCalc
