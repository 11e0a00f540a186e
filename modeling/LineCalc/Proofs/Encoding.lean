import LineCalc.Proofs.Decoding

/-! # Texts come back from their bytes

The bytes of a text are decoded as this text (`decode_encode`), and the bytes that are valid are those of
a text (`isValid_iff`).  So bytes that are valid are decoded without a replacement character.

The bytes of one character are followed one by one (`Reading.foldl_utf8EncodeChar`): its first byte
begins it with the upper bits of its number, and each further one adds six bits.  The ranges for the
second byte leave out nothing but what is no character. -/

namespace LineCalc

namespace Utf8

/-! ### The bytes of one character -/

/-- The byte with the last six bits of a number. -/
def tail (n : Nat) : UInt8 := .ofNat (n % 64 + 0x80)

theorem toNat_tail (n : Nat) : (tail n).toNat = n % 64 + 0x80 := by
  rw [tail, UInt8.toNat_ofNat']
  omega

/-- The byte adds its bits to those above them. -/
theorem number_of_tail {bits n : Nat} (e : bits = n / 64) :
    bits * 64 + ((tail n).toNat - 0x80) = n := by
  rw [toNat_tail]
  omega

theorem begin?_ascii : ∀ n < 0x80, begin? (.ofNat n) = none := by decide

theorem begin?_two : ∀ bits < 0x20, 2 ≤ bits →
    begin? (.ofNat (bits + 0xC0)) = some ⟨bits, 0, 0x80, 0xBF⟩ := by
  decide

theorem begin?_three : ∀ bits < 0x10, begin? (.ofNat (bits + 0xE0)) =
    some ⟨bits, 1, if bits = 0 then 0xA0 else 0x80, if bits = 0xD then 0x9F else 0xBF⟩ := by
  decide

theorem begin?_four : ∀ bits < 5, begin? (.ofNat (bits + 0xF0)) =
    some ⟨bits, 2, if bits = 0 then 0x90 else 0x80, if bits = 4 then 0x8F else 0xBF⟩ := by
  decide

namespace Reading

variable (done : Array Char)

theorem step_ascii {n : Nat} (h : n ≤ 0x7F) :
    step ⟨done, none⟩ (.ofNat n) = ⟨done.push (Char.ofNat n), none⟩ := by
  have e : (UInt8.ofNat n).toNat = n := by
    rw [UInt8.toNat_ofNat']
    omega
  have ascii : UInt8.ofNat n < 0x80 := by
    rw [UInt8.lt_iff_toNat_lt, e]
    exact Nat.lt_succ_of_le h
  show first done _ = _
  rw [first, if_pos ascii, e]

theorem step_begin {b : UInt8} {begun : Begun} (h : begin? b = some begun) :
    step ⟨done, none⟩ b = ⟨done, some begun⟩ := by
  have large : ¬ b < 0x80 := by
    intro small
    rw [UInt8.lt_iff_toNat_lt] at small
    have none := begin?_ascii b.toNat small
    rw [UInt8.ofNat_toNat, h] at none
    cases none
  show first done b = _
  rw [first, if_neg large, h]

variable {bits missing n : Nat} {low high : UInt8} (hl : low ≤ tail n) (hh : tail n ≤ high)
  (e : bits = n / 64)
include hl hh e

/-- A byte that is not the last one of a character. -/
theorem step_next : step ⟨done, some ⟨bits, missing + 1, low, high⟩⟩ (tail n) =
    ⟨done, some ⟨n, missing, 0x80, 0xBF⟩⟩ := by
  simp only [step]
  rw [if_pos ⟨hl, hh⟩, number_of_tail e]

/-- The last byte of a character. -/
theorem step_last : step ⟨done, some ⟨bits, 0, low, high⟩⟩ (tail n) =
    ⟨done.push (Char.ofNat n), none⟩ := by
  simp only [step]
  rw [if_pos ⟨hl, hh⟩, number_of_tail e]

end Reading

theorem low_le_tail (n : Nat) : 0x80 ≤ tail n := by
  rw [UInt8.le_iff_toNat_le, toNat_tail]
  exact Nat.le_add_left _ _

theorem tail_le_high (n : Nat) : tail n ≤ 0xBF := by
  rw [UInt8.le_iff_toNat_le, toNat_tail]
  show n % 64 + 0x80 ≤ 0xBF
  omega

namespace Reading

variable (done : Array Char)

theorem foldl_two {n : Nat} (low : 0x7F < n) (high : n ≤ 0x7FF) :
    [.ofNat (n / 64 % 32 + 0xC0), tail n].foldl step ⟨done, none⟩ =
      ⟨done.push (Char.ofNat n), none⟩ := by
  have bits : n / 64 % 32 = n / 64 := Nat.mod_eq_of_lt (by omega)
  rw [bits, List.foldl_cons, step_begin done (begin?_two (n / 64) (by omega) (by omega))]
  exact step_last done (low_le_tail n) (tail_le_high n) rfl

theorem foldl_three {n : Nat} (low : 0x7FF < n) (high : n ≤ 0xFFFF) (valid : n.isValidChar) :
    [.ofNat (n / 4096 % 16 + 0xE0), tail (n / 64), tail n].foldl step ⟨done, none⟩ =
      ⟨done.push (Char.ofNat n), none⟩ := by
  have bits : n / 4096 % 16 = n / 4096 := Nat.mod_eq_of_lt (by omega)
  -- smaller numbers have fewer bytes, and the surrogates are no characters
  have second : (if n / 4096 = 0 then 0xA0 else 0x80) ≤ tail (n / 64) ∧
      tail (n / 64) ≤ if n / 4096 = 0xD then 0x9F else 0xBF := by
    unfold Nat.isValidChar at valid
    simp only [UInt8.le_iff_toNat_le, toNat_tail, apply_ite UInt8.toNat, UInt8.reduceToNat]
    constructor <;> split <;> omega
  rw [bits, List.foldl_cons, step_begin done (begin?_three (n / 4096) (by omega)), List.foldl_cons,
    step_next done second.1 second.2 (Nat.div_div_eq_div_mul n 64 64).symm]
  exact step_last done (low_le_tail n) (tail_le_high n) rfl

theorem foldl_four {n : Nat} (low : 0xFFFF < n) (valid : n.isValidChar) :
    [.ofNat (n / 262144 % 8 + 0xF0), tail (n / 4096), tail (n / 64), tail n].foldl step
        ⟨done, none⟩ =
      ⟨done.push (Char.ofNat n), none⟩ := by
  have high : n < 0x110000 := by
    unfold Nat.isValidChar at valid
    omega
  have bits : n / 262144 % 8 = n / 262144 := Nat.mod_eq_of_lt (by omega)
  -- smaller numbers have fewer bytes, and larger ones are beyond the last character
  have second : (if n / 262144 = 0 then 0x90 else 0x80) ≤ tail (n / 4096) ∧
      tail (n / 4096) ≤ if n / 262144 = 4 then 0x8F else 0xBF := by
    simp only [UInt8.le_iff_toNat_le, toNat_tail, apply_ite UInt8.toNat, UInt8.reduceToNat]
    constructor <;> split <;> omega
  rw [bits, List.foldl_cons, step_begin done (begin?_four (n / 262144) (by omega)), List.foldl_cons,
    step_next done second.1 second.2 (Nat.div_div_eq_div_mul n 4096 64).symm, List.foldl_cons,
    step_next done (low_le_tail _) (tail_le_high _) (Nat.div_div_eq_div_mul n 64 64).symm]
  exact step_last done (low_le_tail n) (tail_le_high n) rfl

/-- The bytes of a character give this character. -/
theorem foldl_utf8EncodeChar (c : Char) :
    (String.utf8EncodeChar c).foldl step ⟨done, none⟩ = ⟨done.push c, none⟩ := by
  have char : Char.ofNat c.val.toNat = c := Char.ofNat_toNat c
  have push : done.push c = done.push (Char.ofNat c.val.toNat) := by rw [char]
  rw [push]
  unfold String.utf8EncodeChar
  dsimp only
  split
  · rename_i high
    exact step_ascii done high
  split
  · rename_i low high
    exact foldl_two done (Nat.lt_of_not_le low) high
  split
  · rename_i low high
    exact foldl_three done (Nat.lt_of_not_le low) high c.valid
  · rename_i low
    exact foldl_four done (Nat.lt_of_not_le low) c.valid

theorem foldl_flatMap_utf8EncodeChar (chars : List Char) :
    (chars.flatMap String.utf8EncodeChar).foldl step ⟨done, none⟩ =
      ⟨done ++ chars.toArray, none⟩ := by
  induction chars generalizing done with
  | nil => simp
  | cons c chars ih =>
      rw [List.flatMap_cons, List.foldl_append, foldl_utf8EncodeChar, ih]
      simp

end Reading

/-! ### The bytes of a text -/

/-- **A text comes back from its bytes.** -/
theorem decode_encode (text : String) : decode (encode text) = text := by
  rw [← String.toList_inj, toList_decode, encode]
  show ((text.toList.flatMap String.utf8EncodeChar).foldl Reading.step ⟨#[], none⟩).finish = _
  rw [Reading.foldl_flatMap_utf8EncodeChar]
  simp [Reading.finish]

/-- The bytes that are valid are those of a text. -/
theorem isValid_iff {bytes : List UInt8} :
    isValid bytes = true ↔ ∃ text, bytes = encode text := by
  unfold isValid
  rw [ByteArray.validateUTF8_eq_true_iff]
  constructor
  · intro h
    cases h with
    | intro chars e =>
        refine ⟨.ofList chars, ?_⟩
        rw [encode, String.toList_ofList]
        exact List.toByteArray_inj.mp e
  · rintro ⟨text, rfl⟩
    exact ⟨text.toList, rfl⟩

end Utf8

end LineCalc
