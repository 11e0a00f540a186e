import Mathlib.Data.String.Basic
import LineCalc.Session

/-! # Bytes are decoded line by line

Bytes, UTF-8 or not, are cut into lines and each line is decoded, or they are decoded and the characters
are cut into lines: both give the same lines (`cut_toList_decode`).

* A line feed is a character by itself and never goes on with another one.  So it ends what has been
  begun, and nothing before it matters for what comes after it (`toList_decode_append_lineFeed`).
* No other byte gives a line feed, not even as the last one of several.  The numbers of all characters
  of more than one byte are from 128 on, which `Begun.Sound` says of those that have been begun. -/

namespace LineCalc

namespace Lines

variable {α : Type} {isEnd : α → Bool}

theorem extend_of_isEnd {a : α} (h : isEnd a = true) (lines : List (List α)) :
    extend isEnd a lines = [a] :: lines := by
  simp [extend, h]

theorem extend_cons {a : α} (h : isEnd a = false) (line : List α) (lines : List (List α)) :
    extend isEnd a (line :: lines) = (a :: line) :: lines := by
  simp [extend, h]

/-- A row without an end is one line, unless there is nothing in it. -/
theorem cut_of_not_isEnd {row : List α} (h : ∀ a ∈ row, isEnd a = false) (hne : row ≠ []) :
    cut isEnd row = [row] := by
  induction row with
  | nil => exact absurd rfl hne
  | cons a row ih =>
      have ha : isEnd a = false := h a List.mem_cons_self
      cases row with
      | nil => simp [extend, ha]
      | cons b row =>
          have hrow := ih (fun c hc => h c (List.mem_cons_of_mem a hc)) (List.cons_ne_nil b row)
          rw [cut_cons, hrow, extend_cons ha]

/-- A line is cut off after its end. -/
theorem cut_append_cons {line : List α} (h : ∀ a ∈ line, isEnd a = false) {e : α}
    (he : isEnd e = true) (rest : List α) :
    cut isEnd (line ++ e :: rest) = (line ++ [e]) :: cut isEnd rest := by
  induction line with
  | nil => exact extend_of_isEnd he _
  | cons a line ih =>
      have ha : isEnd a = false := h a List.mem_cons_self
      have hline : ∀ b ∈ line, isEnd b = false := fun b hb => h b (List.mem_cons_of_mem a hb)
      rw [List.cons_append, cut_cons, ih hline, extend_cons ha, List.cons_append]

/-- What holds of a row without an end, and of a line in front of a row if it holds of the row, holds
of every row. -/
theorem line_induction (isEnd : α → Bool) {P : List α → Prop}
    (last : ∀ row, (∀ a ∈ row, isEnd a = false) → P row)
    (line : ∀ line e rest, (∀ a ∈ line, isEnd a = false) → isEnd e = true → P rest →
      P (line ++ e :: rest)) (row : List α) : P row := by
  -- what has been read of the first line is in front of the row
  suffices h : ∀ before : List α, (∀ a ∈ before, isEnd a = false) → P (before ++ row) from
    h [] (by simp)
  induction row with
  | nil =>
      intro before hb
      rw [List.append_nil]
      exact last before hb
  | cons a row ih =>
      intro before hb
      cases ha : isEnd a with
      | true => exact line before a row hb ha (ih [] (by simp))
      | false =>
          have h := ih (before ++ [a]) (by
            intro b hm
            rw [List.mem_append, List.mem_singleton] at hm
            obtain hm | rfl := hm
            · exact hb b hm
            · exact ha)
          rwa [List.append_assoc] at h

end Lines

namespace Utf8

/-! ### Characters that have been begun -/

/-- The next byte is no ASCII character, and the character is none either: its number will be from 128
on. -/
structure Begun.Sound (b : Begun) : Prop where
  low : 0x80 ≤ b.low.toNat
  bits : 2 ≤ b.bits ∨ 0 < b.missing ∧ (1 ≤ b.bits ∨ 0x90 ≤ b.low.toNat)

theorem sound_of_begin? {b : UInt8} {begun : Begun} (h : begin? b = some begun) : begun.Sound := by
  unfold begin? at h
  simp only [UInt8.le_iff_toNat_le] at h
  split at h
  · rename_i hb
    obtain rfl := Option.some.inj h
    have : 0xC2 ≤ b.toNat := hb.1
    exact ⟨Nat.le_refl 0x80, .inl (show 2 ≤ b.toNat - 0xC0 by omega)⟩
  split at h
  · obtain rfl := Option.some.inj h
    exact ⟨show 0x80 ≤ 0xA0 by decide, .inr ⟨Nat.one_pos, .inr (show 0x90 ≤ 0xA0 by decide)⟩⟩
  split at h
  · obtain rfl := Option.some.inj h
    exact ⟨Nat.le_refl 0x80, .inl (show 2 ≤ 0xD by decide)⟩
  split at h
  · rename_i hb
    obtain rfl := Option.some.inj h
    have : 0xE1 ≤ b.toNat := hb.1
    exact ⟨Nat.le_refl 0x80, .inr ⟨Nat.one_pos, .inl (show 1 ≤ b.toNat - 0xE0 by omega)⟩⟩
  split at h
  · obtain rfl := Option.some.inj h
    exact ⟨show 0x80 ≤ 0x90 by decide, .inr ⟨Nat.two_pos, .inr (Nat.le_refl 0x90)⟩⟩
  split at h
  · rename_i hb
    obtain rfl := Option.some.inj h
    have : 0xF1 ≤ b.toNat := hb.1
    exact ⟨Nat.le_refl 0x80, .inr ⟨Nat.two_pos, .inl (show 1 ≤ b.toNat - 0xF0 by omega)⟩⟩
  split at h
  · obtain rfl := Option.some.inj h
    exact ⟨Nat.le_refl 0x80, .inl (show 2 ≤ 4 by decide)⟩
  · cases h

/-- A byte that goes on with a character keeps its number from being that of an ASCII character. -/
theorem Begun.Sound.next {begun : Begun} (h : begun.Sound) {b : UInt8} (hb : begun.low ≤ b) :
    2 ≤ begun.bits * 64 + (b.toNat - 0x80) ∧
      (begun.missing = 0 → 128 ≤ begun.bits * 64 + (b.toNat - 0x80)) := by
  obtain ⟨low, bits⟩ := h
  rw [UInt8.le_iff_toNat_le] at hb
  omega

theorem ofNat_ne_newline {n : Nat} (h : n ≠ 10) : Char.ofNat n ≠ '\n' := by
  intro e
  by_cases valid : n.isValidChar
  · have char : Char.ofNat n = Char.ofNatAux n valid := dif_pos valid
    exact h (congrArg Char.toNat (char.symm.trans e))
  · have null : Char.ofNat n = Char.ofNat 0 := dif_neg valid
    exact absurd (null.symm.trans e) (by decide)

namespace Reading

/-- What has been begun is sound. -/
def Sound (r : Reading) : Prop := ∀ begun, r.begun? = some begun → begun.Sound

/-- The reading of bytes after `done`. -/
def after (done : Array Char) (r : Reading) : Reading := ⟨done ++ r.complete, r.begun?⟩

theorem sound_initial : initial.Sound := by
  intro begun h
  cases h

theorem sound_first (complete : Array Char) (b : UInt8) : (first complete b).Sound := by
  intro begun h
  unfold first at h
  split at h
  · cases h
  · split at h
    · rename_i hb
      cases h
      exact sound_of_begin? hb
    · cases h

theorem Sound.step {r : Reading} (h : r.Sound) (b : UInt8) : (r.step b).Sound := by
  unfold Reading.step
  split
  · exact sound_first _ b
  · rename_i begun hr
    have sound := h begun hr
    split
    · rename_i hb
      have next := sound.next hb.1
      split
      · intro begun' h'
        cases h'
      · intro begun' h'
        obtain rfl := Option.some.inj h'
        exact ⟨Nat.le_refl 0x80, .inl next.1⟩
    · exact sound_first _ b

theorem Sound.foldl {r : Reading} (h : r.Sound) (bytes : List UInt8) :
    (bytes.foldl Reading.step r).Sound := by
  induction bytes generalizing r with
  | nil => exact h
  | cons b bytes ih => exact ih (h.step b)

/-! ### What comes before -/

theorem first_append (done complete : Array Char) (b : UInt8) :
    first (done ++ complete) b = after done (first complete b) := by
  unfold first
  split
  · simp [after]
  · split
    · rfl
    · simp [after]

/-- What has been completed before plays no part. -/
theorem step_after (done : Array Char) (r : Reading) (b : UInt8) :
    (after done r).step b = after done (r.step b) := by
  unfold Reading.step
  cases hr : r.begun? with
  | none => simp only [after, hr, first_append]
  | some begun =>
      simp only [after, hr]
      split
      · cases begun.missing with
        | zero => simp
        | succ n => rfl
      · rw [← Array.append_push, first_append]
        rfl

theorem foldl_after (done : Array Char) (r : Reading) (bytes : List UInt8) :
    bytes.foldl Reading.step (after done r) = after done (bytes.foldl Reading.step r) := by
  induction bytes generalizing r with
  | nil => rfl
  | cons b bytes ih => rw [List.foldl_cons, step_after, ih, List.foldl_cons]

theorem finish_after (done : Array Char) (r : Reading) :
    (after done r).finish = done.toList ++ r.finish := by
  unfold finish after
  cases r.begun? with
  | none => simp
  | some begun => simp

/-! ### Line feeds -/

/-- A line feed is a character, and what has been begun before it is none. -/
theorem Sound.step_lineFeed {r : Reading} (h : r.Sound) :
    r.step 10 = after (r.finish ++ ['\n']).toArray initial := by
  unfold Reading.step finish
  have first_ten (complete : Array Char) :
      first complete 10 = after (complete.toList ++ ['\n']).toArray initial := by
    rw [← List.push_toArray]
    simp [first, after, initial]
  cases hr : r.begun? with
  | none => exact first_ten r.complete
  | some begun =>
      have low : ¬ begun.low ≤ 10 := by
        have := (h begun hr).low
        rw [UInt8.le_iff_toNat_le]
        show ¬ begun.low.toNat ≤ 10
        omega
      simp only [low, false_and, if_false]
      exact first_ten (r.complete.push replacement)

theorem newline_not_mem_first {complete : Array Char} (h : '\n' ∉ complete) {b : UInt8}
    (hb : b ≠ 10) : '\n' ∉ (first complete b).complete := by
  have char : Char.ofNat b.toNat ≠ '\n' := by
    apply ofNat_ne_newline
    intro e
    exact hb (UInt8.toNat_inj.mp e)
  unfold first
  split
  · simp [h, char.symm]
  · split
    · exact h
    · simp [h, replacement]

/-- No other byte gives a line feed. -/
theorem Sound.newline_not_mem_step {r : Reading} (h : r.Sound) (hr : '\n' ∉ r.complete) {b : UInt8}
    (hb : b ≠ 10) : '\n' ∉ (r.step b).complete := by
  unfold Reading.step
  split
  · exact newline_not_mem_first hr hb
  · rename_i begun hbegun
    have sound := h begun hbegun
    split
    · rename_i hle
      have next := sound.next hle.1
      split
      · rename_i missing
        have char := ofNat_ne_newline (n := begun.bits * 64 + (b.toNat - 0x80)) (by
          have := next.2 missing
          omega)
        simp [hr, char.symm]
      · exact hr
    · exact newline_not_mem_first (by simp [hr, replacement]) hb

theorem Sound.newline_not_mem_foldl {r : Reading} (h : r.Sound) (hr : '\n' ∉ r.complete)
    {bytes : List UInt8} (hb : ∀ b ∈ bytes, b ≠ 10) :
    '\n' ∉ (bytes.foldl Reading.step r).complete := by
  induction bytes generalizing r with
  | nil => exact hr
  | cons b bytes ih =>
      have first := h.newline_not_mem_step hr (hb b List.mem_cons_self)
      exact ih (h.step b) first fun c hc => hb c (List.mem_cons_of_mem b hc)

theorem newline_not_mem_finish {r : Reading} (h : '\n' ∉ r.complete) : '\n' ∉ r.finish := by
  unfold finish
  split
  · simpa using h
  · simp [h, replacement]

/-- Whatever the byte, there is a character, or one has been begun. -/
theorem finish_step_ne_nil (r : Reading) (b : UInt8) : (r.step b).finish ≠ [] := by
  have hfirst (complete : Array Char) : (first complete b).finish ≠ [] := by
    unfold first
    split
    · simp [finish]
    · split <;> simp [finish]
  unfold Reading.step
  split
  · exact hfirst _
  · split
    · split <;> simp [finish]
    · exact hfirst _

end Reading

/-! ### Decoding -/

theorem toList_decode (bytes : List UInt8) :
    (decode bytes).toList = (bytes.foldl Reading.step Reading.initial).finish :=
  String.toList_ofList

/-- What stands before a line feed is decoded by itself, and so is what stands after it. -/
theorem toList_decode_append_lineFeed (line rest : List UInt8) :
    (decode (line ++ 10 :: rest)).toList =
      (decode line).toList ++ '\n' :: (decode rest).toList := by
  have sound := Reading.sound_initial.foldl line
  rw [toList_decode, toList_decode, toList_decode, List.foldl_append, List.foldl_cons,
    sound.step_lineFeed, Reading.foldl_after, Reading.finish_after]
  simp

theorem newline_not_mem_decode {bytes : List UInt8} (h : ∀ b ∈ bytes, b ≠ 10) :
    '\n' ∉ (decode bytes).toList := by
  rw [toList_decode]
  apply Reading.newline_not_mem_finish
  exact Reading.sound_initial.newline_not_mem_foldl (by simp [Reading.initial]) h

theorem toList_decode_ne_nil {bytes : List UInt8} (h : bytes ≠ []) : (decode bytes).toList ≠ [] := by
  rw [toList_decode, ← List.dropLast_append_getLast h, List.foldl_append]
  exact Reading.finish_step_ne_nil _ _

/-- **Decoding and cutting into lines commute.** -/
theorem cut_toList_decode (bytes : List UInt8) :
    Lines.cut (· = '\n') (decode bytes).toList =
      (Lines.cut Session.isLineFeed bytes).map fun line => (decode line).toList := by
  have chars {row : List UInt8} (h : ∀ b ∈ row, Session.isLineFeed b = false) :
      ∀ c ∈ (decode row).toList, decide (c = '\n') = false := by
    intro c hc
    rw [decide_eq_false_iff_not]
    rintro rfl
    exact newline_not_mem_decode (fun b hb => by simpa [Session.isLineFeed] using h b hb) hc
  refine Lines.line_induction Session.isLineFeed (P := fun bytes =>
    Lines.cut (· = '\n') (decode bytes).toList =
      (Lines.cut Session.isLineFeed bytes).map fun line => (decode line).toList) ?last ?line bytes
  case last =>
      intro row h
      by_cases hne : row = []
      · subst hne
        rfl
      · rw [Lines.cut_of_not_isEnd h hne, Lines.cut_of_not_isEnd (chars h) (toList_decode_ne_nil hne)]
        rfl
  case line =>
      intro line e rest h he ih
      obtain rfl : e = 10 := by simpa [Session.isLineFeed] using he
      have ended : (decode (line ++ [10])).toList = (decode line).toList ++ ['\n'] :=
        toList_decode_append_lineFeed line []
      rw [toList_decode_append_lineFeed, Lines.cut_append_cons (chars h) rfl, ih,
        Lines.cut_append_cons h he, List.map_cons, ended]

end Utf8

end LineCalc
