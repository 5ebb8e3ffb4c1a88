import Causeway.Text.Blank
import Causeway.Text.Digits
import Causeway.Text.Hex
import Mathlib.Algebra.Group.Nat.Defs

/-!
# What is written and read back

Numbers are the value of the digits that `padded` writes for them, and a reader takes digits as far as
they go or as many as it may. Bytes are what base 16 reads from the digits that it writes for them,
and a character of seven bits is the only one that has bytes of seven bits.
-/

namespace Causeway

namespace Text

/-! ## Digits -/

theorem digit?_of_isDigit {c : Char} (h : c.isDigit) : digit? c = some (c.toNat - '0'.toNat) := by
  simp only [Char.isDigit, Bool.and_eq_true, decide_eq_true_eq] at h
  exact if_pos ⟨h.1, h.2⟩

/-- Zeros in front do not change the number. -/
theorem ofDigitChars_padded (width n : Nat) : Nat.ofDigitChars 10 (padded width n) 0 = n := by
  unfold padded
  dsimp only
  rw [Nat.ofDigitChars_append, Nat.ofDigitChars_replicate_zero, Nat.mul_zero,
    Nat.ofDigitChars_ten_toDigits]

theorem isDigit_of_mem_padded {width n : Nat} {c : Char} (h : c ∈ padded width n) : c.isDigit := by
  rcases List.mem_append.mp h with h | h
  · rw [List.eq_of_mem_replicate h]
    decide
  · exact Nat.isDigit_of_mem_toDigits (by decide) (by decide) h

theorem le_length_padded (width n : Nat) : width ≤ (padded width n).length := by
  simp only [padded, List.length_append, List.length_replicate]
  omega

theorem length_padded {width n : Nat} (hwidth : 0 < width) (hn : n < 10 ^ width) :
    (padded width n).length = width := by
  have hle := (Nat.length_toDigits_le_iff (by decide : 1 < 10) hwidth).mpr hn
  simp only [padded, List.length_append, List.length_replicate]
  omega

theorem padded_ne_nil (width n : Nat) : padded width n ≠ [] := by
  intro h
  have hdigits := (List.append_eq_nil_iff.mp h).2
  exact Nat.toDigits_ne_nil hdigits

theorem le_ofDigitChars (ds : List Char) (n : Nat) : n ≤ Nat.ofDigitChars 10 ds n := by
  rw [Nat.ofDigitChars_eq_ofDigitChars_zero]
  exact Nat.le_add_right_of_le (Nat.le_mul_of_pos_left n (Nat.pow_pos (by decide)))

/-! ## Reading digits -/

theorem isDigit_eq (c : Char) : isDigit c = c.isDigit := by
  have h : ('0' ≤ c ∧ c ≤ '9') ↔ c.isDigit := by
    rw [Char.isDigit, Bool.and_eq_true, decide_eq_true_eq, decide_eq_true_eq]
    rfl
  unfold isDigit digit?
  split
  · rename_i hc
    exact (h.mp hc).symm
  · rename_i hc
    exact (Bool.eq_false_iff.mpr fun hd => hc (h.mpr hd)).symm

variable {ds rest : List Char} {most : Nat}

theorem numberOf_eq (hds : ∀ c ∈ ds, c.isDigit) : numberOf ds = Nat.ofDigitChars 10 ds 0 := by
  unfold numberOf
  generalize 0 = n
  induction ds generalizing n with
  | nil => rfl
  | cons c ds ih =>
      rw [List.filterMap_cons_some (digit?_of_isDigit (hds c (by simp))), List.foldl_cons,
        ih fun c' hc' => hds c' (by simp [hc']), Nat.ofDigitChars_cons]

/-- No digit comes next. -/
def DigitsEnd (rest : List Char) : Prop := ∀ c ∈ rest.head?, c.isDigit = false

theorem digitsEnd_nil : DigitsEnd [] := fun _ h => nomatch h

theorem digitsEnd_cons {c : Char} (h : c.isDigit = false) : DigitsEnd (c :: rest) := by
  intro d hd
  cases hd
  exact h

theorem takeWhile_isDigit (hds : ∀ c ∈ ds, c.isDigit) (hrest : DigitsEnd rest) :
    (ds ++ rest).takeWhile isDigit = ds := by
  rw [List.takeWhile_append_of_pos fun c hc => by rw [isDigit_eq]; exact hds c hc]
  cases rest with
  | nil => rw [List.takeWhile_nil, List.append_nil]
  | cons c rest =>
      rw [List.takeWhile_cons, isDigit_eq, hrest c rfl]
      simp

/-- Digits are read up to the last that is allowed, or as long as they follow. -/
theorem readUpTo_append (hds : ∀ c ∈ ds, c.isDigit) (hne : ds ≠ [])
    (hmost : ds.length = most ∨ ds.length ≤ most ∧ DigitsEnd rest) :
    readUpTo most (ds ++ rest) = some (Nat.ofDigitChars 10 ds 0, rest) := by
  have htaken : ((ds ++ rest).take most).takeWhile isDigit = ds := by
    rcases hmost with rfl | ⟨hle, hrest⟩
    · have hall := takeWhile_isDigit hds digitsEnd_nil
      rw [List.append_nil] at hall
      rw [List.take_left, hall]
    · rw [List.take_append, List.take_of_length_le hle]
      refine takeWhile_isDigit hds fun c hc => hrest c ?_
      rw [Option.mem_def, List.head?_take] at hc
      split at hc
      · cases hc
      · exact hc
  unfold readUpTo
  rw [htaken]
  cases ds with
  | nil => exact absurd rfl hne
  | cons c ds =>
      dsimp only
      rw [numberOf_eq hds, List.drop_left]

theorem readAll_append (hds : ∀ c ∈ ds, c.isDigit) (hne : ds ≠ []) (hrest : DigitsEnd rest) :
    readAll (ds ++ rest) = some (Nat.ofDigitChars 10 ds 0, rest) :=
  readUpTo_append hds hne (.inr ⟨by rw [List.length_append]; omega, hrest⟩)

theorem readAll_eq_none (h : DigitsEnd rest) : readAll rest = none := by
  have hempty : ∀ c ∈ ([] : List Char), c.isDigit := fun _ h => nomatch h
  have hnone : ([] ++ rest).takeWhile isDigit = [] := takeWhile_isDigit hempty h
  rw [List.nil_append] at hnone
  rw [readAll, readUpTo, List.take_length, hnone]

/-! ## Blanks -/

/-- Digits are no blanks. -/
theorem isBlank_of_isDigit {c : Char} (h : c.isDigit) : isBlank c = false := by
  rw [Char.isDigit, Bool.and_eq_true, decide_eq_true_eq, decide_eq_true_eq] at h
  have hlow : 48 ≤ c.toNat := h.1
  have hhigh : c.toNat ≤ 57 := h.2
  unfold isBlank
  simp only [Bool.or_eq_false_iff, Bool.and_eq_false_iff, decide_eq_false_iff_not]
  omega

theorem trimChars_of_not_blank {cs : List Char} (h : ∀ c ∈ cs, isBlank c = false) :
    trimChars cs = cs := by
  have hstart : ∀ {cs : List Char}, (∀ c ∈ cs, isBlank c = false) → cs.dropWhile isBlank = cs := by
    intro cs h
    cases cs with
    | nil => rfl
    | cons c cs => simp [h c]
  rw [trimChars, trimStart, hstart h, trimEnd, hstart fun c hc => h c (List.mem_reverse.mp hc),
    List.reverse_reverse]

/-! ## Bytes -/

/-- The bytes that a list of characters travels as. -/
def encode (cs : List Char) : Bytes := cs.flatMap String.utf8EncodeChar

@[simp]
theorem encode_nil : encode [] = [] := rfl

@[simp]
theorem encode_cons (c : Char) (cs : List Char) :
    encode (c :: cs) = String.utf8EncodeChar c ++ encode cs := rfl

@[simp]
theorem encode_append (cs ds : List Char) : encode (cs ++ ds) = encode cs ++ encode ds :=
  List.flatMap_append

theorem toBytes_ofList (cs : List Char) : toBytes (String.ofList cs) = encode cs := by
  rw [toBytes, String.toByteArray_ofList, List.utf8Encode, List.toList_data_toByteArray]
  rfl

theorem toBytes_eq_encode (s : String) : toBytes s = encode s.toList := by
  rw [← toBytes_ofList, String.ofList_toList]

theorem utf8EncodeChar_of_le {c : Char} (h : c.toNat ≤ 0x7F) :
    String.utf8EncodeChar c = [UInt8.ofNat c.toNat] := by
  unfold String.utf8EncodeChar
  exact if_pos h

theorem le_of_mem_utf8EncodeChar {c : Char} (h : 0x7F < c.toNat) {b : UInt8}
    (hb : b ∈ String.utf8EncodeChar c) : 0x80 ≤ b.toNat := by
  have h : ¬ c.val.toNat ≤ 0x7F := Nat.not_le.mpr h
  unfold String.utf8EncodeChar at hb
  simp only [h, if_false] at hb
  -- First bytes are from 0xC0 up, and those that follow are from 0x80 up.
  split at hb
  · simp only [List.mem_cons, List.not_mem_nil, or_false] at hb
    rcases hb with rfl | rfl <;> simp only [UInt8.toNat_ofNat'] <;> omega
  · split at hb
    · simp only [List.mem_cons, List.not_mem_nil, or_false] at hb
      rcases hb with rfl | rfl | rfl <;> simp only [UInt8.toNat_ofNat'] <;> omega
    · simp only [List.mem_cons, List.not_mem_nil, or_false] at hb
      rcases hb with rfl | rfl | rfl | rfl <;> simp only [UInt8.toNat_ofNat'] <;> omega

end Text

/-! ## Base 16 -/

namespace Hex

theorem value?_digit : ∀ n < 16, value? (digit n) = some n := by decide

theorem isBlank_digit : ∀ n < 16, Text.isBlank (digit n) = false := by decide

theorem decode?_encode (bs : Bytes) : decode? (encode bs) = some bs := by
  induction bs with
  | nil => rfl
  | cons b bs ih =>
      have hb : UInt8.ofNat (16 * (b.toNat / 16) + b.toNat % 16) = b := by
        rw [Nat.div_add_mod, UInt8.ofNat_toNat]
      have hlt := b.toNat_lt
      rw [encode, decode?, value?_digit _ (by omega), value?_digit _ (by omega), ih]
      exact congrArg (fun b => some (b :: bs)) hb

theorem exists_digit_of_mem_encode {bs : Bytes} {c : Char} (h : c ∈ encode bs) :
    ∃ n < 16, c = digit n := by
  induction bs with
  | nil => cases h
  | cons b bs ih =>
      have hlt := b.toNat_lt
      simp only [encode, List.mem_cons] at h
      rcases h with rfl | rfl | h
      · exact ⟨_, by omega, rfl⟩
      · exact ⟨_, by omega, rfl⟩
      · exact ih h

theorem isBlank_of_mem_encode {bs : Bytes} {c : Char} (h : c ∈ encode bs) :
    Text.isBlank c = false := by
  obtain ⟨n, hn, rfl⟩ := exists_digit_of_mem_encode h
  exact isBlank_digit n hn

end Hex

end Causeway
