import Causeway.Decimal.Text
import Causeway.Proofs.Text

/-!
# Reading decimals back

What `toText` writes is read as the decimal that was written, with its places (`ofText?_toText`);
only a zero comes back without its sign.
-/

namespace Causeway

namespace Decimal

open Text (digit?_of_isDigit le_ofDigitChars padded)

variable {ds : List Char}

/-- A decimal is written as its sign, the digits of its whole part, and those of its places. -/
theorem toChars_eq (x : Decimal) : ∃ whole fraction,
    x.toChars = (if x.negative then ['-'] else []) ++ whole ++
      (if x.places = 0 then [] else '.' :: fraction) ∧
    whole ≠ [] ∧ fraction.length = x.places ∧ (∀ c ∈ whole ++ fraction, c.isDigit) ∧
    Nat.ofDigitChars 10 (whole ++ fraction) 0 = x.magnitude := by
  have hlen := Text.le_length_padded (x.places + 1) x.magnitude
  have hsplit := List.take_append_drop ((padded (x.places + 1) x.magnitude).length - x.places)
    (padded (x.places + 1) x.magnitude)
  refine ⟨_, _, rfl, ?_, ?_, ?_, ?_⟩
  · rw [ne_eq, ← List.length_eq_zero_iff, List.length_take]
    omega
  · rw [List.length_drop]
    omega
  · rw [hsplit]
    exact fun c => Text.isDigit_of_mem_padded
  · rw [hsplit, Text.ofDigitChars_padded]

/-- Digits for which there is room are all taken into the number. -/
theorem readDigits_append (hds : ∀ c ∈ ds, c.isDigit) (n places : Nat) (pointSeen digitSeen : Bool)
    (hn : Nat.ofDigitChars 10 ds n < twoTo 96)
    (hplaces : if pointSeen then places + ds.length ≤ 28 else places = 0) (rest : List Char) :
    readDigits n places pointSeen digitSeen (ds ++ rest) =
      readDigits (Nat.ofDigitChars 10 ds n) (if pointSeen then places + ds.length else 0) pointSeen
        (digitSeen || !ds.isEmpty) rest := by
  induction ds generalizing n places digitSeen with
  | nil => cases pointSeen <;> simp_all
  | cons c ds ih =>
      rw [Nat.ofDigitChars_cons] at hn ⊢
      have hlt := Nat.lt_of_le_of_lt (le_ofDigitChars ds _) hn
      rw [List.cons_append, readDigits, digit?_of_isDigit (hds c (by simp))]
      dsimp only
      rw [if_neg, if_neg (Nat.not_le.mpr hlt), ih fun c' hc' => hds c' (by simp [hc'])]
      · cases pointSeen
        · simp
        · simp [Nat.add_assoc, Nat.add_comm 1]
      · exact hn
      · cases pointSeen with
        | false => rfl
        | true =>
            simp only [if_true, List.length_cons] at hplaces ⊢
            omega
      · cases pointSeen with
        | false => exact Bool.false_ne_true
        | true =>
            simp only [if_true, List.length_cons] at hplaces
            simp only [Bool.true_and, Bool.or_eq_true, decide_eq_true_eq]
            omega

/-- A whole part beyond the range is not read. -/
theorem readDigits_overflow (hds : ∀ c ∈ ds, c.isDigit) {n places : Nat} (hn : n < twoTo 96)
    (hvalue : twoTo 96 ≤ Nat.ofDigitChars 10 ds n) (digitSeen : Bool) :
    readDigits n places false digitSeen ds = none := by
  induction ds generalizing n places digitSeen with
  | nil => exact absurd hn (Nat.not_lt.mpr hvalue)
  | cons c ds ih =>
      rw [Nat.ofDigitChars_cons] at hvalue
      rw [readDigits, digit?_of_isDigit (hds c (by simp))]
      dsimp only
      rw [Bool.false_and, if_neg Bool.false_ne_true]
      split
      · rfl
      · rename_i hlt
        exact ih (fun c' hc' => hds c' (by simp [hc'])) (Nat.lt_of_not_le hlt) hvalue true

theorem ofPlain?_toChars (x : Decimal) : ofPlain? x.toChars = some x.unsignZero := by
  obtain ⟨whole, fraction, hchars, hne, hlen, hdigits, hvalue⟩ := x.toChars_eq
  have hmagnitude := x.magnitude_lt
  rw [← hvalue, Nat.ofDigitChars_append] at hmagnitude
  have hempty : whole.isEmpty = false := by simpa using hne
  have hread : readDigits 0 0 false false
      (whole ++ if x.places = 0 then [] else '.' :: fraction) = some (x.magnitude, x.places) := by
    rw [readDigits_append (fun c hc => hdigits c (by simp [hc])) 0 0 false false
      (Nat.lt_of_le_of_lt (le_ofDigitChars fraction _) hmagnitude) rfl, hempty]
    by_cases hzero : x.places = 0
    · obtain rfl := List.length_eq_zero_iff.mp (hlen.trans hzero)
      rw [List.append_nil] at hvalue
      simp [hzero, readDigits, hvalue]
    · have hpoint : Text.digit? '.' = none := rfl
      have hfraction := readDigits_append
        (fun c hc => hdigits c (by simp [hc])) (Nat.ofDigitChars 10 whole 0) 0 true true hmagnitude
        (by simpa [hlen] using x.places_le) []
      rw [List.append_nil, ← Nat.ofDigitChars_append, hvalue, hlen] at hfraction
      simpa [hzero, hpoint, readDigits] using hfraction
  have hparts : ofParts? x.negative x.magnitude x.places = some x :=
    dif_pos ⟨x.magnitude_lt, x.places_le⟩
  rw [hchars]
  unfold ofPlain?
  cases hneg : x.negative with
  | true =>
      rw [hneg] at hparts
      simp [hread, hparts]
  | false =>
      rw [hneg] at hparts
      -- The first character is a digit, so it is not taken for a sign.
      obtain ⟨c, cs, rfl⟩ := List.exists_cons_of_ne_nil hne
      have hc : c.isDigit := hdigits c (by simp)
      have hminus : c ≠ '-' := by rintro rfl; exact absurd hc (by decide)
      have hplus : c ≠ '+' := by rintro rfl; exact absurd hc (by decide)
      rw [List.cons_append] at hread
      simp [hminus, hplus, hread, hparts]

theorem ofText?_toText (x : Decimal) : ofText? x.toText = some x.unsignZero := by
  simp [ofText?, toText, ofPlain?_toChars]

end Decimal

end Causeway
