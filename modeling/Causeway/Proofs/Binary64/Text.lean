import Causeway.Proofs.Binary64.Shortest
import Causeway.Proofs.Decimal.Sums
import Causeway.Proofs.Decimal.Text

/-!
# Reading the text of a double

A decimal with few enough places is written as such, so its text is read as it, unless its whole part
is beyond the range (`Digits.ofPlain?_positional`). A value survives the way through a double just if
it is the shortest decimal of that (`read_iff_survives`).
-/

namespace Causeway.Binary64.Digits

open Decimal (ofParts? ofPlain? readDigits)

variable {d : Digits}

theorem toDigits_append_zeros {n : Nat} (hn : 0 < n) (k : Nat) :
    Nat.toDigits 10 n ++ zeros k = Nat.toDigits 10 (n * 10 ^ k) := by
  induction k with
  | zero => rw [zeros, List.replicate_zero, List.append_nil, Nat.pow_zero, Nat.mul_one]
  | succ k ih =>
      have hpos : 0 < n * 10 ^ k := Nat.mul_pos hn (Nat.pow_pos (by decide))
      have hlast := Nat.toDigits_append_toDigits (b := 10) (d := 0) (by decide) hpos (by decide)
      rw [zeros, List.replicate_succ', ← List.append_assoc, ← zeros, ih]
      rw [Nat.add_zero, Nat.mul_comm 10, Nat.mul_assoc, ← Nat.pow_succ] at hlast
      exact hlast

/-- A whole decimal has its zeros written. -/
theorem positional_of_nonneg (hpos : 0 < d.digits) (h : 0 ≤ d.exponent) :
    d.positional = Nat.toDigits 10 (d.digits * 10 ^ d.exponent.toNat) := by
  unfold positional
  dsimp only
  rw [if_pos h, if_neg (Nat.ne_of_gt hpos), toDigits_append_zeros hpos]

/-- With a point the text is that of the decimal of as many places. -/
theorem positional_of_neg (h : d.exponent < 0) {x : Decimal} (hnegative : x.negative = false)
    (hmagnitude : x.magnitude = d.digits) (hplaces : x.places = (-d.exponent).toNat) :
    d.positional = x.toChars := by
  have hpoint : x.places ≠ 0 := by omega
  unfold positional Decimal.toChars Text.padded
  dsimp only
  rw [if_neg (not_le.mpr h), ← hplaces, ← hmagnitude, hnegative, if_neg hpoint,
    if_neg Bool.false_ne_true, List.nil_append]
  have hne : Nat.toDigits 10 x.magnitude ≠ [] := Nat.toDigits_ne_nil
  generalize Nat.toDigits 10 x.magnitude = ds at hne ⊢
  rcases Nat.lt_or_ge x.places ds.length with hlt | hge
  · -- There are digits in front of the point.
    have hwhole : ds.take (ds.length - x.places) ≠ [] := by
      rw [ne_eq, List.take_eq_nil_iff, not_or]
      exact ⟨by omega, hne⟩
    rw [if_neg hwhole, show x.places + 1 - ds.length = 0 by omega,
      show x.places - ds.length = 0 by omega, List.replicate_zero, List.nil_append, zeros,
      List.replicate_zero, List.append_assoc]
    rfl
  · -- A zero stands in front of the point, and zeros for the places without digits.
    have hlen : (List.replicate (x.places + 1 - ds.length) '0' ++ ds).length - x.places = 1 := by
      rw [List.length_append, List.length_replicate]
      omega
    rw [hlen, show ds.length - x.places = 0 by omega, List.take_zero, if_pos rfl, List.drop_zero,
      show x.places + 1 - ds.length = (x.places - ds.length) + 1 by omega, List.replicate_succ,
      List.append_assoc]
    rfl

theorem toChars_of_whole {x : Decimal} (hnegative : x.negative = false) (hplaces : x.places = 0) :
    x.toChars = Nat.toDigits 10 x.magnitude := by
  have hlen : 0 < (Nat.toDigits 10 x.magnitude).length := digitCount_pos x.magnitude
  unfold Decimal.toChars Text.padded
  dsimp only
  rw [hplaces, hnegative, if_pos rfl, if_neg Bool.false_ne_true, Nat.zero_add,
    show 1 - (Nat.toDigits 10 x.magnitude).length = 0 by omega, List.replicate_zero,
    List.nil_append, Nat.sub_zero, List.take_length, List.nil_append, List.append_nil]

theorem ofPlain?_of_overflow {n : Nat} (hn : twoTo 96 ≤ n) : ofPlain? (Nat.toDigits 10 n) = none := by
  have hds : ∀ c ∈ Nat.toDigits 10 n, c.isDigit :=
    fun c hc => Nat.isDigit_of_mem_toDigits (by decide) (by decide) hc
  have hread : readDigits 0 0 false false (Nat.toDigits 10 n) = none :=
    Decimal.readDigits_overflow hds (by decide) (by rwa [Nat.ofDigitChars_ten_toDigits]) false
  obtain ⟨c, cs, hcs⟩ := List.exists_cons_of_ne_nil (Nat.toDigits_ne_nil (b := 10) (n := n))
  rw [hcs] at hds hread ⊢
  -- The first character is a digit, so it is not taken for a sign.
  have hc : c.isDigit := hds c List.mem_cons_self
  have hminus : c ≠ '-' := by rintro rfl; exact absurd hc (by decide)
  have hplus : c ≠ '+' := by rintro rfl; exact absurd hc (by decide)
  simp [ofPlain?, hminus, hplus, hread]

/-- The text is read as the decimal, and not at all if its whole part is beyond the range. -/
theorem ofPlain?_positional (hpos : 0 < d.digits) (hplaces : -28 ≤ d.exponent)
    (hdigits : d.digits < twoTo 96) :
    (∃ x, ofPlain? d.positional = some x ∧ x.value = d.value) ∨
      2 ^ 96 ≤ d.value ∧ ofPlain? d.positional = none := by
  by_cases hfits : d.digits * 10 ^ d.exponent.toNat < twoTo 96
  · left
    have hsmall : (-d.exponent).toNat ≤ 28 := by omega
    obtain ⟨x, hnegative, hmagnitude, hpoint⟩ : ∃ x : Decimal, x.negative = false ∧
        x.magnitude = d.digits * 10 ^ d.exponent.toNat ∧ x.places = (-d.exponent).toNat :=
      ⟨⟨_, _, false, hfits, hsmall⟩, rfl, rfl, rfl⟩
    have hnonzero : x.magnitude ≠ 0 := by
      rw [hmagnitude]
      exact Nat.ne_of_gt (Nat.mul_pos hpos (Nat.pow_pos (by decide)))
    have hchars : d.positional = x.toChars := by
      rcases Int.lt_or_le d.exponent 0 with hneg | hnonneg
      · rw [Int.toNat_of_nonpos hneg.le, Nat.pow_zero, Nat.mul_one] at hmagnitude
        exact positional_of_neg hneg hnegative hmagnitude hpoint
      · rw [Int.toNat_of_nonpos (by omega)] at hpoint
        rw [positional_of_nonneg hpos hnonneg, toChars_of_whole hnegative hpoint, hmagnitude]
    refine ⟨x, ?_, ?_⟩
    · rw [hchars, Decimal.ofPlain?_toChars, Decimal.unsignZero, if_neg hnonzero]
    · have hpow : (10 : ℚ) ^ (-d.exponent).toNat ≠ 0 := pow_ne_zero _ (by norm_num)
      have hcoefficient : x.coefficient = (d.digits * 10 ^ d.exponent.toNat : Nat) := by
        rw [Decimal.coefficient, hnegative, hmagnitude]
        rfl
      rw [Decimal.value, value, hcoefficient, hpoint, cast_tenTo, div_eq_iff hpow]
      push_cast
      rw [pow_toNat (by norm_num) d.exponent, mul_assoc]
  · right
    have hnonneg : 0 ≤ d.exponent := by
      by_contra hneg
      rw [Int.toNat_of_nonpos (by omega), Nat.pow_zero, Nat.mul_one] at hfits
      exact hfits hdigits
    have hlarge : twoTo 96 ≤ d.digits * 10 ^ d.exponent.toNat := Nat.le_of_not_lt hfits
    constructor
    · rw [value, ← Int.toNat_of_nonneg hnonneg, zpow_natCast]
      exact_mod_cast hlarge
    · rw [positional_of_nonneg hpos hnonneg, ofPlain?_of_overflow hlarge]

end Causeway.Binary64.Digits

namespace Causeway.Binary64

open Decimal (Representable ofPlain?)

variable {x : Magnitude} {v : ℚ}

/-! ## What survives the way through a double -/

/-- The value is the shortest decimal that stands for its double. -/
def Survives (v : ℚ) : Prop := ∃ (d : Digits) (x : Magnitude), d.IsShortest x ∧ d.value = v

/-- What a decimal stands for is written with 28 places at most and lies far inside the range of
doubles. -/
theorem exists_digits_of_representable (h : Representable v) (hpos : 0 < v) :
    ∃ d : Digits, d.value = v ∧ -28 ≤ d.exponent ∧ (10 : ℚ) ^ (-28 : ℤ) ≤ v ∧ v < 2 ^ 96 := by
  obtain ⟨y, rfl⟩ := h
  have hvalue := Decimal.value_of_nonneg hpos.le
  have hplaces := y.places_le
  have hnonzero : 1 ≤ y.magnitude := by
    by_contra hzero
    rw [hvalue, show y.magnitude = 0 by omega, Nat.cast_zero, zero_div] at hpos
    exact lt_irrefl _ hpos
  have hdigits : Digits.value ⟨y.magnitude, -y.places⟩ = y.value := by
    rw [hvalue, Digits.value, zpow_neg, zpow_natCast, cast_tenTo, div_eq_mul_inv]
  refine ⟨_, hdigits, ?_, ?_, ?_⟩
  · show (-28 : ℤ) ≤ -y.places
    omega
  · calc (10 : ℚ) ^ (-28 : ℤ) ≤ 10 ^ (-y.places : ℤ) :=
          zpow_le_zpow_right₀ (by norm_num) (by omega)
      _ = (1 : Nat) * 10 ^ (-y.places : ℤ) := by rw [Nat.cast_one, one_mul]
      _ ≤ y.magnitude * 10 ^ (-y.places : ℤ) := Magnitude.mul_ten_le hnonzero _
      _ = y.value := hdigits
  · have hlt : (y.magnitude : ℚ) < 2 ^ 96 := by exact_mod_cast y.magnitude_lt
    exact y.value_le_magnitude.trans_lt hlt

theorem full_of_covers (h : x.Covers v) (hv : (10 : ℚ) ^ (-28 : ℤ) ≤ v) : 2 ^ 52 ≤ x.m := by
  refine x.full.resolve_right fun hq => absurd hv (not_le.mpr ?_)
  have hm := x.cast_m_le
  calc v ≤ x.upper := h.le_upper
    _ ≤ 2 ^ 55 * x.quarter := mul_le_mul_of_nonneg_right (by linarith) x.quarter_pos.le
    _ = 2 ^ (-1021 : ℤ) := by
        rw [Magnitude.quarter, hq, show (2 : ℚ) ^ 55 = 2 ^ (55 : ℤ) by norm_num,
          ← zpow_add₀ two_ne_zero]
        rfl
    _ ≤ 2 ^ (-100 : ℤ) := zpow_le_zpow_right₀ one_le_two (by decide)
    _ < 10 ^ (-28 : ℤ) := by norm_num

theorem exists_covers (hv : v < 2 ^ 96) {d : Digits} (hd : d.value = v) :
    ∃ x, d.double? = some x ∧ x.Covers v := by
  obtain ⟨x, hx, hcovers⟩ | ⟨-, hle⟩ := nearest?_cases d.digits d.exponent
  · exact ⟨x, hx, hd ▸ hcovers⟩
  · have hbound : (2 : ℚ) ^ 96 ≤ Magnitude.greatest.upper := by
      rw [Magnitude.greatest_upper]
      calc (2 : ℚ) ^ 96 = 1 * 2 ^ (96 : ℤ) := by norm_num
        _ ≤ (2 ^ 55 - 2) * 2 ^ (969 : ℤ) :=
            mul_le_mul (by norm_num) (zpow_le_zpow_right₀ one_le_two (by decide))
              (zpow_pos two_pos _).le (by norm_num)
    have hgreat : Magnitude.greatest.upper ≤ v := hd ▸ hle
    linarith

/-- What is read of the text of its double is a representable value itself just if that survives. -/
theorem read_iff_survives (hrep : Representable v) (hpos : 0 < v) {d : Digits} (hd : d.value = v) :
    (∃ x, d.double? = some x ∧ ∃ y, ofPlain? (x.positional false) = some y ∧ y.value = v) ↔
      Survives v := by
  obtain ⟨d', hd', hplaces, hlow, hhigh⟩ := exists_digits_of_representable hrep hpos
  obtain ⟨x, hx, hcovers⟩ := exists_covers hhigh hd
  have hfull := full_of_covers hcovers hlow
  have hshortest := Magnitude.shortest_isShortest hfull
  have hstands := Digits.double?_eq_some_iff.mp hshortest.stands
  have hdigits : (x.shortest .up).digits < twoTo 96 :=
    (Magnitude.digits_shortest_lt hfull).trans (by decide)
  have hdigitsPos : 0 < (x.shortest .up).digits := by
    have hvalue := hstands.pos (Nat.lt_of_lt_of_le (by decide) hfull)
    refine Nat.pos_of_ne_zero fun hzero => ?_
    rw [Digits.value, hzero, Nat.cast_zero, zero_mul] at hvalue
    exact lt_irrefl _ hvalue
  have hexponent : -28 ≤ (x.shortest .up).exponent := by
    have hother : d'.double? = some x := Digits.double?_eq_some_iff.mpr (hd' ▸ hcovers)
    exact hplaces.trans (hshortest.coarsest d' hother)
  have hread := Digits.ofPlain?_positional hdigitsPos hexponent hdigits
  have htext : x.positional false = (x.shortest .up).positional := rfl
  constructor
  · rintro ⟨x', hx', y, hy, hvalue⟩
    obtain rfl : x = x' := Option.some.inj (hx.symm.trans hx')
    rw [htext] at hy
    obtain ⟨y', hy', hvalue'⟩ | ⟨-, hnone⟩ := hread
    · obtain rfl : y' = y := Option.some.inj (hy'.symm.trans hy)
      exact ⟨_, x, hshortest, hvalue'.symm.trans hvalue⟩
    · rw [hy] at hnone
      cases hnone
  · rintro ⟨e, x', he, hvalue⟩
    have hcovers' := Digits.double?_eq_some_iff.mp he.stands
    rw [hvalue] at hcovers'
    obtain rfl := hcovers.unique hcovers'
    obtain rfl := he.unique hshortest
    refine ⟨x, hx, ?_⟩
    rw [htext]
    obtain ⟨y, hy, hy'⟩ | ⟨hgreat, -⟩ := hread
    · exact ⟨y, hy, hy'.trans hvalue⟩
    · rw [hvalue] at hgreat
      exact absurd hhigh (not_lt.mpr hgreat)

/-- Up to fifteen digits survive. -/
theorem survives_of_few (hrep : Representable v) (hpos : 0 < v) {d : Digits} (hd : d.value = v)
    (hfew : d.digits < 10 ^ 15) : Survives v := by
  obtain ⟨-, -, -, hlow, hhigh⟩ := exists_digits_of_representable hrep hpos
  obtain ⟨x, hx, hcovers⟩ := exists_covers hhigh hd
  have hfull := full_of_covers hcovers hlow
  refine ⟨_, x, Magnitude.shortest_isShortest hfull, ?_⟩
  rw [Magnitude.value_shortest_of_few hfull hx (hfew.le.trans (by decide)), hd]

/-- More than seventeen digits do not survive. -/
theorem Survives.few (h : Survives v) (hrep : Representable v) (hpos : 0 < v) :
    ∃ d : Digits, d.value = v ∧ d.digits < 10 ^ 17 := by
  obtain ⟨-, -, -, hlow, -⟩ := exists_digits_of_representable hrep hpos
  obtain ⟨d, x, hd, hvalue⟩ := h
  have hcovers := Digits.double?_eq_some_iff.mp hd.stands
  rw [hvalue] at hcovers
  have hfull := full_of_covers hcovers hlow
  obtain rfl := hd.unique (Magnitude.shortest_isShortest hfull)
  exact ⟨_, hvalue, Magnitude.digits_shortest_lt hfull⟩

end Causeway.Binary64
