import Causeway.Amount
import Mathlib.Algebra.Order.Field.Basic
import Mathlib.Data.Rat.Cast.Order
import Mathlib.Tactic.LinearCombination
import Mathlib.Tactic.Ring
import Mathlib.Tactic.Zify

/-!
# What decimals stand for

A decimal stands for a rational number. A sum is exact when it fits and nothing of it is rounded,
and that is when some decimal stands for it (`addsExactly_of_representable`).
-/

namespace Causeway.Decimal

def value (x : Decimal) : ℚ := x.coefficient / tenTo x.places

@[simp]
theorem value_zero : zero.value = 0 := by
  simp [value, zero, coefficient, signed]

def AddsExactly (x y : Decimal) : Prop :=
  ∃ z, x.add y = .ok z ∧ z.value = x.value + y.value

theorem zero_addsExactly (x : Decimal) : zero.AddsExactly x :=
  ⟨x, rfl, by rw [value_zero, Rat.zero_add]⟩

/-! ## Order -/

variable {x y : Decimal}

theorem tenTo_cast_pos (n : Nat) : (0 : ℚ) < tenTo n := Nat.cast_pos.mpr (tenTo_pos n)

theorem le_iff : x ≤ y ↔ x.value ≤ y.value := by
  unfold value
  rw [div_le_div_iff₀ (tenTo_cast_pos _) (tenTo_cast_pos _)]
  exact_mod_cast Iff.rfl

theorem lt_iff : x < y ↔ x.value < y.value := by
  unfold value
  rw [div_lt_div_iff₀ (tenTo_cast_pos _) (tenTo_cast_pos _)]
  exact_mod_cast Iff.rfl

theorem not_le_zero (a : Amount) : ¬ a.value ≤ zero := by
  have h : zero.coefficient * tenTo a.value.places < a.value.coefficient * tenTo zero.places := a.pos
  intro hle
  have hle : a.value.coefficient * tenTo zero.places ≤ zero.coefficient * tenTo a.value.places := hle
  omega

/-! ## Exact sums -/

/-- Some decimal stands for the number. -/
def Representable (q : ℚ) : Prop := ∃ x : Decimal, x.value = q

theorem representable_natCast {n : Nat} (h : n < twoTo 96) : Representable n :=
  ⟨{ magnitude := n, places := 0, magnitude_lt := h }, by simp [value, coefficient, signed]⟩

theorem roundHalfEven_mul (q : Nat) {d : Nat} (hd : 0 < d) : roundHalfEven (q * d) d = q := by
  unfold roundHalfEven
  rw [Nat.mul_mod_left, Nat.mul_div_cancel q hd]
  exact if_neg (by omega)

/-- What has `k` places or fewer is not rounded to `places` of them. -/
theorem roundHalfEven_of_places {n m p k places : Nat} (h : n * tenTo k = m * tenTo p)
    (hk : k ≤ places) (hp : places ≤ p) :
    roundHalfEven n (tenTo (p - places)) = m * tenTo (places - k) := by
  have hn : n = m * tenTo (places - k) * tenTo (p - places) := by
    refine Nat.eq_of_mul_eq_mul_right (tenTo_pos k) ?_
    rw [h, Nat.mul_assoc, Nat.mul_assoc, ← tenTo_add, ← tenTo_add]
    congr 2
    omega
  rw [hn]
  exact roundHalfEven_mul _ (tenTo_pos _)

/-- What fits with `k` places is kept as it is, with `k` places or more. -/
theorem fit?_of_places (negative : Bool) {n m p k : Nat} (h : n * tenTo k = m * tenTo p)
    (hm : m < twoTo 96) {most : Nat} (hk : k ≤ most) (hp : most ≤ p) (hmost : most ≤ 28) :
    ∃ x, fit? negative n p most = some x ∧ x.negative = negative ∧
      x.magnitude * tenTo p = n * tenTo x.places := by
  have hexact : ∀ {places}, k ≤ places → places ≤ p →
      m * tenTo (places - k) * tenTo p = n * tenTo places := by
    intro places hle hp
    rw [Nat.mul_right_comm, ← h, Nat.mul_assoc, ← tenTo_add]
    congr 2
    omega
  have hfits : ∀ {places}, k ≤ places → places ≤ p →
      rounded? negative n p places = ofParts? negative (m * tenTo (places - k)) places := by
    intro places hle hp
    rw [rounded?, roundHalfEven_of_places h hle hp]
  induction most with
  | zero =>
      refine ⟨⟨m * tenTo (0 - k), 0, negative, ?_, by decide⟩, ?_, rfl, hexact hk hp⟩
      · simpa using hm
      · rw [fit?, hfits hk hp]
        exact dif_pos ⟨by simpa using hm, by decide⟩
  | succ most ih =>
      rw [fit?, hfits hk hp]
      by_cases hlt : m * tenTo (most + 1 - k) < twoTo 96
      · rw [show ofParts? negative _ (most + 1) = _ from dif_pos ⟨hlt, hmost⟩]
        exact ⟨_, rfl, rfl, hexact hk hp⟩
      · rw [show ofParts? negative _ (most + 1) = none from dif_neg fun h => hlt h.1]
        have hne : k ≠ most + 1 := by
          rintro rfl
          simp at hlt
          omega
        exact ih (by omega) (by omega) (by omega)

theorem value_of_parts {x : Decimal} {c : Int} {p : Nat} (hneg : x.negative = decide (c < 0))
    (h : x.magnitude * tenTo p = c.natAbs * tenTo x.places) : x.value = c / tenTo p := by
  have hc : x.coefficient * tenTo p = c * tenTo x.places := by
    unfold coefficient signed
    rw [hneg]
    zify at h
    by_cases hlt : c < 0
    · rw [decide_eq_true hlt, if_pos rfl]
      rw [abs_of_neg hlt] at h
      linear_combination - h
    · rw [decide_eq_false hlt, if_neg (by decide)]
      rw [abs_of_nonneg (Int.not_lt.mp hlt)] at h
      exact h
  unfold value
  rw [div_eq_div_iff (tenTo_cast_pos _).ne' (tenTo_cast_pos _).ne']
  exact_mod_cast hc

theorem value_eq_div (x : Decimal) {p : Nat} (hp : x.places ≤ p) :
    x.value = (x.coefficient * tenTo (p - x.places) : Int) / tenTo p := by
  have hsplit : tenTo p = tenTo x.places * tenTo (p - x.places) := by
    rw [← tenTo_add, Nat.add_sub_cancel' hp]
  unfold value
  rw [hsplit, div_eq_div_iff (tenTo_cast_pos _).ne' (by exact_mod_cast (hsplit ▸ tenTo_pos p).ne')]
  push_cast
  ring

/-- Of what some decimal stands for, nothing is rounded away. -/
theorem fit?_of_representable {c : Int} {p : Nat} (hp : p ≤ 28)
    (h : Representable (c / tenTo p)) :
    ∃ x, fit? (decide (c < 0)) c.natAbs p p = some x ∧ x.value = c / tenTo p := by
  obtain ⟨z, hz⟩ := h
  have hmag : c.natAbs * tenTo z.places = z.magnitude * tenTo p := by
    unfold value at hz
    rw [div_eq_div_iff (tenTo_cast_pos _).ne' (tenTo_cast_pos _).ne'] at hz
    have hz : z.coefficient * tenTo p = c * tenTo z.places := by exact_mod_cast hz
    have hz := congrArg Int.natAbs hz
    rw [Int.natAbs_mul, Int.natAbs_mul, Int.natAbs_natCast, Int.natAbs_natCast,
      natAbs_coefficient] at hz
    exact hz.symm
  -- With more places than `p`, the decimal only adds zeros to what fits with `p` of them.
  have hfit : ∃ m k, k ≤ p ∧ m < twoTo 96 ∧ c.natAbs * tenTo k = m * tenTo p := by
    by_cases hle : z.places ≤ p
    · exact ⟨z.magnitude, z.places, hle, z.magnitude_lt, hmag⟩
    · refine ⟨c.natAbs, p, Nat.le_refl p, ?_, rfl⟩
      have hsplit : tenTo z.places = tenTo (z.places - p) * tenTo p := by
        rw [← tenTo_add, Nat.sub_add_cancel (by omega)]
      rw [hsplit, ← Nat.mul_assoc] at hmag
      have hmag := Nat.eq_of_mul_eq_mul_right (tenTo_pos p) hmag
      have hlt := z.magnitude_lt
      rw [← hmag] at hlt
      exact Nat.lt_of_le_of_lt (Nat.le_mul_of_pos_right _ (tenTo_pos _)) hlt
  obtain ⟨m, k, hk, hm, hmk⟩ := hfit
  obtain ⟨x, hx, hneg, hmagx⟩ := fit?_of_places (decide (c < 0)) hmk hm hk (Nat.le_refl p) hp
  exact ⟨x, hx, value_of_parts hneg hmagx⟩

theorem value_of_magnitude_eq_zero (h : x.magnitude = 0) : x.value = 0 := by
  have hc : x.coefficient = 0 := Int.natAbs_eq_zero.mp (by rw [natAbs_coefficient, h])
  rw [value, hc, Int.cast_zero, zero_div]

/-- A sum with zero is exact, and any other is fitted into the places of both sides. -/
theorem unsignZero_of_pos (h : zero < x) : x.unsignZero = x := by
  unfold unsignZero
  split
  · rename_i hzero
    rw [lt_iff, value_zero, value_of_magnitude_eq_zero hzero] at h
    exact absurd h (lt_irrefl 0)
  · rfl

theorem sum?_cases (x y : Decimal) :
    (∃ z, sum? x y = some z ∧ z.value = x.value + y.value) ∨
      ∃ (c : Int) (p : Nat), p ≤ 28 ∧ x.value + y.value = c / tenTo p ∧
        sum? x y = fit? (decide (c < 0)) c.natAbs p p := by
  unfold sum?
  split
  · rename_i hx
    exact .inl ⟨y, rfl, by rw [value_of_magnitude_eq_zero hx, zero_add]⟩
  · split
    · rename_i hy
      exact .inl ⟨x, rfl, by rw [value_of_magnitude_eq_zero hy, add_zero]⟩
    · refine .inr ⟨_, _, Nat.max_le.mpr ⟨x.places_le, y.places_le⟩, ?_, rfl⟩
      rw [value_eq_div x (Nat.le_max_left x.places y.places),
        value_eq_div y (Nat.le_max_right x.places y.places), ← add_div, ← Int.cast_add]

theorem addsExactly_of_representable (h : Representable (x.value + y.value)) :
    x.AddsExactly y := by
  unfold AddsExactly add
  rcases sum?_cases x y with ⟨z, hz, hvalue⟩ | ⟨c, p, hp, hsum, hfit⟩
  · exact ⟨z, by rw [hz]; rfl, hvalue⟩
  · rw [hsum] at h ⊢
    obtain ⟨z, hz, hvalue⟩ := fit?_of_representable hp h
    exact ⟨z, by rw [hfit, hz]; rfl, hvalue⟩

end Causeway.Decimal
