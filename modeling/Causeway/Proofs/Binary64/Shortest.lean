import Causeway.Proofs.Binary64.Rounding
import Mathlib.Data.Nat.Cast.Order.Field
import Mathlib.Tactic.Positivity

/-!
# The shortest decimal that stands for a double

Of the decimals that stand for a double of full length, `shortest` takes one with the greatest
exponent, of those the nearest, and of two equally near the greater (`shortest_isShortest`). There is
only one such decimal (`Digits.IsShortest.unique`), and it has seventeen digits at most.
-/

namespace Causeway.Binary64

variable {x : Magnitude} {v : ℚ} {k : ℤ} {n : Nat}

theorem ten_zpow_pos (k : ℤ) : (0 : ℚ) < 10 ^ k := zpow_pos (by norm_num) k

/-! ## Grids -/

/-- A grid point comes in whole numbers over one divisor. -/
theorem cast_mul_unit (n : Nat) (k : ℤ) (d : Nat) :
    ((n * (tenTo k.toNat * d) : Nat) : ℚ) = n * 10 ^ k * (d * 10 ^ (-k).toNat) := by
  rw [Nat.cast_mul, Nat.cast_mul, cast_tenTo, pow_toNat (by norm_num) k]
  ring

theorem cast_mul_up {d : Nat} (hd : 0 < d) (a : Nat) (k : ℤ) :
    ((a * tenTo (-k).toNat : Nat) : ℚ) = a / d * (d * 10 ^ (-k).toNat) := by
  have hd' : (d : ℚ) ≠ 0 := Nat.cast_ne_zero.mpr (Nat.ne_of_gt hd)
  rw [Nat.cast_mul, cast_tenTo]
  field_simp

theorem unit_pos {d : Nat} (hd : 0 < d) (k : ℤ) : (0 : ℚ) < d * 10 ^ (-k).toNat :=
  mul_pos (Nat.cast_pos.mpr hd) (by positivity)

/-! ## Targets -/

namespace Magnitude

theorem divisor_pos (x : Magnitude) : 0 < x.target.divisor := Nat.pow_pos two_pos

/-- What is a multiple of a quarter of the last bit is that multiple over the divisor. -/
theorem mul_up_div_divisor (x : Magnitude) (a : Nat) :
    ((a * twoTo (x.q - 2).toNat : Nat) / x.target.divisor : ℚ) = a * x.quarter := by
  have hdivisor : x.target.divisor = twoTo (-(x.q - 2)).toNat := by
    rw [show -(x.q - 2) = 2 - x.q by omega]
    rfl
  have hpow : (2 : ℚ) ^ (-(x.q - 2)).toNat ≠ 0 := pow_ne_zero _ two_ne_zero
  rw [hdivisor, Nat.cast_mul, cast_twoTo, cast_twoTo, pow_toNat two_ne_zero (x.q - 2), quarter]
  field_simp

theorem target_value (x : Magnitude) : (x.target.value / x.target.divisor : ℚ) = x.value := by
  rw [show x.target.value = 4 * x.m * twoTo (x.q - 2).toNat from rfl, mul_up_div_divisor, value]
  push_cast
  ring

theorem target_high (x : Magnitude) : (x.target.high / x.target.divisor : ℚ) = x.upper := by
  rw [show x.target.high = (4 * x.m + 2) * twoTo (x.q - 2).toNat from rfl, mul_up_div_divisor, upper]
  push_cast
  ring

theorem target_low (hm : 0 < x.m) : (x.target.low / x.target.divisor : ℚ) = x.lower := by
  rw [show x.target.low = (4 * x.m - if x.narrow then 1 else 2) * twoTo (x.q - 2).toNat from rfl,
    mul_up_div_divisor, lower, Nat.cast_sub (by split <;> omega)]
  split <;> push_cast <;> ring

theorem covers_iff_of_even (h : x.m % 2 = 0) : x.Covers v ↔ x.lower ≤ v ∧ v ≤ x.upper :=
  ⟨fun hv => ⟨hv.lower_le, hv.le_upper⟩, fun hv => ⟨hv.1, hv.2, fun hodd => by omega⟩⟩

theorem covers_iff_of_odd (h : x.m % 2 = 1) : x.Covers v ↔ x.lower < v ∧ v < x.upper :=
  ⟨fun hv => hv.inside h, fun hv => ⟨hv.1.le, hv.2.le, fun _ => hv⟩⟩

theorem holds_iff (hm : 0 < x.m) (k : ℤ) (n : Nat) :
    x.target.holds k n = true ↔ x.Covers (n * 10 ^ k) := by
  have hc := unit_pos x.divisor_pos k
  unfold Target.holds
  dsimp only
  split
  · rename_i hclosed
    have heven : x.m % 2 = 0 := of_decide_eq_true hclosed
    rw [covers_iff_of_even heven, Bool.and_eq_true, decide_eq_true_eq, decide_eq_true_eq,
      ← Nat.cast_le (α := ℚ), ← Nat.cast_le (α := ℚ), cast_mul_unit, cast_mul_up x.divisor_pos,
      cast_mul_up x.divisor_pos, mul_le_mul_iff_left₀ hc, mul_le_mul_iff_left₀ hc, target_low hm,
      target_high]
  · rename_i hopen
    have hne : ¬ x.m % 2 = 0 := fun h => hopen (decide_eq_true h)
    rw [covers_iff_of_odd (by omega), Bool.and_eq_true, decide_eq_true_eq, decide_eq_true_eq,
      ← Nat.cast_lt (α := ℚ), ← Nat.cast_lt (α := ℚ), cast_mul_unit, cast_mul_up x.divisor_pos,
      cast_mul_up x.divisor_pos, mul_lt_mul_iff_left₀ hc, mul_lt_mul_iff_left₀ hc, target_low hm,
      target_high]

/-- The number of the grid point below the double, and how far it is below. -/
theorem floor_spec (x : Magnitude) (k : ℤ) {unit value d : Nat}
    (hunit : unit = tenTo k.toNat * x.target.divisor)
    (hvalue : value = x.target.value * tenTo (-k).toNat) (hd : d = value / unit) :
    (d * 10 ^ k : ℚ) ≤ x.value ∧ x.value < (d + 1 : ℚ) * 10 ^ k ∧
      (2 * (value % unit) < unit ↔ 2 * (x.value - d * 10 ^ k) < 10 ^ k) ∧
      (unit < 2 * (value % unit) ↔ 10 ^ k < 2 * (x.value - d * 10 ^ k)) := by
  have hc := unit_pos x.divisor_pos k
  have hone : (unit : ℚ) = 10 ^ k * (x.target.divisor * 10 ^ (-k).toNat) := by
    have hcast := cast_mul_unit 1 k x.target.divisor
    rwa [Nat.one_mul, ← hunit, Nat.cast_one, one_mul] at hcast
  have hpos : 0 < unit := by
    rw [hunit]
    exact Nat.mul_pos (tenTo_pos _) x.divisor_pos
  have hvalueq : (value : ℚ) = x.value * (x.target.divisor * 10 ^ (-k).toNat) := by
    rw [hvalue, cast_mul_up x.divisor_pos, target_value]
  have hsplit : (d * unit + (value % unit : Nat) : ℚ) = value := by
    rw [hd]
    exact_mod_cast Nat.div_add_mod' value unit
  have hless : ((value % unit : Nat) : ℚ) < unit := by exact_mod_cast Nat.mod_lt value hpos
  have hrest : ((value % unit : Nat) : ℚ) =
      (x.value - d * 10 ^ k) * (x.target.divisor * 10 ^ (-k).toNat) := by
    rw [hone, hvalueq] at hsplit
    linarith
  refine ⟨?_, ?_, ?_, ?_⟩
  · have hnonneg : (0 : ℚ) ≤ ((value % unit : Nat) : ℚ) := Nat.cast_nonneg _
    rw [hrest] at hnonneg
    linarith [nonneg_of_mul_nonneg_left hnonneg hc]
  · rw [hrest, hone, mul_lt_mul_iff_left₀ hc] at hless
    linarith
  · rw [← Nat.cast_lt (α := ℚ), Nat.cast_mul, hrest, hone, Nat.cast_ofNat, ← mul_assoc 2,
      mul_lt_mul_iff_left₀ hc]
  · rw [← Nat.cast_lt (α := ℚ), Nat.cast_mul, hrest, hone, Nat.cast_ofNat, ← mul_assoc 2,
      mul_lt_mul_iff_left₀ hc]

/-! ## The decimal of a grid -/

/-- Of the neighbours of the double on a grid the lower one is taken if it alone is covered or is
the nearer, and the upper one if the lower one is not. -/
theorem onGrid_cases (hm : 0 < x.m) (k : ℤ) : ∃ d : Nat,
    (d * 10 ^ k : ℚ) ≤ x.value ∧ x.value < (d + 1 : Nat) * 10 ^ k ∧
      (x.target.onGrid .up k = none ∧ ¬ x.Covers (d * 10 ^ k) ∧
          ¬ x.Covers ((d + 1 : Nat) * 10 ^ k) ∨
        x.target.onGrid .up k = some d ∧ x.Covers (d * 10 ^ k) ∧
          (x.Covers ((d + 1 : Nat) * 10 ^ k) → 2 * (x.value - d * 10 ^ k) < 10 ^ k) ∨
        x.target.onGrid .up k = some (d + 1) ∧ x.Covers ((d + 1 : Nat) * 10 ^ k) ∧
          (x.Covers (d * 10 ^ k) → 10 ^ k ≤ 2 * (x.value - d * 10 ^ k))) := by
  obtain ⟨hlow, hhigh, hbelow, habove⟩ := x.floor_spec k rfl rfl rfl
  refine ⟨_, hlow, by push_cast; exact hhigh, ?_⟩
  simp only [← holds_iff hm]
  unfold Target.onGrid
  dsimp only
  generalize x.target.value * tenTo (-k).toNat / (tenTo k.toNat * x.target.divisor) = d at *
  cases hd : x.target.holds k d <;> cases hd' : x.target.holds k (d + 1)
  · exact .inl ⟨rfl, Bool.false_ne_true, Bool.false_ne_true⟩
  · exact .inr (.inr ⟨rfl, rfl, fun h => absurd h Bool.false_ne_true⟩)
  · exact .inr (.inl ⟨rfl, rfl, fun h => absurd h Bool.false_ne_true⟩)
  · dsimp only
    split
    · rename_i hless
      exact .inr (.inl ⟨rfl, rfl, fun _ => hbelow.mp hless⟩)
    · rename_i hless
      have hle : (10 : ℚ) ^ k ≤ 2 * (x.value - d * 10 ^ k) :=
        not_lt.mp fun h => hless (hbelow.mpr h)
      refine .inr (.inr ⟨?_, rfl, fun _ => hle⟩)
      split <;> rfl

theorem mul_ten_le {a b : Nat} (h : a ≤ b) (k : ℤ) : (a * 10 ^ k : ℚ) ≤ b * 10 ^ k :=
  mul_le_mul_of_nonneg_right (Nat.cast_le.mpr h) (ten_zpow_pos k).le

/-- A covered point draws all between it and the double with it. -/
theorem Covers.below {a : Nat} (ha : x.Covers (a * 10 ^ k)) (hle : a ≤ n)
    (hn : (n * 10 ^ k : ℚ) ≤ x.value) : x.Covers (n * 10 ^ k) :=
  ha.of_between x.covers_value (mul_ten_le hle k) hn

theorem Covers.above {a : Nat} (ha : x.Covers (a * 10 ^ k)) (hle : n ≤ a)
    (hn : x.value ≤ n * 10 ^ k) : x.Covers (n * 10 ^ k) :=
  x.covers_value.of_between ha hn (mul_ten_le hle k)

theorem not_covers_of_onGrid (hm : 0 < x.m) (h : x.target.onGrid .up k = none) (a : Nat) :
    ¬ x.Covers (a * 10 ^ k) := by
  intro ha
  obtain ⟨d, hlow, hhigh, ⟨-, hd, hd'⟩ | ⟨hsome, -, -⟩ | ⟨hsome, -, -⟩⟩ := onGrid_cases hm k
  · rcases Nat.lt_or_ge d a with hlt | hge
    · exact hd' (ha.above hlt hhigh.le)
    · exact hd (ha.below hge hlow)
  · rw [h] at hsome
    cases hsome
  · rw [h] at hsome
    cases hsome

/-- The decimal of a grid is the nearest one that is covered, and the greater one of two. -/
theorem nearest_of_onGrid (hm : 0 < x.m) {r : Nat} (h : x.target.onGrid .up k = some r) :
    x.Covers (r * 10 ^ k) ∧ ∀ a : Nat, x.Covers (a * 10 ^ k) →
      |r * 10 ^ k - x.value| ≤ |a * 10 ^ k - x.value| ∧
        (|r * 10 ^ k - x.value| = |a * 10 ^ k - x.value| → a ≤ r) := by
  obtain ⟨d, hlow, hhigh, ⟨hnone, -, -⟩ | ⟨hsome, hd, hother⟩ | ⟨hsome, hd', hother⟩⟩ :=
    onGrid_cases hm k
  · rw [h] at hnone
    cases hnone
  · obtain rfl : d = r := Option.some.inj (hsome.symm.trans h)
    refine ⟨hd, fun a ha => ?_⟩
    rw [abs_of_nonpos (sub_nonpos.mpr hlow)]
    rcases Nat.lt_or_ge d a with hlt | hge
    · have hnear := hother (ha.above hlt hhigh.le)
      have hstep := mul_ten_le hlt k
      push_cast at hstep hhigh
      rw [abs_of_nonneg (by linarith)]
      constructor
      · linarith
      · intro he
        linarith
    · have hstep := mul_ten_le hge k
      rw [abs_of_nonpos (by linarith)]
      exact ⟨by linarith, fun _ => hge⟩
  · obtain rfl : d + 1 = r := Option.some.inj (hsome.symm.trans h)
    refine ⟨hd', fun a ha => ?_⟩
    rw [abs_of_nonneg (sub_nonneg.mpr hhigh.le)]
    rcases Nat.lt_or_ge d a with hlt | hge
    · have hstep := mul_ten_le hlt k
      rw [abs_of_nonneg (by linarith)]
      refine ⟨by linarith, fun he => ?_⟩
      have hsame : (a : ℚ) = (d + 1 : Nat) :=
        mul_right_cancel₀ (ten_zpow_pos k).ne' (by linarith)
      exact (Nat.cast_injective hsame).le
    · have hnear := hother (ha.below hge hlow)
      have hstep := mul_ten_le hge k
      push_cast
      rw [abs_of_nonpos (by linarith)]
      exact ⟨by linarith, fun _ => Nat.le_succ_of_le hge⟩

/-! ## How fine a grid has to be -/

theorem upper_sub_lower_le (x : Magnitude) : x.upper - x.lower ≤ 4 * x.quarter := by
  have hu := x.quarter_pos
  unfold upper lower
  split <;> linarith

theorem le_lower (hfull : 2 ^ 52 ≤ x.m) : (2 ^ 54 - 2) * x.quarter ≤ x.lower := by
  have hcast : (2 : ℚ) ^ 52 ≤ x.m := by exact_mod_cast hfull
  refine mul_le_mul_of_nonneg_right ?_ x.quarter_pos.le
  split <;> linarith

/-- Two points of one grid stand for one double only if their numbers are large. -/
theorem Covers.grid_unique (hfull : 2 ^ 52 ≤ x.m) {a b : Nat} (ha : x.Covers (a * 10 ^ k))
    (hb : x.Covers (b * 10 ^ k)) (hsmall : a ≤ 2 ^ 51) : a = b := by
  have hwidth := x.upper_sub_lower_le
  have hlower := le_lower hfull
  have hu := x.quarter_pos
  -- The lesser of two different numbers, times the distance of the two, is beyond the lower end.
  have hlarge : ∀ {m n : Nat}, x.Covers (m * 10 ^ k) → x.Covers (n * 10 ^ k) → m < n →
      2 ^ 51 < m := by
    intro m n hm hn hlt
    have hstep := mul_ten_le hlt k
    push_cast at hstep
    have hgrid : (10 : ℚ) ^ k ≤ 4 * x.quarter := by linarith [hm.lower_le, hn.le_upper]
    have hproduct : (m * 10 ^ k : ℚ) ≤ m * (4 * x.quarter) :=
      mul_le_mul_of_nonneg_left hgrid (Nat.cast_nonneg m)
    have hquarters : (2 ^ 54 - 2) * x.quarter ≤ (4 * m : ℚ) * x.quarter := by
      linarith [hm.lower_le]
    have hcast := le_of_mul_le_mul_right hquarters hu
    have hless : (2 : ℚ) ^ 51 < m := by linarith
    exact_mod_cast hless
  rcases Nat.lt_trichotomy a b with hlt | heq | hgt
  · exact absurd (hlarge ha hb hlt) (Nat.not_lt.mpr hsmall)
  · exact heq
  · exact absurd (hlarge hb ha hgt) (by omega)

/-- On a grid of seventeen digits half a step is less than half-way to the neighbours. -/
theorem half_step_inside (h : (10 : ℚ) ^ (k + 16) ≤ x.value) :
    x.lower < x.value - 10 ^ k / 2 ∧ x.value + 10 ^ k / 2 < x.upper := by
  have hless := x.cast_m_le
  have hu := x.quarter_pos
  have hgrid : (10 : ℚ) ^ k * 10 ^ 16 ≤ 4 * x.m * x.quarter := by
    rw [zpow_add₀ (by norm_num)] at h
    exact h
  have hbound : (4 * x.m : ℚ) * x.quarter ≤ 2 ^ 55 * x.quarter :=
    mul_le_mul_of_nonneg_right (by linarith) hu.le
  have hupper : x.value + 10 ^ k / 2 < x.upper := by
    unfold value upper
    linarith
  refine ⟨?_, hupper⟩
  unfold lower value
  split
  · rename_i hnarrow
    have hm : (x.m : ℚ) = 2 ^ 52 := by exact_mod_cast (narrow_iff.mp hnarrow).1
    rw [hm] at hgrid ⊢
    linarith
  · linarith

/-- Seventeen digits are enough. -/
theorem onGrid_ne_none (hm : 0 < x.m) (h : (10 : ℚ) ^ (k + 16) ≤ x.value) :
    x.target.onGrid .up k ≠ none := by
  obtain ⟨hlower, hupper⟩ := half_step_inside h
  obtain ⟨d, hlow, hhigh, ⟨-, hd, hd'⟩ | ⟨hsome, -⟩ | ⟨hsome, -⟩⟩ := onGrid_cases hm k
  · have hpos := ten_zpow_pos k
    by_cases hnear : 2 * (x.value - d * 10 ^ k) ≤ 10 ^ k
    · have hin : x.lower < d * 10 ^ k := by linarith
      exact absurd ⟨hin.le, hlow.trans x.value_lt_upper.le,
        fun _ => ⟨hin, hlow.trans_lt x.value_lt_upper⟩⟩ hd
    · have hin : ((d + 1 : Nat) * 10 ^ k : ℚ) < x.upper := by
        push_cast
        linarith
      exact absurd ⟨x.lower_lt_value.le.trans hhigh.le, hin.le,
        fun _ => ⟨x.lower_lt_value.trans hhigh, hin⟩⟩ hd'
  · rw [hsome]
    exact Option.some_ne_none _
  · rw [hsome]
    exact Option.some_ne_none _

/-! ## The leading exponent -/

theorem digitCount_bounds {a : Nat} (ha : 0 < a) :
    (10 : ℚ) ^ ((digitCount a : ℤ) - 1) ≤ a ∧ (a : ℚ) < 10 ^ (digitCount a : ℤ) := by
  have hlow := le_mul_zpow ha 0
  have hhigh := mul_zpow_lt (n := a) 0
  rw [zpow_zero, mul_one, add_zero] at hlow hhigh
  exact ⟨hlow, hhigh⟩

theorem ten_zpow_neg_le_div_iff {n d : Nat} (hd : 0 < d) (j : Nat) :
    d ≤ n * tenTo j ↔ (10 : ℚ) ^ (-(j : ℤ)) ≤ n / d := by
  have hcast : ((n * tenTo j : Nat) : ℚ) = n * 10 ^ (j : ℤ) := by
    rw [Nat.cast_mul, cast_tenTo, zpow_natCast]
  rw [le_div_iff₀ (Nat.cast_pos.mpr hd), zpow_neg, inv_mul_le_iff₀ (ten_zpow_pos _),
    ← Nat.cast_le (α := ℚ), hcast, mul_comm]

/-- The digits of the whole part are counted. -/
theorem whole_bounds {n d : Nat} (hd : 0 < d) (h : d ≤ n) :
    (10 : ℚ) ^ ((digitCount (n / d) : ℤ) - 1) ≤ n / d ∧
      (n / d : ℚ) < 10 ^ (digitCount (n / d) : ℤ) := by
  obtain ⟨hlow, hhigh⟩ := digitCount_bounds (Nat.div_pos h hd)
  refine ⟨hlow.trans Nat.cast_div_le, ?_⟩
  rw [zpow_natCast] at hhigh ⊢
  have hnext : n / d + 1 ≤ 10 ^ digitCount (n / d) := by exact_mod_cast hhigh
  have hmul := Nat.mul_le_mul_left d hnext
  rw [Nat.mul_comm d (10 ^ _)] at hmul
  rw [div_lt_iff₀ (Nat.cast_pos.mpr hd)]
  exact_mod_cast (Nat.lt_mul_div_succ n hd).trans_le hmul

theorem leading_spec (hm : 0 < x.m) :
    (10 : ℚ) ^ (x.target.leading - 1) ≤ x.value ∧ x.value < 10 ^ x.target.leading := by
  have hdivisor := x.divisor_pos
  have hpos : 0 < x.target.value :=
    Nat.mul_pos (Nat.mul_pos (by decide) hm) (Nat.pow_pos two_pos)
  rw [← target_value]
  generalize x.target = t at *
  obtain ⟨low, value, high, divisor, closed⟩ := t
  dsimp only at hdivisor hpos ⊢
  unfold Target.leading
  dsimp only
  split
  · rename_i hle
    exact whole_bounds hdivisor hle
  · rename_i hlt
    obtain ⟨hvlow, hvhigh⟩ := digitCount_bounds hpos
    obtain ⟨hdlow, hdhigh⟩ := digitCount_bounds hdivisor
    have hcounts : digitCount value ≤ digitCount divisor := by
      have hpowers : (10 : ℚ) ^ ((digitCount value : ℤ) - 1) < 10 ^ (digitCount divisor : ℤ) :=
        (hvlow.trans (Nat.cast_le.mpr (Nat.le_of_not_le hlt))).trans_lt hdhigh
      have := (zpow_lt_zpow_iff_right₀ (by norm_num)).mp hpowers
      omega
    obtain ⟨j, hj⟩ : ∃ j, j = digitCount divisor - digitCount value := ⟨_, rfl⟩
    obtain ⟨hlow, hhigh⟩ := quotient_bounds (by norm_num) (Nat.cast_pos.mpr hdivisor) hvlow
      (by rwa [Int.sub_add_cancel]) hdlow (by rwa [Int.sub_add_cancel])
    rw [← hj]
    split
    · rename_i hge
      rw [ten_zpow_neg_le_div_iff hdivisor] at hge
      exact ⟨by rwa [show 1 - (j : ℤ) - 1 = -j by omega],
        by rwa [show 1 - (j : ℤ) = digitCount value - 1 - (digitCount divisor - 1) + 1 by omega]⟩
    · rename_i hless
      rw [ten_zpow_neg_le_div_iff hdivisor, not_le] at hless
      exact ⟨by rwa [show -(j : ℤ) - 1 = digitCount value - 1 - (digitCount divisor - 1) - 1 by
        omega], hless⟩

end Magnitude

/-! ## The shortest decimal -/

/-- The first grid with a point in the interval is taken. -/
theorem search_eq {t : Target} {tie : Tie} {p : ℤ} {tries : Nat}
    (h : ∃ i < tries, t.onGrid tie (p - (n + i : Nat)) ≠ none) :
    ∃ i r, i < tries ∧ t.onGrid tie (p - (n + i : Nat)) = some r ∧
      (∀ j < i, t.onGrid tie (p - (n + j : Nat)) = none) ∧
      t.search tie p n tries = .ofGrid r (p - (n + i : Nat)) := by
  induction tries generalizing n with
  | zero =>
      obtain ⟨i, hi, -⟩ := h
      omega
  | succ tries ih =>
      rw [Target.search]
      cases hgrid : t.onGrid tie (p - n) with
      | some r => exact ⟨0, r, Nat.succ_pos _, hgrid, fun j hj => absurd hj (Nat.not_lt_zero j), rfl⟩
      | none =>
          have hlater : ∃ i < tries, t.onGrid tie (p - (n + 1 + i : Nat)) ≠ none := by
            obtain ⟨i, hi, hne⟩ := h
            cases i with
            | zero => exact absurd hgrid hne
            | succ i => exact ⟨i, by omega, by rwa [Nat.add_right_comm n 1 i]⟩
          obtain ⟨i, r, hi, hsome, hnone, heq⟩ := ih hlater
          rw [Nat.add_right_comm n 1 i] at hsome heq
          refine ⟨i + 1, r, by omega, hsome, fun j hj => ?_, heq⟩
          cases j with
          | zero => exact hgrid
          | succ j =>
              rw [← Nat.add_assoc, ← Nat.add_right_comm n 1 j]
              exact hnone j (by omega)

namespace Digits

theorem value_ofGrid (r : Nat) (k : ℤ) : (ofGrid r k).value = r * 10 ^ k := by
  unfold ofGrid value
  split
  · rename_i h
    rw [h, zpow_add_one₀ (by norm_num)]
    push_cast
    ring
  · rfl

theorem double?_eq_some_iff {d : Digits} : d.double? = some x ↔ x.Covers d.value :=
  nearest?_eq_some_iff

/-- Of the decimals that stand for the double it has the greatest exponent, of those with this
exponent it is nearest, and it is the greater of two equally near. -/
structure IsShortest (d : Digits) (x : Magnitude) : Prop where
  stands : d.double? = some x
  coarsest : ∀ d' : Digits, d'.double? = some x → d'.exponent ≤ d.exponent
  nearest : ∀ d' : Digits, d'.double? = some x → d'.exponent = d.exponent →
    |d.value - x.value| ≤ |d'.value - x.value|
  greater : ∀ d' : Digits, d'.double? = some x → d'.exponent = d.exponent →
    |d.value - x.value| = |d'.value - x.value| → d'.digits ≤ d.digits

theorem IsShortest.unique {d d' : Digits} (h : d.IsShortest x) (h' : d'.IsShortest x) : d = d' := by
  have hexponent : d.exponent = d'.exponent :=
    le_antisymm (h'.coarsest d h.stands) (h.coarsest d' h'.stands)
  have hnear : |d.value - x.value| = |d'.value - x.value| :=
    le_antisymm (h.nearest d' h'.stands hexponent.symm) (h'.nearest d h.stands hexponent)
  have hdigits : d.digits = d'.digits :=
    le_antisymm (h'.greater d h.stands hexponent hnear.symm)
      (h.greater d' h'.stands hexponent.symm hnear)
  obtain ⟨digits, exponent⟩ := d
  obtain rfl : exponent = d'.exponent := hexponent
  obtain rfl : digits = d'.digits := hdigits
  rfl

/-- A decimal lies on every finer grid. -/
theorem exists_onGrid {d : Digits} (h : k ≤ d.exponent) : ∃ a : Nat, d.value = a * 10 ^ k ∧
    a = d.digits * 10 ^ (d.exponent - k).toNat := by
  refine ⟨_, ?_, rfl⟩
  rw [value, Nat.cast_mul, Nat.cast_pow, Nat.cast_ofNat, mul_assoc, ← zpow_natCast,
    ← zpow_add₀ (by norm_num), show ((d.exponent - k).toNat : ℤ) + k = d.exponent by omega]

end Digits

namespace Magnitude

theorem Covers.pos (hm : 0 < x.m) (h : x.Covers v) : 0 < v := by
  have hcast : (1 : ℚ) ≤ x.m := by exact_mod_cast hm
  have hlower : 0 < x.lower := by
    refine mul_pos ?_ x.quarter_pos
    split <;> linarith
  exact hlower.trans_le h.lower_le

theorem shortest_eq (hm : 0 < x.m) : ∃ i r, i < 17 ∧
    x.target.onGrid .up (x.target.leading - (1 + i : Nat)) = some r ∧
    (∀ j < i, x.target.onGrid .up (x.target.leading - (1 + j : Nat)) = none) ∧
    x.shortest .up = .ofGrid r (x.target.leading - (1 + i : Nat)) := by
  obtain ⟨hlow, -⟩ := leading_spec hm
  rw [shortest, if_neg (Nat.ne_of_gt hm)]
  refine search_eq ⟨16, by decide, onGrid_ne_none hm ?_⟩
  rwa [show x.target.leading - ((1 + 16 : Nat) : ℤ) + 16 = x.target.leading - 1 by omega]

/-- Between the double and a decimal that is coarser than the first grid lies a power of ten, the
tenth point of this grid. -/
theorem Covers.tenth (hm : 0 < x.m) {d : Digits} (hd : x.Covers d.value)
    (h : x.target.leading ≤ d.exponent) : x.Covers ((10 : Nat) * 10 ^ (x.target.leading - 1)) := by
  obtain ⟨-, hhigh⟩ := leading_spec hm
  generalize x.target.leading = p at *
  obtain ⟨a, ha, -⟩ := Digits.exists_onGrid h
  rw [ha] at hd
  have hapos : 1 ≤ a := by
    have hproduct := hd.pos hm
    rw [Nat.one_le_iff_ne_zero]
    rintro rfl
    rw [Nat.cast_zero, zero_mul] at hproduct
    exact lt_irrefl _ hproduct
  have hpower : x.Covers ((1 : Nat) * 10 ^ p) := by
    refine hd.above hapos ?_
    rw [Nat.cast_one, one_mul]
    exact hhigh.le
  rw [Nat.cast_one, one_mul] at hpower
  rwa [Nat.cast_ofNat, ← zpow_one_add₀ (by norm_num), add_sub_cancel]

/-- No decimal that stands for the double lies on a coarser grid than the one that is taken. -/
theorem le_exponent_of_first (hfull : 2 ^ 52 ≤ x.m) {i r : Nat}
    (hsome : x.target.onGrid .up (x.target.leading - (1 + i : Nat)) = some r)
    (hnone : ∀ j < i, x.target.onGrid .up (x.target.leading - (1 + j : Nat)) = none) {d : Digits}
    (hd : x.Covers d.value) :
    d.exponent ≤ (Digits.ofGrid r (x.target.leading - (1 + i : Nat))).exponent := by
  have hm : 0 < x.m := Nat.lt_of_lt_of_le (by decide) hfull
  have htenth := hd.tenth hm
  generalize x.target.leading = p at *
  have hkept : p - (1 + i : Nat) ≤ (Digits.ofGrid r (p - (1 + i : Nat))).exponent := by
    unfold Digits.ofGrid
    split
    · exact Int.le_add_one (le_refl _)
    · exact le_refl _
  by_contra hlt
  by_cases hgrid : d.exponent ≤ p - 1
  · -- Its grid has been tried before.
    have htried := hnone (p - 1 - d.exponent).toNat (by omega)
    rw [show p - ((1 + (p - 1 - d.exponent).toNat : Nat) : ℤ) = d.exponent by omega] at htried
    exact not_covers_of_onGrid hm htried d.digits hd
  · have hten : x.Covers ((10 : Nat) * 10 ^ (p - 1)) := htenth (by omega)
    cases i with
    | succ i =>
        have htried := hnone 0 (Nat.succ_pos i)
        exact not_covers_of_onGrid hm htried 10 hten
    | zero =>
        -- The first grid has no other point that stands for the double.
        obtain ⟨hr, -⟩ := nearest_of_onGrid hm hsome
        obtain rfl : 10 = r := hten.grid_unique hfull hr (by decide)
        have hexponent : (Digits.ofGrid 10 (p - (1 + 0 : Nat))).exponent = p := by
          show p - (1 + 0 : Nat) + 1 = p
          omega
        obtain ⟨a, ha, hadigits⟩ := Digits.exists_onGrid (show p - 1 ≤ d.exponent by omega)
        rw [ha] at hd
        have hsame : 10 = a := hten.grid_unique hfull hd (by decide)
        obtain ⟨l, hl⟩ : ∃ l, (d.exponent - (p - 1)).toNat = l + 2 :=
          ⟨(d.exponent - (p - 1)).toNat - 2, by omega⟩
        rw [hl, Nat.pow_add, ← Nat.mul_assoc] at hadigits
        omega

theorem shortest_isShortest (hfull : 2 ^ 52 ≤ x.m) : (x.shortest .up).IsShortest x := by
  have hm : 0 < x.m := Nat.lt_of_lt_of_le (by decide) hfull
  obtain ⟨i, r, -, hsome, hnone, heq⟩ := shortest_eq hm
  have hcoarsest := fun d : Digits => le_exponent_of_first hfull hsome hnone (d := d)
  obtain ⟨hr, hnear⟩ := nearest_of_onGrid hm hsome
  rw [heq]
  generalize x.target.leading - (1 + i : Nat) = k at *
  have hgrid : ∀ d : Digits, d.double? = some x → d.exponent = (Digits.ofGrid r k).exponent →
      ∃ a : Nat, d.value = a * 10 ^ k ∧ x.Covers (a * 10 ^ k) ∧
        (a ≤ r → d.digits ≤ (Digits.ofGrid r k).digits) := by
    intro d hd hexponent
    rw [Digits.double?_eq_some_iff] at hd
    unfold Digits.ofGrid at hexponent ⊢
    split at hexponent
    · rename_i hten
      replace hexponent : d.exponent = k + 1 := hexponent
      obtain ⟨a, ha, hadigits⟩ := Digits.exists_onGrid (show k ≤ d.exponent by omega)
      refine ⟨a, ha, ha ▸ hd, fun hle => ?_⟩
      rw [hexponent, show (k + 1 - k).toNat = 1 by omega] at hadigits
      rw [if_pos hten]
      show d.digits ≤ 1
      omega
    · rename_i hten
      refine ⟨d.digits, by rw [Digits.value, hexponent], ?_, fun hle => ?_⟩
      · rw [Digits.value, hexponent] at hd
        exact hd
      · rw [if_neg hten]
        exact hle
  refine ⟨?_, fun d hd => hcoarsest d (Digits.double?_eq_some_iff.mp hd), fun d hd hexponent => ?_,
    fun d hd hexponent hequal => ?_⟩
  · rw [Digits.double?_eq_some_iff, Digits.value_ofGrid]
    exact hr
  · obtain ⟨a, ha, hcovers, -⟩ := hgrid d hd hexponent
    rw [Digits.value_ofGrid, ha]
    exact (hnear a hcovers).1
  · obtain ⟨a, ha, hcovers, hdigits⟩ := hgrid d hd hexponent
    rw [Digits.value_ofGrid, ha] at hequal
    exact hdigits ((hnear a hcovers).2 hequal)

theorem digits_shortest_lt (hfull : 2 ^ 52 ≤ x.m) : (x.shortest .up).digits < 10 ^ 17 := by
  have hm : 0 < x.m := Nat.lt_of_lt_of_le (by decide) hfull
  obtain ⟨-, hhigh⟩ := leading_spec hm
  obtain ⟨i, r, hi, hsome, -, heq⟩ := shortest_eq hm
  obtain ⟨hr, hnear⟩ := nearest_of_onGrid hm hsome
  have hshortest := shortest_isShortest hfull
  obtain ⟨k, hk⟩ : ∃ k, k = x.target.leading - (1 + i : Nat) := ⟨_, rfl⟩
  rw [← hk] at hr hnear heq
  have hpower : ((10 ^ (1 + i) : Nat) * 10 ^ k : ℚ) = 10 ^ x.target.leading := by
    rw [Nat.cast_pow, Nat.cast_ofNat, ← zpow_natCast, ← zpow_add₀ (by norm_num), hk,
      add_sub_cancel]
  have hle : r ≤ 10 ^ (1 + i) := by
    by_contra hlt
    have hstep := mul_ten_le (Nat.lt_of_not_le hlt) k
    have hbound := (hnear _ (hr.above (Nat.le_of_not_le hlt) (by rw [hpower]; exact hhigh.le))).1
    have hpos := ten_zpow_pos k
    push_cast at hstep
    push_cast at hpower hbound
    rw [abs_of_nonneg (by linarith), abs_of_nonneg (by linarith)] at hbound
    linarith
  have hseventeen : 10 ^ (1 + i) ≤ 10 ^ 17 := Nat.pow_le_pow_right (by decide) (by omega)
  have hdigits : (x.shortest .up).digits ≤ 10 ^ 17 := by
    rw [heq, Digits.ofGrid]
    split
    · exact Nat.one_le_pow _ _ (by decide)
    · exact hle.trans hseventeen
  refine lt_of_le_of_ne hdigits fun hequal => ?_
  -- The last zero of a power of ten would not stand there.
  have hcoarser : Digits.double? ⟨10 ^ 16, (x.shortest .up).exponent + 1⟩ = some x := by
    rw [Digits.double?_eq_some_iff]
    have hvalue : Digits.value ⟨10 ^ 16, (x.shortest .up).exponent + 1⟩ =
        (x.shortest .up).value := by
      rw [Digits.value, Digits.value, hequal, zpow_add_one₀ (by norm_num)]
      push_cast
      ring
    rw [hvalue, ← Digits.double?_eq_some_iff]
    exact hshortest.stands
  exact absurd (hshortest.coarsest _ hcoarser) (not_le.mpr (Int.lt_succ _))

/-- A decimal of up to fifteen digits is the shortest that stands for its double. -/
theorem value_shortest_of_few (hfull : 2 ^ 52 ≤ x.m) {d : Digits} (hd : d.double? = some x)
    (hfew : d.digits ≤ 2 ^ 51) : (x.shortest .up).value = d.value := by
  have hshortest := shortest_isShortest hfull
  obtain ⟨a, ha, -⟩ := Digits.exists_onGrid (hshortest.coarsest d hd)
  have hstands := Digits.double?_eq_some_iff.mp hshortest.stands
  rw [ha] at hstands ⊢
  have hsame := (Digits.double?_eq_some_iff.mp hd).grid_unique hfull hstands hfew
  rw [← hsame]
  rfl

end Magnitude

end Causeway.Binary64
