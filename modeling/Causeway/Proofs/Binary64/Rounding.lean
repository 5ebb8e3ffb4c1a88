import Causeway.Binary64.Text
import Causeway.Proofs.Decimal.Rounding
import Mathlib.Algebra.Order.Field.Power
import Mathlib.Tactic.Linarith
import Mathlib.Tactic.NormNum
import Mathlib.Tactic.Ring

/-!
# The doubles that decimals stand for

A double covers the values that are nearer to it than to any other, and half-way ones if it is even.
No value is covered twice (`Magnitude.Covers.unique`), and a decimal stands for the double that
covers it (`nearest?_eq_some_iff`).
-/

namespace Causeway

/-! ## Powers -/

theorem cast_twoTo (n : Nat) : (twoTo n : ℚ) = 2 ^ n := Nat.cast_pow 2 n

theorem cast_tenTo (n : Nat) : (tenTo n : ℚ) = 10 ^ n := Nat.cast_pow 10 n

theorem pow_toNat {b : ℚ} (hb : b ≠ 0) (k : ℤ) : b ^ k.toNat = b ^ k * b ^ (-k).toNat := by
  rw [← zpow_natCast, ← zpow_natCast, ← zpow_add₀ hb]
  congr 1
  omega

/-- The powers around a quotient, from those around its parts. -/
theorem quotient_bounds {b n d : ℚ} (hb : 0 < b) (hd : 0 < d) {i j : ℤ} (hlow : b ^ i ≤ n)
    (hhigh : n < b ^ (i + 1)) (hdlow : b ^ j ≤ d) (hdhigh : d < b ^ (j + 1)) :
    b ^ (i - j - 1) ≤ n / d ∧ n / d < b ^ (i - j + 1) := by
  constructor
  · rw [le_div_iff₀ hd]
    calc b ^ (i - j - 1) * d ≤ b ^ (i - j - 1) * b ^ (j + 1) :=
          mul_le_mul_of_nonneg_left hdhigh.le (zpow_pos hb _).le
      _ = b ^ i := by
          rw [← zpow_add₀ hb.ne']
          congr 1
          omega
      _ ≤ n := hlow
  · rw [div_lt_iff₀ hd]
    calc n < b ^ (i + 1) := hhigh
      _ = b ^ (i - j + 1) * b ^ j := by
          rw [← zpow_add₀ hb.ne']
          congr 1
          omega
      _ ≤ b ^ (i - j + 1) * d := mul_le_mul_of_nonneg_left hdlow (zpow_pos hb _).le

namespace Binary64

variable {x y : Magnitude} {v w : ℚ}

namespace Magnitude

theorem eq_of_parts (hm : x.m = y.m) (hq : x.q = y.q) : x = y := by
  obtain ⟨m, q, _, _, _, _⟩ := x
  obtain ⟨m', q', _, _, _, _⟩ := y
  obtain rfl : m = m' := hm
  obtain rfl : q = q' := hq
  rfl

theorem ofParts?_eq_some_iff {m : Nat} {q : Int} : ofParts? m q = some x ↔ x.m = m ∧ x.q = q := by
  unfold ofParts?
  constructor
  · intro h
    split at h
    · cases h
      exact ⟨rfl, rfl⟩
    · cases h
  · rintro ⟨rfl, rfl⟩
    exact dif_pos ⟨x.m_lt, ⟨x.q_ge, x.q_le⟩, x.full⟩

theorem lt_of_ofParts?_eq_none {m : Nat} {q : Int} (h : ofParts? m q = none) (hm : m < 2 ^ 53)
    (hq : -1074 ≤ q) (hfull : 2 ^ 52 ≤ m ∨ q = -1074) : 971 < q := by
  by_contra hle
  have hparts : ofParts? m q = some ⟨m, q, hm, hq, not_lt.mp hle, hfull⟩ :=
    ofParts?_eq_some_iff.mpr ⟨rfl, rfl⟩
  rw [h] at hparts
  cases hparts

/-! ## What a double covers -/

/-- A quarter of the distance to the next double. -/
def quarter (x : Magnitude) : ℚ := 2 ^ (x.q - 2)

def value (x : Magnitude) : ℚ := 4 * x.m * x.quarter

/-- Half-way to the double below. -/
def lower (x : Magnitude) : ℚ := (4 * x.m - if x.narrow then 1 else 2) * x.quarter

/-- Half-way to the double above. -/
def upper (x : Magnitude) : ℚ := (4 * x.m + 2) * x.quarter

structure Covers (x : Magnitude) (v : ℚ) : Prop where
  lower_le : x.lower ≤ v
  le_upper : v ≤ x.upper
  inside : x.m % 2 = 1 → x.lower < v ∧ v < x.upper

theorem narrow_iff : x.narrow = true ↔ x.m = 2 ^ 52 ∧ -1074 < x.q := decide_eq_true_iff

theorem narrow_of_odd (h : x.m % 2 = 1) : x.narrow = false := by
  refine decide_eq_false fun hnarrow => ?_
  have hpow : x.m = 2 ^ 52 := hnarrow.1
  omega

theorem quarter_pos (x : Magnitude) : 0 < x.quarter := zpow_pos two_pos _

theorem lower_lt_value (x : Magnitude) : x.lower < x.value := by
  have hu := x.quarter_pos
  unfold lower value
  split <;> linarith

theorem value_lt_upper (x : Magnitude) : x.value < x.upper := by
  have hu := x.quarter_pos
  unfold upper value
  linarith

theorem covers_value (x : Magnitude) : x.Covers x.value :=
  ⟨x.lower_lt_value.le, x.value_lt_upper.le, fun _ => ⟨x.lower_lt_value, x.value_lt_upper⟩⟩

theorem Covers.of_between (hv : x.Covers v) (hw : x.Covers w) {u : ℚ} (hvu : v ≤ u) (huw : u ≤ w) :
    x.Covers u :=
  ⟨hv.lower_le.trans hvu, huw.trans hw.le_upper, fun hodd =>
    ⟨(hv.inside hodd).1.trans_le hvu, huw.trans_lt (hw.inside hodd).2⟩⟩

/-! ## No value is covered twice -/

theorem cast_m_le (x : Magnitude) : (x.m : ℚ) + 1 ≤ 2 ^ 53 := by
  have h : x.m + 1 ≤ 2 ^ 53 := x.m_lt
  exact_mod_cast h

theorem le_cast_m (h : -1074 < x.q) : (2 : ℚ) ^ 52 ≤ x.m := by
  have hm : 2 ^ 52 ≤ x.m := x.full.resolve_right (by omega)
  exact_mod_cast hm

theorem quarter_le (h : x.q < y.q) : 2 * x.quarter ≤ y.quarter := by
  have hpow : 2 * x.quarter = 2 ^ (x.q - 1) := by
    rw [quarter, show x.q - 1 = 1 + (x.q - 2) by omega, zpow_one_add₀ two_ne_zero]
  rw [hpow, quarter]
  exact zpow_le_zpow_right₀ one_le_two (by omega)

theorem upper_le_lower_of_lt (hq : x.q < y.q) :
    x.upper ≤ y.lower ∧ (x.m % 2 = 0 → x.upper < y.lower) := by
  have hu := x.quarter_pos
  have hdouble := quarter_le hq
  have hleast := x.q_ge
  have hlow : (2 ^ 54 - 1) * y.quarter ≤ y.lower := by
    have hy : (2 : ℚ) ^ 52 ≤ y.m := le_cast_m (by omega)
    refine mul_le_mul_of_nonneg_right ?_ y.quarter_pos.le
    split
    · linarith
    · rename_i hnarrow
      have hfull : 2 ^ 52 ≤ y.m := y.full.resolve_right (by omega)
      have hne : y.m ≠ 2 ^ 52 := fun he => hnarrow (decide_eq_true ⟨he, by omega⟩)
      have hnext : 2 ^ 52 + 1 ≤ y.m := by omega
      have hcast : (2 : ℚ) ^ 52 + 1 ≤ y.m := by exact_mod_cast hnext
      linarith
  have hmid : (2 ^ 55 - 2) * x.quarter ≤ (2 ^ 54 - 1) * y.quarter := by linarith
  constructor
  · have hx := x.cast_m_le
    refine le_trans ?_ (hmid.trans hlow)
    exact mul_le_mul_of_nonneg_right (by linarith) hu.le
  · intro heven
    have h53 : x.m < 2 ^ 53 := x.m_lt
    have hless : x.m + 2 ≤ 2 ^ 53 := by omega
    have hcast : (x.m : ℚ) + 2 ≤ 2 ^ 53 := by exact_mod_cast hless
    refine lt_of_lt_of_le ?_ (hmid.trans hlow)
    exact mul_lt_mul_of_pos_right (by linarith) hu

theorem upper_le_lower_of_eq (hq : x.q = y.q) (hm : x.m < y.m) :
    x.upper ≤ y.lower ∧ (x.m % 2 = 0 → y.m % 2 = 0 → x.upper < y.lower) := by
  have hu := x.quarter_pos
  have hsame : y.quarter = x.quarter := by rw [quarter, quarter, hq]
  have hwide : y.narrow = false := by
    refine decide_eq_false fun hnarrow => ?_
    have hfull : 2 ^ 52 ≤ x.m := x.full.resolve_right (by omega)
    have hpow : y.m = 2 ^ 52 := hnarrow.1
    omega
  rw [upper, lower, hsame, hwide]
  constructor
  · have hnext : (x.m : ℚ) + 1 ≤ y.m := by exact_mod_cast hm
    refine mul_le_mul_of_nonneg_right ?_ hu.le
    simp only [Bool.false_eq_true, if_false]
    linarith
  · intro hx hy
    have hfar : x.m + 2 ≤ y.m := by omega
    have hcast : (x.m : ℚ) + 2 ≤ y.m := by exact_mod_cast hfar
    refine mul_lt_mul_of_pos_right ?_ hu
    simp only [Bool.false_eq_true, if_false]
    linarith

/-- Between two doubles in their order there is no gap and no overlap, and only one of them takes
the value half-way. -/
theorem upper_le_lower (h : x.q < y.q ∨ x.q = y.q ∧ x.m < y.m) :
    x.upper ≤ y.lower ∧ (x.m % 2 = 0 → y.m % 2 = 0 → x.upper < y.lower) := by
  rcases h with hq | ⟨hq, hm⟩
  · obtain ⟨hle, hlt⟩ := upper_le_lower_of_lt hq
    exact ⟨hle, fun heven _ => hlt heven⟩
  · exact upper_le_lower_of_eq hq hm

theorem Covers.unique (hx : x.Covers v) (hy : y.Covers v) : x = y := by
  have hsplit : ∀ {x y : Magnitude}, x.Covers v → y.Covers v →
      ¬ (x.q < y.q ∨ x.q = y.q ∧ x.m < y.m) := by
    intro x y hx hy hlt
    obtain ⟨hle, heven⟩ := upper_le_lower hlt
    have hboth : x.upper = y.lower :=
      le_antisymm hle (hy.lower_le.trans hx.le_upper)
    rcases Nat.mod_two_eq_zero_or_one x.m with hxm | hxm
    · rcases Nat.mod_two_eq_zero_or_one y.m with hym | hym
      · exact (heven hxm hym).ne hboth
      · exact absurd ((hy.inside hym).1.trans_le (hx.le_upper.trans hle)) (lt_irrefl _)
    · exact absurd ((hx.inside hxm).2.trans_le (hle.trans hy.lower_le)) (lt_irrefl _)
  have hxy := hsplit hx hy
  have hyx := hsplit hy hx
  exact eq_of_parts (by omega) (by omega)

/-- Half-way beyond the greatest double begins what stands for an infinite one. -/
theorem Covers.lt_greatest (h : x.Covers v) : v < greatest.upper := by
  by_cases hx : x = greatest
  · subst hx
    exact (h.inside (by decide)).2
  · have hlt : x.q < greatest.q ∨ x.q = greatest.q ∧ x.m < greatest.m := by
      have hq : x.q ≤ 971 := x.q_le
      have hm : x.m < 2 ^ 53 := x.m_lt
      have hne : ¬ (x.m = 2 ^ 53 - 1 ∧ x.q = 971) := fun he => hx (eq_of_parts he.1 he.2)
      show x.q < 971 ∨ x.q = 971 ∧ x.m < 2 ^ 53 - 1
      omega
    calc v ≤ x.upper := h.le_upper
      _ ≤ greatest.lower := (upper_le_lower hlt).1
      _ < greatest.value := greatest.lower_lt_value
      _ < greatest.upper := greatest.value_lt_upper

end Magnitude

/-! ## Rounding quotients -/

variable {n d : Nat}

theorem two_zpow_le_div_iff (hd : 0 < d) (p : ℤ) :
    d * twoTo p.toNat ≤ n * twoTo (-p).toNat ↔ (2 : ℚ) ^ p ≤ n / d := by
  have hpow : (0 : ℚ) < 2 ^ (-p).toNat := pow_pos two_pos _
  rw [le_div_iff₀ (Nat.cast_pos.mpr hd), ← Nat.cast_le (α := ℚ), Nat.cast_mul, Nat.cast_mul,
    cast_twoTo, cast_twoTo, pow_toNat two_ne_zero, ← mul_assoc, mul_le_mul_iff_left₀ hpow,
    mul_comm]

theorem two_zpow_log2 (hn : 0 < n) :
    (2 : ℚ) ^ (n.log2 : ℤ) ≤ n ∧ (n : ℚ) < 2 ^ ((n.log2 : ℤ) + 1) := by
  rw [show (n.log2 : ℤ) + 1 = ((n.log2 + 1 : Nat) : ℤ) from rfl, zpow_natCast, zpow_natCast]
  exact ⟨by exact_mod_cast Nat.log2_self_le (Nat.ne_of_gt hn), by exact_mod_cast Nat.lt_log2_self⟩

theorem binaryExponent_spec (hn : 0 < n) (hd : 0 < d) :
    (2 : ℚ) ^ binaryExponent n d ≤ n / d ∧ (n / d : ℚ) < 2 ^ (binaryExponent n d + 1) := by
  obtain ⟨hnlow, hnhigh⟩ := two_zpow_log2 hn
  obtain ⟨hdlow, hdhigh⟩ := two_zpow_log2 hd
  obtain ⟨hlow, hhigh⟩ :=
    quotient_bounds two_pos (Nat.cast_pos.mpr hd) hnlow hnhigh hdlow hdhigh
  unfold binaryExponent
  dsimp only
  split
  · rename_i h
    exact ⟨(two_zpow_le_div_iff hd _).mp h, hhigh⟩
  · rename_i h
    rw [two_zpow_le_div_iff hd, not_le] at h
    refine ⟨hlow, ?_⟩
    rwa [Int.sub_add_cancel]

/-- The rounded number is at most a half away, and less than that if it is odd. -/
theorem roundHalfEven_near (hd : 0 < d) {m : Nat} (hm : m = Decimal.roundHalfEven n d) :
    (2 * m - 1 : ℚ) ≤ 2 * (n / d) ∧ 2 * (n / d) ≤ (2 * m + 1 : ℚ) ∧
      (m % 2 = 1 → (2 * m - 1 : ℚ) < 2 * (n / d) ∧ 2 * (n / d) < (2 * m + 1 : ℚ)) := by
  have hd' : (0 : ℚ) < d := Nat.cast_pos.mpr hd
  have hdiv : (n / d : ℚ) * d = n := div_mul_cancel₀ _ hd'.ne'
  obtain ⟨hup, hdown⟩ := Decimal.two_mul_roundHalfEven_le n hd
  have heven := Decimal.roundHalfEven_even (n := n) hd
  rw [← hm] at hup hdown heven
  have hupq : (2 * m - 1 : ℚ) * d ≤ 2 * (n / d) * d := by
    have hcast : (2 : ℚ) * (m * d) ≤ 2 * n + d := by exact_mod_cast hup
    linarith
  have hdownq : 2 * (n / d) * d ≤ (2 * m + 1 : ℚ) * d := by
    have hcast : (2 : ℚ) * n ≤ 2 * (m * d) + d := by exact_mod_cast hdown
    linarith
  refine ⟨le_of_mul_le_mul_right hupq hd', le_of_mul_le_mul_right hdownq hd', fun hodd => ?_⟩
  constructor
  · refine lt_of_mul_lt_mul_right (lt_of_le_of_ne hupq fun he => ?_) hd'.le
    have hcast : (2 : ℚ) * (m * d) = 2 * n + d := by linarith
    have := heven (.inl (by exact_mod_cast hcast))
    omega
  · refine lt_of_mul_lt_mul_right (lt_of_le_of_ne hdownq fun he => ?_) hd'.le
    have hcast : (2 : ℚ) * n = 2 * (m * d) + d := by linarith
    have := heven (.inr (by exact_mod_cast hcast))
    omega

theorem Magnitude.greatest_upper : greatest.upper = (2 ^ 55 - 2) * 2 ^ (969 : ℤ) := by
  have hm : (greatest.m : ℚ) = 2 ^ 53 - 1 := by
    rw [show greatest.m = 2 ^ 53 - 1 from rfl]
    norm_num
  have hq : greatest.q = 971 := rfl
  rw [upper, quarter, hm, hq]
  norm_num

/-- A quotient of `t` units of the size `2 ^ q`, of which `m` is the nearest number. -/
structure Scaled (v t : ℚ) (m : Nat) (q : ℤ) : Prop where
  value_eq : v = 4 * t * 2 ^ (q - 2)
  q_ge : -1074 ≤ q
  full : 2 ^ 52 ≤ t ∨ q = -1074
  lt : t < 2 ^ 53
  le_two_mul : (2 * m - 1 : ℚ) ≤ 2 * t
  two_mul_le : 2 * t ≤ (2 * m + 1 : ℚ)
  inside : m % 2 = 1 → (2 * m - 1 : ℚ) < 2 * t ∧ 2 * t < (2 * m + 1 : ℚ)

namespace Scaled

variable {t : ℚ} {m : Nat} {q : ℤ}

theorem m_le (h : Scaled v t m q) : m ≤ 2 ^ 53 := by
  have hcast : (m : ℚ) < 2 ^ 53 + 1 := by linarith [h.lt, h.le_two_mul]
  exact Nat.lt_succ_iff.mp (by exact_mod_cast hcast)

theorem m_full (h : Scaled v t m q) : 2 ^ 52 ≤ m ∨ q = -1074 := by
  refine h.full.imp_left fun ht => ?_
  have hcast : (2 : ℚ) ^ 52 < m + 1 := by linarith [h.two_mul_le]
  exact Nat.lt_succ_iff.mp (by exact_mod_cast hcast)

theorem covers (h : Scaled v t m q) (hm : x.m = m) (hq : x.q = q) : x.Covers v := by
  have hc : (0 : ℚ) < 2 ^ (q - 2) := zpow_pos two_pos _
  obtain ⟨hv, -, hfull, -, hbelow, habove, hodd⟩ := h
  have hlower : x.lower ≤ v := by
    rw [Magnitude.lower, Magnitude.quarter, hm, hq, hv]
    refine mul_le_mul_of_nonneg_right ?_ hc.le
    split
    · rename_i hnarrow
      obtain ⟨hpow, hleast⟩ := Magnitude.narrow_iff.mp hnarrow
      have ht : (2 : ℚ) ^ 52 ≤ t := hfull.resolve_right (by omega)
      have hcast : (m : ℚ) = 2 ^ 52 := by exact_mod_cast hm.symm.trans hpow
      linarith
    · linarith
  have hupper : v ≤ x.upper := by
    rw [Magnitude.upper, Magnitude.quarter, hm, hq, hv]
    exact mul_le_mul_of_nonneg_right (by linarith) hc.le
  refine ⟨hlower, hupper, fun hxm => ?_⟩
  obtain ⟨hlt, hgt⟩ := hodd (hm ▸ hxm)
  constructor
  · rw [Magnitude.lower, Magnitude.quarter, Magnitude.narrow_of_odd hxm, hm, hq, hv]
    refine mul_lt_mul_of_pos_right ?_ hc
    simp only [Bool.false_eq_true, if_false]
    linarith
  · rw [Magnitude.upper, Magnitude.quarter, hm, hq, hv]
    exact mul_lt_mul_of_pos_right (by linarith) hc

/-- Rounded up to one more bit, which is a zero. -/
theorem covers_carry (h : Scaled v t (2 ^ 53) q) (hm : x.m = 2 ^ 52) (hq : x.q = q + 1) :
    x.Covers v := by
  have hc : (0 : ℚ) < 2 ^ (q - 2) := zpow_pos two_pos _
  have hquarter : x.quarter = 2 * 2 ^ (q - 2) := by
    rw [Magnitude.quarter, hq, show q + 1 - 2 = 1 + (q - 2) by omega, zpow_one_add₀ two_ne_zero]
  have hcast : (x.m : ℚ) = 2 ^ 52 := by exact_mod_cast hm
  have hbelow := h.le_two_mul
  push_cast at hbelow
  have hnarrow : x.narrow = true := decide_eq_true ⟨hm, by have := h.q_ge; omega⟩
  refine ⟨?_, ?_, fun hodd => ?_⟩
  · rw [Magnitude.lower, hquarter, hcast, hnarrow, h.value_eq, ← mul_assoc]
    refine mul_le_mul_of_nonneg_right ?_ hc.le
    simp only [if_true]
    linarith
  · rw [Magnitude.upper, hquarter, hcast, h.value_eq, ← mul_assoc]
    exact mul_le_mul_of_nonneg_right (by linarith [h.lt]) hc.le
  · rw [hm] at hodd
    exact absurd hodd (by decide)

/-- What does not fit lies beyond the greatest double. -/
theorem beyond (h : Scaled v t m q) (hq : 971 < q ∨ m = 2 ^ 53 ∧ q = 971) :
    Magnitude.greatest.upper ≤ v := by
  rw [Magnitude.greatest_upper, h.value_eq]
  rcases hq with hq | ⟨rfl, rfl⟩
  · have ht : (2 : ℚ) ^ 52 ≤ t := h.full.resolve_right (by omega)
    have hpow : (2 : ℚ) ^ (970 : ℤ) ≤ 2 ^ (q - 2) := zpow_le_zpow_right₀ one_le_two (by omega)
    have hdouble : (2 : ℚ) ^ (970 : ℤ) = 2 * 2 ^ (969 : ℤ) := by
      rw [show (970 : ℤ) = 1 + 969 from rfl, zpow_one_add₀ two_ne_zero]
    have hpos : (0 : ℚ) < 2 ^ (969 : ℤ) := zpow_pos two_pos _
    calc ((2 : ℚ) ^ 55 - 2) * 2 ^ (969 : ℤ) ≤ 2 ^ 54 * 2 ^ (970 : ℤ) := by
          rw [hdouble, ← mul_assoc]
          exact mul_le_mul_of_nonneg_right (by norm_num) hpos.le
      _ ≤ 4 * t * 2 ^ (q - 2) :=
          mul_le_mul (by linarith) hpow (zpow_pos two_pos _).le (by linarith)
  · have hbelow := h.le_two_mul
    push_cast at hbelow
    have hpos : (0 : ℚ) < 2 ^ (969 : ℤ) := zpow_pos two_pos _
    rw [show (971 : ℤ) - 2 = 969 from rfl]
    exact mul_le_mul_of_nonneg_right (by linarith) hpos.le

end Scaled

theorem scaled_quotient (hn : 0 < n) (hd : 0 < d) {q : ℤ}
    (hq : q = max (binaryExponent n d - 52) (-1074)) :
    Scaled (n / d) ((n * twoTo (-q).toNat : Nat) / (d * twoTo q.toNat : Nat))
      (Decimal.roundHalfEven (n * twoTo (-q).toNat) (d * twoTo q.toNat)) q := by
  obtain ⟨hlow, hhigh⟩ := binaryExponent_spec hn hd
  have htwo : (0 : ℚ) < 2 ^ q := zpow_pos two_pos _
  have hD : 0 < d * twoTo q.toNat := Nat.mul_pos hd (Nat.pow_pos two_pos)
  have hvalue : (n / d : ℚ) =
      ((n * twoTo (-q).toNat : Nat) / (d * twoTo q.toNat : Nat) : ℚ) * 2 ^ q := by
    have hd' : (d : ℚ) ≠ 0 := Nat.cast_ne_zero.mpr (Nat.ne_of_gt hd)
    have hpow : (2 : ℚ) ^ (-q).toNat ≠ 0 := pow_ne_zero _ two_ne_zero
    rw [Nat.cast_mul, Nat.cast_mul, cast_twoTo, cast_twoTo, pow_toNat two_ne_zero q]
    field_simp
  obtain ⟨hbelow, habove, hodd⟩ := roundHalfEven_near (n := n * twoTo (-q).toNat) hD rfl
  refine ⟨?_, by omega, ?_, ?_, hbelow, habove, hodd⟩
  · rw [hvalue, mul_comm 4, mul_assoc, show (4 : ℚ) = 2 ^ (2 : ℤ) by norm_num,
      ← zpow_add₀ two_ne_zero, show 2 + (q - 2) = q by omega]
  · by_cases hleast : q = -1074
    · exact .inr hleast
    · left
      refine le_of_mul_le_mul_right ?_ htwo
      rw [← hvalue, show (2 : ℚ) ^ 52 = 2 ^ (52 : ℤ) by norm_num, ← zpow_add₀ two_ne_zero,
        show 52 + q = binaryExponent n d by omega]
      exact hlow
  · refine lt_of_mul_lt_mul_right ?_ htwo.le
    rw [← hvalue, show (2 : ℚ) ^ 53 = 2 ^ (53 : ℤ) by norm_num, ← zpow_add₀ two_ne_zero]
    exact hhigh.trans_le (zpow_le_zpow_right₀ one_le_two (by omega))

theorem ofRatio?_cases (hn : 0 < n) (hd : 0 < d) :
    (∃ x, ofRatio? n d = some x ∧ x.Covers (n / d)) ∨
      ofRatio? n d = none ∧ Magnitude.greatest.upper ≤ n / d := by
  obtain ⟨q, hq⟩ : ∃ q, q = max (binaryExponent n d - 52) (-1074) := ⟨_, rfl⟩
  have hscaled := scaled_quotient hn hd hq
  unfold ofRatio?
  rw [if_neg (Nat.ne_of_gt hn)]
  dsimp only
  rw [← hq]
  generalize Decimal.roundHalfEven (n * twoTo (-q).toNat) (d * twoTo q.toNat) = m at hscaled ⊢
  generalize ((n * twoTo (-q).toNat : Nat) / (d * twoTo q.toNat : Nat) : ℚ) = t at hscaled
  have hq_ge := hscaled.q_ge
  have hm := hscaled.m_le
  have hfull := hscaled.m_full
  split
  · rename_i hcarry
    obtain rfl : m = 2 ^ 53 := hcarry
    cases hparts : Magnitude.ofParts? (twoTo 52) (q + 1) with
    | some x =>
        obtain ⟨hxm, hxq⟩ := Magnitude.ofParts?_eq_some_iff.mp hparts
        exact .inl ⟨x, rfl, hscaled.covers_carry hxm hxq⟩
    | none =>
        have hlt := Magnitude.lt_of_ofParts?_eq_none hparts (by decide) (by omega)
          (.inl (Nat.le_refl _))
        have hbeyond : 971 < q ∨ 2 ^ 53 = 2 ^ 53 ∧ q = 971 := by omega
        exact .inr ⟨rfl, hscaled.beyond hbeyond⟩
  · rename_i hcarry
    cases hparts : Magnitude.ofParts? m q with
    | some x =>
        obtain ⟨hxm, hxq⟩ := Magnitude.ofParts?_eq_some_iff.mp hparts
        exact .inl ⟨x, rfl, hscaled.covers hxm hxq⟩
    | none =>
        exact .inr ⟨rfl, hscaled.beyond (.inl (Magnitude.lt_of_ofParts?_eq_none hparts
          (Nat.lt_of_le_of_ne hm hcarry) hq_ge hfull))⟩

/-! ## Rounding decimals -/

theorem digitCount_pos (n : Nat) : 0 < digitCount n :=
  List.length_pos_iff.mpr Nat.toDigits_ne_nil

theorem lt_digitCount (n : Nat) : n < 10 ^ digitCount n :=
  (Nat.length_toDigits_le_iff (by decide) (digitCount_pos n)).mp (Nat.le_refl _)

theorem digitCount_le (hn : 0 < n) : 10 ^ (digitCount n - 1) ≤ n := by
  by_cases h : digitCount n = 1
  · rw [h]
    exact hn
  · have hpos := digitCount_pos n
    by_contra hlt
    have hle := (Nat.length_toDigits_le_iff (b := 10) (by decide)
      (show 0 < digitCount n - 1 by omega)).mpr (Nat.lt_of_not_le hlt)
    have hlen : (Nat.toDigits 10 n).length = digitCount n := rfl
    omega

def Digits.value (d : Digits) : ℚ := d.digits * 10 ^ d.exponent

/-- The double that a decimal stands for. -/
def Digits.double? (d : Digits) : Option Magnitude := nearest? d.digits d.exponent

/-- The double zero covers what is at most half the least double. -/
theorem covers_zero (hm : x.m = 0) (hq : x.q = -1074) (hv : 0 ≤ v) (hle : v ≤ 2 ^ (-1075 : ℤ)) :
    x.Covers v := by
  have hhalf : (2 : ℚ) ^ (-1075 : ℤ) = 2 * x.quarter := by
    rw [Magnitude.quarter, hq, show (-1075 : ℤ) = 1 + (-1074 - 2) from rfl,
      zpow_one_add₀ two_ne_zero]
  have hu := x.quarter_pos
  have hwide : x.narrow = false := decide_eq_false fun h => absurd (hm.symm.trans h.1) (by decide)
  refine ⟨?_, ?_, fun hodd => ?_⟩
  · rw [Magnitude.lower, hm, hwide]
    simp only [Nat.cast_zero, Bool.false_eq_true, if_false]
    linarith
  · rw [Magnitude.upper, hm, Nat.cast_zero]
    linarith
  · rw [hm] at hodd
    cases hodd

theorem mul_zpow_lt {n : Nat} (e : ℤ) : (n * 10 ^ e : ℚ) < 10 ^ (digitCount n + e) := by
  have hlt : (n : ℚ) < 10 ^ digitCount n := by exact_mod_cast lt_digitCount n
  rw [zpow_add₀ (by norm_num), zpow_natCast]
  exact mul_lt_mul_of_pos_right hlt (zpow_pos (by norm_num) _)

theorem le_mul_zpow {n : Nat} (hn : 0 < n) (e : ℤ) :
    (10 ^ (digitCount n - 1 + e) : ℚ) ≤ n * 10 ^ e := by
  have hle : (10 : ℚ) ^ (digitCount n - 1) ≤ n := by exact_mod_cast digitCount_le hn
  have hpos := digitCount_pos n
  rw [show (digitCount n : ℤ) - 1 = ((digitCount n - 1 : Nat) : ℤ) by omega,
    zpow_add₀ (by norm_num), zpow_natCast]
  exact mul_le_mul_of_nonneg_right hle (zpow_pos (by norm_num) _).le

theorem two_pow_le_ten_pow : (2 : ℚ) ^ (1075 : ℤ) ≤ 10 ^ (400 : ℤ) := by
  rw [show (1075 : ℤ) = 43 * 25 from rfl, show (400 : ℤ) = 16 * 25 from rfl, zpow_mul, zpow_mul]
  exact zpow_le_zpow_left₀ (by norm_num) (by positivity) (by norm_num)

/-- The bounds up to which a decimal is rounded leave out zeros and infinite doubles alone. -/
theorem nearest?_cases (n : Nat) (e : ℤ) :
    (∃ x, nearest? n e = some x ∧ x.Covers (n * 10 ^ e)) ∨
      nearest? n e = none ∧ Magnitude.greatest.upper ≤ n * 10 ^ e := by
  have hten : (1 : ℚ) ≤ 10 := by norm_num
  unfold nearest?
  dsimp only
  split
  · rename_i hsmall
    refine .inl ⟨⟨0, -1074, by decide, by decide, by decide, .inr rfl⟩,
      Magnitude.ofParts?_eq_some_iff.mpr ⟨rfl, rfl⟩, covers_zero rfl rfl (by positivity) ?_⟩
    rcases hsmall with rfl | hsmall
    · rw [Nat.cast_zero, zero_mul]
      exact (zpow_pos two_pos _).le
    · have hpowers : (10 : ℚ) ^ (-400 : ℤ) ≤ 2 ^ (-1075 : ℤ) := by
        rw [zpow_neg, zpow_neg]
        exact inv_anti₀ (zpow_pos two_pos _) two_pow_le_ten_pow
      exact (mul_zpow_lt e).le.trans ((zpow_le_zpow_right₀ hten hsmall.le).trans hpowers)
  split
  · rename_i hsmall hgreat
    have hn : 0 < n := Nat.pos_of_ne_zero fun h => hsmall (.inl h)
    have hpowers : Magnitude.greatest.upper ≤ 10 ^ (400 : ℤ) := by
      refine le_trans ?_ two_pow_le_ten_pow
      rw [Magnitude.greatest_upper, show (1075 : ℤ) = 106 + 969 from rfl, zpow_add₀ two_ne_zero]
      exact mul_le_mul_of_nonneg_right (by norm_num) (zpow_pos two_pos _).le
    refine .inr ⟨rfl, hpowers.trans (le_trans ?_ (le_mul_zpow hn e))⟩
    exact zpow_le_zpow_right₀ hten (by omega)
  · rename_i hsmall hgreat
    have hn : 0 < n := Nat.pos_of_ne_zero fun h => hsmall (.inl h)
    have hvalue : ((n * tenTo e.toNat : Nat) / (tenTo (-e).toNat : Nat) : ℚ) = n * 10 ^ e := by
      have hpow : (10 : ℚ) ^ (-e).toNat ≠ 0 := pow_ne_zero _ (by norm_num)
      rw [Nat.cast_mul, cast_tenTo, cast_tenTo, pow_toNat (by norm_num) e]
      field_simp
    rw [← hvalue]
    exact ofRatio?_cases (Nat.mul_pos hn (tenTo_pos _)) (tenTo_pos _)

/-- A decimal stands for the double that covers it. -/
theorem nearest?_eq_some_iff {n : Nat} {e : ℤ} :
    nearest? n e = some x ↔ x.Covers (n * 10 ^ e) := by
  constructor
  · intro h
    obtain ⟨y, hy, hcovers⟩ | ⟨hnone, -⟩ := nearest?_cases n e
    · obtain rfl : y = x := Option.some.inj (hy.symm.trans h)
      exact hcovers
    · rw [h] at hnone
      cases hnone
  · intro h
    obtain ⟨y, hy, hcovers⟩ | ⟨-, hle⟩ := nearest?_cases n e
    · rw [hy, hcovers.unique h]
    · exact absurd (h.lt_greatest.trans_le hle) (lt_irrefl _)

end Binary64

end Causeway
