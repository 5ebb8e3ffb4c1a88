import Causeway.Proofs.Decimal
import Mathlib.Algebra.Order.Field.Rat
import Mathlib.Tactic.FieldSimp
import Mathlib.Tactic.Linarith
import Mathlib.Tactic.Positivity

/-!
# What rounding leaves

A result keeps as many places as fit and is off by half a unit of its last place at most
(`Fits.abs_sub_le`). So sums and differences keep their signs (`sub_pos`), and the fee on an amount of
one or more at a rate below one is less than the amount (`fee_lt`).
-/

namespace Causeway.Decimal

variable {x y z : Decimal} {n m d p most : Nat}

/-! ## The nearest whole number -/

theorem two_mul_roundHalfEven_le (n : Nat) (hd : 0 < d) :
    2 * (roundHalfEven n d * d) ≤ 2 * n + d ∧ 2 * n ≤ 2 * (roundHalfEven n d * d) + d := by
  have hsplit := Nat.div_add_mod n d
  have hlt := Nat.mod_lt n hd
  rw [Nat.mul_comm] at hsplit
  unfold roundHalfEven
  split
  · rw [Nat.add_mul]
    omega
  · omega

/-- Half-way between two whole numbers the even one is taken. -/
theorem roundHalfEven_even (hd : 0 < d)
    (h : 2 * (roundHalfEven n d * d) = 2 * n + d ∨ 2 * n = 2 * (roundHalfEven n d * d) + d) :
    roundHalfEven n d % 2 = 0 := by
  have hsplit := Nat.div_add_mod n d
  have hlt := Nat.mod_lt n hd
  rw [Nat.mul_comm] at hsplit
  unfold roundHalfEven at h ⊢
  split at h
  · rename_i hup
    rw [if_pos hup]
    rw [Nat.add_mul] at h
    omega
  · rename_i hdown
    rw [if_neg hdown]
    omega

/-! ## The places that fit -/

/-- The decimal is `n / 10 ^ p` rounded to as many places as fit, `most` at most. -/
structure Fits (x : Decimal) (n p most : Nat) : Prop where
  places_le : x.places ≤ most
  magnitude_eq : x.magnitude = roundHalfEven n (tenTo (p - x.places))
  full : x.places < most → twoTo 96 ≤ roundHalfEven n (tenTo (p - (x.places + 1)))

theorem rounded?_eq_some {negative : Bool} {places : Nat}
    (h : rounded? negative n p places = some x) : x.negative = negative ∧ x.places = places ∧
      x.magnitude = roundHalfEven n (tenTo (p - places)) := by
  unfold rounded? ofParts? at h
  split at h
  · cases h
    exact ⟨rfl, rfl, rfl⟩
  · cases h

theorem fits_of_fit? {negative : Bool} (hmost : most ≤ 28) (h : fit? negative n p most = some x) :
    x.negative = negative ∧ x.Fits n p most := by
  induction most with
  | zero =>
      obtain ⟨hneg, hplaces, hmag⟩ := rounded?_eq_some h
      exact ⟨hneg, ⟨by omega, by rw [hplaces]; exact hmag, by omega⟩⟩
  | succ most ih =>
      rw [fit?] at h
      split at h
      · rename_i hrounded
        cases h
        obtain ⟨hneg, hplaces, hmag⟩ := rounded?_eq_some hrounded
        exact ⟨hneg, ⟨by omega, by rw [hplaces]; exact hmag, by omega⟩⟩
      · rename_i hnone
        obtain ⟨hneg, hfits⟩ := ih (by omega) h
        refine ⟨hneg, ⟨Nat.le_succ_of_le hfits.places_le, hfits.magnitude_eq, fun hlt => ?_⟩⟩
        by_cases hmore : x.places < most
        · exact hfits.full hmore
        · have heq : x.places = most := by have := hfits.places_le; omega
          unfold rounded? ofParts? at hnone
          split at hnone
          · cases hnone
          · rename_i hbig
            rw [heq]
            by_contra hle
            exact hbig ⟨by omega, hmost⟩

/-- A rounded value is off by half a unit of its last place at most. -/
theorem Fits.abs_sub_le (h : x.Fits n p most) (hmost : most ≤ p) :
    |(x.magnitude : ℚ) / tenTo x.places - n / tenTo p| ≤ 1 / 2 / tenTo x.places := by
  obtain ⟨hle, hge⟩ := two_mul_roundHalfEven_le n (tenTo_pos (p - x.places))
  rw [← h.magnitude_eq] at hle hge
  have hsplit : tenTo p = tenTo x.places * tenTo (p - x.places) := by
    rw [← tenTo_add, Nat.add_sub_cancel' (Nat.le_trans h.places_le hmost)]
  have hplaces := tenTo_cast_pos x.places
  have hrest := tenTo_cast_pos (p - x.places)
  have hle' : (2 : ℚ) * (x.magnitude * tenTo (p - x.places)) ≤ 2 * n + tenTo (p - x.places) := by
    exact_mod_cast hle
  have hge' : (2 : ℚ) * n ≤ 2 * (x.magnitude * tenTo (p - x.places)) + tenTo (p - x.places) := by
    exact_mod_cast hge
  have hdiff : (x.magnitude : ℚ) / tenTo x.places - n / tenTo p =
      (x.magnitude * tenTo (p - x.places) - n) / (tenTo x.places * tenTo (p - x.places)) := by
    rw [hsplit]
    push_cast
    field_simp
  have hhalf : (1 : ℚ) / 2 / tenTo x.places =
      tenTo (p - x.places) / 2 / (tenTo x.places * tenTo (p - x.places)) := by
    field_simp
  rw [hdiff, hhalf, abs_div, abs_of_pos (mul_pos hplaces hrest)]
  refine div_le_div_of_nonneg_right ?_ (mul_pos hplaces hrest).le
  rw [abs_le]
  constructor <;> linarith

/-- If all places were asked for, only zero is rounded to zero. -/
theorem Fits.magnitude_pos (h : x.Fits n p p) (hn : 0 < n) : 0 < x.magnitude := by
  have hmag := h.magnitude_eq
  by_cases hlt : x.places < p
  · -- One place more does not fit, so one place less leaves a tenth of what does not fit.
    have hfull := h.full hlt
    have hsplit : tenTo (p - x.places) = tenTo (p - (x.places + 1)) * 10 := by
      rw [← tenTo_succ]
      congr 1
      omega
    have hpos := tenTo_pos (p - (x.places + 1))
    have hmore := (two_mul_roundHalfEven_le n hpos).1
    have hless := (two_mul_roundHalfEven_le n (tenTo_pos (p - x.places))).2
    rw [← hmag, hsplit] at hless
    have hlarge : twoTo 96 * tenTo (p - (x.places + 1)) ≤
        roundHalfEven n (tenTo (p - (x.places + 1))) * tenTo (p - (x.places + 1)) :=
      Nat.mul_le_mul_right _ hfull
    have htwo : twoTo 96 = 79228162514264337593543950336 := by decide
    rw [htwo] at hlarge
    rcases Nat.eq_zero_or_pos x.magnitude with hzero | hpos
    · rw [hzero] at hless
      omega
    · exact hpos
  · have heq : x.places = p := by have := h.places_le; omega
    rw [hmag, heq, Nat.sub_self]
    have := (two_mul_roundHalfEven_le n (d := 1) (by decide)).2
    rw [tenTo_zero]
    omega

/-! ## Sums and differences -/

theorem Fits.near {c : Int} (hneg : z.negative = decide (c < 0)) (h : z.Fits c.natAbs p p) :
    |z.value - c / tenTo p| ≤ 1 / 2 / tenTo z.places := by
  have hnear := h.abs_sub_le (Nat.le_refl p)
  unfold value coefficient signed
  rw [hneg]
  by_cases hc : c < 0
  · have habs : (c : ℚ) = -(c.natAbs : ℚ) := by
      rw [← Int.cast_natCast, ← Int.cast_neg, show -(c.natAbs : Int) = c by omega]
    rw [decide_eq_true hc, if_pos rfl, Int.cast_neg, Int.cast_natCast, habs, neg_div, neg_div,
      ← neg_sub', abs_neg]
    exact hnear
  · have habs : (c : ℚ) = (c.natAbs : ℚ) := by
      rw [← Int.cast_natCast, show (c.natAbs : Int) = c by omega]
    rw [decide_eq_false hc, if_neg (by decide), Int.cast_natCast, habs]
    exact hnear

/-- A sum is off by less than one. -/
theorem abs_add_sub_le (h : x.add y = .ok z) : |z.value - (x.value + y.value)| ≤ 1 / 2 := by
  unfold add at h
  rcases sum?_cases x y with ⟨z', hz, hvalue⟩ | ⟨c, p, hp, hsum, hfit⟩
  · rw [hz] at h
    cases h
    rw [hvalue, sub_self, abs_zero]
    positivity
  · rw [hfit] at h
    cases hz : fit? (decide (c < 0)) c.natAbs p p with
    | none => rw [hz] at h; cases h
    | some z' =>
        rw [hz] at h
        cases h
        obtain ⟨hneg, hfits⟩ := fits_of_fit? hp hz
        have hone : (1 : ℚ) ≤ tenTo z.places := by exact_mod_cast tenTo_pos z.places
        rw [hsum]
        refine (Fits.near hneg hfits).trans ?_
        exact div_le_self (by norm_num) hone

theorem value_neg (x : Decimal) : x.neg.value = -x.value := by
  have hplaces : x.neg.places = x.places := by
    unfold neg
    split <;> rfl
  rw [value, value, coefficient_neg, hplaces, Int.cast_neg, neg_div]

/-- A positive difference stays positive. -/
theorem sub_pos (hlt : y.value < x.value) (h : x.sub y = .ok z) : 0 < z.value := by
  unfold sub at h
  have hpos : 0 < x.value + y.neg.value := by rw [value_neg]; linarith
  rcases sum?_cases x y.neg with ⟨z', hz, hvalue⟩ | ⟨c, p, hp, hsum, hfit⟩
  · rw [hz] at h
    cases h
    rw [hvalue]
    exact hpos
  · rw [hfit] at h
    cases hz : fit? (decide (c < 0)) c.natAbs p p with
    | none => rw [hz] at h; cases h
    | some z' =>
        rw [hz] at h
        cases h
        obtain ⟨hneg, hfits⟩ := fits_of_fit? hp hz
        rw [hsum] at hpos
        have hc : 0 < c := by
          have := (div_pos_iff_of_pos_right (tenTo_cast_pos p)).mp hpos
          exact_mod_cast this
        have hmag : 0 < z.magnitude := hfits.magnitude_pos (by omega)
        rw [decide_eq_false (by omega)] at hneg
        unfold value coefficient signed
        rw [hneg, if_neg (by decide)]
        exact div_pos (by exact_mod_cast hmag) (tenTo_cast_pos _)

/-! ## Differences -/

theorem roundHalfEven_le (hd : 0 < d) (h : n ≤ m * d) : roundHalfEven n d ≤ m := by
  have hle := (two_mul_roundHalfEven_le n hd).1
  have hdiv : n / d ≤ m := Nat.div_le_of_le_mul (by rwa [Nat.mul_comm])
  by_cases hlt : n / d < m
  · unfold roundHalfEven
    split <;> omega
  · have heq : n = m * d := by
      refine Nat.le_antisymm h ?_
      rw [← Nat.le_antisymm hdiv (Nat.not_lt.mp hlt)]
      exact Nat.div_mul_le_self n d
    rw [heq, roundHalfEven_mul m hd]

/-- What is no greater than a whole number that fits can be fitted. -/
theorem exists_fit? (negative : Bool) (h : n ≤ m * tenTo p) (hm : m < twoTo 96) (most : Nat) :
    ∃ x, fit? negative n p most = some x := by
  induction most with
  | zero =>
      have hle : roundHalfEven n (tenTo p) < twoTo 96 :=
        Nat.lt_of_le_of_lt (roundHalfEven_le (tenTo_pos p) h) hm
      exact ⟨_, dif_pos ⟨hle, Nat.zero_le _⟩⟩
  | succ most ih =>
      unfold fit?
      split
      · exact ⟨_, rfl⟩
      · exact ih

theorem value_le_magnitude (x : Decimal) : x.value ≤ x.magnitude := by
  have hone : (1 : ℚ) ≤ tenTo x.places := by exact_mod_cast tenTo_pos x.places
  have hcoefficient : (x.coefficient : ℚ) ≤ x.magnitude := by
    have hle := Int.le_natAbs (a := x.coefficient)
    rw [natAbs_coefficient] at hle
    exact_mod_cast hle
  refine (div_le_div_of_nonneg_right hcoefficient (by positivity)).trans ?_
  exact div_le_self (by positivity) hone

/-- The difference of two decimals that are not negative does not overflow. -/
theorem exists_sub (hx : 0 ≤ x.value) (hy : 0 ≤ y.value) : ∃ z, x.sub y = .ok z := by
  unfold sub
  rcases sum?_cases x y.neg with ⟨z, hz, -⟩ | ⟨c, p, -, hsum, hfit⟩
  · exact ⟨z, by rw [hz]; rfl⟩
  · have hbound : c.natAbs ≤ max x.magnitude y.magnitude * tenTo p := by
      rw [value_neg] at hsum
      have hpos := tenTo_cast_pos p
      have hxm := x.value_le_magnitude
      have hym := y.value_le_magnitude
      have hc : |(c : ℚ)| ≤ max x.magnitude y.magnitude * tenTo p := by
        rw [← div_le_iff₀ hpos]
        conv_lhs => rw [← abs_of_pos hpos, ← abs_div, ← hsum]
        rw [Nat.cast_max, abs_le]
        have := le_max_left (x.magnitude : ℚ) y.magnitude
        have := le_max_right (x.magnitude : ℚ) y.magnitude
        constructor <;> linarith
      have hc : (c.natAbs : ℚ) ≤ max x.magnitude y.magnitude * tenTo p := by
        rwa [Nat.cast_natAbs, Int.cast_abs]
      exact_mod_cast hc
    obtain ⟨z, hz⟩ :=
      exists_fit? (decide (c < 0)) hbound (Nat.max_lt.mpr ⟨x.magnitude_lt, y.magnitude_lt⟩) p
    exact ⟨z, by rw [hfit, hz]; rfl⟩

theorem sub_of_representable (h : Representable (x.value - y.value)) :
    ∃ z, x.sub y = .ok z ∧ z.value = x.value - y.value := by
  rw [sub_eq_add_neg, ← value_neg] at h ⊢
  obtain ⟨z, hz, hvalue⟩ := addsExactly_of_representable h
  unfold add at hz
  unfold sub
  cases hsum : sum? x y.neg with
  | none => rw [hsum] at hz; cases hz
  | some z' =>
      rw [hsum] at hz
      cases hz
      exact ⟨z, rfl, hvalue⟩

theorem value_clampNegative (x : Decimal) : x.clampNegative.value = max 0 x.value := by
  unfold clampNegative
  split
  · rename_i hlt
    rw [lt_iff, value_zero] at hlt
    rw [value_zero, max_eq_left hlt.le]
  · rename_i hle
    rw [lt_iff, value_zero, not_lt] at hle
    rw [max_eq_right hle]

/-! ## Sums that are not rounded -/

/-- The number has at most `k` decimal places. -/
def HasPlaces (k : Nat) (q : ℚ) : Prop := ∃ c : ℤ, q = c / tenTo k

theorem HasPlaces.zero (k : Nat) : HasPlaces k 0 := ⟨0, by rw [Int.cast_zero, zero_div]⟩

theorem HasPlaces.add {k : Nat} {q r : ℚ} (hq : HasPlaces k q) (hr : HasPlaces k r) :
    HasPlaces k (q + r) := by
  obtain ⟨c, rfl⟩ := hq
  obtain ⟨e, rfl⟩ := hr
  exact ⟨c + e, by rw [Int.cast_add, add_div]⟩

theorem representable_of_hasPlaces {q : ℚ} (h : HasPlaces 20 q) (hq : 0 ≤ q)
    (hlt : q < 100000001) : Representable q := by
  obtain ⟨c, rfl⟩ := h
  have hten : (tenTo 20 : ℚ) = 100000000000000000000 := by
    exact_mod_cast (by decide : tenTo 20 = 100000000000000000000)
  have hc : 0 ≤ c := by
    rw [le_div_iff₀ (tenTo_cast_pos 20), zero_mul] at hq
    exact_mod_cast hq
  rw [div_lt_iff₀ (tenTo_cast_pos 20), hten] at hlt
  have hlt : c < 100000001 * 100000000000000000000 := by exact_mod_cast hlt
  have htwo : twoTo 96 = 79228162514264337593543950336 := by decide
  refine ⟨{ magnitude := c.natAbs, places := 20, magnitude_lt := by omega }, ?_⟩
  have habs : (c.natAbs : ℤ) = c := Int.natAbs_of_nonneg hc
  simp [value, coefficient, signed, habs]

/-- A sum of so few places that is not large is exact. -/
theorem add_exact (hplaces : HasPlaces 20 (x.value + y.value)) (hsum : 0 ≤ x.value + y.value)
    (h : x.add y = .ok z) (hz : z.value ≤ 100000000) : z.value = x.value + y.value := by
  have hnear := (abs_le.mp (abs_add_sub_le h)).1
  have hlt : x.value + y.value < 100000001 := by linarith
  obtain ⟨z', hz', hvalue⟩ :=
    addsExactly_of_representable (representable_of_hasPlaces hplaces hsum hlt)
  rw [h] at hz'
  cases hz'
  exact hvalue

/-! ## Fees -/

/-- The unit of the last place kept of a product of an amount of one or more and a rate below one is
less than twice the amount, in units of the exact product. -/
theorem Fits.unit_lt {a r pa pr : Nat} (ha : tenTo pa ≤ a) (hr : r < tenTo pr) (hpr : pr ≤ 28)
    (hfits : x.Fits (a * r) (pa + pr) (min (pa + pr) 28)) :
    tenTo (pa + pr - x.places) < 2 * a := by
  have hplaces := hfits.places_le
  have hapos : 0 < a := Nat.lt_of_lt_of_le (tenTo_pos pa) ha
  by_cases hlt : x.places < min (pa + pr) 28
  · have hfull := hfits.full hlt
    have hpos := tenTo_pos (pa + pr - (x.places + 1))
    have hsplit : tenTo (pa + pr - x.places) = tenTo (pa + pr - (x.places + 1)) * 10 := by
      rw [← tenTo_succ]
      congr 1
      omega
    have hless := (two_mul_roundHalfEven_le (a * r) hpos).1
    have hlarge : twoTo 96 * tenTo (pa + pr - (x.places + 1)) ≤
        roundHalfEven (a * r) (tenTo (pa + pr - (x.places + 1))) *
          tenTo (pa + pr - (x.places + 1)) := Nat.mul_le_mul_right _ hfull
    have hrate : r ≤ 10000000000000000000000000000 := by
      have : tenTo pr ≤ tenTo 28 := Nat.pow_le_pow_right (by decide) hpr
      have : tenTo 28 = 10000000000000000000000000000 := by decide
      omega
    have hprod : a * r ≤ a * 10000000000000000000000000000 := Nat.mul_le_mul_left a hrate
    have htwo : twoTo 96 = 79228162514264337593543950336 := by decide
    rw [htwo] at hlarge
    omega
  · by_cases hall : pa + pr ≤ 28
    · have heq : pa + pr - x.places = 0 := by omega
      rw [heq, tenTo_zero]
      omega
    · have hle : tenTo (pa + pr - x.places) ≤ tenTo pa :=
        Nat.pow_le_pow_right (by decide) (by omega)
      omega

/-- The product of an amount of one or more and a rate below one is less than the amount, by more
than it is rounded up. -/
theorem Fits.lt_of_rate {a r pa pr : Nat} (ha : tenTo pa ≤ a) (hr : r < tenTo pr) (hpr : pr ≤ 28)
    (hfits : x.Fits (a * r) (pa + pr) (min (pa + pr) 28)) :
    x.magnitude * tenTo pa < a * tenTo x.places := by
  have hplaces := hfits.places_le
  have hunit := hfits.unit_lt ha hr hpr
  have hround := (two_mul_roundHalfEven_le (a * r) (tenTo_pos (pa + pr - x.places))).1
  rw [← hfits.magnitude_eq] at hround
  have hproduct : a * r + a ≤ a * tenTo pr := by
    rw [← Nat.mul_succ]
    exact Nat.mul_le_mul_left a hr
  have hlt : x.magnitude * tenTo (pa + pr - x.places) < a * tenTo pr := by omega
  have hsplit : tenTo pa * tenTo pr = tenTo x.places * tenTo (pa + pr - x.places) := by
    rw [← tenTo_add, ← tenTo_add]
    congr 1
    omega
  have hscaled := Nat.mul_lt_mul_of_pos_right hlt (tenTo_pos x.places)
  have hleft : x.magnitude * tenTo (pa + pr - x.places) * tenTo x.places =
      x.magnitude * tenTo pa * tenTo pr := by
    rw [Nat.mul_assoc, Nat.mul_comm (tenTo _) (tenTo x.places), ← hsplit, Nat.mul_assoc]
  have hright : a * tenTo pr * tenTo x.places = a * tenTo x.places * tenTo pr := Nat.mul_right_comm ..
  rw [hleft, hright] at hscaled
  exact Nat.lt_of_mul_lt_mul_right hscaled

theorem nonneg_of_not_lt_zero (h : ¬ x < zero) (hmag : x.magnitude ≠ 0) : x.negative = false := by
  have h : ¬ x.coefficient * tenTo zero.places < zero.coefficient * tenTo x.places := h
  cases hneg : x.negative with
  | false => rfl
  | true =>
      have hc : x.coefficient = -(x.magnitude : Int) := by simp [coefficient, signed, hneg]
      have hz : zero.coefficient = 0 := rfl
      have hp : (tenTo zero.places : Int) = 1 := rfl
      rw [hc, hz, hp] at h
      omega

theorem one_le_iff : one ≤ x ↔ x.negative = false ∧ tenTo x.places ≤ x.magnitude := by
  have hle : one ≤ x ↔ (tenTo x.places : Int) ≤ x.coefficient := by
    show one.coefficient * tenTo x.places ≤ x.coefficient * tenTo one.places ↔ _
    have hc : one.coefficient = 1 := rfl
    have hp : (tenTo one.places : Int) = 1 := rfl
    rw [hc, hp, Int.one_mul, Int.mul_one]
  have hpos := tenTo_pos x.places
  rw [hle]
  cases hneg : x.negative <;> simp [coefficient, signed, hneg]
  omega

theorem lt_one_iff (h : x.negative = false) : x < one ↔ x.magnitude < tenTo x.places := by
  show x.coefficient * tenTo one.places < one.coefficient * tenTo x.places ↔ _
  have hc : one.coefficient = 1 := rfl
  have hp : (tenTo one.places : Int) = 1 := rfl
  have hx : x.coefficient = x.magnitude := by simp [coefficient, signed, h]
  rw [hc, hp, hx, Int.one_mul, Int.mul_one]
  exact Int.ofNat_lt

theorem value_unsignZero (x : Decimal) : x.unsignZero.value = x.value := by
  have hplaces : x.unsignZero.places = x.places := by
    unfold unsignZero
    split <;> rfl
  rw [value, value, coefficient_unsignZero, hplaces]

/-- A product is zero, or fitted into the places of both sides, but for the sign of a zero. -/
theorem product?_cases (h : product? x y = some z) : z = zero ∨ y.magnitude ≠ 0 ∧
    ∃ z', fit? (x.negative != y.negative) (x.magnitude * y.magnitude) (x.places + y.places)
      (min (x.places + y.places) 28) = some z' ∧ z.value = z'.value := by
  unfold product? at h
  dsimp only at h
  split at h
  · cases h
    exact .inl rfl
  · rename_i hzero
    have hy : y.magnitude ≠ 0 := fun hy => hzero (.inr hy)
    split at h
    · split at h
      · cases h
        exact .inl rfl
      · obtain ⟨z', hz, rfl⟩ := Option.map_eq_some_iff.mp h
        exact .inr ⟨hy, z', hz, value_unsignZero z'⟩
    · exact .inr ⟨hy, z, h, rfl⟩

/-- The fee on an amount of one or more, at a rate that is not negative and below one, is less than
the amount. -/
theorem fee_lt {rate fee : Decimal} (hx : one ≤ x) (hrate : ¬ rate < zero) (hone : rate < one)
    (h : x.mul rate = .ok fee) : fee.value < x.value := by
  obtain ⟨hneg, hmag⟩ := one_le_iff.mp hx
  have hproduct : product? x rate = some fee := by
    unfold mul at h
    cases hp : product? x rate with
    | none => rw [hp] at h; cases h
    | some z => rw [hp] at h; cases h; rfl
  rcases product?_cases hproduct with rfl | ⟨hrmag, z, hz, hvalue⟩
  · have hpos : 0 < x.magnitude := Nat.lt_of_lt_of_le (tenTo_pos _) hmag
    rw [value_zero]
    unfold value coefficient signed
    rw [hneg, if_neg (by decide)]
    exact div_pos (by exact_mod_cast hpos) (tenTo_cast_pos _)
  · have hrneg := nonneg_of_not_lt_zero hrate hrmag
    obtain ⟨hzneg, hfits⟩ := fits_of_fit? (by omega) hz
    have hlt := hfits.lt_of_rate hmag ((lt_one_iff hrneg).mp hone) rate.places_le
    rw [hneg, hrneg] at hzneg
    rw [hvalue]
    unfold value coefficient signed
    rw [hneg, show z.negative = false from hzneg, if_neg (by decide), if_neg (by decide),
      div_lt_div_iff₀ (tenTo_cast_pos _) (tenTo_cast_pos _)]
    exact_mod_cast hlt

end Causeway.Decimal
