import Causeway.Proofs.Decimal.Rounding

/-!
# Sums of what is not negative

Such a sum overflows when it is half a unit or more beyond the largest decimal (`add_eq_error_iff`).
Where places are lost the magnitude is at least a tenth of its range (`Fits.full_magnitude`), so a
rounded sum is never less than either side (`le_add`), and a small one is off by little
(`add_le_of_small`).
-/

namespace Causeway.Decimal

variable {x y z : Decimal} {n m d p k most : Nat} {negative : Bool}

/-! ## When nothing fits -/

theorem le_roundHalfEven (hd : 0 < d) (h : m * d ≤ n) : m ≤ roundHalfEven n d := by
  have hle : m ≤ n / d := (Nat.le_div_iff_mul_le hd).mpr h
  unfold roundHalfEven
  split <;> omega

/-- Half a unit below an even number is rounded up to it. -/
theorem le_roundHalfEven_iff (hd : 0 < d) (heven : m % 2 = 0) :
    m ≤ roundHalfEven n d ↔ 2 * (m * d) ≤ 2 * n + d := by
  constructor
  · intro h
    have hround := (two_mul_roundHalfEven_le n hd).1
    have := Nat.mul_le_mul_right d h
    omega
  · intro h
    have hsplit := Nat.div_add_mod n d
    have hlt := Nat.mod_lt n hd
    rw [Nat.mul_comm] at hsplit
    by_cases hle : m ≤ n / d
    · unfold roundHalfEven
      split <;> omega
    · have hquot : n / d + 1 = m := by
        by_contra hne
        have hless := Nat.mul_le_mul_right d (show n / d + 2 ≤ m by omega)
        rw [Nat.add_mul] at hless
        omega
      have hprod : m * d = n / d * d + d := by rw [← hquot, Nat.succ_mul]
      unfold roundHalfEven
      split <;> omega

/-- Nothing fits if the whole part does not. -/
theorem fit?_eq_none_iff (hmost : most ≤ 28) (hp : most ≤ p) :
    fit? negative n p most = none ↔ twoTo 96 ≤ roundHalfEven n (tenTo p) := by
  have hnone : ∀ {places}, places ≤ 28 → (rounded? negative n p places = none ↔
      twoTo 96 ≤ roundHalfEven n (tenTo (p - places))) := by
    intro places hplaces
    unfold rounded? ofParts?
    split <;> simp <;> omega
  induction most with
  | zero => exact hnone (Nat.zero_le _)
  | succ most ih =>
      have hless := ih (by omega) (by omega)
      cases hmore : rounded? negative n p (most + 1) with
      | none =>
          rw [fit?, hmore]
          exact hless
      | some x =>
          rw [fit?, hmore]
          refine iff_of_false (Option.some_ne_none x) fun hle => ?_
          have hlt : ¬ twoTo 96 ≤ roundHalfEven n (tenTo (p - (most + 1))) := by
            rw [← hnone hmost, hmore]
            exact Option.some_ne_none x
          -- A whole part that does not fit leaves no room for any place either.
          refine hlt (le_roundHalfEven (tenTo_pos _) ?_)
          rw [le_roundHalfEven_iff (tenTo_pos p) (by decide)] at hle
          have hsplit : tenTo p = 10 * (tenTo (p - (most + 1)) * tenTo most) := by
            rw [← tenTo_add, Nat.mul_comm, ← tenTo_succ]
            congr 1
            omega
          have htwo : twoTo 96 = 79228162514264337593543950336 := by decide
          have hone := Nat.mul_le_mul_left (tenTo (p - (most + 1))) (tenTo_pos most)
          rw [hsplit, htwo] at hle
          rw [htwo]
          omega

/-- Where places are lost, the magnitude fills a tenth of its range. -/
theorem Fits.full_magnitude (h : z.Fits n p most) (hp : most ≤ p) (hlt : z.places < most) :
    twoTo 96 ≤ 10 * z.magnitude := by
  have hsplit : tenTo (p - z.places) = tenTo (p - (z.places + 1)) * 10 := by
    rw [← tenTo_succ]
    congr 1
    omega
  have hpos := tenTo_pos (p - (z.places + 1))
  have hmore := (two_mul_roundHalfEven_le n hpos).1
  have hless := (two_mul_roundHalfEven_le n (tenTo_pos (p - z.places))).2
  have hlarge := Nat.mul_le_mul_right (tenTo (p - (z.places + 1))) (h.full hlt)
  have hten : z.magnitude * (tenTo (p - (z.places + 1)) * 10) =
      10 * z.magnitude * tenTo (p - (z.places + 1)) := by ring
  rw [← h.magnitude_eq, hsplit, hten] at hless
  have htwo : twoTo 96 = 79228162514264337593543950336 := by decide
  rw [htwo] at hlarge ⊢
  by_contra hsmall
  have := Nat.mul_le_mul_right (tenTo (p - (z.places + 1)))
    (show 10 * z.magnitude ≤ 79228162514264337593543950330 by omega)
  omega

/-- What is rounded does not fall below a decimal that it was not below. -/
theorem Fits.le_of_le (h : z.Fits n p p) (hlt : z.places < p) (hm : m < twoTo 96)
    (hle : m * tenTo p ≤ n * tenTo k) : m * tenTo z.places ≤ z.magnitude * tenTo k := by
  by_cases hk : k ≤ z.places
  · have hround : m * tenTo (z.places - k) ≤ z.magnitude := by
      rw [h.magnitude_eq]
      refine le_roundHalfEven (tenTo_pos _) ?_
      have hsplit : tenTo p = tenTo (z.places - k) * tenTo (p - z.places) * tenTo k := by
        rw [← tenTo_add, ← tenTo_add]
        congr 1
        omega
      rw [hsplit, ← Nat.mul_assoc, ← Nat.mul_assoc] at hle
      exact Nat.le_of_mul_le_mul_right hle (tenTo_pos k)
    have hsplit : tenTo z.places = tenTo (z.places - k) * tenTo k := by
      rw [← tenTo_add, Nat.sub_add_cancel hk]
    rw [hsplit, ← Nat.mul_assoc]
    exact Nat.mul_le_mul_right _ hround
  · have hfull := h.full_magnitude (Nat.le_refl p) hlt
    have hsplit : tenTo k = 10 * tenTo (k - (z.places + 1)) * tenTo z.places := by
      rw [Nat.mul_comm 10, ← tenTo_succ, ← tenTo_add]
      congr 1
      omega
    have hone := Nat.mul_le_mul_left (10 * z.magnitude) (tenTo_pos (k - (z.places + 1)))
    have hten : z.magnitude * (10 * tenTo (k - (z.places + 1))) =
        10 * z.magnitude * tenTo (k - (z.places + 1)) := by ring
    rw [hsplit, ← Nat.mul_assoc, hten]
    exact Nat.mul_le_mul_right _ (by omega)

/-! ## Sums -/

def largest : Decimal := { zero with magnitude := twoTo 96 - 1, magnitude_lt := by decide }

/-- Half a unit above the largest decimal. -/
def overflowAt : ℚ := twoTo 96 - 1 / 2

theorem value_lt_overflowAt (x : Decimal) : x.value < overflowAt := by
  have hlt : (x.magnitude : ℚ) + 1 ≤ twoTo 96 := by exact_mod_cast x.magnitude_lt
  have := x.value_le_magnitude
  unfold overflowAt
  linarith

theorem value_of_nonneg (h : 0 ≤ x.value) : x.value = (x.magnitude : ℚ) / tenTo x.places := by
  have hc : 0 ≤ x.coefficient := by
    rw [value, le_div_iff₀ (tenTo_cast_pos _), zero_mul] at h
    exact_mod_cast h
  have habs : (x.magnitude : Int) = x.coefficient := by
    rw [← natAbs_coefficient]
    exact Int.natAbs_of_nonneg hc
  rw [value, ← habs, Int.cast_natCast]

/-- A sum of what is not negative is kept as it is, or fitted into the places of both sides. -/
theorem sum?_cases_of_nonneg (hx : 0 ≤ x.value) (hy : 0 ≤ y.value) :
    (∃ z, sum? x y = some z ∧ z.value = x.value + y.value) ∨
      ∃ n p : Nat, p ≤ 28 ∧ x.value + y.value = (n : ℚ) / tenTo p ∧ sum? x y = fit? false n p p := by
  rcases sum?_cases x y with hexact | ⟨c, p, hp, hsum, hfit⟩
  · exact .inl hexact
  · have hc : 0 ≤ c := by
      have hnonneg : 0 ≤ (c : ℚ) / tenTo p := by rw [← hsum]; exact add_nonneg hx hy
      rw [le_div_iff₀ (tenTo_cast_pos p), zero_mul] at hnonneg
      exact_mod_cast hnonneg
    refine .inr ⟨c.natAbs, p, hp, ?_, ?_⟩
    · rw [hsum, Nat.cast_natAbs, abs_of_nonneg hc]
    · rw [hfit, decide_eq_false (by omega)]

theorem add_cases (x y : Decimal) : x.add y = .error .addition ∨ ∃ z, x.add y = .ok z := by
  unfold add
  cases sum? x y with
  | none => exact .inl rfl
  | some z => exact .inr ⟨z, rfl⟩

/-- The sum overflows when it is half a unit or more above the largest decimal. -/
theorem add_eq_error_iff (hx : 0 ≤ x.value) (hy : 0 ≤ y.value) :
    x.add y = .error .addition ↔ overflowAt ≤ x.value + y.value := by
  unfold add
  rcases sum?_cases_of_nonneg hx hy with ⟨z, hz, hvalue⟩ | ⟨n, p, hp, hsum, hfit⟩
  · rw [hz, ← hvalue]
    exact iff_of_false (fun h => nomatch h) (not_le.mpr z.value_lt_overflowAt)
  · have hnone : orOverflow .addition (sum? x y) = .error .addition ↔ sum? x y = none := by
      cases sum? x y <;> simp [orOverflow]
    rw [hnone, hfit, fit?_eq_none_iff hp (Nat.le_refl p),
      le_roundHalfEven_iff (tenTo_pos p) (by decide), hsum, le_div_iff₀ (tenTo_cast_pos p)]
    unfold overflowAt
    rw [← Nat.cast_le (α := ℚ)]
    push_cast
    constructor <;> intro h <;> linarith

/-- A sum of what is not negative is exact or has lost places. -/
theorem add_cases_of_nonneg (hx : 0 ≤ x.value) (hy : 0 ≤ y.value) (h : x.add y = .ok z) :
    z.value = x.value + y.value ∨ ∃ n p : Nat, x.value + y.value = (n : ℚ) / tenTo p ∧
      z.value = (z.magnitude : ℚ) / tenTo z.places ∧ z.Fits n p p ∧ z.places < p := by
  unfold add at h
  rcases sum?_cases_of_nonneg hx hy with ⟨z', hz, hvalue⟩ | ⟨n, p, hp, hsum, hfit⟩
  · rw [hz] at h
    cases h
    exact .inl hvalue
  · cases hz : fit? false n p p with
    | none => rw [hfit, hz] at h; cases h
    | some z' =>
        rw [hfit, hz] at h
        cases h
        obtain ⟨hneg, hfits⟩ := fits_of_fit? hp hz
        have hvalue : z.value = (z.magnitude : ℚ) / tenTo z.places := by
          simp [value, coefficient, signed, hneg]
        rcases Nat.lt_or_eq_of_le hfits.places_le with hlt | heq
        · exact .inr ⟨n, p, hsum, hvalue, hfits, hlt⟩
        · have hmag := hfits.magnitude_eq
          have hwhole := roundHalfEven_mul n Nat.one_pos
          rw [heq, Nat.sub_self, tenTo_zero] at hmag
          rw [Nat.mul_one, ← hmag] at hwhole
          exact .inl (by rw [hvalue, hsum, heq, hwhole])

/-- A sum is not less than either side, however it is rounded. -/
theorem le_add (hx : 0 ≤ x.value) (hy : 0 ≤ y.value) (h : x.add y = .ok z) :
    y.value ≤ z.value := by
  rcases add_cases_of_nonneg hx hy h with hexact | ⟨n, p, hsum, hvalue, hfits, hlt⟩
  · linarith
  · have hparts := value_of_nonneg hy
    have hle : y.value ≤ (n : ℚ) / tenTo p := by linarith
    rw [hparts, div_le_div_iff₀ (tenTo_cast_pos _) (tenTo_cast_pos _)] at hle
    rw [hvalue, hparts, div_le_div_iff₀ (tenTo_cast_pos _) (tenTo_cast_pos _)]
    exact_mod_cast hfits.le_of_le hlt y.magnitude_lt (by exact_mod_cast hle)

theorem add_nonneg_of_ok (hx : 0 ≤ x.value) (hy : 0 ≤ y.value) (h : x.add y = .ok z) :
    0 ≤ z.value :=
  hy.trans (le_add hx hy h)

/-- A sum that leaves room for more than `k` places is off by half a unit of the next at most. -/
theorem add_le_of_small (hx : 0 ≤ x.value) (hy : 0 ≤ y.value) (h : x.add y = .ok z)
    (hsmall : 10 * (z.value * tenTo k) < twoTo 96) :
    x.value + y.value ≤ z.value + 1 / 2 / tenTo (k + 1) := by
  have hpos := tenTo_cast_pos (k + 1)
  rcases add_cases_of_nonneg hx hy h with hexact | ⟨n, p, hsum, hvalue, hfits, hlt⟩
  · rw [hexact]
    exact le_add_of_nonneg_right (by positivity)
  · have hplaces : k < z.places := by
      have hfull : (twoTo 96 : ℚ) ≤ 10 * z.magnitude := by
        exact_mod_cast hfits.full_magnitude (Nat.le_refl p) hlt
      have hroom : z.value * tenTo k < z.magnitude := by linarith
      rw [hvalue, div_mul_eq_mul_div, div_lt_iff₀ (tenTo_cast_pos _)] at hroom
      have hroom : z.magnitude * tenTo k < z.magnitude * tenTo z.places := by exact_mod_cast hroom
      exact (Nat.pow_lt_pow_iff_right (by decide)).mp (Nat.lt_of_mul_lt_mul_left hroom)
    have hnear := (abs_le.mp (hfits.abs_sub_le (Nat.le_refl p))).1
    rw [← hvalue, ← hsum] at hnear
    have hunit : (1 : ℚ) / 2 / tenTo z.places ≤ 1 / 2 / tenTo (k + 1) :=
      div_le_div_of_nonneg_left (by norm_num) hpos
        (by exact_mod_cast Nat.pow_le_pow_right (by decide) hplaces)
    linarith

end Causeway.Decimal
