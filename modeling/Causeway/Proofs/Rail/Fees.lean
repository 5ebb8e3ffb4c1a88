import Causeway.Proofs.Decimal.Sums
import Causeway.Rail.Sandbox
import Causeway.Rail.Terms

/-!
# Fees and what they leave

A fee is a rounded product and what it leaves is a rounded difference. Neither is rounded above the
amount: the amount is a decimal itself, and where places are lost the next one would have to make
room for a magnitude beyond that of the amount (`Fits.le_of_value_le`). So a fee at a rate from zero
up to one takes no more than the amount (`fees_within_amount`).
-/

namespace Causeway

namespace Decimal

variable {x y z rate : Decimal} {n m p k most : Nat}

/-! ## What is not rounded up too far -/

/-- What loses places has no fewer of them than a decimal that it is not above. -/
theorem Fits.le_places (h : z.Fits n p most) (hmost : most ≤ p) (hlost : z.places < most)
    (hm : m < twoTo 96) (hle : n * tenTo k ≤ m * tenTo p) : k ≤ z.places := by
  by_contra hless
  have hsplit : tenTo p = tenTo (p - (z.places + 1)) * tenTo (z.places + 1) := by
    rw [← tenTo_add, Nat.sub_add_cancel (by omega)]
  have hmono : tenTo (z.places + 1) ≤ tenTo k := Nat.pow_le_pow_right (by decide) (by omega)
  have hn : n ≤ m * tenTo (p - (z.places + 1)) := by
    refine Nat.le_of_mul_le_mul_right (hle.trans ?_) (tenTo_pos k)
    rw [hsplit, ← Nat.mul_assoc]
    exact Nat.mul_le_mul_left _ hmono
  have hround := roundHalfEven_le (tenTo_pos _) hn
  have hfull := h.full hlost
  omega

/-- What is rounded does not rise above a decimal that it was not above. -/
theorem Fits.le_of_value_le (h : z.Fits n p most) (hmost : most ≤ p) (hk : k ≤ most ∨ most = p)
    (hm : m < twoTo 96) (hle : n * tenTo k ≤ m * tenTo p) :
    z.magnitude * tenTo k ≤ m * tenTo z.places := by
  have hkept : k ≤ z.places → z.magnitude * tenTo k ≤ m * tenTo z.places := by
    intro hkz
    have hplaces := h.places_le
    have hn : n ≤ m * tenTo (z.places - k) * tenTo (p - z.places) := by
      refine Nat.le_of_mul_le_mul_right (hle.trans (Nat.le_of_eq ?_)) (tenTo_pos k)
      rw [Nat.mul_assoc, Nat.mul_assoc, ← tenTo_add, ← tenTo_add]
      congr 2
      omega
    have hround := roundHalfEven_le (tenTo_pos _) hn
    rw [← h.magnitude_eq] at hround
    refine (Nat.mul_le_mul_right _ hround).trans (Nat.le_of_eq ?_)
    rw [Nat.mul_assoc, ← tenTo_add, Nat.sub_add_cancel hkz]
  rcases Nat.lt_or_eq_of_le h.places_le with hlost | hall
  · exact hkept (h.le_places hmost hlost hm hle)
  · rcases hk with hk | hk
    · exact hkept (hall ▸ hk)
    · have hmag := h.magnitude_eq
      have hwhole := roundHalfEven_mul n Nat.one_pos
      rw [hall, hk, Nat.sub_self, tenTo_zero] at hmag
      rw [Nat.mul_one, ← hmag] at hwhole
      rw [hwhole, hall, hk]
      exact hle

theorem negative_eq_false_of_pos (h : 0 < x.value) : x.negative = false ∧ x.magnitude ≠ 0 := by
  have hmag : x.magnitude ≠ 0 := fun hzero => h.ne' (value_of_magnitude_eq_zero hzero)
  refine ⟨nonneg_of_not_lt_zero (fun hlt => ?_) hmag, hmag⟩
  rw [lt_iff, value_zero] at hlt
  exact absurd h hlt.le.not_gt

/-- A decimal that is not negative and has been fitted from a value not above `x` is not above
`x`. -/
theorem Fits.value_le (h : z.Fits n p most) (hneg : z.negative = false) (hmost : most ≤ p)
    (hk : x.places ≤ most ∨ most = p) (hx : 0 ≤ x.value)
    (hle : n * tenTo x.places ≤ x.magnitude * tenTo p) : 0 ≤ z.value ∧ z.value ≤ x.value := by
  have hvalue : z.value = (z.magnitude : ℚ) / tenTo z.places := by
    simp [value, coefficient, signed, hneg]
  rw [hvalue, value_of_nonneg hx, div_le_div_iff₀ (tenTo_cast_pos _) (tenTo_cast_pos _)]
  exact ⟨by positivity, by exact_mod_cast h.le_of_value_le hmost hk x.magnitude_lt hle⟩

/-- The product with a rate from zero up to one does not overflow. -/
theorem exists_mul (x : Decimal) (hrate : ¬ rate < zero) (hone : rate < one) :
    ∃ z, x.mul rate = .ok z := by
  have hless : rate.magnitude ≤ tenTo rate.places := by
    by_cases hmag : rate.magnitude = 0
    · rw [hmag]
      exact Nat.zero_le _
    · exact ((lt_one_iff (nonneg_of_not_lt_zero hrate hmag)).mp hone).le
  have hle : x.magnitude * rate.magnitude ≤ x.magnitude * tenTo (x.places + rate.places) :=
    Nat.mul_le_mul_left _
      (hless.trans (Nat.pow_le_pow_right (by decide) (Nat.le_add_left _ _)))
  obtain ⟨z, hz⟩ := exists_fit? (x.negative != rate.negative) hle x.magnitude_lt
    (min (x.places + rate.places) 28)
  unfold mul product?
  dsimp only
  rw [hz]
  split
  · exact ⟨zero, rfl⟩
  · split
    · split
      · exact ⟨zero, rfl⟩
      · exact ⟨_, rfl⟩
    · exact ⟨z, rfl⟩

theorem mul_le (hx : 0 < x.value) (hrate : ¬ rate < zero) (hone : rate < one)
    (h : x.mul rate = .ok z) : 0 ≤ z.value ∧ z.value ≤ x.value := by
  obtain ⟨hneg, -⟩ := negative_eq_false_of_pos hx
  have hproduct : product? x rate = some z := by
    unfold mul at h
    cases hp : product? x rate with
    | none => rw [hp] at h; cases h
    | some z => rw [hp] at h; cases h; rfl
  rcases product?_cases hproduct with rfl | ⟨hmag, z', hz, hvalue⟩
  · rw [value_zero]
    exact ⟨le_refl 0, hx.le⟩
  · have hrneg := nonneg_of_not_lt_zero hrate hmag
    obtain ⟨hzneg, hfits⟩ := fits_of_fit? (by omega) hz
    rw [hneg, hrneg] at hzneg
    rw [hvalue]
    refine hfits.value_le hzneg (Nat.min_le_left _ _) (.inl (by have := x.places_le; omega)) hx.le ?_
    rw [Nat.mul_assoc, Nat.add_comm, tenTo_add]
    exact Nat.mul_le_mul_left _
      (Nat.mul_le_mul_right _ ((lt_one_iff hrneg).mp hone).le)

theorem sub_le (hy : 0 ≤ y.value) (hle : y.value ≤ x.value) (h : x.sub y = .ok z) :
    0 ≤ z.value ∧ z.value ≤ x.value := by
  unfold sub at h
  have hdiff : x.value + y.neg.value = x.value - y.value := by rw [value_neg, sub_eq_add_neg]
  rcases sum?_cases x y.neg with ⟨z', hz, hvalue⟩ | ⟨c, p, hp, hsum, hfit⟩
  · rw [hz] at h
    cases h
    rw [hvalue, hdiff]
    exact ⟨by linarith, by linarith⟩
  · rw [hdiff] at hsum
    have hpos := tenTo_cast_pos p
    have hx : 0 ≤ x.value := hy.trans hle
    have hc : 0 ≤ c := by
      have hnonneg : 0 ≤ (c : ℚ) / tenTo p := by rw [← hsum]; linarith
      rw [le_div_iff₀ hpos, zero_mul] at hnonneg
      exact_mod_cast hnonneg
    rw [hfit, decide_eq_false (Int.not_lt.mpr hc)] at h
    cases hz : fit? false c.natAbs p p with
    | none => rw [hz] at h; cases h
    | some z' =>
        rw [hz] at h
        cases h
        obtain ⟨hneg, hfits⟩ := fits_of_fit? hp hz
        refine hfits.value_le hneg (Nat.le_refl p) (.inr rfl) hx ?_
        have hless : (c : ℚ) / tenTo p ≤ x.value := by rw [← hsum]; linarith
        rw [value_of_nonneg hx, div_le_div_iff₀ hpos (tenTo_cast_pos _)] at hless
        have habs : (c.natAbs : ℤ) = c := Int.natAbs_of_nonneg hc
        have hless : c * tenTo x.places ≤ x.magnitude * tenTo p := by exact_mod_cast hless
        rw [← habs] at hless
        exact_mod_cast hless

end Decimal

namespace Rail

open Conversion (Direction)

variable {amount rate fee output : Decimal}

/-- An amount is parted into a fee and an output, each no more than the amount. Of an amount of one
or more some of it is left. -/
structure Parts (amount fee output : Decimal) : Prop where
  fee_nonneg : .zero ≤ fee
  fee_le : fee ≤ amount
  output_nonneg : .zero ≤ output
  output_le : output ≤ amount
  of_one_le : .one ≤ amount → fee < amount ∧ .zero < output

theorem exists_parts (hamount : .zero < amount) (hrate : .zero ≤ rate) (hone : rate < .one) :
    ∃ fee output, amount.mul rate = .ok fee ∧ amount.sub fee = .ok output ∧
      Parts amount fee output := by
  have hpos : 0 < amount.value := by rwa [Decimal.lt_iff, Decimal.value_zero] at hamount
  have hnonneg : ¬ rate < .zero := by
    rw [Decimal.lt_iff, not_lt]
    exact Decimal.le_iff.mp hrate
  obtain ⟨fee, hfee⟩ := Decimal.exists_mul amount hnonneg hone
  obtain ⟨hfee0, hfeele⟩ := Decimal.mul_le hpos hnonneg hone hfee
  obtain ⟨output, hout⟩ := Decimal.exists_sub hpos.le hfee0
  obtain ⟨hout0, houtle⟩ := Decimal.sub_le hfee0 hfeele hout
  refine ⟨fee, output, hfee, hout, ?_⟩
  refine ⟨?_, Decimal.le_iff.mpr hfeele, ?_, Decimal.le_iff.mpr houtle, fun hlarge => ?_⟩
  · rwa [Decimal.le_iff, Decimal.value_zero]
  · rwa [Decimal.le_iff, Decimal.value_zero]
  · have hlt := Decimal.fee_lt hlarge hnonneg hone hfee
    have hleft := Decimal.sub_pos hlt hout
    rw [Decimal.lt_iff, Decimal.lt_iff, Decimal.value_zero]
    exact ⟨hlt, hleft⟩

/-! ## Estimates and settlements -/

theorem estimateFees_of_mul {p : ProviderSettings} {d : Direction} (hamount : .zero < amount)
    (hd : p.supports d) (hfee : amount.mul p.feeRate = .ok fee) (hout : amount.sub fee = .ok output) :
    p.estimateFees amount d = .ok (.ok ⟨fee, none, some fee, .one, output⟩) := by
  have hpos : ¬ amount ≤ .zero := by
    rw [Decimal.le_iff, not_le]
    exact Decimal.lt_iff.mp hamount
  have hdirection : p.checkDirection d = .ok () := if_pos hd
  unfold ProviderSettings.estimateFees
  rw [if_neg hpos, hdirection]
  simp only [hfee, hout, bind, Except.bind, pure, Except.pure]

theorem complete?_of_mul {s : Sandbox} {id : String} {t : Transfer} (ht : s.find? id = some t)
    (hsource : t.source.amount = some amount) (hfee : amount.mul s.feeRate = .ok fee)
    (hout : amount.sub fee = .ok output) :
    ∃ t' s', s.complete? id = some (.ok t', s') ∧ t'.state = .completed ∧
      t'.source.fee = some fee ∧ t'.destination.amount = some output := by
  unfold Sandbox.complete?
  rw [ht, Option.map_some]
  simp only [Sandbox.settled, hsource, Option.getD_some, hfee, hout, bind, Except.bind, pure,
    Except.pure]
  exact ⟨_, _, rfl, rfl, rfl, rfl⟩

/-- On a positive amount, at a rate from zero up to one, the estimate and the settlement of a
transfer do not overflow. Both take the same fee and leave the same output, neither negative nor
more than the amount; of an amount of one or more the fee leaves something. -/
theorem fees_within_amount (hamount : .zero < amount) (hrate : .zero ≤ rate) (hone : rate < .one) :
    ∃ fee output, Parts amount fee output ∧
      (∀ (p : ProviderSettings) (d : Direction), p.feeRate = rate → p.supports d →
        p.estimateFees amount d = .ok (.ok ⟨fee, none, some fee, .one, output⟩)) ∧
      ∀ (s : Sandbox) id t, s.feeRate = rate → s.find? id = some t →
        t.source.amount = some amount →
          ∃ t' s', s.complete? id = some (.ok t', s') ∧ t'.state = .completed ∧
            t'.source.fee = some fee ∧ t'.destination.amount = some output := by
  obtain ⟨fee, output, hfee, hout, hparts⟩ := exists_parts hamount hrate hone
  refine ⟨fee, output, hparts, ?_, ?_⟩
  · rintro p d rfl hd
    exact estimateFees_of_mul hamount hd hfee hout
  · rintro s id t rfl ht hsource
    exact complete?_of_mul ht hsource hfee hout

namespace Sample

/-- The largest amount of 28 places. -/
def finest : Decimal := { Decimal.largest with places := 28, places_le := by decide }

/-- The largest rate below one. -/
def dearest : Decimal := { magnitude := tenTo 28 - 1, places := 28 }

def provider : ProviderSettings := { feeRate := dearest }

/-- The exact fee has 56 places. -/
theorem finest_leaves_output :
    Decimal.zero < finest ∧ Decimal.zero ≤ dearest ∧ dearest < Decimal.one ∧
      ∃ fee output, Decimal.zero ≤ fee ∧ fee < finest ∧ Decimal.zero < output ∧
        output ≤ finest ∧
        provider.estimateFees finest .stablecoinToFiat =
          .ok (.ok ⟨fee, none, some fee, .one, output⟩) := by
  have hamount : Decimal.zero < finest := by decide +kernel
  have hrate : Decimal.zero ≤ dearest := by decide +kernel
  have hone : dearest < Decimal.one := by decide +kernel
  have hlarge : Decimal.one ≤ finest := by decide +kernel
  obtain ⟨fee, output, hparts, hestimate, -⟩ := fees_within_amount hamount hrate hone
  obtain ⟨hlt, hleft⟩ := hparts.of_one_le hlarge
  exact ⟨hamount, hrate, hone, fee, output, hparts.fee_nonneg, hlt, hleft, hparts.output_le,
    hestimate provider _ rfl rfl⟩

end Sample

end Rail

end Causeway
