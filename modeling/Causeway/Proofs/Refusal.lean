import Causeway.Rail.Terms

/-!
# What the provider's checks refuse

A check refuses an order for what it asks, so another attempt would be refused as well
(`Refusal.isRetryable`).
-/

namespace Causeway

inductive Failure.Refusal : Failure → Prop where
  | invalid (cause : Invalid) : Refusal (.invalid cause)
  | unsupported (cause : ProviderFault) : Refusal (.provider false cause)

variable {p : ProviderSettings} {r : Conversion.Request} {direction : Conversion.Direction}
  {amount : Decimal} {e : Failure}

theorem Failure.Refusal.isRetryable (h : e.Refusal) : e.isRetryable = false := by
  cases h <;> rfl

theorem Failure.Refusal.ne_cancelled (h : e.Refusal) : e ≠ .cancelled := by
  cases h <;> simp

theorem Conversion.Request.refusal_of_validate (h : r.validate = .error e) : e.Refusal := by
  unfold Request.validate at h
  split at h
  · cases h; constructor
  · split at h
    · cases h; constructor
    · split at h
      · cases h; constructor
      · cases h

namespace ProviderSettings

theorem refusal_of_checkDirection (h : p.checkDirection direction = .error e) : e.Refusal := by
  unfold checkDirection at h
  split at h
  · cases h
  · cases h; constructor

theorem refusal_of_validateAmount (h : p.validateAmount amount direction = .error e) :
    e.Refusal := by
  unfold validateAmount at h
  cases hd : p.checkDirection direction with
  | error e' =>
      rw [hd] at h
      cases h
      exact refusal_of_checkDirection hd
  | ok u =>
      rw [hd] at h
      by_cases hmin : amount < p.minAmount
      · simp only [hmin, if_true] at h
        cases h; constructor
      · simp only [hmin, if_false] at h
        cases hm : p.maxAmount with
        | none => simp only [hm] at h; cases h
        | some m =>
            by_cases hmax : m < amount
            · simp only [hm, hmax, if_true] at h
              cases h; constructor
            · simp only [hm, hmax, if_false] at h
              cases h

theorem refusal_of_validate (h : p.validate r = .error e) : e.Refusal := by
  unfold validate at h
  cases hr : r.validate with
  | error e' =>
      rw [hr] at h
      cases h
      exact r.refusal_of_validate hr
  | ok u =>
      rw [hr] at h
      exact refusal_of_validateAmount h

theorem validateAmount_eq_ok_iff : p.validateAmount amount direction = .ok () ↔
    p.supports direction ∧ ¬ amount < p.minAmount ∧ ∀ m, p.maxAmount = some m → ¬ m < amount := by
  unfold validateAmount checkDirection
  by_cases hs : p.supports direction
  · by_cases hmin : amount < p.minAmount
    · simp [hs, hmin, bind, Except.bind, throw, throwThe, MonadExceptOf.throw]
    · cases hm : p.maxAmount with
      | none => simp [hs, hmin, bind, Except.bind, pure, Except.pure]
      | some m =>
          by_cases hmax : m < amount <;>
            simp [hs, hmin, hmax, bind, Except.bind, pure, Except.pure, throw, throwThe,
              MonadExceptOf.throw]
  · simp [hs, bind, Except.bind]

/-- A request passes the provider's checks if it has a key, two different currencies, a direction
that is supported, and an amount in the provider's range. -/
theorem validate_eq_ok_iff : p.validate r = .ok () ↔
    Text.isBlankText r.key = false ∧ r.currency ≠ "" ∧ r.destinationCurrency ≠ "" ∧
      Text.equalIgnoringAsciiCase r.currency r.destinationCurrency = false ∧
      p.supports r.direction ∧ ¬ r.amount.value < p.minAmount ∧
      ∀ m, p.maxAmount = some m → ¬ m < r.amount.value := by
  rw [← validateAmount_eq_ok_iff]
  unfold validate Conversion.Request.validate
  by_cases hkey : Text.isBlankText r.key
  · simp [hkey, bind, Except.bind]
  · by_cases hempty : r.currency = "" ∨ r.destinationCurrency = ""
    · rcases hempty with h | h <;> simp [hkey, h, bind, Except.bind]
    · obtain ⟨hsource, hdestination⟩ := not_or.mp hempty
      by_cases hsame : Text.equalIgnoringAsciiCase r.currency r.destinationCurrency
      · simp [hkey, hsource, hdestination, hsame, bind, Except.bind]
      · simp [hkey, hsource, hdestination, hsame, bind, Except.bind]

end ProviderSettings

end Causeway
