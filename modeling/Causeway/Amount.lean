import Causeway.Decimal.Basic

/-!
# Amounts

An amount is a decimal greater than zero.
-/

namespace Causeway

structure Amount where
  value : Decimal
  pos : Decimal.zero < value
deriving DecidableEq

def Amount.ofDecimal? (x : Decimal) : Option Amount :=
  if h : Decimal.zero < x then some ⟨x, h⟩ else none

theorem Amount.ofDecimal?_eq_some_iff {x : Decimal} {a : Amount} :
    ofDecimal? x = some a ↔ a.value = x := by
  unfold ofDecimal?
  constructor
  · intro h
    split at h
    · cases h
      rfl
    · cases h
  · rintro rfl
    exact dif_pos a.pos

end Causeway
