import Causeway.Calendar
import Mathlib.Data.Int.Init

/-!
# Months and their first days

`monthOf` and `firstDay` form a Galois connection: a month has begun by a day exactly when it is not
after the month of that day (`firstDay_le_iff`). So the month of a day is the one whose first day is
the last not after it.
-/

namespace Causeway.Calendar

/-! ## Years -/

theorem isLeap_iff (year : Int) :
    isLeap year ↔ year % 4 = 0 ∧ (year % 100 ≠ 0 ∨ year % 400 = 0) := by
  simp [isLeap]

def daysIn (leap : Bool) : Nat := 365 + if leap then 1 else 0

theorem yearStart_succ (year : Int) :
    yearStart (year + 1) = yearStart year + daysIn (isLeap year) := by
  have h := isLeap_iff year
  unfold yearStart daysIn
  split
  · rename_i hl
    rw [h] at hl
    omega
  · rename_i hl
    rw [h] at hl
    omega

/-- The year of a day has begun by then, and the next one has not. -/
theorem yearStart_yearOf (day : Int) :
    yearStart (yearOf day) ≤ day ∧ day < yearStart (yearOf day + 1) := by
  have hlow : yearStart (400 * (day + 719162) / 146097) ≤ day := by
    unfold yearStart
    omega
  have hhigh : day < yearStart (400 * (day + 719162) / 146097 + 1 + 1 + 1) := by
    unfold yearStart
    omega
  unfold yearOf
  dsimp only
  split
  · exact ⟨‹_›, hhigh⟩
  · split
    · rw [Int.add_sub_cancel]
      exact ⟨hlow, ‹_›⟩
    · omega

/-! ## Months -/

/-- The number of months of a year that have begun by the day `offset`, the first being 0. -/
def begun (leap : Bool) (offset : Nat) : Nat :=
  ((List.range 12).filter fun k => daysBefore leap k ≤ offset).length

theorem begun_table : ∀ leap : Bool, ∀ offset < daysIn leap,
    1 ≤ begun leap offset ∧ begun leap offset ≤ 12 ∧
      daysBefore leap (begun leap offset - 1) ≤ offset ∧
      offset < daysBefore leap (begun leap offset) := by
  decide +kernel

theorem daysBefore_lt : ∀ leap : Bool, ∀ k < 12, daysBefore leap k < daysBefore leap (k + 1) := by
  decide

/-- The months of a year, and the first of the next, which ends it. -/
theorem firstDay_year (year : Int) {k : Nat} (hk : k ≤ 12) :
    firstDay (12 * year + k) = yearStart year + daysBefore (isLeap year) k := by
  unfold firstDay
  by_cases h : k = 12
  · subst h
    have hdiv : (12 * year + (12 : Nat)) / 12 = year + 1 := by omega
    have hmod : ((12 * year + (12 : Nat)) % 12).toNat = 0 := by omega
    have hyear : ∀ leap : Bool, daysBefore leap 12 = daysIn leap := by decide
    have hfirst : ∀ leap : Bool, daysBefore leap 0 = 0 := by decide
    rw [hdiv, hmod, yearStart_succ, hyear, hfirst]
    omega
  · have hdiv : (12 * year + k) / 12 = year := by omega
    have hmod : ((12 * year + k) % 12).toNat = k := by omega
    rw [hdiv, hmod]

theorem firstDay_lt_succ (month : Int) : firstDay month < firstDay (month + 1) := by
  obtain ⟨year, k, hk, rfl⟩ : ∃ year : Int, ∃ k : Nat, k < 12 ∧ month = 12 * year + k :=
    ⟨month / 12, (month % 12).toNat, by omega, by omega⟩
  have hnext := firstDay_year year (k := k + 1) (by omega)
  have hlt := daysBefore_lt (isLeap year) k hk
  rw [firstDay_year year (by omega), Int.add_assoc, show (k : Int) + 1 = ((k + 1 : Nat) : Int) from rfl,
    hnext]
  omega

theorem firstDay_mono {m n : Int} (h : m ≤ n) : firstDay m ≤ firstDay n := by
  induction n, h using Int.leInduction with
  | base => exact Int.le_refl _
  | succ n _ ih => exact Int.le_trans ih (Int.le_of_lt (firstDay_lt_succ n))

theorem monthOf_eq (day : Int) :
    monthOf day = 12 * yearOf day +
      ((begun (isLeap (yearOf day)) (day - yearStart (yearOf day)).toNat : Int) - 1) := by
  obtain ⟨hlow, _⟩ := yearStart_yearOf day
  unfold monthOf begun
  have hk : ∀ k, (decide (yearStart (yearOf day) + daysBefore (isLeap (yearOf day)) k ≤ day)) =
      decide (daysBefore (isLeap (yearOf day)) k ≤ (day - yearStart (yearOf day)).toNat) := by
    intro k
    rw [decide_eq_decide]
    omega
  simp only [hk]

/-- The month of a day has begun by then, and the next one has not. -/
theorem firstDay_monthOf (day : Int) :
    firstDay (monthOf day) ≤ day ∧ day < firstDay (monthOf day + 1) := by
  obtain ⟨hlow, hhigh⟩ := yearStart_yearOf day
  rw [yearStart_succ] at hhigh
  rw [monthOf_eq]
  generalize yearOf day = year at hlow hhigh ⊢
  obtain ⟨offset, hoffset⟩ := Int.eq_ofNat_of_zero_le (Int.sub_nonneg_of_le hlow)
  rw [hoffset, Int.toNat_natCast]
  obtain ⟨h₁, h₁₂, hbegun, hnext⟩ := begun_table (isLeap year) offset (by omega)
  have hm := firstDay_year year (k := begun (isLeap year) offset - 1) (by omega)
  have hm' := firstDay_year year h₁₂
  rw [Int.natCast_sub h₁] at hm
  rw [show 12 * year + ((begun (isLeap year) offset : Int) - 1) + 1 =
    12 * year + begun (isLeap year) offset by omega, hm']
  rw [show ((begun (isLeap year) offset : Int) - 1) = begun (isLeap year) offset - (1 : Nat) from rfl,
    hm]
  omega

theorem firstDay_le_iff {month day : Int} : firstDay month ≤ day ↔ month ≤ monthOf day := by
  obtain ⟨hlow, hhigh⟩ := firstDay_monthOf day
  constructor
  · intro h
    rcases Int.lt_or_le (monthOf day) month with hlt | hle
    · have := firstDay_mono (Int.add_one_le_of_lt hlt)
      omega
    · exact hle
  · intro h
    exact Int.le_trans (firstDay_mono h) hlow

theorem monthOf_firstDay (month : Int) : monthOf (firstDay month) = month := by
  have hle : month ≤ monthOf (firstDay month) := firstDay_le_iff.mp (Int.le_refl _)
  have hlt : ¬ month + 1 ≤ monthOf (firstDay month) := by
    rw [← firstDay_le_iff]
    exact Int.not_le.mpr (firstDay_lt_succ month)
  omega

theorem monthOf_mono {d e : Int} (h : d ≤ e) : monthOf d ≤ monthOf e :=
  firstDay_le_iff.mp (Int.le_trans (firstDay_monthOf d).1 h)

end Causeway.Calendar
