import Causeway.Proofs.Calendar

/-!
# Dates

A date has a year, a month and a day of the month, and the lengths of the months alone say which
date follows. Counting from 1970-01-01 with that step, forth and back, gives each day the date that
`monthOf` and `firstDay` give it (`falls_iff`).
-/

namespace Causeway.Calendar

/-! ## Stepping from date to date -/

def lengthOf (leap : Bool) : Nat → Nat
  | 2 => if leap then 29 else 28
  | 4 => 30
  | 6 => 30
  | 9 => 30
  | 11 => 30
  | _ => 31

theorem one_le_lengthOf (leap : Bool) (month : Nat) : 1 ≤ lengthOf leap month := by
  unfold lengthOf
  split <;> cases leap <;> decide

theorem lengthOf_le (leap : Bool) (month : Nat) : lengthOf leap month ≤ 31 := by
  unfold lengthOf
  split <;> cases leap <;> decide

@[ext]
structure Date where
  year : Int
  month : Nat
  day : Nat
  month_pos : 1 ≤ month
  month_le : month ≤ 12
  day_pos : 1 ≤ day
  day_le : day ≤ lengthOf (isLeap year) month
deriving DecidableEq

variable {d e : Date} {day : Int}

namespace Date

def length (d : Date) : Nat := lengthOf (isLeap d.year) d.month

/-- The first day of the month after that of `d`. -/
def monthAfter (d : Date) : Date :=
  if h : d.month < 12 then
    { year := d.year, month := d.month + 1, day := 1, month_pos := by omega, month_le := by omega
      day_pos := Nat.le_refl 1, day_le := one_le_lengthOf _ _ }
  else
    { year := d.year + 1, month := 1, day := 1, month_pos := Nat.le_refl 1, month_le := by omega
      day_pos := Nat.le_refl 1, day_le := one_le_lengthOf _ _ }

def next (d : Date) : Date :=
  if h : d.day < d.length then { d with day := d.day + 1, day_pos := by omega, day_le := h }
  else d.monthAfter

theorem day_monthAfter (d : Date) : d.monthAfter.day = 1 := by
  unfold monthAfter
  split <;> rfl

/-- The months are counted on, twelve a year. -/
theorem count_monthAfter (d : Date) :
    12 * d.monthAfter.year + d.monthAfter.month = 12 * d.year + d.month + 1 := by
  have hd := d.month_le
  unfold monthAfter
  split
  · dsimp only
    omega
  · dsimp only
    omega

theorem month_eq_of_count (h : 12 * d.year + (d.month : Int) = 12 * e.year + e.month) :
    d.year = e.year ∧ d.month = e.month := by
  have := d.month_pos
  have := d.month_le
  have := e.month_pos
  have := e.month_le
  omega

theorem next_of_lt (h : d.day < d.length) :
    d.next.year = d.year ∧ d.next.month = d.month ∧ d.next.day = d.day + 1 := by
  rw [next, dif_pos h]
  exact ⟨rfl, rfl, rfl⟩

theorem next_of_end (h : ¬ d.day < d.length) : d.next = d.monthAfter := dif_neg h

theorem day_of_end (h : ¬ d.day < d.length) : d.day = d.length :=
  Nat.le_antisymm d.day_le (Nat.not_lt.mp h)

theorem next_ne_monthAfter (h : d.day < d.length) : d.next ≠ e.monthAfter := by
  intro heq
  have hday := (next_of_lt h).2.2
  have := d.day_pos
  rw [heq, day_monthAfter] at hday
  omega

/-- No date follows two. -/
theorem next_inj (h : d.next = e.next) : d = e := by
  by_cases hd : d.day < d.length
  · by_cases he : e.day < e.length
    · obtain ⟨hyear, hmonth, hday⟩ := next_of_lt hd
      obtain ⟨hyear', hmonth', hday'⟩ := next_of_lt he
      rw [h] at hyear hmonth hday
      exact Date.ext (hyear.symm.trans hyear') (hmonth.symm.trans hmonth') (by omega)
    · exact absurd (h.trans (next_of_end he)) (next_ne_monthAfter hd)
  · by_cases he : e.day < e.length
    · exact absurd (h.symm.trans (next_of_end hd)) (next_ne_monthAfter he)
    · rw [next_of_end hd, next_of_end he] at h
      have hcount := d.count_monthAfter
      rw [h, e.count_monthAfter] at hcount
      obtain ⟨hyear, hmonth⟩ := month_eq_of_count (d := d) (e := e) (by omega)
      have hlength : d.length = e.length := by rw [length, length, hyear, hmonth]
      exact Date.ext hyear hmonth ((day_of_end hd).trans (hlength.trans (day_of_end he).symm))

end Date

/-! ## The dates of days -/

theorem daysBefore_succ : ∀ leap : Bool, ∀ k < 12,
    daysBefore leap (k + 1) = daysBefore leap k + lengthOf leap (k + 1) := by
  decide

theorem firstDay_succ (month : Int) :
    firstDay (month + 1) =
      firstDay month + lengthOf (isLeap (month / 12)) ((month % 12).toNat + 1) := by
  obtain ⟨year, k, hk, rfl⟩ : ∃ year : Int, ∃ k : Nat, k < 12 ∧ month = 12 * year + k :=
    ⟨month / 12, (month % 12).toNat, by omega, by omega⟩
  have hyear : (12 * year + k : Int) / 12 = year := by omega
  have hmonth : ((12 * year + k : Int) % 12).toNat = k := by omega
  have hnext := firstDay_year year (k := k + 1) (by omega)
  rw [hyear, hmonth, firstDay_year year (by omega), Int.add_assoc,
    show (k : Int) + 1 = ((k + 1 : Nat) : Int) from rfl, hnext, daysBefore_succ _ k hk]
  omega

def dateOf (day : Int) : Date where
  year := monthOf day / 12
  month := (monthOf day % 12).toNat + 1
  day := (day - firstDay (monthOf day)).toNat + 1
  month_pos := Nat.le_add_left 1 _
  month_le := by omega
  day_pos := Nat.le_add_left 1 _
  day_le := by
    obtain ⟨hbegun, hnext⟩ := firstDay_monthOf day
    rw [firstDay_succ] at hnext
    omega

theorem day_dateOf (day : Int) : ((dateOf day).day : Int) = day - firstDay (monthOf day) + 1 := by
  have hbegun := (firstDay_monthOf day).1
  simp only [dateOf]
  omega

/-- The first days of months are those of which the months begin. -/
theorem day_dateOf_eq_one_iff : (dateOf day).day = 1 ↔ firstDay (monthOf day) = day := by
  have hday := day_dateOf day
  omega

theorem length_dateOf (day : Int) :
    ((dateOf day).length : Int) = firstDay (monthOf day + 1) - firstDay (monthOf day) := by
  rw [firstDay_succ, Int.add_comm, Int.add_sub_cancel]
  rfl

theorem count_dateOf (day : Int) :
    12 * (dateOf day).year + ((dateOf day).month : Int) = monthOf day + 1 := by
  simp only [dateOf]
  omega

/-- No two days have one date. -/
theorem dateOf_inj {m n : Int} (h : dateOf m = dateOf n) : m = n := by
  have hcount := count_dateOf m
  have hday := day_dateOf m
  rw [h, count_dateOf n] at hcount
  rw [h, day_dateOf n, show monthOf n = monthOf m by omega] at hday
  omega

theorem dateOf_monthAfter (day : Int) :
    dateOf (firstDay (monthOf day + 1)) = (dateOf day).monthAfter := by
  have hcount := (dateOf day).count_monthAfter
  have hdate := count_dateOf day
  have hnext := count_dateOf (firstDay (monthOf day + 1))
  rw [monthOf_firstDay] at hnext
  have hday : (dateOf (firstDay (monthOf day + 1))).day = 1 :=
    day_dateOf_eq_one_iff.mpr (by rw [monthOf_firstDay])
  obtain ⟨hyear, hmonth⟩ := Date.month_eq_of_count
    (d := dateOf (firstDay (monthOf day + 1))) (e := (dateOf day).monthAfter) (by omega)
  exact Date.ext hyear hmonth (hday.trans (Date.day_monthAfter _).symm)

theorem monthOf_eq_of_lt {month : Int} (hbegun : firstDay month ≤ day)
    (hnext : day < firstDay (month + 1)) : monthOf day = month := by
  have hle := firstDay_le_iff.mp hbegun
  have hlt : ¬ month + 1 ≤ monthOf day := fun h => by
    have := firstDay_le_iff.mpr h
    omega
  omega

theorem dateOf_succ (day : Int) : dateOf (day + 1) = (dateOf day).next := by
  have hday := day_dateOf day
  have hlength := length_dateOf day
  obtain ⟨hbegun, hnext⟩ := firstDay_monthOf day
  unfold Date.next
  by_cases hlast : day + 1 = firstDay (monthOf day + 1)
  · rw [dif_neg (by omega), hlast, dateOf_monthAfter]
  · have hmonth : monthOf (day + 1) = monthOf day := monthOf_eq_of_lt (by omega) (by omega)
    have hday' := day_dateOf (day + 1)
    rw [dif_pos (by omega)]
    ext
    · simp only [dateOf, hmonth]
    · simp only [dateOf, hmonth]
    · rw [hmonth] at hday'
      dsimp only
      omega

/-! ## Counting days -/

def origin : Date := ⟨1970, 1, 1, by decide, by decide, by decide, by decide⟩

/-- The date of a day, counted from the origin in both directions. -/
inductive Falls : Date → Int → Prop
  | origin : Falls origin 0
  | next {date : Date} {n : Int} (h : Falls date n) : Falls date.next (n + 1)
  | previous {date : Date} {n : Int} (h : Falls date.next (n + 1)) : Falls date n

theorem dateOf_zero : dateOf 0 = origin := by
  decide +kernel

theorem Falls.dateOf_eq (h : Falls d day) : dateOf day = d := by
  induction h with
  | origin => exact dateOf_zero
  | next _ ih => rw [dateOf_succ, ih]
  | previous _ ih => exact Date.next_inj ((dateOf_succ _).symm.trans ih)

theorem falls_dateOf (day : Int) : Falls (dateOf day) day := by
  induction day using Int.induction_on with
  | zero => exact dateOf_zero ▸ .origin
  | succ n ih => exact dateOf_succ n ▸ .next ih
  | pred n ih =>
    refine .previous ?_
    rw [← dateOf_succ, Int.sub_add_cancel]
    exact ih

theorem falls_iff : Falls d day ↔ dateOf day = d :=
  ⟨Falls.dateOf_eq, fun h => h ▸ falls_dateOf day⟩

end Causeway.Calendar
