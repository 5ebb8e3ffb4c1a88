import Causeway.Instant.Text
import Causeway.Proofs.Calendar.Dates
import Causeway.Proofs.Text

/-!
# Reading instants back

What `toText` writes is read as the instant that was written, to the nanosecond and in every year of
the range (`ofText?_toText`). The parts are read one after the other, each up to the mark behind it.
-/

namespace Causeway

namespace Calendar

/-- A month has 31 days at most. -/
theorem firstDay_succ_le (month : Int) : firstDay (month + 1) ≤ firstDay month + 31 := by
  have hle := lengthOf_le (isLeap (month / 12)) ((month % 12).toNat + 1)
  rw [firstDay_succ]
  omega

/-- A day is found by its year, month and day of the month. -/
theorem dayOf?_parts (day : Int) :
    dayOf? (monthOf day / 12) ((monthOf day % 12).toNat + 1)
      ((day - firstDay (monthOf day)).toNat + 1) = some day := by
  obtain ⟨hbegun, hnext⟩ := firstDay_monthOf day
  have hmonth : 12 * (monthOf day / 12) + (((monthOf day % 12).toNat + 1 : Nat) - 1 : Int) =
      monthOf day := by omega
  unfold dayOf?
  rw [if_pos (by omega), hmonth]
  dsimp only
  rw [if_pos (by omega)]
  exact congrArg some (by omega)

end Calendar

namespace Instant

open Text

variable {ds rest : List Char} {c : Char} {n nano : Nat}

/-! ## Parts -/

theorem trimStart_cons (h : isBlank c = false) : trimStart (c :: rest) = c :: rest := by
  rw [trimStart, List.dropWhile_cons, h]
  rfl

theorem trimStart_digits (hds : ∀ c ∈ ds, c.isDigit) (hne : ds ≠ []) :
    trimStart (ds ++ rest) = ds ++ rest := by
  obtain ⟨c, cs, rfl⟩ := List.exists_cons_of_ne_nil hne
  exact trimStart_cons (isBlank_of_isDigit (hds c (by simp)))

theorem readMark_self (h : isBlank c = false) : readMark c (c :: rest) = some rest := by
  rw [readMark, trimStart_cons h]
  exact if_pos rfl

theorem readPart_padded (hn : n < 100) (rest : List Char) :
    readPart (padded 2 n ++ rest) = some (n, rest) := by
  have hds : ∀ c ∈ padded 2 n, c.isDigit := fun c hc => isDigit_of_mem_padded hc
  rw [readPart, trimStart_digits hds (padded_ne_nil 2 n),
    readUpTo_append hds (padded_ne_nil 2 n) (.inl (length_padded (by decide) hn)),
    ofDigitChars_padded]

/-! ## Years -/

theorem readYear_yearText (year : Int) (rest : List Char) :
    readYear (yearText year ++ '-' :: rest) = some (year, '-' :: rest) := by
  have hend : DigitsEnd ('-' :: rest) := digitsEnd_cons rfl
  have hread : ∀ n : Nat, readAll (padded 4 n ++ '-' :: rest) = some (n, '-' :: rest) := by
    intro n
    rw [readAll_append (fun c => isDigit_of_mem_padded) (padded_ne_nil 4 n) hend,
      ofDigitChars_padded]
  unfold yearText
  split
  · rename_i hyear
    have hds : ∀ c ∈ padded 4 year.toNat, c.isDigit := fun c => isDigit_of_mem_padded
    have hfour : readUpTo 4 (padded 4 year.toNat ++ '-' :: rest) =
        some (year.toNat, '-' :: rest) := by
      rw [readUpTo_append hds (padded_ne_nil 4 year.toNat)
        (.inl (length_padded (by decide) (by omega))), ofDigitChars_padded]
    have htrim : trimStart (padded 4 year.toNat ++ '-' :: rest) =
        padded 4 year.toNat ++ '-' :: rest :=
      trimStart_digits hds (padded_ne_nil 4 year.toNat)
    -- The first character is a digit, so it is not taken for a sign.
    obtain ⟨c, cs, hcs⟩ := List.exists_cons_of_ne_nil (padded_ne_nil 4 year.toNat)
    have hc : c.isDigit := hds c (by rw [hcs]; simp)
    have hminus : c ≠ '-' := by rintro rfl; exact absurd hc (by decide)
    have hplus : c ≠ '+' := by rintro rfl; exact absurd hc (by decide)
    rw [hcs, List.cons_append] at hfour htrim
    rw [readYear, hcs, List.cons_append, htrim]
    split
    · rename_i heq
      exact absurd (List.cons.inj heq).1 hminus
    · rename_i heq
      exact absurd (List.cons.inj heq).1 hplus
    · rw [hfour, Option.map_some]
      dsimp only
      rw [Int.toNat_of_nonneg hyear.1]
  · split
    · rename_i hneg
      rw [readYear, List.cons_append, trimStart_cons rfl]
      show (readAll _).map (fun x => (-(x.1 : Int), x.2)) = _
      rw [hread, Option.map_some]
      congr 2
      omega
    · rename_i hneg
      rw [readYear, List.cons_append, trimStart_cons rfl]
      show (readAll _).map (fun x => ((x.1 : Int), x.2)) = _
      rw [hread, Option.map_some]
      congr 2
      omega

/-! ## Fractions -/

theorem readFraction_padded {width : Nat} (hpos : 0 < width) (hwidth : width ≤ 9)
    (hn : n < 10 ^ width) (rest : List Char) :
    readFraction ('.' :: (padded width n ++ 'Z' :: rest)) =
      some (n * 10 ^ (9 - width), 'Z' :: rest) := by
  have hds : ∀ c ∈ padded width n, c.isDigit := fun c => isDigit_of_mem_padded
  have hlen := length_padded hpos hn
  have htaken : (padded width n ++ 'Z' :: rest).takeWhile isDigit = padded width n :=
    takeWhile_isDigit hds (digitsEnd_cons rfl)
  have hnine : (padded width n ++ List.replicate 9 '0').take 9 =
      padded width n ++ List.replicate (9 - width) '0' := by
    rw [List.take_append, List.take_of_length_le (by omega), hlen, List.take_replicate,
      Nat.min_eq_left (by omega)]
  have hzeros : ∀ c ∈ padded width n ++ List.replicate (9 - width) '0', c.isDigit := by
    intro c hc
    rcases List.mem_append.mp hc with hc | hc
    · exact hds c hc
    · rw [List.eq_of_mem_replicate hc]
      decide
  rw [readFraction, htaken, if_neg (padded_ne_nil width n), hnine, numberOf_eq hzeros, Nat.ofDigitChars_append,
    ofDigitChars_padded, Nat.ofDigitChars_replicate_zero, List.drop_left, Nat.mul_comm]

theorem readFraction_fractionText (hnano : nano < 1000000000) (rest : List Char) :
    readFraction (fractionText nano ++ 'Z' :: rest) = some (nano, 'Z' :: rest) := by
  unfold fractionText
  split
  · rename_i hzero
    rw [hzero]
    rfl
  split
  · rw [List.cons_append, readFraction_padded (by decide) (by decide) (by omega)]
    congr 2
    omega
  split
  · rw [List.cons_append, readFraction_padded (by decide) (by decide) (by omega)]
    congr 2
    omega
  · rw [List.cons_append, readFraction_padded (by decide) (by decide) (by omega)]
    congr 2
    omega

/-! ## Instants -/

theorem atOffset?_zero (t : Instant) : atOffset? t.day t.second t.nano 0 = some t := by
  have hsecond := t.second_lt
  have hday : t.day + ((t.second : Int) - 60 * 0) / 86400 = t.day := by omega
  have hrest : (((t.second : Int) - 60 * 0) % 86400).toNat = t.second := by omega
  unfold atOffset?
  dsimp only
  rw [hday, hrest, if_pos ⟨t.day_ge, t.day_le⟩]
  exact dif_pos ⟨⟨t.day_ge, t.day_le⟩, t.second_lt, t.nano_lt, t.leap⟩

theorem bind_of_some {α β : Type} {x : Option α} {a : α} {f : α → Option β} (h : x = some a) :
    (x >>= f) = f a := by
  rw [h, Option.bind_eq_bind, Option.bind_some]

theorem ofChars?_toChars (t : Instant) (hnano : t.nano < 1000000000) :
    ofChars? t.toChars = some t := by
  obtain ⟨hbegun, hnext⟩ := Calendar.firstDay_monthOf t.day
  have hsecond := t.second_lt
  have hdate := Calendar.dayOf?_parts t.day
  have hchars : t.toChars = yearText (Calendar.monthOf t.day / 12) ++ '-' ::
      (padded 2 ((Calendar.monthOf t.day % 12).toNat + 1) ++ '-' ::
        (padded 2 ((t.day - Calendar.firstDay (Calendar.monthOf t.day)).toNat + 1) ++ 'T' ::
          (padded 2 (t.second / 3600) ++ ':' :: (padded 2 (t.second / 60 % 60) ++ ':' ::
            (padded 2 (t.second % 60) ++ (fractionText t.nano ++ ['Z'])))))) := by
    have hleap : ¬ 1000000000 ≤ t.nano := Nat.not_le.mpr hnano
    simp [toChars, hleap]
  have hday : (t.day - Calendar.firstDay (Calendar.monthOf t.day)).toNat + 1 < 100 := by
    have := Calendar.firstDay_succ_le (Calendar.monthOf t.day)
    omega
  have hmonth : (Calendar.monthOf t.day % 12).toNat + 1 < 100 := by omega
  have hoffset : readOffset (trimStart ['Z']) = some (0, []) := rfl
  have hwhole : 3600 * (t.second / 3600) + 60 * (t.second / 60 % 60) + t.second % 60 = t.second := by
    omega
  have hbounds : t.second / 3600 < 24 ∧ t.second / 60 % 60 < 60 ∧ t.second % 60 ≤ 60 ∧
      trimStart ([] : List Char) = [] := ⟨by omega, by omega, by omega, rfl⟩
  have hsixty : ¬ t.second % 60 = 60 := by omega
  rw [hchars, ofChars?]
  -- One step of the reading after the other.
  refine (bind_of_some (readYear_yearText _ _)).trans ?_
  refine (bind_of_some (readMark_self rfl)).trans ?_
  refine (bind_of_some (readPart_padded hmonth _)).trans ?_
  refine (bind_of_some (readMark_self rfl)).trans ?_
  refine (bind_of_some (readPart_padded hday _)).trans ?_
  refine (if_pos (Or.inl rfl)).trans ?_
  refine (bind_of_some rfl).trans ?_
  refine (bind_of_some (readPart_padded (by omega) _)).trans ?_
  refine (bind_of_some (readMark_self rfl)).trans ?_
  refine (bind_of_some (readPart_padded (by omega) _)).trans ?_
  refine (bind_of_some (readMark_self rfl)).trans ?_
  refine (bind_of_some (readPart_padded (by omega) _)).trans ?_
  refine (bind_of_some (readFraction_fractionText hnano _)).trans ?_
  refine (bind_of_some hoffset).trans ?_
  refine (bind_of_some hdate).trans ?_
  refine (if_pos hbounds).trans ?_
  dsimp only
  rw [if_neg hsixty, if_neg hsixty, hwhole, Nat.add_zero]
  exact atOffset?_zero t

theorem ofText?_toText (t : Instant) (hnano : t.nano < 1000000000) :
    ofText? t.toText = some t := by
  rw [ofText?, toText, String.toList_ofList, ofChars?_toChars t hnano]

end Instant

end Causeway
