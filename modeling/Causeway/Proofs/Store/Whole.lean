import Causeway.Proofs.Store.Alike
import Causeway.Proofs.Store.Tally

/-!
# Recording as a whole

To record an amount is to add it to the counters of the day and the month. A sum that overflows ends
the record where it stands: the day may have been added to by then (`increment_whole_iff`), and the
deposit has been noted (`apply_whole_iff`), so that nothing adds its amount any more
(`apply_of_overflow`).
-/

namespace Causeway

namespace Quota

variable {m : Meter} {amount : Decimal}

/-- The day takes the amount and shows it, and the month cannot. -/
def Meter.Torn (m : Meter) (amount : Decimal) : Prop :=
  ∃ daily, m.daily.used.add amount = .ok daily ∧ daily.value ≠ m.daily.used.value ∧
    ∃ o, m.monthly.used.add amount = .error o

/-- The outcomes of an addition to both counters. -/
theorem Meter.add_cases (m : Meter) (amount : Decimal) :
    (∃ o, m.daily.used.add amount = .error o ∧ m.add amount = (m, some o)) ∨
      (∃ daily o, m.daily.used.add amount = .ok daily ∧ m.monthly.used.add amount = .error o ∧
        m.add amount = ({ m with daily := { m.daily with used := daily } }, some o)) ∨
      ∃ daily monthly, m.daily.used.add amount = .ok daily ∧
        m.monthly.used.add amount = .ok monthly ∧
        m.add amount =
          (⟨{ m.daily with used := daily }, { m.monthly with used := monthly }⟩, none) := by
  unfold add
  cases hdaily : m.daily.used.add amount with
  | error o => exact .inl ⟨o, rfl, rfl⟩
  | ok daily =>
      dsimp only
      cases hmonthly : m.monthly.used.add amount with
      | error o => exact .inr (.inl ⟨daily, o, rfl, rfl, rfl⟩)
      | ok monthly => exact .inr (.inr ⟨daily, monthly, rfl, rfl, rfl⟩)

/-- An addition that overflows shows unless the month overflows behind a day that has changed. -/
theorem Meter.add_unseen_iff {o : Overflow} (h : (m.add amount).2 = some o) :
    (∀ p, ((m.add amount).1.during p).used.value = (m.during p).used.value) ↔
      ¬ m.Torn amount := by
  rcases m.add_cases amount with
    ⟨o', hdaily, hadd⟩ | ⟨daily, o', hdaily, hmonthly, hadd⟩ | ⟨daily, monthly, -, -, hadd⟩
  · rw [hadd]
    refine iff_of_true (fun _ => rfl) ?_
    rintro ⟨daily, hok, -⟩
    rw [hdaily] at hok
    cases hok
  · rw [hadd]
    constructor
    · rintro hsame ⟨daily', hok, hne, -⟩
      rw [hdaily] at hok
      cases hok
      exact hne (hsame .daily)
    · intro hnot p
      cases p with
      | daily =>
          by_contra hne
          exact hnot ⟨daily, hdaily, hne, o', hmonthly⟩
      | monthly => rfl
  · rw [hadd] at h
    cases h

end Quota

namespace Store.Usages

open Quota

variable {s s' : Usages} {user deposit id : Uuid} {flow : Flow} {amount : Decimal} {now : Instant}

/-! ## All or nothing -/

/-- The counters of other users stay as they are. -/
def SparesOthers (s : Usages) (user : Uuid) (s' : Usages) : Prop :=
  ∀ other, user ≠ other → ∀ t, s'.entry other t = s.entry other t

/-- Both counters of the flow have been rolled and hold the sum with the amount; those of the other
flow have been rolled. -/
structure Added (s : Usages) (user : Uuid) (flow : Flow) (amount : Decimal) (now : Instant)
    (s' : Usages) : Prop where
  sums : ∀ p, ((s.rolled user flow now).during p).used.add amount =
    .ok (((s'.entry user now).meter flow).during p).used
  flows : ∀ flow', flow' ≠ flow → (s'.entry user now).meter flow' = s.rolled user flow' now
  others : s.SparesOthers user s'

/-- Nothing but a roll of the user's counters shows. -/
structure OnlyRolled (s : Usages) (user : Uuid) (now : Instant) (s' : Usages) : Prop where
  applied : s'.applied = s.applied
  used : ∀ flow p, (((s'.entry user now).meter flow).during p).used.value =
    ((s.rolled user flow now).during p).used.value
  others : s.SparesOthers user s'

/-- What is to come of recording an amount, for the deposit that it is noted under if there is one:
true if it has been added, false if that deposit had been noted before, and otherwise nothing has
been done. -/
inductive Whole (s : Usages) (user : Uuid) (flow : Flow) (amount : Decimal) (now : Instant)
    (deposit : Option Uuid) : Changed Bool → Prop where
  | added {s' : Usages} (h : s.Added user flow amount now s')
    (happlied : s'.applied = s.applied ++ deposit.toList) :
    Whole s user flow amount now deposit (.ok (.ok true), s')
  | known {id : Uuid} (hid : deposit = some id) (h : id ∈ s.applied) :
    Whole s user flow amount now deposit (.ok (.ok false), s)
  | failed {r : Except Overflow (Except Failure Bool)} {s' : Usages} (hr : ∀ b, r ≠ .ok (.ok b))
    (h : s.OnlyRolled user now s') : Whole s user flow amount now deposit (r, s')

/-! ## What a record comes to -/

/-- The store once the counters have been moved as far as they can be. -/
def moved (s : Usages) (user : Uuid) (flow : Flow) (amount : Decimal) (now : Instant)
    (applied : List Uuid) : Usages :=
  { s.put ((s.entry user now).add flow amount now).1 user with applied }

theorem sparesOthers_moved (s : Usages) (user : Uuid) (flow : Flow) (amount : Decimal)
    (now : Instant) (applied : List Uuid) :
    s.SparesOthers user (s.moved user flow amount now applied) :=
  fun _ hne t => entry_put_of_ne s _ hne t

theorem meter_moved (s : Usages) (user : Uuid) (flow flow' : Flow) (amount : Decimal)
    (now : Instant) (applied : List Uuid) :
    ((s.moved user flow amount now applied).entry user now).meter flow' =
      if flow' = flow then ((s.rolled user flow now).add amount).1
      else s.rolled user flow' now := by
  have hentry : (s.moved user flow amount now applied).entry user now =
      ((s.entry user now).add flow amount now).1 := entry_put_self ..
  rw [hentry]
  by_cases hflow : flow' = flow
  · subst hflow
    rw [if_pos rfl, Usage.meter_add_self]
    rfl
  · rw [if_neg hflow, Usage.meter_add_of_ne hflow]
    rfl

theorem added_moved (h : ((s.rolled user flow now).add amount).2 = none)
    (applied : List Uuid) : s.Added user flow amount now (s.moved user flow amount now applied) where
  sums p := by
    rw [meter_moved, if_pos rfl]
    rcases (s.rolled user flow now).add_cases amount with
      ⟨o, -, hadd⟩ | ⟨daily, o, -, -, hadd⟩ | ⟨daily, monthly, hdaily, hmonthly, hadd⟩
    · rw [hadd] at h
      cases h
    · rw [hadd] at h
      cases h
    · rw [hadd]
      cases p with
      | daily => exact hdaily
      | monthly => exact hmonthly
  flows flow' hne := by rw [meter_moved, if_neg hne]
  others := sparesOthers_moved s user flow amount now applied

/-- After an overflow nothing but a roll shows exactly if no deposit has been noted and the day shows
no sum. -/
theorem onlyRolled_moved_iff {o : Overflow} (h : ((s.rolled user flow now).add amount).2 = some o)
    (applied : List Uuid) : s.OnlyRolled user now (s.moved user flow amount now applied) ↔
      applied = s.applied ∧ ¬ (s.rolled user flow now).Torn amount := by
  rw [← Meter.add_unseen_iff h]
  constructor
  · intro hrolled
    refine ⟨hrolled.applied, fun p => ?_⟩
    have hused := hrolled.used flow p
    rwa [meter_moved, if_pos rfl] at hused
  · rintro ⟨happlied, hused⟩
    refine ⟨happlied, fun flow' p => ?_, sparesOthers_moved s user flow amount now applied⟩
    rw [meter_moved]
    split
    · rename_i hflow
      rw [hflow]
      exact hused p
    · rfl

theorem add_overflow_eq (s : Usages) (user : Uuid) (flow : Flow) (amount : Decimal)
    (now : Instant) :
    ((s.entry user now).add flow amount now).2 = ((s.rolled user flow now).add amount).2 :=
  Usage.add_overflow ..

/-- A record of an amount is whole unless the day has taken the amount and the month could not. -/
theorem increment_whole_iff (ha : ¬ amount ≤ .zero) (s : Usages) (user : Uuid) (flow : Flow)
    (now : Instant) :
    s.Whole user flow amount now none ((Call.increment user flow amount).perform now s) ↔
      ¬ (s.rolled user flow now).Torn amount := by
  rw [Call.perform, increment_of_pos s user flow ha now, add_overflow_eq]
  cases hover : ((s.rolled user flow now).add amount).2 with
  | none =>
      refine iff_of_true (.added (added_moved hover s.applied) (List.append_nil _).symm) ?_
      rintro ⟨daily, hdaily, -, o, hmonthly⟩
      simp only [Meter.add, hdaily, hmonthly] at hover
      cases hover
  | some o =>
      have hiff := onlyRolled_moved_iff hover s.applied
      constructor
      · intro h
        cases h with
        | failed hr h => exact (hiff.mp h).2
      · exact fun h => .failed (by simp [Except.map]) (hiff.mpr ⟨rfl, h⟩)

/-- A record of a deposit is whole if the deposit has been noted before or neither sum overflows. -/
theorem apply_whole_iff (ha : ¬ amount ≤ .zero) (s : Usages) (user deposit : Uuid)
    (now : Instant) :
    s.Whole user .deposit amount now (some deposit) (s.apply user deposit amount now) ↔
      deposit ∈ s.applied ∨ ((s.rolled user .deposit now).add amount).2 = none := by
  rcases apply_cases s user deposit amount now with ⟨hle, -⟩ | ⟨hmem, he⟩ | ⟨-, hnew, hs, hr⟩
  · exact absurd hle ha
  · rw [he]
    exact iff_of_true (.known rfl hmem) (.inl hmem)
  · have he : s.apply user deposit amount now =
        (_, s.moved user .deposit amount now (s.applied ++ [deposit])) := Prod.ext hr hs
    rw [he, add_overflow_eq]
    cases hover : ((s.rolled user .deposit now).add amount).2 with
    | none => exact iff_of_true (.added (added_moved hover _) rfl) (.inr rfl)
    | some o =>
        refine iff_of_false (fun h => ?_) (fun h => h.elim hnew nofun)
        cases h with
        | failed hr h =>
            have := ((onlyRolled_moved_iff hover _).mp h).1
            simp at this

/-! ## After an overflow -/

theorem mem_applied_call {c : Call} (h : id ∈ s.applied) : id ∈ (c.perform now s).2.applied := by
  cases c with
  | increment user flow amount =>
      by_cases ha : amount ≤ .zero
      · simp only [Call.perform, increment, if_pos ha]
        exact h
      · simp only [Call.perform, increment_of_pos s user flow ha now]
        exact h
  | apply user deposit amount => exact mem_applied_apply h
  | getOrCreate user => exact h
  | reset user => exact h

/-- What later calls make of a store. -/
def later (s : Usages) (cs : List (Instant × Call)) : Usages :=
  cs.foldl (fun s c => (c.2.perform c.1 s).2) s

theorem mem_applied_later (cs : List (Instant × Call)) (h : id ∈ s.applied) :
    id ∈ (s.later cs).applied := by
  induction cs generalizing s with
  | nil => exact h
  | cons c cs ih => exact ih (mem_applied_call h)

theorem apply_of_mem (ha : ¬ amount ≤ .zero) (h : deposit ∈ s.applied) (user : Uuid)
    (now : Instant) : s.apply user deposit amount now = (.ok (.ok false), s) := by
  rw [apply, if_neg ha, if_pos h]

/-- The deposit has been noted by then. -/
theorem mem_applied_of_overflow {o : Overflow}
    (h : (s.apply user deposit amount now).1 = .error o) :
    deposit ∉ s.applied ∧
      (s.apply user deposit amount now).2.applied = s.applied ++ [deposit] := by
  rcases apply_cases s user deposit amount now with ⟨-, he⟩ | ⟨-, he⟩ | ⟨-, hnew, hs, -⟩
  · rw [he] at h
    cases h
  · rw [he] at h
    cases h
  · exact ⟨hnew, congrArg applied hs⟩

/-- Once the counters of a deposit have overflowed, no later call for the deposit adds anything. -/
theorem apply_of_overflow {o : Overflow} (h : (s.apply user deposit amount now).1 = .error o)
    (cs : List (Instant × Call)) (user' : Uuid) {amount' : Decimal} (ha : ¬ amount' ≤ .zero)
    (t : Instant) :
    ((s.apply user deposit amount now).2.later cs).apply user' deposit amount' t =
      (.ok (.ok false), (s.apply user deposit amount now).2.later cs) := by
  refine apply_of_mem ha (mem_applied_later cs ?_) user' t
  rw [(mem_applied_of_overflow h).2]
  exact List.mem_append_right _ (List.mem_singleton_self deposit)

end Store.Usages

end Causeway
