import Causeway.Proofs.Quota.Period
import Causeway.Proofs.Store.Usages

/-!
# Counters as calendar sums

The counters of a usage store follow from the calls it has had: a counter whose ended periods have
been started anew holds the sum of what was accepted in the day or the month that is running, and is
reset where the next one begins (`counters_are_calendar_sums`).

The history of a store lists its calls, the latest first. `Call.accepted` tells from the history
alone what a call adds; `Tallied` ties it to the store.
-/

namespace Causeway.Store.Usages

open Quota

variable {s : Usages} {user id : Uuid} {flow : Flow} {now t : Instant}

/-! ## Histories -/

inductive Call where
  | increment (user : Uuid) (flow : Flow) (amount : Decimal)
  | apply (user deposit : Uuid) (amount : Decimal)
  | getOrCreate (user : Uuid)
  | reset (user : Uuid)
deriving DecidableEq

/-- Makes the call at an instant; the answer says whether an amount was added. -/
def Call.perform (now : Instant) (s : Usages) : Call → Changed Bool
  | .increment user flow amount =>
    let (answer, s) := s.increment user flow amount now
    (answer.map fun done => done.map fun _ => true, s)
  | .apply user deposit amount => s.apply user deposit amount now
  | .getOrCreate user => (.ok (.ok false), (s.getOrCreate user now).2)
  | .reset user => (.ok (.ok false), (s.reset user now).2)

abbrev History := List (Instant × Call)

/-- What a history, begun on an empty store, leaves behind. -/
def History.store : History → Usages
  | [] => {}
  | (t, c) :: past => (c.perform t (store past)).2

/-- The deposits whose amounts have been added, under whichever user. -/
def History.applied : History → List Uuid
  | [] => []
  | (_, .apply _ deposit amount) :: past =>
    if amount ≤ .zero then applied past else deposit :: applied past
  | _ :: past => applied past

/-- What a call adds after a history, if anything: whose counters, which flow and how much. -/
def Call.accepted (past : History) : Call → Option (Uuid × Flow × Decimal)
  | .increment user flow amount => if amount ≤ .zero then none else some (user, flow, amount)
  | .apply user deposit amount =>
    if amount ≤ .zero ∨ deposit ∈ past.applied then none else some (user, .deposit, amount)
  | .getOrCreate _ | .reset _ => none

/-- The amounts accepted for a flow of a user, each with its instant. -/
def History.entries (user : Uuid) (flow : Flow) : History → List (Instant × ℚ)
  | [] => []
  | (t, c) :: past =>
    match c.accepted past with
    | some (user', flow', amount) =>
      if user' = user ∧ flow' = flow then (t, amount.value) :: entries user flow past
      else entries user flow past
    | none => entries user flow past

/-- No sum of a day or a month is ever out of the range of decimals or too fine for it. -/
def History.Exact : History → Prop
  | [] => True
  | (t, c) :: past =>
    (∀ user flow p, Decimal.Representable
      (sumIn p (p.index t) (entries user flow ((t, c) :: past)))) ∧ Exact past

def History.Ordered (past : History) : Prop := past.Pairwise fun later earlier => earlier.1 ≤ later.1

theorem History.Exact.suffix {past past' : History} (h : past.Exact) (hsuffix : past' <:+ past) :
    past'.Exact := by
  induction past with
  | nil =>
      rw [List.suffix_nil.mp hsuffix]
      trivial
  | cons x past ih =>
      rcases List.suffix_cons_iff.mp hsuffix with rfl | hsuffix
      · exact h
      · exact ih h.2 hsuffix

/-! ## The invariant -/

/-- The store has applied what the history says and holds what it has accepted. -/
structure Tallied (past : History) : Prop where
  applied : ∀ id, id ∈ past.store.applied ↔ id ∈ past.applied
  holds : ∀ user flow,
    past.store.HoldsIn user flow (past.entries user flow) fun t => ∃ c, (t, c) ∈ past

variable {past : History} {c : Call}

theorem entries_of_declined (h : c.accepted past = none) :
    History.entries user flow ((t, c) :: past) = past.entries user flow := by
  simp [History.entries, h]

theorem entries_of_accepted {user' : Uuid} {flow' : Flow} {amount : Decimal}
    (h : c.accepted past = some (user', flow', amount)) :
    History.entries user flow ((t, c) :: past) =
      if user' = user ∧ flow' = flow then (t, amount.value) :: past.entries user flow
      else past.entries user flow := by
  simp [History.entries, h]

theorem mem_applied_perform (h : ∀ id, id ∈ s.applied ↔ id ∈ past.applied) :
    id ∈ (c.perform now s).2.applied ↔ id ∈ History.applied ((now, c) :: past) := by
  cases c with
  | increment user flow amount =>
      have hsame : (s.increment user flow amount now).2.applied = s.applied := by
        unfold increment
        split
        · rfl
        · split <;> rename_i hadd <;> exact congrArg (fun x => x.1.applied) hadd.symm
      exact hsame ▸ h id
  | apply user deposit amount =>
      simp only [Call.perform, History.applied]
      rcases apply_cases s user deposit amount now with ⟨hle, he⟩ | ⟨hid, he⟩ | ⟨hle, _, he, _⟩
      · rw [he, if_pos hle]
        exact h id
      · rw [he]
        split
        · exact h id
        · simp only [List.mem_cons, ← h id]
          exact ⟨Or.inr, fun hor => hor.elim (fun heq => heq ▸ hid) fun hm => hm⟩
      · rw [he, if_neg hle]
        simp [h id, or_comm]
  | getOrCreate user => exact h id
  | reset user => exact h id

/-- A call leaves the store alone, puts a user's counters as they are or started anew, or adds what
is accepted from it. -/
theorem perform_cases (c : Call) (now : Instant) (h : ∀ id, id ∈ s.applied ↔ id ∈ past.applied) :
    (c.accepted past = none ∧ ∃ a, a ≠ .ok true ∧ c.perform now s = (.ok a, s)) ∨
      (c.accepted past = none ∧ ∃ user u, c.perform now s = (.ok (.ok false), s.put u user) ∧
        (u = s.entry user now ∨ u = (s.entry user now).roll now)) ∨
      (∃ user flow amount, c.accepted past = some (user, flow, amount) ∧
        (c.perform now s).2.byUser =
          s.byUser.insert user ((s.entry user now).add flow amount now).1 ∧
        (((s.entry user now).add flow amount now).2 = none →
          (c.perform now s).1 = .ok (.ok true))) := by
  cases c with
  | increment user flow amount =>
      by_cases hle : amount ≤ .zero
      · refine Or.inl ⟨if_pos hle, .error (.invalid (.incrementNotPositive amount)), by simp, ?_⟩
        simp only [Call.perform, increment, hle, if_true]
        rfl
      · refine Or.inr (Or.inr ⟨user, flow, amount, if_neg hle, ?_⟩)
        simp only [Call.perform, increment, hle, if_false, addEntry, put]
        rcases (s.entry user now).add flow amount now with ⟨u, _ | o⟩
        · exact ⟨rfl, fun _ => rfl⟩
        · refine ⟨rfl, fun h => ?_⟩
          cases h
  | apply user deposit amount =>
      rcases apply_cases s user deposit amount now with ⟨hle, he⟩ | ⟨hid, he⟩ | ⟨hle, hid, he, ha⟩
      · exact Or.inl ⟨if_pos (Or.inl hle), .error _, by simp, he⟩
      · exact Or.inl ⟨if_pos (Or.inr ((h deposit).mp hid)), .ok false, by simp, he⟩
      · refine Or.inr (Or.inr ⟨user, .deposit, amount, if_neg ?_, congrArg byUser he, ?_⟩)
        · rw [← h deposit]
          exact fun hor => hor.elim hle hid
        · intro hnone
          rw [Call.perform, ha, hnone]
  | getOrCreate user => exact Or.inr (Or.inl ⟨rfl, user, _, rfl, Or.inl rfl⟩)
  | reset user => exact Or.inr (Or.inl ⟨rfl, user, _, rfl, Or.inr rfl⟩)

/-! ## Sums -/

theorem exact_of_representable {m : Meter} {xs : List (Instant × ℚ)} {amount : Decimal}
    (hm : m.Holds xs now)
    (h : ∀ p : Period, Decimal.Representable
      (sumIn p (p.index now) ((now, amount.value) :: xs))) : m.AddsExactly amount := by
  have hexact : ∀ p, (m.during p).used.AddsExactly amount := by
    intro p
    have hp := h p
    rw [sumIn_cons, if_pos rfl, ← (hm.during p).used, add_comm] at hp
    exact Decimal.addsExactly_of_representable hp
  exact ⟨hexact .daily, hexact .monthly⟩

/-- What is put for a user decides on that user's counters and leaves the others' alone. -/
theorem HoldsIn.put {u : Usage} {user' : Uuid} {xs : List (Instant × ℚ)}
    {since since' : Instant → Prop} {s' : Usages} (hs' : s'.byUser = s.byUser.insert user' u)
    (hself : user' = user → ∃ t, since' t ∧ (u.meter flow).Holds xs t)
    (hother : user' ≠ user → s.HoldsIn user flow xs since) (hsince : ∀ t, since t → since' t) :
    s'.HoldsIn user flow xs since' := by
  unfold HoldsIn
  rw [hs', Table.get?_insert]
  by_cases h : user' = user
  · simp only [h, if_true]
    obtain ⟨t, ht, hholds⟩ := hself h
    exact Or.inr ⟨u, t, rfl, ht, hholds⟩
  · simp only [h, if_false]
    exact (hother h).mono hsince

/-- Counters that are put back as they were still hold what they held. -/
theorem HoldsIn.entry_holds {xs : List (Instant × ℚ)} {since since' : Instant → Prop}
    (h : s.HoldsIn user flow xs since) (hsince : ∀ t, since t → since' t) (hnow : since' now) :
    ∃ t, since' t ∧ ((s.entry user now).meter flow).Holds xs t := by
  rcases h with ⟨hnone, rfl⟩ | ⟨u, t, hu, ht, hholds⟩
  · refine ⟨now, hnow, ?_⟩
    rw [Usages.entry, hnone]
    cases flow <;> exact .start
  · refine ⟨t, hsince t ht, ?_⟩
    rw [Usages.entry, hu]
    exact hholds

theorem tallied_nil : Tallied [] where
  applied _ := Iff.rfl
  holds _ _ := Or.inl ⟨rfl, rfl⟩

theorem Tallied.cons (h : Tallied past) (hpast : ∀ x ∈ past, x.1 ≤ now) (hlast : now < .last)
    (hexact : ∀ user flow p, Decimal.Representable
      (sumIn p (p.index now) (History.entries user flow ((now, c) :: past)))) :
    Tallied ((now, c) :: past) ∧ ∃ a, (c.perform now past.store).1 = .ok a ∧
      (a = .ok true ↔ (c.accepted past).isSome) := by
  have hsince : ∀ t, (∃ c, (t, c) ∈ past) → t ≤ now := fun t ⟨c, hm⟩ => hpast (t, c) hm
  have hmem : ∀ t, (∃ c, (t, c) ∈ past) → ∃ c', (t, c') ∈ (now, c) :: past :=
    fun t ⟨c', hm⟩ => ⟨c', List.mem_cons_of_mem _ hm⟩
  have hnow : ∃ c', (now, c') ∈ (now, c) :: past := ⟨c, List.mem_cons_self⟩
  have happlied : ∀ id, id ∈ (c.perform now past.store).2.applied ↔
      id ∈ History.applied ((now, c) :: past) := fun id => mem_applied_perform h.applied
  rcases perform_cases c now h.applied with ⟨hnone, a, ha, he⟩ | ⟨hnone, user', u, he, hu⟩ |
    ⟨user', flow', amount, hsome, hput, hanswer⟩
  · refine ⟨⟨happlied, fun user flow => ?_⟩, a, by rw [he], by simp [ha, hnone]⟩
    rw [entries_of_declined hnone, History.store, he]
    exact (h.holds user flow).mono hmem
  · refine ⟨⟨happlied, fun user flow => ?_⟩, _, by rw [he], by simp [hnone]⟩
    rw [entries_of_declined hnone, History.store, he]
    refine HoldsIn.put rfl (fun heq => ?_) (fun _ => h.holds user flow) hmem
    subst heq
    rcases hu with rfl | rfl
    · exact (h.holds user' flow).entry_holds hmem hnow
    · rw [Usage.meter_roll]
      exact ⟨now, hnow, (h.holds user' flow).entry hsince hlast⟩
  · have hadds : (((past.store.entry user' now).meter flow').roll now).AddsExactly amount := by
      refine exact_of_representable ((h.holds user' flow').entry hsince hlast) fun p => ?_
      have hp := hexact user' flow' p
      rwa [entries_of_accepted hsome, if_pos ⟨rfl, rfl⟩] at hp
    refine ⟨⟨happlied, fun user flow => ?_⟩, .ok true, hanswer (Usage.add_eq_none hadds),
      by simp [hsome]⟩
    refine HoldsIn.put hput (fun heq => ⟨now, hnow, ?_⟩) (fun hne => ?_) hmem
    · subst heq
      have hroll := (h.holds user' flow).entry hsince hlast
      rw [entries_of_accepted hsome]
      by_cases hflow : flow' = flow
      · subst hflow
        rw [if_pos ⟨rfl, rfl⟩]
        exact Usage.holds_add hadds hroll
      · rw [if_neg fun h => hflow h.2, Usage.meter_add_of_ne (Ne.symm hflow)]
        exact hroll
    · rw [entries_of_accepted hsome, if_neg fun h => hne h.1]
      exact h.holds user flow

theorem tallied (hordered : past.Ordered) (hlast : ∀ x ∈ past, x.1 < .last) (hexact : past.Exact) :
    Tallied past := by
  induction past with
  | nil => exact tallied_nil
  | cons x past ih =>
      have hordered := List.pairwise_cons.mp hordered
      have htallied := ih hordered.2 (fun y hy => hlast y (List.mem_cons_of_mem x hy)) hexact.2
      exact (htallied.cons hordered.1 (hlast x List.mem_cons_self) hexact.1).1

/-! ## Whole amounts -/

/-- The call can only add a whole number up to `m`. -/
def Call.Whole (m : Nat) (c : Call) : Prop :=
  ∀ past user flow amount, c.accepted past = some (user, flow, amount) →
    ∃ n : Nat, n ≤ m ∧ amount.value = n

theorem sumIn_whole {m : Nat} (h : ∀ x ∈ past, x.2.Whole m) (user : Uuid) (flow : Flow)
    (p : Period) (i : Int) :
    ∃ n : Nat, n ≤ m * past.length ∧ sumIn p i (past.entries user flow) = n := by
  induction past with
  | nil => exact ⟨0, Nat.zero_le _, Nat.cast_zero.symm⟩
  | cons x past ih =>
      obtain ⟨n, hn, hsum⟩ := ih fun y hy => h y (List.mem_cons_of_mem x hy)
      have hlen : m * past.length ≤ m * (x :: past).length :=
        Nat.mul_le_mul_left m (Nat.le_succ _)
      rcases hx : x.2.accepted past with _ | ⟨user', flow', amount⟩
      · rw [entries_of_declined hx]
        exact ⟨n, hn.trans hlen, hsum⟩
      · rw [entries_of_accepted hx]
        obtain ⟨k, hk, hamount⟩ := h x List.mem_cons_self past user' flow' amount hx
        split
        · rw [sumIn_cons, hsum, hamount]
          split
          · refine ⟨k + n, ?_, by push_cast; rfl⟩
            rw [List.length_cons, Nat.mul_succ]
            omega
          · exact ⟨n, hn.trans hlen, by simp⟩
        · exact ⟨n, hn.trans hlen, hsum⟩

/-- Sums of whole numbers that cannot get too large are exact. -/
theorem exact_of_whole {m : Nat} (h : ∀ x ∈ past, x.2.Whole m)
    (hlt : m * past.length < twoTo 96) : past.Exact := by
  induction past with
  | nil => trivial
  | cons x past ih =>
      refine ⟨fun user flow p => ?_, ih (fun y hy => h y (List.mem_cons_of_mem x hy)) ?_⟩
      · obtain ⟨n, hn, hsum⟩ := sumIn_whole h user flow p (p.index x.1)
        rw [hsum]
        exact Decimal.representable_natCast (Nat.lt_of_le_of_lt hn hlt)
      · exact Nat.lt_of_le_of_lt (Nat.mul_le_mul_left m (Nat.le_succ _)) hlt

/-! ## Calendar sums -/

/-- After any calls at instants that never go back, a reset shows each user, for both flows, the sum
of what was accepted on the day and in the month of its instant, and the next calendar boundary as
the instant of the reset. No call has overflowed, and a call says that it added its amount exactly
when it was accepted. -/
theorem counters_are_calendar_sums (hordered : past.Ordered) (hexact : past.Exact)
    (hpast : ∀ x ∈ past, x.1 ≤ now) (hnow : now < .last) (user : Uuid) :
    (∀ t c (before : History), (t, c) :: before <:+ past →
      ∃ a, (c.perform t before.store).1 = .ok a ∧ (a = .ok true ↔ (c.accepted before).isSome)) ∧
    ∀ flow p, ((((past.store.reset user now).1.meter flow).during p).used.value =
        sumIn p (p.index now) (past.entries user flow)) ∧
      p.IsNext now (((past.store.reset user now).1.meter flow).during p).resetAt := by
  have hlast : ∀ x ∈ past, x.1 < .last := fun x hx => Int.lt_of_le_of_lt (hpast x hx) hnow
  constructor
  · intro t c before hsuffix
    have hordered := hordered.sublist hsuffix.sublist
    have hlast : ∀ x ∈ (t, c) :: before, x.1 < .last := fun x hx => hlast x (hsuffix.subset hx)
    have hexact := hexact.suffix hsuffix
    have hbefore := tallied (List.Pairwise.of_cons hordered)
      (fun x hx => hlast x (List.mem_cons_of_mem _ hx)) hexact.2
    have hpast : ∀ x ∈ before, x.1 ≤ t := fun x hx => List.rel_of_pairwise_cons hordered hx
    have hlt : t < .last := hlast (t, c) List.mem_cons_self
    obtain ⟨_, hanswer⟩ := hbefore.cons (c := c) hpast hlt hexact.1
    exact hanswer
  · intro flow p
    have hsince : ∀ t, (∃ c, (t, c) ∈ past) → t ≤ now := fun t ⟨c, hm⟩ => hpast (t, c) hm
    have hholds := (((tallied hordered hlast hexact).holds user flow).reset hsince hnow).during p
    exact ⟨hholds.used, hholds.resetAt ▸ p.reset_isNext now⟩

end Causeway.Store.Usages

namespace Causeway.Store.Usages.Sample

open Quota

def user : Uuid := .ofNat 1

def other : Uuid := .ofNat 2

def deposit : Uuid := .ofNat 3

def thirty : Decimal := { magnitude := 30, places := 0, places_le := Decimal.zero.places_le }

def noon (day : Int) (h : -96465292 ≤ day ∧ day ≤ 95026236) : Instant :=
  ⟨day, 43200, 0, h.1, h.2, by decide, Instant.epoch.nano_lt, by decide⟩

/-- Calls on the first day of a February of 29 days and two on its last, for one deposit. -/
def history : History :=
  [(noon 19782 (by decide), .apply other deposit thirty),
    (noon 19782 (by decide), .apply user deposit thirty),
    (noon 19754 (by decide), .increment user .deposit thirty)]

theorem value_thirty : thirty.value = (30 : Nat) := by
  simp [thirty, Decimal.value, Decimal.coefficient, Decimal.signed]

theorem history_exact : history.Exact := by
  have hwhole : ∀ x ∈ history, x.2.Whole 30 := by
    intro x hx past user' flow amount haccepted
    have hamount : amount = thirty := by
      simp only [history, List.mem_cons, List.not_mem_nil, or_false] at hx
      rcases hx with rfl | rfl | rfl <;> simp_all [Call.accepted]
    exact ⟨30, Nat.le_refl 30, hamount ▸ value_thirty⟩
  exact exact_of_whole hwhole (by decide)

theorem history_is_summed :
    history.Ordered ∧ history.Exact ∧
      ((history.store.reset user (noon 19782 (by decide))).1.deposit.daily.used.value = 30 ∧
        (history.store.reset user (noon 19782 (by decide))).1.deposit.monthly.used.value = 60) := by
  have hordered : history.Ordered := by
    unfold History.Ordered history
    decide
  have hnow : noon 19782 (by decide) < .last := by decide
  obtain ⟨_, hsums⟩ := counters_are_calendar_sums hordered history_exact (by decide) hnow user
  refine ⟨hordered, history_exact, (hsums .deposit .daily).1.trans ?_,
    (hsums .deposit .monthly).1.trans ?_⟩
  · decide +kernel
  · decide +kernel

end Causeway.Store.Usages.Sample
