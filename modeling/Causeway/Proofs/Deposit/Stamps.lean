import Causeway.Proofs.Deposit.Coherence
import Mathlib.Data.List.Chain

/-!
# What the record of a deposit tells

A mark is entered field by field. Its check comes before its first entry, so a mark that is refused
leaves the record as it was (`steps_run`). Each stage leaves its instant together with what it
brings, and these instants tell the stage of a deposit that has not failed (`Stamped`). Marks may be
tried in any order, also those that no operation tries: the record stays like that
(`record_stays_coherent`).
-/

namespace Causeway.Deposit

variable {d d' : Deposit} {e : Event} {now : Instant}

/-! ## Field by field -/

/-- Entries in a record. One that fails leaves what earlier ones have entered. -/
abbrev Marking := ExceptT Failure (StateM Deposit)

def enterStatus (status : Status) (now : Instant) : Marking Unit := do
  let d ← get
  if d.status.canBecome status then
    modify fun d => { d with status }
    modify fun d => { d with updatedAt := now }
  else throw (.invalidTransition d.status status)

def Event.steps (now : Instant) : Event → Marking Unit
  | railInitiated transfer => do
    enterStatus .railInitiated now
    modify fun d => { d with transfer := some transfer }
    modify fun d => { d with railInitiatedAt := some now }
  | railCompleted amount => do
    enterStatus .railCompleted now
    modify fun d => { d with destinationAmount := amount }
    modify fun d => { d with railCompletedAt := some now }
  | brokerFunded fundingRef => do
    enterStatus .brokerFunded now
    modify fun d => { d with fundingRef := some fundingRef }
    modify fun d => { d with brokerFundedAt := some now }
  | failed reason => do
    enterStatus .failed now
    modify fun d => { d with failureReason := some reason }
  | usageRecorded => do
    let d ← get
    if d.status = .brokerFunded then
      modify fun d => { d with usageRecordedAt := some now }
      modify fun d => { d with updatedAt := now }
    else throw (.invalid (.usageBeforeFunding d.id d.status))

/-- What a mark answers, and the record after it. -/
def Event.outcome (e : Event) (now : Instant) (d : Deposit) : Except Failure Unit × Deposit :=
  match d.apply e now with
  | .ok d' => (.ok (), d')
  | .error f => (.error f, d)

theorem run_get {α : Type} (f : Deposit → Marking α) (d : Deposit) :
    (get >>= f).run d = (f d).run d := rfl

theorem enterStatus_run (status : Status) (now : Instant) (rest : Marking Unit) (d : Deposit) :
    (enterStatus status now >>= fun _ => rest).run d =
      match d.moveTo status now with
      | .ok d' => rest.run d'
      | .error f => (.error f, d) := by
  unfold enterStatus moveTo
  rw [bind_assoc, run_get]
  by_cases h : d.status.canBecome status
  · simp only [if_pos h]
    rfl
  · simp only [if_neg h]
    rfl

/-- A mark that is accepted enters all that it brings, and one that is refused nothing. -/
theorem steps_run (e : Event) (now : Instant) (d : Deposit) :
    (e.steps now).run d = e.outcome now d := by
  cases e with
  | usageRecorded =>
      unfold Event.outcome Deposit.apply Event.steps
      rw [run_get]
      by_cases hs : d.status = .brokerFunded
      · simp only [if_pos hs]
        rfl
      · simp only [if_neg hs]
        rfl
  | railInitiated transfer | railCompleted amount | brokerFunded fundingRef | failed reason =>
      unfold Event.outcome Deposit.apply Event.steps
      rw [enterStatus_run]
      generalize d.moveTo _ now = r
      cases r <;> rfl

/-- The record after marks have been tried one after another. -/
def marked (d : Deposit) : List (Event × Instant) → Deposit
  | [] => d
  | (e, now) :: marks => marked ((e.steps now).run d).2 marks

/-- The stages of the record after each mark. -/
def stages (d : Deposit) : List (Event × Instant) → List Status
  | [] => []
  | (e, now) :: marks =>
    let d' := ((e.steps now).run d).2
    d'.status :: stages d' marks

/-! ## Instants and stages -/

/-- The stage that the instants of a record tell. -/
def stampedStatus (d : Deposit) : Status :=
  if d.brokerFundedAt.isSome then .brokerFunded
  else if d.railCompletedAt.isSome then .railCompleted
  else if d.railInitiatedAt.isSome then .railInitiated
  else .created

/-- Each stage has left its instant together with what it brings, and no later stage has. -/
structure Stamped (d : Deposit) : Prop where
  transfer : d.transfer.isSome ↔ d.railInitiatedAt.isSome
  completed : d.railCompletedAt.isSome → d.railInitiatedAt.isSome
  destinationAmount : d.destinationAmount.isSome → d.railCompletedAt.isSome
  fundingRef : d.fundingRef.isSome ↔ d.brokerFundedAt.isSome
  funded : d.brokerFundedAt.isSome ↔ d.status = .brokerFunded
  failureReason : d.failureReason.isSome ↔ d.status = .failed
  usage : d.usageRecordedAt.isSome → d.status = .brokerFunded
  status : d.status ≠ .failed → d.status = d.stampedStatus

theorem stamped_start (id user account : Uuid) (reference : String) (amount : Amount)
    (currency : String) (now : Instant) :
    (start id user account reference amount currency now).Stamped := by
  constructor <;> simp [start, stampedStatus]

theorem stampedStatus_eq_created :
    d.stampedStatus = .created ↔
      d.railInitiatedAt = none ∧ d.railCompletedAt = none ∧ d.brokerFundedAt = none := by
  unfold stampedStatus
  cases d.brokerFundedAt <;> cases d.railCompletedAt <;> cases d.railInitiatedAt <;> simp

theorem stampedStatus_eq_railInitiated :
    d.stampedStatus = .railInitiated ↔
      d.railInitiatedAt.isSome ∧ d.railCompletedAt = none ∧ d.brokerFundedAt = none := by
  unfold stampedStatus
  cases d.brokerFundedAt <;> cases d.railCompletedAt <;> cases d.railInitiatedAt <;> simp

theorem stampedStatus_eq_railCompleted :
    d.stampedStatus = .railCompleted ↔ d.railCompletedAt.isSome ∧ d.brokerFundedAt = none := by
  unfold stampedStatus
  cases d.brokerFundedAt <;> cases d.railCompletedAt <;> cases d.railInitiatedAt <;> simp

theorem Stamped.unfunded (hd : d.Stamped) (hs : d.status ≠ .brokerFunded) :
    d.fundingRef = none ∧ d.brokerFundedAt = none ∧ d.usageRecordedAt = none := by
  have hf : ¬ d.brokerFundedAt.isSome := fun h => hs (hd.funded.mp h)
  have hr : ¬ d.fundingRef.isSome := fun h => hf (hd.fundingRef.mp h)
  have hu : ¬ d.usageRecordedAt.isSome := fun h => hs (hd.usage h)
  exact ⟨by simpa using hr, by simpa using hf, by simpa using hu⟩

theorem Stamped.unfailed (hd : d.Stamped) (hs : d.status ≠ .failed) : d.failureReason = none := by
  simpa using fun h => hs (hd.failureReason.mp h)

theorem Stamped.advance (hd : d.Stamped) (h : d.Allows e) (now : Instant) :
    (d.after e now).Stamped := by
  -- The stage that allows the event tells which instants there are.
  cases e with
  | railInitiated transfer =>
      have hs : d.status = .created := h
      have hi := stampedStatus_eq_created.mp ((hd.status (by simp [hs])).symm.trans hs)
      have hu := hd.unfunded (by simp [hs])
      have hr := hd.unfailed (by simp [hs])
      have ha := hd.destinationAmount
      constructor <;> simp_all [after, stampedStatus]
  | railCompleted amount =>
      have hs : d.status = .railInitiated := h
      have hi := stampedStatus_eq_railInitiated.mp ((hd.status (by simp [hs])).symm.trans hs)
      have hu := hd.unfunded (by simp [hs])
      have hr := hd.unfailed (by simp [hs])
      have ht := hd.transfer
      constructor <;> simp_all [after, stampedStatus]
  | brokerFunded fundingRef =>
      have hs : d.status = .railCompleted := h
      have hc := stampedStatus_eq_railCompleted.mp ((hd.status (by simp [hs])).symm.trans hs)
      have hu := hd.unfunded (by simp [hs])
      have hr := hd.unfailed (by simp [hs])
      have hi := hd.completed hc.1
      have ht := hd.transfer
      constructor <;> simp_all [after, stampedStatus]
  | failed reason =>
      have hu := hd.unfunded (by rcases h with h | h | h <;> simp [h])
      exact
        { transfer := hd.transfer
          completed := hd.completed
          destinationAmount := hd.destinationAmount
          fundingRef := hd.fundingRef
          funded := by simp [after, hu]
          failureReason := by simp [after]
          usage := by simp [after, hu]
          status := by simp [after] }
  | usageRecorded =>
      exact { hd with usage := fun _ => h }

/-! ## Any number of marks -/

theorem mark_cases (e : Event) (now : Instant) (d : Deposit) :
    d.Allows e ∧ (e.steps now).run d = (.ok (), d.after e now) ∨
      ∃ f, (e.steps now).run d = (.error f, d) := by
  rw [steps_run, Event.outcome]
  cases ha : d.apply e now with
  | ok d' =>
      obtain ⟨hal, rfl⟩ := apply_eq_ok_iff.mp ha
      exact .inl ⟨hal, rfl⟩
  | error f => exact .inr ⟨f, rfl⟩

theorem Stamped.mark (hd : d.Stamped) (e : Event) (now : Instant) :
    ((e.steps now).run d).2.Stamped := by
  rcases mark_cases e now d with ⟨hal, he⟩ | ⟨f, he⟩
  · rw [he]
    exact hd.advance hal now
  · rw [he]
    exact hd

theorem Stamped.marked (hd : d.Stamped) (marks : List (Event × Instant)) :
    (d.marked marks).Stamped := by
  induction marks generalizing d with
  | nil => exact hd
  | cons mark marks ih => exact ih (hd.mark mark.1 mark.2)

theorem status_of_mark (e : Event) (now : Instant) (d : Deposit) :
    ((e.steps now).run d).2.status = d.status ∨
      d.status.canBecome ((e.steps now).run d).2.status := by
  rcases mark_cases e now d with ⟨hal, he⟩ | ⟨f, he⟩
  · rw [he]
    exact status_of_apply (apply_eq_ok_iff.mpr ⟨hal, rfl⟩)
  · rw [he]
    exact .inl rfl

theorem stages_isChain (d : Deposit) (marks : List (Event × Instant)) :
    (d.status :: d.stages marks).IsChain fun s t => t = s ∨ s.canBecome t := by
  induction marks generalizing d with
  | nil => exact .singleton _
  | cons mark marks ih => exact .cons_cons (status_of_mark mark.1 mark.2 d) (ih _)

/-- However marks are tried on a new record, its stages follow one another as they may. At any time a
mark that is refused changes no field, and one that is accepted takes the record to a next stage, or
notes the usage of a funded deposit. In every record that is reached each stage has left its instant
together with what it brings, and the instants tell the stage of a deposit that has not failed. -/
theorem record_stays_coherent (id user account : Uuid) (reference : String) (amount : Amount)
    (currency : String) (created : Instant) (marks : List (Event × Instant)) :
    let new := start id user account reference amount currency created
    let d := new.marked marks
    ((new.status :: new.stages marks).IsChain fun s t => t = s ∨ s.canBecome t) ∧
      (∀ (e : Event) (now : Instant),
        (∀ f, ((e.steps now).run d).1 = .error f → ((e.steps now).run d).2 = d) ∧
          (((e.steps now).run d).1 = .ok () → e ≠ .usageRecorded →
            d.status.canBecome ((e.steps now).run d).2.status)) ∧
      d.Stamped := by
  intro new d
  refine ⟨stages_isChain new marks, fun e now => ?_, ?_⟩
  · rcases mark_cases e now d with ⟨hal, he⟩ | ⟨f, he⟩
    · rw [he]
      exact ⟨fun _ h => (nomatch h), fun _ hne => canBecome_after hal hne⟩
    · rw [he]
      exact ⟨fun _ _ => rfl, fun h => (nomatch h)⟩
  · exact (stamped_start id user account reference amount currency created).marked marks

end Causeway.Deposit
