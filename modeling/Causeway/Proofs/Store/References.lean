import Causeway.Proofs.Store.Transfers

/-!
# References and refused writes

A write enters a deposit table by table. All its checks come before its first entry, so a write that
is refused leaves every table as it was (`steps_run`). The index of references stays exact whatever
is written, hence no reference is shared or changed, no deposit is lost, and a change goes through
only at the stage that its writer has seen (`references_kept`).
-/

namespace Causeway.Store.Deposits

variable {s s' : Deposits} {d : Deposit} {expected : Deposit.Status} {wr : Write} {e : Failure}

/-! ## Step by step -/

/-- Steps on the tables. A step that fails leaves what earlier ones have entered. -/
abbrev Entering := ExceptT Failure (StateM Deposits)

def enterReference (d : Deposit) : Entering Unit :=
  modify fun s => { s with byReference := s.byReference.insert d.reference d.id }

def enterTransfer (d : Deposit) : Entering Unit :=
  modify fun s => { s with byTransfer := s.linked d }

def enterDeposit (d : Deposit) : Entering Unit :=
  modify fun s => { s with byId := s.byId.insert d.id d }

def createSteps (d : Deposit) : Entering Unit := do
  if (← get).byReference.contains d.reference then throw (.duplicateReference d.reference)
  if (← get).byId.contains d.id then throw (.storage (.depositExists d.id))
  enterReference d
  enterTransfer d
  enterDeposit d

/-- The check of the transfer is the last before its entry. -/
def updateSteps (d : Deposit) (expected : Deposit.Status) : Entering Unit := do
  match (← get).get? d.id with
  | none => throw (.notFound .deposit d.id.toText)
  | some stored =>
    if stored.status ≠ expected then throw (.stale d.id.toText)
    if stored.reference ≠ d.reference then throw (.storage (.referenceChanged d.id))
    match (← get).otherOwner? d with
    | some (transfer, owner) => throw (.storage (.transferTaken transfer owner))
    | none => enterTransfer d
    enterDeposit d

def Write.steps : Write → Entering Unit
  | create d => createSteps d
  | update d expected => updateSteps d expected

/-- What a write answers, and the tables after it. -/
def Write.outcome (wr : Write) (s : Deposits) : Except Failure Unit × Deposits :=
  match wr.run s with
  | .ok s' => (.ok (), s')
  | .error e => (.error e, s)

theorem run_get {α : Type} (f : Deposits → Entering α) (s : Deposits) :
    (get >>= f).run s = (f s).run s := rfl

theorem createSteps_run (d : Deposit) (s : Deposits) :
    (createSteps d).run s = (Write.create d).outcome s := by
  simp only [createSteps, run_get, Write.outcome, Write.run, create]
  cases s.byReference.contains d.reference with
  | true => rfl
  | false =>
      simp only [Bool.false_eq_true, if_false, run_get]
      cases s.byId.contains d.id with
      | true => rfl
      | false => rfl

theorem updateSteps_run (d : Deposit) (expected : Deposit.Status) (s : Deposits) :
    (updateSteps d expected).run s = (Write.update d expected).outcome s := by
  simp only [updateSteps, run_get, Write.outcome, Write.run, update, get?]
  cases hd : s.byId.get? d.id with
  | none => rfl
  | some stored =>
      dsimp only
      by_cases hst : stored.status ≠ expected
      · simp only [if_pos hst]
        rfl
      · by_cases href : stored.reference ≠ d.reference
        · simp only [if_neg hst, if_pos href]
          rfl
        · simp only [if_neg hst, if_neg href, run_get]
          cases hown : s.otherOwner? d with
          | some taken => rfl
          | none => rfl

/-- A write that is accepted enters all that it brings, and one that is refused nothing. -/
theorem steps_run (wr : Write) (s : Deposits) : wr.steps.run s = wr.outcome s := by
  cases wr with
  | create d => exact createSteps_run d s
  | update d expected => exact updateSteps_run d expected s

theorem steps_of_error (h : (wr.steps.run s).1 = .error e) : (wr.steps.run s).2 = s := by
  rw [steps_run, Write.outcome] at h ⊢
  split at h
  · cases h
  · rfl

/-! ## References -/

theorem Referenced.run (h : s.Referenced) (hr : wr.run s = .ok s') : s'.Referenced := by
  cases wr with
  | create d => exact h.create hr
  | update d expected => exact h.update hr

theorem referenced_written (wrs : List Write) : (written wrs).Referenced := by
  induction wrs using List.reverseRecOn with
  | nil => exact Indexed.empty.reference
  | append_singleton wrs wr ih =>
      rw [written_snoc, Write.apply]
      split
      · rename_i hr
        exact ih.run hr
      · exact ih

/-- A stored deposit stays stored with its reference. -/
def KeepsReferences (s s' : Deposits) : Prop :=
  ∀ id d, s.get? id = some d → ∃ d', s'.get? id = some d' ∧ d'.reference = d.reference

theorem KeepsReferences.refl (s : Deposits) : s.KeepsReferences s := fun _ d hd => ⟨d, hd, rfl⟩

theorem KeepsReferences.trans {s'' : Deposits} (h : s.KeepsReferences s')
    (h' : s'.KeepsReferences s'') : s.KeepsReferences s'' := by
  intro id d hd
  obtain ⟨d', hd', href'⟩ := h id d hd
  obtain ⟨d'', hd'', href''⟩ := h' id d' hd'
  exact ⟨d'', hd'', href''.trans href'⟩

theorem keepsReferences_run (hr : wr.run s = .ok s') : s.KeepsReferences s' := by
  intro id cur hcur
  rw [get?_run hr]
  by_cases hid : wr.deposit.id = id
  · rw [if_pos hid]
    refine ⟨wr.deposit, rfl, ?_⟩
    subst hid
    cases wr with
    | create d =>
        rw [Write.deposit, (create_eq_ok hr).1] at hcur
        cases hcur
    | update d expected =>
        obtain ⟨cur', hcur', -, href, -⟩ := update_eq_ok hr
        rw [Write.deposit, hcur'] at hcur
        cases hcur
        exact href.symm
  · rw [if_neg hid]
    exact ⟨cur, hcur, rfl⟩

theorem keepsReferences_written {past wrs : List Write} (h : past <+: wrs) :
    (written past).KeepsReferences (written wrs) := by
  obtain ⟨rest, rfl⟩ := h
  induction rest using List.reverseRecOn with
  | nil =>
      rw [List.append_nil]
      exact .refl _
  | append_singleton rest wr ih =>
      rw [← List.append_assoc, written_snoc, Write.apply]
      split
      · rename_i hr
        exact ih.trans (keepsReferences_run hr)
      · exact ih

/-- An update is accepted only at the stage that its writer has seen. It replaces one record. -/
theorem update_replaces (h : s.update d expected = .ok s') :
    (∃ cur, s.get? d.id = some cur ∧ cur.status = expected ∧ cur.reference = d.reference) ∧
      s'.byReference = s.byReference ∧
      ∀ id, s'.get? id = if d.id = id then some d else s.get? id := by
  obtain ⟨cur, hcur, hst, href, -, hs'⟩ := update_eq_ok h
  exact ⟨⟨cur, hcur, hst, href⟩, by rw [hs'], fun id => get?_update h⟩

/-- Whatever has been written to an empty store, the index of references leads to the deposit that
has the reference and to no other; what was stored at any time still is, with the same reference; a
deposit can be created exactly if its reference and its id are free; an update compares the stage,
and replaces one record; and a refused write leaves all tables as they are. -/
theorem references_kept (wrs : List Write) :
    (written wrs).Referenced ∧
      (∀ id id' d d', (written wrs).get? id = some d → (written wrs).get? id' = some d' →
        d.reference = d'.reference → id = id') ∧
      (∀ past, past <+: wrs → (written past).KeepsReferences (written wrs)) ∧
      (∀ d, (∃ s', (written wrs).create d = .ok s') ↔
        (∀ id d', (written wrs).get? id = some d' → d'.reference ≠ d.reference) ∧
          (written wrs).get? d.id = none) ∧
      (∀ d expected s', (written wrs).update d expected = .ok s' →
        (∃ cur, (written wrs).get? d.id = some cur ∧ cur.status = expected ∧
          cur.reference = d.reference) ∧
        s'.byReference = (written wrs).byReference ∧
        ∀ id, s'.get? id = if d.id = id then some d else (written wrs).get? id) ∧
      ∀ wr : Write, wr.steps.run (written wrs) = wr.outcome (written wrs) ∧
        ∀ e, (wr.steps.run (written wrs)).1 = .error e →
          (wr.steps.run (written wrs)).2 = written wrs := by
  have hreferenced := referenced_written wrs
  refine ⟨hreferenced, ?unique, ?kept, ?creation, ?change, ?refused⟩
  case unique => exact fun id id' d d' hd hd' href => hreferenced.inj hd hd' href
  case kept => exact fun past h => keepsReferences_written h
  case creation =>
    intro d
    rw [create_eq_ok_iff, hreferenced.eq_none_iff]
  case change => exact fun d expected s' h => update_replaces h
  case refused => exact fun wr => ⟨steps_run wr _, fun e h => steps_of_error h⟩

/-- A deposit under a stored id is refused before its transfer is entered. -/
example :
    let d := { Sample.first with reference := "ref-2", transfer := some "tx-2" }
    ((createSteps d).run (written [.create Sample.first])).2 = written [.create Sample.first] := by
  decide

end Causeway.Store.Deposits
