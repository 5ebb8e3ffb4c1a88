import Causeway.Deposit.Basic
import Mathlib.Logic.Relation

/-!
# What becomes of a deposit

`Moves` is one change that the crossing makes to a deposit and `Leads` any number of them. Between
two changes of its stage a deposit stays as it is, so an event that fits an old copy fits the deposit
itself as long as their stages agree, and leaves the same behind (`Leads.apply_eq`).
-/

namespace Causeway.Deposit

variable {d d' d'' : Deposit} {e : Event} {now : Instant}

/-! ## Events -/

def Allows (d : Deposit) : Event → Prop
  | .railInitiated _ => d.status = .created
  | .railCompleted _ => d.status = .railInitiated
  | .brokerFunded _ => d.status = .railCompleted
  | .failed _ => d.status = .created ∨ d.status = .railInitiated ∨ d.status = .railCompleted
  | .usageRecorded => d.status = .brokerFunded

/-- The deposit after an event that it allows. -/
def after (d : Deposit) (e : Event) (now : Instant) : Deposit :=
  match e with
  | .railInitiated t =>
    { d with status := .railInitiated, updatedAt := now, transfer := some t,
             railInitiatedAt := some now }
  | .railCompleted amount =>
    { d with status := .railCompleted, updatedAt := now, destinationAmount := amount,
             railCompletedAt := some now }
  | .brokerFunded fundingRef =>
    { d with status := .brokerFunded, updatedAt := now, fundingRef := some fundingRef,
             brokerFundedAt := some now }
  | .failed reason => { d with status := .failed, updatedAt := now, failureReason := some reason }
  | .usageRecorded => { d with usageRecordedAt := some now, updatedAt := now }

theorem apply_eq_ok_iff : d.apply e now = .ok d' ↔ d.Allows e ∧ d' = d.after e now := by
  cases e <;> cases hs : d.status <;>
    simp [apply, moveTo, Status.canBecome, Allows, after, hs, bind, Except.bind, pure, Except.pure,
      eq_comm]

/-! ## Fields that never change -/

/-- What a deposit was created with. -/
structure Origin where
  id : Uuid
  user : Uuid
  account : Uuid
  reference : String
  amount : Amount
  currency : String
  createdAt : Instant

def origin (d : Deposit) : Origin :=
  ⟨d.id, d.user, d.account, d.reference, d.amount, d.currency, d.createdAt⟩

theorem origin_after (d : Deposit) (e : Event) (now : Instant) :
    (d.after e now).origin = d.origin := by
  cases e <;> rfl

theorem origin_of_apply (h : d.apply e now = .ok d') : d'.origin = d.origin := by
  rw [(apply_eq_ok_iff.mp h).2, origin_after]

/-! ## Changes -/

/-- One change that the crossing makes: an event, but never the failure of a deposit that has come
over the rail. -/
def Moves (d d' : Deposit) : Prop :=
  ∃ e now, d.apply e now = .ok d' ∧ (d.status = .railCompleted → ∀ reason, e ≠ .failed reason)

abbrev Leads : Deposit → Deposit → Prop := Relation.ReflTransGen Moves

theorem Moves.origin (h : Moves d d') : d'.origin = d.origin :=
  let ⟨_, _, ha, _⟩ := h
  origin_of_apply ha

theorem Leads.origin (h : Leads d d') : d'.origin = d.origin := by
  induction h with
  | refl => rfl
  | tail _ h ih => exact h.origin.trans ih

theorem Leads.id_eq (h : Leads d d') : d'.id = d.id := congrArg Origin.id h.origin

theorem Leads.user_eq (h : Leads d d') : d'.user = d.user := congrArg Origin.user h.origin

theorem Leads.account_eq (h : Leads d d') : d'.account = d.account :=
  congrArg Origin.account h.origin

theorem Leads.amount_eq (h : Leads d d') : d'.amount = d.amount := congrArg Origin.amount h.origin

/-- The stages in the order in which a deposit passes them; the two last ones end its way. -/
def Status.rank : Status → Nat
  | .created => 0
  | .railInitiated => 1
  | .railCompleted => 2
  | .brokerFunded => 3
  | .failed => 3

/-- The deposit with the mark of its usage, and the instant of the change that set it, as in `m`. -/
def markedAs (d m : Deposit) : Deposit :=
  { d with usageRecordedAt := m.usageRecordedAt, updatedAt := m.updatedAt }

/-- A change takes a deposit to a later stage, or marks the usage of a funded one. -/
theorem Moves.rank_lt_or (h : Moves d d') :
    d.status.rank < d'.status.rank ∨ d.status = .brokerFunded ∧ d' = d.markedAs d' := by
  obtain ⟨e, now, ha, _⟩ := h
  obtain ⟨hal, rfl⟩ := apply_eq_ok_iff.mp ha
  cases e with
  | failed _ => left; rcases hal with hs | hs | hs <;> simp [after, Status.rank, hs]
  | usageRecorded => exact Or.inr ⟨hal, rfl⟩
  | _ => left; simp_all [Allows, after, Status.rank]

theorem Leads.rank_le (h : Leads d d') : d.status.rank ≤ d'.status.rank := by
  induction h with
  | refl => exact Nat.le_refl _
  | tail _ h ih =>
      rcases h.rank_lt_or with hlt | ⟨_, he⟩
      · omega
      · rw [he]; exact ih

/-- At one stage a deposit does not change, but for the mark of a funded one. -/
theorem Leads.eq_markedAs (h : Leads d d') (hs : d'.status = d.status) :
    d' = d ∨ d.status = .brokerFunded ∧ d' = d.markedAs d' := by
  induction h with
  | refl => exact Or.inl rfl
  | @tail b c hb hm ih =>
      have hle := Leads.rank_le hb
      rcases hm.rank_lt_or with hlt | ⟨hf, he⟩
      · rw [hs] at hlt; omega
      · have hbs : b.status = d.status := by rw [← hs, he]; rfl
        rcases ih hbs with rfl | ⟨hd, hb'⟩
        · exact Or.inr ⟨hf, he⟩
        · refine Or.inr ⟨hd, ?_⟩
          rw [he, hb']; rfl

/-- An event that an old copy allows does the same to the deposit, if it is still at that stage. -/
theorem Leads.apply_eq (h : Leads d d'') (hs : d''.status = d.status)
    (ha : d.apply e now = .ok d') : d''.apply e now = .ok d' := by
  rcases h.eq_markedAs hs with rfl | ⟨hf, he⟩
  · exact ha
  · obtain ⟨hal, rfl⟩ := apply_eq_ok_iff.mp ha
    cases e with
    | usageRecorded => rw [apply_eq_ok_iff, he]; exact ⟨hf, rfl⟩
    | _ => simp [Allows, hf] at hal

/-! ## Settled deposits -/

/-- The deposit has come over the rail. -/
def Settled (d : Deposit) : Prop := d.status = .railCompleted ∨ d.status = .brokerFunded

theorem Moves.settled (h : Moves d d') (hd : d.Settled) :
    d'.Settled ∧ d'.settledAmount = d.settledAmount := by
  obtain ⟨e, now, ha, hf⟩ := h
  obtain ⟨hal, rfl⟩ := apply_eq_ok_iff.mp ha
  rcases hd with hd | hd <;> cases e <;>
    simp_all [Allows, after, Settled, settledAmount]

theorem Leads.settled (h : Leads d d') (hd : d.Settled) :
    d'.Settled ∧ d'.settledAmount = d.settledAmount := by
  induction h with
  | refl => exact ⟨hd, rfl⟩
  | tail _ hm ih =>
      obtain ⟨hs, ha⟩ := hm.settled ih.1
      exact ⟨hs, ha.trans ih.2⟩

theorem Moves.funded (h : Moves d d') (hd : d.status = .brokerFunded) : d' = d.markedAs d' := by
  rcases h.rank_lt_or with hlt | ⟨_, he⟩
  · rw [hd] at hlt
    cases hs : d'.status <;> simp [hs, Status.rank] at hlt
  · exact he

theorem Leads.funded (h : Leads d d') (hd : d.status = .brokerFunded) : d' = d.markedAs d' := by
  induction h with
  | refl => rfl
  | @tail b c hb hm ih =>
      have hbs : b.status = .brokerFunded := by rw [ih]; exact hd
      rw [hm.funded hbs, ih]; rfl

theorem Leads.status_funded (h : Leads d d') (hd : d.status = .brokerFunded) :
    d'.status = .brokerFunded := by
  rw [h.funded hd]; exact hd

end Causeway.Deposit
