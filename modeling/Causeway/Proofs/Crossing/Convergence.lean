import Causeway.Proofs.Crossing.Claims
import Causeway.Proofs.Crossing.Handling
import Causeway.Proofs.Crossing.Resume

/-!
# One sweep is enough

In a calm world a sweep takes every deposit as far as it can be taken, so the next one finds nothing
to do. Each visit concerns one deposit, and the phases of the sweep come in such an order that what
one of them leaves to do is taken up by a later one.
-/

namespace Causeway.Crossing

open Deposit (Event Status)
open World (SameBut Unmoved Untouched)

variable {s : Settings} {now : Instant} {w₀ w w' : World} {d d' : Deposit} {report report' : Report}
  {stage : Status} {ds : List Deposit} {K : World → Prop} {P : Request → Prop}
  {E : Failure → World → Prop}

/-- A sweep finds nothing to do about the deposit. -/
def Rests (s : Settings) (now : Instant) (w : World) (d : Deposit) : Prop :=
  match d.status with
  | .created => isStale s now d = false
  | .railInitiated => ∀ transfer, d.transfer = some transfer → OnTheWay w transfer
  | .railCompleted => False
  | .brokerFunded => d.usageRecordedAt.isSome
  | .failed => True

/-- Whatever a sweep asks for is there to be had. -/
structure Provided (s : Settings) (now : Instant) (w : World) : Prop where
  calm : w.Calm 0
  accounts : ∀ id d, w.deposits.get? id = some d → ∃ a, w.accounts.get? d.account = some a
  /-- The provider takes the orders that are to be placed again. -/
  accepted : ∀ id d, w.deposits.get? id = some d → d.status = .created → isStale s now d →
    s.provider.validate (request s d) = .ok ()
  /-- Whatever has come over the rail is worth paying in. -/
  settled : ∀ id d, w.deposits.get? id = some d → d.status = .railCompleted →
    ¬ d.settledAmount ≤ .zero
  paid : ∀ t ∈ w.rail.transfers, t.state = .completed → ∀ a, t.destination.amount = some a →
    ¬ a ≤ .zero

/-- Nothing keeps a sweep from taking every deposit as far as it can be taken. -/
structure Ready (s : Settings) (now : Instant) (w : World) : Prop extends Provided s now w where
  /-- No funding is under way. -/
  unclaimed : ∀ id ∈ w.claims, ∀ d, w.deposits.get? id = some d →
    d.status = .brokerFunded ∨ d.status = .failed

/-! ## Visits -/

/-- What a visit makes of a deposit. -/
inductive Visited (s : Settings) (now : Instant) (w : World) (d : Deposit) : Deposit → Prop where
  | left (h : Rests s now w d) : Visited s now w d d
  | resumed {d' : Deposit} (hst : d.status = .created) (hstale : isStale s now d)
      (h : d'.status = .railInitiated) : Visited s now w d d'
  | ended {d' : Deposit} (hst : d.status ≠ .created) (h : Counted d' ∨ d'.status = .failed) :
      Visited s now w d d'

/-- A visit has met no error and has concerned one deposit only. -/
def Visits (s : Settings) (now : Instant) (d : Deposit) (w : World) (report report' : Report)
    (w' : World) : Prop :=
  report'.errors = report.errors ∧
    ∃ d', Handling w w.claims d' w' ∧ d'.origin = d.origin ∧ Visited s now w' d d'

theorem not_claimed (h : Ready s now w) (hd : w.deposits.get? d.id = some d)
    (hst : d.status ≠ .brokerFunded) (hst' : d.status ≠ .failed) : d.id ∉ w.claims := fun hmem =>
  (h.unclaimed d.id hmem d hd).elim hst hst'

theorem visitFunding_visits (h : Ready s now w) (hd : w.deposits.get? d.id = some d)
    (hst : d.status = .railCompleted) :
    unhindered.Keeps (visitFunding s report d) (Visits s now d w report) w := by
  have hfree := not_claimed h hd (by simp [hst]) (by simp [hst])
  refine Rules.Yields.keeps (fund_handling (.start h.calm hd) hst hfree (h.accounts _ d hd)
    (h.settled _ d hd hst) fun d' w' hd' horigin hcounted => ?_)
  exact ⟨rfl, d', hd', horigin, .ended (by simp [hst]) (.inl hcounted)⟩

theorem visitCreated_visits (h : Ready s now w) (hd : w.deposits.get? d.id = some d)
    (hst : d.status = .created) :
    unhindered.Keeps (visitCreated s now report d) (Visits s now d w report) w := by
  have hstart := Handling.start h.calm hd
  unfold visitCreated
  cases hstale : isStale s now d with
  | false =>
      have hrests : Rests s now w d := by
        unfold Rests
        rw [hst]
        exact hstale
      exact ⟨rfl, d, hstart, rfl, .left hrests⟩
  | true =>
      refine Rules.Yields.keeps (startRail_handling hstart hst (h.accepted _ d hd hst hstale)
        fun d' w' hd' horigin hst' => ?_)
      exact ⟨rfl, d', hd', horigin, .resumed hst hstale hst'⟩

theorem visitInitiated_visits (h : Ready s now w) (hk : Countable w)
    (hpage : 0 < s.provider.listPageSize) (hd : w.deposits.get? d.id = some d)
    (hst : d.status = .railInitiated) :
    unhindered.Keeps (visitInitiated s report d) (Visits s now d w report) w := by
  have hstart := Handling.start h.calm hd
  have hrests {w' : World} (hw' : ∀ transfer, d.transfer = some transfer → OnTheWay w' transfer) :
      Rests s now w' d := by
    unfold Rests
    rw [hst]
    exact hw'
  unfold visitInitiated
  cases htransfer : d.transfer with
  | none => exact ⟨rfl, d, hstart, rfl, .left (hrests (by simp [htransfer]))⟩
  | some transfer =>
      obtain ⟨t, hfind, rfl, hlinked⟩ := linked_of_countable hk hpage hd htransfer
      by_cases hpending : t.state = .pending ∨ t.state = .paymentProcessed
      · refine Rules.Yields.keeps (Rules.Yields.mono (callback_pending (E := fun _ _ => False)
          (fun _ _ => trivial) h.calm hlinked hst hpending) ?_ fun _ _ => False.elim)
        rintro out w' ⟨rfl, hcalm, hmoved⟩
        refine ⟨rfl, d, hstart.untouched hmoved.untouched hcalm, rfl, .left (hrests ?_)⟩
        intro transfer ht
        rw [htransfer] at ht
        cases ht
        refine ⟨t, ?_, hpending⟩
        unfold Rail.Sandbox.find? at hfind ⊢
        rwa [hmoved.transfers]
      · have hended : t.state = .completed ∨ t.state = .failed ∨ t.state = .unknown := by
          cases ht : t.state <;> simp_all
        refine Rules.Yields.keeps (callback_ended hstart hlinked hst
          (not_claimed h hd (by simp [hst]) (by simp [hst])) (h.accounts _ d hd)
          (h.paid t hlinked.held) hended fun out d' w' hd' horigin hout => ?_)
        -- Whatever the news was, it is no error.
        have hvisits {report' : Report} (he : report'.errors = report.errors) :
            Visits s now d w report report' w' :=
          ⟨he, d', hd', horigin, .ended (by simp [hst]) hout⟩
        split <;> first | exact hvisits rfl | cases ‹_ = Except.error _›

theorem visitFunded_visits (h : Ready s now w) (hd : w.deposits.get? d.id = some d)
    (hst : d.status = .brokerFunded) :
    unhindered.Keeps (visitFunded report d) (Visits s now d w report) w :=
  Rules.Yields.keeps (recordUsage_handling (.start h.calm hd) hst fun d' _ hd' horigin hcounted =>
    ⟨rfl, d', hd', horigin, .ended (by simp [hst]) (.inl hcounted)⟩)

/-! ## What a visit leaves as it was -/

theorem OnTheWay.grows {transfer : String} (h : OnTheWay w transfer)
    (hw : w.rail.transfers <+: w'.rail.transfers) : OnTheWay w' transfer := by
  obtain ⟨t, hfind, ht⟩ := h
  exact ⟨t, hw.find?_eq_some hfind, ht⟩

theorem Rests.grows (h : Rests s now w d) (hw : w.rail.transfers <+: w'.rail.transfers) :
    Rests s now w' d := by
  unfold Rests at h ⊢
  split <;> simp_all only
  exact fun transfer ht => (h transfer ht).grows hw

/-- What is stored after a visit is what was stored before, or what the visit has made of its
deposit. -/
theorem Handling.cases {cs : List Uuid} (h : Handling w cs d' w') (hid : d'.id = d.id) {id : Uuid}
    {x : Deposit} (hx : w'.deposits.get? id = some x) :
    id = d.id ∧ x = d' ∨ id ≠ d.id ∧ w.deposits.get? id = some x := by
  by_cases hne : id = d.id
  · subst hne
    have hstored := h.stored
    rw [hid, hx] at hstored
    cases hstored
    exact .inl ⟨rfl, rfl⟩
  · rw [h.others id (by rw [hid]; exact hne)] at hx
    exact .inr ⟨hne, hx⟩

/-- A visit brings no deposit to a stage that a sweep takes up before the rail. -/
theorem Visited.eq_of_status (h : Visited s now w d d')
    (hst : d'.status = .created ∨ d'.status = .railCompleted) : d' = d := by
  cases h with
  | left hrests => rfl
  | resumed _ _ hst' => simp [hst'] at hst
  | ended _ hended =>
      rcases hended with hcounted | hfailed
      · simp [hcounted.funded] at hst
      · simp [hfailed] at hst

/-- After a visit everything is ready for the next. -/
theorem Ready.visited (h : Ready s now w) (hd : w.deposits.get? d.id = some d)
    (hd' : Handling w w.claims d' w') (horigin : d'.origin = d.origin)
    (hvisit : Visited s now w' d d') : Ready s now w' := by
  have hid : d'.id = d.id := congrArg Deposit.Origin.id horigin
  refine ⟨⟨hd'.calm, fun id x hx => ?_, fun id x hx hst hstale => ?_, fun id x hx hst => ?_, ?_⟩,
    ?_⟩
  · rw [hd'.accounts]
    rcases hd'.cases hid hx with ⟨-, rfl⟩ | ⟨-, hx⟩
    · rw [show x.account = d.account from congrArg Deposit.Origin.account horigin]
      exact h.accounts _ d hd
    · exact h.accounts id x hx
  · rcases hd'.cases hid hx with ⟨-, rfl⟩ | ⟨-, hx⟩
    · obtain rfl := hvisit.eq_of_status (.inl hst)
      exact h.accepted _ _ hd hst hstale
    · exact h.accepted id x hx hst hstale
  · rcases hd'.cases hid hx with ⟨-, rfl⟩ | ⟨-, hx⟩
    · obtain rfl := hvisit.eq_of_status (.inr hst)
      exact h.settled _ _ hd hst
    · exact h.settled id x hx hst
  · intro t ht hst
    rcases hd'.opened t ht with hold | hpending
    · exact h.paid t hold hst
    · rw [hpending] at hst; cases hst
  · intro id hmem x hx
    rw [hd'.claims] at hmem
    rcases hd'.cases hid hx with ⟨rfl, rfl⟩ | ⟨-, hx⟩
    · have hterminal := h.unclaimed _ hmem d hd
      cases hvisit with
      | left hrests => exact hterminal
      | resumed hst => rw [hst] at hterminal; rcases hterminal with h | h <;> cases h
      | ended _ hended => exact hended.imp Counted.funded id
    · exact h.unclaimed id hmem x hx

/-! ## The phases -/

/-- When a sweep takes up deposits at a stage. -/
def turn : Status → Nat
  | .railCompleted => 0
  | .created => 1
  | .railInitiated => 2
  | .brokerFunded => 3
  | .failed => 4

/-- How far a phase has come that began its visits with these deposits still to be visited. -/
structure Sweeping (s : Settings) (now : Instant) (w₀ : World) (stage : Status) (report : Report)
    (ds : List Deposit) (w : World) : Prop where
  ready : Ready s now w
  errors : report.errors = 0
  /-- Deposits that are not stale yet are as they were. -/
  young : ∀ id d, w₀.deposits.get? id = some d → d.status = .created → isStale s now d = false →
    w.deposits.get? id = some d
  listed : ∀ d ∈ ds, w.deposits.get? d.id = some d ∧ d.status = stage
  distinct : (ds.map (·.id)).Nodup
  /-- What is not to be visited in this phase is so later, or not at all. -/
  behind : ∀ d, w.deposits.get? d.id = some d →
    Rests s now w d ∨ turn stage < turn d.status ∨ d ∈ ds

theorem Sweeping.visited (h : Sweeping s now w₀ stage report (d :: ds) w)
    (hvisit : Visits s now d w report report' w') : Sweeping s now w₀ stage report' ds w' := by
  obtain ⟨herrors, d', hd', horigin, hvisited⟩ := hvisit
  obtain ⟨hd, hst⟩ := h.listed d (by simp)
  have hid : d'.id = d.id := congrArg Deposit.Origin.id horigin
  have hdistinct := h.distinct
  rw [List.map_cons, List.nodup_cons] at hdistinct
  have hother : ∀ e ∈ ds, e.id ≠ d.id := fun e he heq =>
    hdistinct.1 (heq ▸ List.mem_map_of_mem he)
  refine ⟨h.ready.visited hd hd' horigin hvisited, herrors.trans h.errors, ?_, ?_, hdistinct.2, ?_⟩
  · intro id x hx hcreated hyoung
    have hx' := h.young id x hx hcreated hyoung
    by_cases hne : id = d.id
    · subst hne
      rw [hd] at hx'
      cases hx'
      -- A visit leaves the deposit if it is not stale.
      cases hvisited with
      | left hrests => exact hd'.stored
      | resumed _ hstale => rw [hyoung] at hstale; cases hstale
      | ended hne => exact absurd hcreated hne
    · rw [hd'.others id (by rw [hid]; exact hne)]
      exact hx'
  · intro e he
    obtain ⟨he', hest⟩ := h.listed e (by simp [he])
    rw [hd'.others e.id (by rw [hid]; exact hother e he)]
    exact ⟨he', hest⟩
  · intro x hx
    rcases hd'.cases hid hx with ⟨-, rfl⟩ | ⟨hne, hx⟩
    · cases hvisited with
      | left hrests => exact .inl hrests
      | resumed hcreated _ hst' =>
          refine .inr (.inl ?_)
          rw [← hst, hcreated, hst']
          decide
      | ended _ hended =>
          refine .inl ?_
          unfold Rests
          rcases hended with hcounted | hfailed
          · rw [hcounted.funded]
            exact hcounted.recorded
          · rw [hfailed]
            trivial
    · rcases h.behind x hx with hrests | hlater | hmem
      · exact .inl (hrests.grows hd'.transfers)
      · exact .inr (.inl hlater)
      · refine .inr (.inr ((List.mem_cons.mp hmem).resolve_left ?_))
        exact fun heq => hne (congrArg Deposit.id heq)

/-- What each visit preserves holds when all have been made, and none is left out. -/
theorem visitAll_alone {visit : Report → Deposit → Program Report}
    {I : Report → List Deposit → World → Prop} (hP : P .isCancelled)
    (hI : ∀ report ds w, I report ds w → w.Calm 0)
    (hvisit : ∀ report d ds w, K w → I report (d :: ds) w →
      (Rules.alone K P).Keeps (visit report d) (fun report w => I report ds w) w)
    (h : I report ds w) :
    (Rules.alone K P).Keeps (visitAll visit report ds) (fun r w => r.2 = true ∧ I r.1 [] w) w := by
  induction ds generalizing report w with
  | nil => exact ⟨rfl, h⟩
  | cons d ds ih =>
      have hask : w.perform .isCancelled = (.ok false, w) := by
        rw [World.perform, (hI _ _ _ h).not_cancelled]
      refine Rules.Keeps.bind (Rules.Keeps.answered hP (fun _ => hask) fun hk => ?_)
      exact Rules.Keeps.bind (Rules.Keeps.mono (hvisit report d ds w hk h) fun _ _ h => ih h)

theorem phase_sweeps {visit : Report → Deposit → Program Report}
    (hvisit : ∀ report d w, Countable w → Ready s now w → w.deposits.get? d.id = some d →
      d.status = stage → unhindered.Keeps (visit report d) (Visits s now d w report) w)
    (h : Sweeping s now w₀ stage report ds w) :
    unhindered.Yields (liftM (visitAll visit report ds) : Action (Report × Bool))
      (fun r w => r.2 = true ∧ Sweeping s now w₀ stage r.1 [] w) E w := by
  refine Rules.Yields.lift (visitAll_alone trivial (fun _ _ _ h => h.ready.calm)
    (fun report d ds w hk h => ?_) h)
  obtain ⟨hd, hst⟩ := h.listed d (by simp)
  exact Rules.Keeps.mono (hvisit report d w hk h.ready hd hst) fun _ _ => h.visited

/-- A phase lists all deposits at its stage, so nothing is forgotten if what is left to do is at
that stage or a later one. -/
theorem sweeping_of_listed (hs : w.deposits.Sound) (hready : Ready s now w)
    (herrors : report.errors = 0)
    (hyoung : ∀ id d, w₀.deposits.get? id = some d → d.status = .created →
      isStale s now d = false → w.deposits.get? id = some d)
    (h : ∀ d, w.deposits.get? d.id = some d → Rests s now w d ∨ turn stage ≤ turn d.status) :
    Sweeping s now w₀ stage report (w.deposits.withStatus stage) w := by
  refine ⟨hready, herrors, hyoung, fun d hd => (Store.Deposits.mem_withStatus hs).mp hd,
    Store.Deposits.nodup_withStatus hs _, fun d hd => ?_⟩
  rcases h d hd with hrests | hle
  · exact .inl hrests
  · refine .inr ((Nat.lt_or_eq_of_le hle).imp_right fun hturn => ?_)
    refine (Store.Deposits.mem_withStatus hs).mpr ⟨hd, ?_⟩
    cases stage <;> cases hst : d.status <;> simp_all [turn]

theorem Sweeping.next {stage' : Status} (h : Sweeping s now w₀ stage report [] w)
    (hs : w.deposits.Sound) (hturn : turn stage' = turn stage + 1) :
    Sweeping s now w₀ stage' report (w.deposits.withStatus stage') w := by
  refine sweeping_of_listed hs h.ready h.errors h.young fun d hd => ?_
  rcases h.behind d hd with hrests | hlater | hmem
  · exact .inl hrests
  · exact .inr (by omega)
  · cases hmem

/-- Those of which nothing is left to do need not be visited. -/
theorem Sweeping.filter {p : Deposit → Bool} (h : Sweeping s now w₀ stage report ds w)
    (hp : ∀ d ∈ ds, p d = false → Rests s now w d) :
    Sweeping s now w₀ stage report (ds.filter p) w where
  ready := h.ready
  errors := h.errors
  young := h.young
  listed d hd := h.listed d (List.mem_filter.mp hd).1
  distinct := h.distinct.sublist (List.filter_sublist.map _)
  behind d hd := by
    rcases h.behind d hd with hrests | hlater | hmem
    · exact .inl hrests
    · exact .inr (.inl hlater)
    · cases hkeep : p d with
      | true => exact .inr (.inr (List.mem_filter.mpr ⟨hmem, hkeep⟩))
      | false => exact .inl (hp d hmem hkeep)

/-! ## The sweep -/

theorem depositsIn_alone {Q : List Deposit → World → Prop} (hP : P (.depositsIn stage))
    (hcalm : w.Calm 0) (hQ : K w → Q (w.deposits.withStatus stage) w) :
    (Rules.alone K P).Yields (depositsIn stage) Q E w :=
  Rules.Yields.ask (Rules.Keeps.answered hP
    (fun _ => World.look_of_faultless hcalm.faultless (.depositsIn stage) _) hQ)

/-- What a sweep has done: there was no error, no deposit that was not stale has changed, and
nothing is left to do. -/
structure Swept (s : Settings) (now : Instant) (w₀ : World) (report : Report) (w : World) :
    Prop where
  calm : w.Calm 0
  errors : report.errors = 0
  young : ∀ id d, w₀.deposits.get? id = some d → d.status = .created → isStale s now d = false →
    w.deposits.get? id = some d
  rests : ∀ d, w.deposits.get? d.id = some d → Rests s now w d

theorem sweep_sweeps (h : Ready s now w) (hpage : 0 < s.provider.listPageSize) :
    unhindered.Yields (sweep s now) (Swept s now w) E w := by
  refine Rules.Yields.bind (depositsIn_alone trivial h.calm fun hk => ?_)
  have hfirst : Sweeping s now w .railCompleted {} (w.deposits.withStatus .railCompleted) w :=
    sweeping_of_listed hk.consistent.sound.deposits h rfl (fun _ _ hd _ _ => hd)
      fun d _ => .inr (Nat.zero_le _)
  refine Rules.Yields.next (phase_sweeps
    (fun _ _ _ _ h hd hst => visitFunding_visits h hd hst) hfirst) ?_
  rintro ⟨report, _⟩ w₁ ⟨rfl, h₁⟩
  refine Rules.Yields.bind (depositsIn_alone trivial h₁.ready.calm fun hk => ?_)
  refine Rules.Yields.next (phase_sweeps
    (fun _ _ _ _ h hd hst => visitCreated_visits h hd hst)
    (h₁.next hk.consistent.sound.deposits rfl)) ?_
  rintro ⟨report, _⟩ w₂ ⟨rfl, h₂⟩
  refine Rules.Yields.bind (depositsIn_alone trivial h₂.ready.calm fun hk => ?_)
  refine Rules.Yields.next (phase_sweeps
    (fun _ _ _ hk h hd hst => visitInitiated_visits h hk hpage hd hst)
    (h₂.next hk.consistent.sound.deposits rfl)) ?_
  rintro ⟨report, _⟩ w₃ ⟨rfl, h₃⟩
  refine Rules.Yields.bind (depositsIn_alone trivial h₃.ready.calm fun hk => ?_)
  have hlast : Sweeping s now w .brokerFunded report (w₃.deposits.withStatus .brokerFunded) w₃ :=
    h₃.next hk.consistent.sound.deposits rfl
  have hunrecorded := hlast.filter (p := fun d => d.usageRecordedAt.isNone) fun d hd hp => by
    unfold Rests
    rw [(hlast.listed d hd).2]
    simpa using hp
  refine Rules.Yields.next (phase_sweeps
    (fun _ _ _ _ h hd hst => visitFunded_visits h hd hst) hunrecorded) ?_
  rintro ⟨report, _⟩ w₄ ⟨-, h₄⟩
  refine Rules.Yields.pure ⟨h₄.ready.calm, h₄.errors, h₄.young, fun d hd => ?_⟩
  rcases h₄.behind d hd with hrests | hlater | hmem
  · exact hrests
  · unfold Rests
    cases hst : d.status <;> simp_all [turn]
  · cases hmem

/-! ## The next sweep -/

/-- A sweep has changed nothing so far and has only asked. -/
structure Idled (w₀ : World) (report : Report) (w : World) : Prop where
  calm : w.Calm 0
  unmoved : Unmoved w₀ w
  report : report = { polled := report.polled }

/-- Nothing is stored, ordered or paid between the requests, each of which only asks. -/
abbrev looking (w₀ : World) : Rules := Rules.alone (Unmoved w₀) World.Looks

theorem visitCreated_idles (h : Idled w₀ report w) (hrests : Rests s now w₀ d)
    (hst : d.status = .created) :
    (looking w₀).Keeps (visitCreated s now report d) (Idled w₀) w := by
  unfold Rests at hrests
  rw [hst] at hrests
  have hyoung : isStale s now d = false := hrests
  unfold visitCreated
  rw [hyoung]
  exact h

theorem visitInitiated_idles (hk : Countable w₀) (hpage : 0 < s.provider.listPageSize)
    (h : Idled w₀ report w) (hd : w₀.deposits.get? d.id = some d) (hrests : Rests s now w₀ d)
    (hst : d.status = .railInitiated) :
    (looking w₀).Keeps (visitInitiated s report d) (Idled w₀) w := by
  unfold Rests at hrests
  rw [hst] at hrests
  unfold visitInitiated
  cases htransfer : d.transfer with
  | none => exact h
  | some transfer =>
      obtain ⟨t, hfind, rfl, hlinked, hheld, hids, hlength, -⟩ :=
        linked_of_countable hk hpage hd htransfer
      obtain ⟨t', hfind', hpending⟩ := hrests _ htransfer
      obtain rfl : t = t' := Option.some.inj (hfind.symm.trans hfind')
      have hlinked' : Linked s w d t := by
        refine ⟨?_, ?_, ?_, ?_, hpage⟩
        · rw [h.unmoved.deposits]; exact hlinked
        all_goals rw [h.unmoved.transfers]; assumption
      refine Rules.Yields.keeps (Rules.Yields.mono (callback_pending (E := fun _ _ => False)
        (fun _ h => h) h.calm hlinked' hst hpending) ?_ fun _ _ => False.elim)
      rintro out w' ⟨rfl, hcalm, hmoved⟩
      refine ⟨hcalm, h.unmoved.trans hmoved, ?_⟩
      have hreport := h.report
      rw [hreport]

theorem phase_idles {visit : Report → Deposit → Program Report}
    (hvisit : ∀ report d w, d ∈ ds → Idled w₀ report w →
      (looking w₀).Keeps (visit report d) (Idled w₀) w)
    (h : Idled w₀ report w) :
    (looking w₀).Yields (liftM (visitAll visit report ds) : Action (Report × Bool))
      (fun r w => r.2 = true ∧ Idled w₀ r.1 w) E w := by
  refine Rules.Yields.lift (Rules.Keeps.mono (visitAll_alone
    (I := fun report ds' w => Idled w₀ report w ∧ ds' ⊆ ds) trivial (fun _ _ _ h => h.1.calm)
    (fun report d ds' w _ h => ?_) ⟨h, List.Subset.refl ds⟩) fun _ _ h => ⟨h.1, h.2.1⟩)
  obtain ⟨hd, hsub⟩ := List.cons_subset.mp h.2
  exact Rules.Keeps.mono (hvisit report d w hd h.1) fun _ _ h => ⟨h, hsub⟩

theorem sweep_idles (hk : Countable w) (hcalm : w.Calm 0) (hpage : 0 < s.provider.listPageSize)
    (hrests : ∀ d, w.deposits.get? d.id = some d → Rests s now w d) :
    (looking w).Yields (sweep s now) (fun report w' => report = { polled := report.polled } ∧
      Unmoved w w') E w := by
  have hs := hk.consistent.sound.deposits
  have hlisted {stage : Status} {w' : World} (hmoved : Unmoved w w') {d : Deposit}
      (hd : d ∈ w'.deposits.withStatus stage) :
      w.deposits.get? d.id = some d ∧ d.status = stage ∧ Rests s now w d := by
    rw [hmoved.deposits] at hd
    obtain ⟨hd, hst⟩ := (Store.Deposits.mem_withStatus hs).mp hd
    exact ⟨hd, hst, hrests d hd⟩
  refine Rules.Yields.bind (depositsIn_alone trivial hcalm fun hmoved => ?_)
  refine Rules.Yields.next (phase_idles (fun report d w₁ hd _ => ?_) ⟨hcalm, hmoved, rfl⟩) ?_
  · obtain ⟨-, hst, hrests⟩ := hlisted hmoved hd
    unfold Rests at hrests
    rw [hst] at hrests
    exact hrests.elim
  rintro ⟨report, _⟩ w₁ ⟨rfl, h₁⟩
  refine Rules.Yields.bind (depositsIn_alone trivial h₁.calm fun hmoved => ?_)
  refine Rules.Yields.next (phase_idles (fun report d w₁ hd h => ?_) h₁) ?_
  · obtain ⟨-, hst, hrests⟩ := hlisted hmoved hd
    exact visitCreated_idles h hrests hst
  rintro ⟨report, _⟩ w₂ ⟨rfl, h₂⟩
  refine Rules.Yields.bind (depositsIn_alone trivial h₂.calm fun hmoved => ?_)
  refine Rules.Yields.next (phase_idles (fun report d w₁ hd h => ?_) h₂) ?_
  · obtain ⟨hd, hst, hrests⟩ := hlisted hmoved hd
    exact visitInitiated_idles hk hpage h hd hrests hst
  rintro ⟨report, _⟩ w₃ ⟨rfl, h₃⟩
  refine Rules.Yields.bind (depositsIn_alone trivial h₃.calm fun hmoved => ?_)
  refine Rules.Yields.next (phase_idles (fun report d w₁ hd h => ?_) h₃) ?_
  · obtain ⟨hd, hunrecorded⟩ := List.mem_filter.mp hd
    obtain ⟨-, hst, hrests⟩ := hlisted hmoved hd
    unfold Rests at hrests
    rw [hst] at hrests
    simp only [Option.isNone_iff_eq_none] at hunrecorded
    rw [hunrecorded] at hrests
    cases hrests
  rintro ⟨report, _⟩ w₄ ⟨-, h₄⟩
  exact Rules.Yields.pure ⟨h₄.report, h₄.unmoved⟩

/-! ## Once and again -/

/-- No overflow of its own ends a sweep. -/
theorem sweep_only (s : Settings) (now : Instant) : (sweep s now).run.Only fun _ => True := by
  have hphase {visit : Report → Deposit → Program Report} {f : Report × Bool → Action Report}
      (hvisit : ∀ report d, (visit report d).Only fun _ => True) (report : Report)
      (ds : List Deposit) (hf : ∀ report, (f (report, true)).run.Only fun _ => True)
      (hstop : ∀ report, (f (report, false)).run.Only fun _ => True) :
      (liftM (visitAll visit report ds) >>= f).run.Only fun _ => True := by
    refine Program.Only.seq
      (.lift (only_visitAll trivial (fun report d _ => hvisit report d) _)) ?_
    rintro ⟨report, whole⟩
    cases whole with
    | false => exact hstop report
    | true => exact hf report
  have hcreated (report : Report) (d : Deposit) :
      (visitCreated s now report d).Only fun _ => True := by
    unfold visitCreated
    split
    · trivial
    · refine Program.Only.bind (only_startRail trivial trivial trivial (fun _ => trivial)
        fun _ _ => trivial) fun r => ?_
      cases r <;> trivial
  have hask {visit : Report → Deposit → Program Report}
      (h : ∀ report d, (visit report d).Only Onward) (report : Report) (d : Deposit) :
      (visit report d).Only fun _ => True := (h report d).mono fun _ _ => trivial
  refine Program.Only.seq (.request trivial) fun ds =>
    hphase (hask (visitFunding_onward s)) {} ds (fun report => ?_) fun _ => trivial
  refine Program.Only.seq (.request trivial) fun ds =>
    hphase hcreated report ds (fun report => ?_) fun _ => trivial
  refine Program.Only.seq (.request trivial) fun ds =>
    hphase (hask (visitInitiated_onward s)) report ds (fun report => ?_) fun _ => trivial
  exact Program.Only.seq (.request trivial) fun ds =>
    hphase (hask visitFunded_onward) report _ (fun _ => trivial) fun _ => trivial

/-- Wherever operations have led, once they have come to their ends a sweep that is alone takes
every deposit as far as it can be taken, without an error and with no hand on those that are not
stale yet; and the next one only asks after what is on its way. -/
theorem one_sweep_is_enough {σ : System} (h₀ : Reached s w₀) (hclaims : w₀.claims = [])
    (hrun : Run s { world := w₀ } σ) (hended : ∀ a ∈ σ.running, a.ended)
    (h : Provided s now σ.world) (hpage : 0 < s.provider.listPageSize)
    (hoverflow : ∀ o, (σ.world.run (sweep s now).run).1 ≠ .error o)
    (hfresh : (σ.world.run (sweep s now).run).2.FreshIds)
    (hlength : (σ.world.run (sweep s now).run).2.rail.transfers.length ≤ twoTo 64) :
    ∃ report w' polled w'',
      σ.world.run (sweep s now).run = (.ok (.ok report), w') ∧ report.errors = 0 ∧
        (∀ id d, w'.deposits.get? id = some d → Rests s now w' d) ∧
        (∀ id d, σ.world.deposits.get? id = some d → d.status = .created →
          isStale s now d = false → w'.deposits.get? id = some d) ∧
        w'.run (sweep s now).run = (.ok (.ok { polled }), w'') ∧ Unmoved w' w'' := by
  have hw := Reached.run h₀ hrun
  have hready : Ready s now σ.world := by
    refine ⟨h, fun id hid d hd => .inl ?_⟩
    obtain ⟨d', hd', hst⟩ := hrun.funded_of_claimed h₀.sound hclaims hended hid
    rw [hd] at hd'
    cases hd'
    exact hst
  have hcountable : World.Along Countable (sweep s now).run σ.world := by
    have hconsistent := along_consistent hw.sound hw.matched (sweep_safe now _) (sweep_links now _)
      hfresh
    refine hconsistent.and (World.along_of_end (K := fun w => w.rail.transfers.length ≤ twoTo 64)
      (fun w r hle => ?_) hlength).2 fun _ => Countable.mk
    have hgrown := (w.perform_origins r).length_le
    unfold Rail.Sandbox.origins at hgrown
    simp only [List.length_map] at hgrown
    omega
  obtain ⟨r, w', hfirst⟩ : ∃ r w', σ.world.run (sweep s now).run = (r, w') := ⟨_, _, rfl⟩
  cases r with
  | error o => exact absurd (congrArg Prod.fst hfirst) (hoverflow o)
  | ok r =>
      obtain ⟨hk, hswept⟩ := World.run_keeps hcountable
        (sweep_sweeps (E := fun _ _ => False) hready hpage) hfirst
      cases r with
      | error e => exact hswept.elim
      | ok report =>
          have hswept : Swept s now σ.world report w' := hswept
          have hidles := sweep_idles (E := fun _ _ => False) hk hswept.calm hpage hswept.rests
          have hmoved := World.along_of_keeps (fun v r hl hv => hv.trans (World.perform_looks hl v))
            hidles (.refl w')
          obtain ⟨r, w'', hsecond, -, hidle⟩ := World.run_answered
            (fun r hr v => World.looks_answered hr v) (sweep_only s now) hmoved hidles
          cases r with
          | error e => exact hidle.elim
          | ok again =>
              obtain ⟨hreport, hsame⟩ := hidle
              refine ⟨report, w', again.polled, w'', hfirst, hswept.errors, fun id d hd => ?_,
                hswept.young, ?_, hsame⟩
              · refine hswept.rests d ?_
                rwa [hk.consistent.sound.deposits.id_eq hd]
              · rw [← hreport]
                exact hsecond

namespace Sample

/-- The rail has completed the transfer of a deposit that still waits for it. -/
def abandoned : System :=
  { interrupted with
    world := ({ interrupted.world with timer := {} }.completeTransfer transfer).2 }

theorem run_abandoned : Run .standard { world := slowed } abandoned :=
  (run_alone _ _).trans ((run_disturb (.timer {})).trans (run_disturb (.complete transfer)))

theorem provided_abandoned : Provided .standard secondDay abandoned.world := by
  have hall {P : Deposit → Prop} (h : ∀ d ∈ abandoned.world.deposits.byId.values, P d) (id : Uuid)
      (d : Deposit) (hd : abandoned.world.deposits.get? id = some d) : P d :=
    h d (List.mem_map_of_mem (Table.mem_of_lookup_eq_some hd))
  refine ⟨⟨⟨by decide, by decide⟩, by decide, by decide, by decide, ?_⟩, ?_, ?_, ?_, ?_⟩
  · exact fun a ha => nomatch ha
  · have haccounts := hall (P := fun d => (abandoned.world.accounts.get? d.account).isSome)
      (by decide)
    exact fun id d hd => Option.isSome_iff_exists.mp (haccounts id d hd)
  · exact hall (by decide)
  · exact hall (by decide)
  · have hpaid : ∀ t ∈ abandoned.world.rail.transfers, t.state = .completed →
        ∀ a ∈ t.destination.amount, ¬ a ≤ .zero := by decide
    exact hpaid

end Sample

/-- A deposit that had been left behind is ordered, looked up, paid in and counted by one sweep. -/
theorem sample_is_swept : ∃ d w' polled w'',
    Sample.abandoned.world.run (sweep .standard Sample.secondDay).run =
        (.ok (.ok { resumed := 1, polled := 1, funded := 1 }), w') ∧
      w'.deposits.get? Sample.deposit = some d ∧ d.status = .brokerFunded ∧
      d.usageRecordedAt.isSome ∧
      w'.run (sweep .standard Sample.secondDay).run = (.ok (.ok { polled }), w'') := by
  have hreport : (Sample.abandoned.world.run (sweep .standard Sample.secondDay).run).1 =
      .ok (.ok { resumed := 1, polled := 1, funded := 1 }) := rfl
  have hfunded : ((Sample.abandoned.world.run
      (sweep .standard Sample.secondDay).run).2.deposits.get? Sample.deposit).map (·.status) =
        some .brokerFunded := by decide
  obtain ⟨report, w', polled, w'', hrun, -, hrests, -, hagain, -⟩ := one_sweep_is_enough
    (.empty rfl rfl rfl) rfl Sample.run_abandoned (by decide) Sample.provided_abandoned (by decide)
    (by rw [hreport]; exact fun _ h => nomatch h) (by unfold World.FreshIds; decide)
    (by decide)
  rw [hrun] at hreport hfunded
  cases hreport
  obtain ⟨d, hd, hst⟩ := Option.map_eq_some_iff.mp hfunded
  have hrecorded := hrests _ d hd
  unfold Rests at hrecorded
  rw [hst] at hrecorded
  exact ⟨d, w', polled, w'', hrun, hd, hst, hrecorded, hagain⟩

end Causeway.Crossing
