import Causeway.Proofs.Crossing.Conduct
import Causeway.Proofs.Crossing.Onward
import Causeway.Proofs.Crossing.Solo
import Causeway.Proofs.World.Changes

/-!
# Claims are given back

An operation holds one claim at a time and gives it back before it does anything else about another
deposit (`Follows`). Only an overflow while a deposit is counted can keep it from that, and then the
deposit has been funded. So once all operations have ended, whatever is still claimed is past
funding (`Run.funded_of_claimed`).
-/

namespace Causeway

open Deposit (Status)
open Program (Only)

variable {α β ε : Type} {held : Option Uuid} {id : Uuid}

/-! ## Programs that hold a claim -/

/-- What a program that holds a claim, or none, may ask for. -/
def Legal (held : Option Uuid) : Request → Prop
  | .claim _ => held = none
  | .release id => held = some id
  | .applyUsage _ id _ => held = none ∨ held = some id
  | _ => True

/-- The claim that is held after an answer. -/
def holding (held : Option Uuid) : (r : Request) → r.Answer → Option Uuid
  | .claim id, true => some id
  | .release _, _ => none
  | _, _ => held

/-- Some sound world gives the answer. -/
def Answers (r : Request) (a : r.Answer) : Prop := ∃ w : World, w.Sound ∧ (w.perform r).1 = .ok a

/-- With this claim, the program asks only for what it may, and `Q` holds in the end of the claim
that it holds then. -/
def Follows (held : Option Uuid) : Program α → (Option Uuid → α → Prop) → Prop
  | .done a, Q => Q held a
  | .call r k, Q => Legal held r ∧ ∀ a, Answers r a → Follows (holding held r a) (k a) Q
  | .crash _, _ => held = none

variable {Q Q' : Option Uuid → α → Prop}

theorem Follows.mono {p : Program α} (h : Follows held p Q) (hQ : ∀ held a, Q held a → Q' held a) :
    Follows held p Q' := by
  induction p generalizing held with
  | done a => exact hQ held a h
  | call r k ih => exact ⟨h.1, fun a ha => ih a (h.2 a ha)⟩
  | crash o => exact h

theorem Follows.bind {p : Program β} {f : β → Program α}
    (h : Follows held p fun held b => Follows held (f b) Q) : Follows held (p >>= f) Q := by
  induction p generalizing held with
  | done b => exact h
  | call r k ih => exact ⟨h.1, fun a ha => ih a (h.2 a ha)⟩
  | crash o => exact h

/-- The requests that have nothing to do with claims. -/
def Neutral : Request → Prop
  | .claim _ | .release _ | .applyUsage _ _ _ => False
  | _ => True

theorem holding_of_neutral {r : Request} (h : Neutral r) (held : Option Uuid) (a : r.Answer) :
    holding held r a = held := by
  cases r with
  | claim id => exact h.elim
  | release id => exact h.elim
  | _ => rfl

theorem Follows.neutral {p : Program α} (h : p.Only Neutral) (held : Option Uuid) :
    Follows held p fun held' _ => held' = held := by
  induction p with
  | done a => rfl
  | call r k ih =>
      refine ⟨?_, fun a _ => ?_⟩
      · have hr := h.1
        cases r <;> trivial
      · rw [holding_of_neutral h.1]
        exact ih a (h.2 a)
  | crash o => exact h.elim

variable {t : ExceptT ε Program β} {f : β → ExceptT ε Program α}
  {Q : Option Uuid → Except ε α → Prop}

theorem Follows.seq (h : Follows held t.run fun held' r => match r with
      | .ok b => Follows held' (f b).run Q
      | .error e => Q held' (.error e)) : Follows held (t >>= f).run Q := by
  refine Follows.bind (h.mono fun held' r hr => ?_)
  cases r with
  | ok b => exact hr
  | error e => exact hr

/-- An action that has nothing to do with claims, and what comes after it. -/
theorem Follows.skip (ht : t.run.Only Neutral) (hf : ∀ b, Follows held (f b).run Q)
    (hQ : ∀ e, Q held (.error e)) : Follows held (t >>= f).run Q := by
  refine Follows.seq ((Follows.neutral ht held).mono ?_)
  rintro _ (e | b) rfl
  · exact hQ e
  · exact hf b

theorem Follows.lift {p : Program β} {f : β → ExceptT ε Program α}
    (h : Follows held p fun held' b => Follows held' (f b).run Q) :
    Follows held ((liftM p : ExceptT ε Program β) >>= f).run Q :=
  Follows.seq (Follows.bind h)

theorem Follows.unless {c : Prop} [Decidable c] {e : ε} {g : Unit → ExceptT ε Program α}
    (he : Q held (.error e)) (h : Follows held (g ()).run Q) :
    Follows held (if c then (do let u ← MonadExcept.throw e; g u) else g ()).run Q := by
  split
  · exact he
  · exact h

section Actions

variable {f : β → Action α} {Q : Option Uuid → Except Failure α → Prop}
  (hQ : ∀ e, Q held (.error e))

include hQ in
theorem Follows.found {entity : Entity} {name : String} {o : Option β}
    (hf : ∀ b, o = some b → Follows held (f b).run Q) :
    Follows held (Action.orNotFound entity name o >>= f).run Q := by
  cases o with
  | some b => exact hf b rfl
  | none => exact hQ _

include hQ in
theorem Follows.mark {d : Deposit} {e : Deposit.Event} {f : Deposit → Action α}
    (hf : ∀ now d', d.apply e now = .ok d' → Follows held (f d').run Q) :
    Follows held (Crossing.mark d e >>= f).run Q := by
  refine ⟨trivial, fun now _ => ?_⟩
  change Follows held (Action.ofExcept (d.apply e now) >>= f).run Q
  cases h : d.apply e now with
  | ok d' => exact hf now d' h
  | error e => exact hQ _

theorem Follows.result {t : Action β} {f : Except Failure β → Action α}
    (h : Follows held t.run fun held' r => Follows held' (f r).run Q) :
    Follows held (t.result >>= f).run Q :=
  Follows.lift h

end Actions

/-! ## Operations -/

namespace Crossing

variable {s : Settings} {d : Deposit}

/-- The program holds the same claim in the end, whatever its result. -/
abbrev Still (held held' : Option Uuid) (_ : α) : Prop := held' = held

theorem recordUsage_follows (d : Deposit) (h : held = none ∨ held = some d.id) :
    Follows held (recordUsage d).run (Still held) := by
  refine Follows.seq ⟨h, fun a _ => ?_⟩
  cases a with
  | error e => rfl
  | ok b =>
      refine Follows.neutral (only_mark trivial fun now d' _ => ?_) held
      exact Only.seq (.request trivial) fun _ => trivial

theorem fundClaimed_follows (s : Settings) (id : Uuid) :
    Follows (some id) (fundClaimed s id).run (Still (some id)) := by
  refine Follows.seq ⟨trivial, fun a ⟨w, hs, ha⟩ => ?_⟩
  cases a with
  | error e => rfl
  | ok found =>
      refine Follows.found (fun _ => rfl) fun d hd => ?_
      -- What is read under an identifier has that identifier.
      have hid : d.id = id := by
        subst hd
        exact hs.deposits.id_eq (World.look_ok ha).1.symm
      refine Follows.unless rfl ?_
      refine Follows.skip (.request trivial) (fun account => ?_) fun _ => rfl
      refine Follows.found (fun _ => rfl) fun account _ => ?_
      refine Follows.skip ((only_payIn (fun _ _ _ => trivial) (fun _ => trivial) _ _ _).retrying
        trivial (fun _ => trivial) _) (fun ref => ?_) fun _ => rfl
      refine Follows.mark (fun _ => rfl) fun now d' hd' => ?_
      refine Follows.skip (.request trivial) (fun _ => ?_) fun _ => rfl
      have hid' : d'.id = id := by
        rw [← hid]
        exact congrArg Deposit.Origin.id (Deposit.origin_of_apply hd')
      refine Follows.result ((recordUsage_follows d' (.inr (congrArg some hid'.symm))).mono ?_)
      rintro _ r rfl
      cases r <;> rfl

theorem fund_follows (s : Settings) (d : Deposit) :
    Follows none (fund s d).run (Still none) := by
  unfold fund
  dsimp only
  refine Follows.unless rfl ?_
  refine Follows.lift ⟨rfl, fun claimed _ => ?_⟩
  cases claimed with
  | false => rfl
  | true =>
      refine Follows.result ((fundClaimed_follows s d.id).mono ?_)
      rintro _ r rfl
      exact Follows.lift ⟨rfl, fun _ _ => rfl⟩

theorem callback_follows (s : Settings) (transfer : String) :
    Follows none (callback s transfer).run (Still none) := by
  have hstatus : (Provider.status s.provider transfer).run.Only Neutral :=
    only_search (fun _ _ => trivial) (fun _ => trivial) _ _ _ _
  refine Follows.skip (.request trivial) (fun found => ?_) fun _ => rfl
  cases found with
  | none => rfl
  | some d =>
      dsimp only
      split
      · rfl
      · refine Follows.skip (hstatus.retrying trivial (fun _ => trivial) _) (fun response => ?_)
          fun _ => rfl
        split
        · refine Follows.mark (fun _ => rfl) fun now completed _ => ?_
          refine Follows.skip (only_persist trivial) (fun stored => ?_) fun _ => rfl
          cases stored with
          | false => exact Follows.neutral (only_currentOutcome trivial) none
          | true =>
              refine Follows.result ((fund_follows s completed).mono ?_)
              rintro _ r rfl
              cases r <;> rfl
        · refine Follows.neutral (only_mark trivial fun now failed _ => ?_) none
          refine (only_persist trivial).seq fun stored => ?_
          cases stored with
          | false => exact only_currentOutcome trivial
          | true => trivial
        · rfl
        · rfl

theorem startRail_neutral (s : Settings) (d : Deposit) : (startRail s d).run.Only Neutral :=
  only_startRail trivial trivial trivial (fun _ => trivial) fun _ _ => trivial

theorem initiate_neutral (user : Uuid) (railAccount : String) (amount : Amount)
    (reference : String) : (initiate s user railAccount amount reference).run.Only Neutral :=
  only_initiate trivial trivial trivial (fun _ => trivial) (fun _ => trivial) trivial
    (fun _ => trivial) fun _ => trivial

theorem initiateForRailAccount_neutral (railAccount : String) (amount : Amount)
    (reference : String) :
    (initiateForRailAccount s railAccount amount reference).run.Only Neutral := by
  refine Only.seq (Only.request trivial) fun found => ?_
  exact (Only.orNotFound _ _ found).seq fun account => initiate_neutral _ _ _ _

/-! ## The sweep -/

theorem visitAll_follows {visit : Report → Deposit → Program Report}
    (hvisit : ∀ report d, Follows none (visit report d) (Still none)) (report : Report)
    (ds : List Deposit) : Follows none (visitAll visit report ds) (Still none) := by
  induction ds generalizing report with
  | nil => rfl
  | cons d ds ih =>
      refine Follows.bind ⟨trivial, fun cancelled _ => ?_⟩
      cases cancelled with
      | true => rfl
      | false =>
          refine Follows.bind ((hvisit report d).mono ?_)
          rintro _ report rfl
          exact ih report

theorem visitFunding_follows (s : Settings) (report : Report) (d : Deposit) :
    Follows none (visitFunding s report d) (Still none) := by
  refine Follows.bind ((fund_follows s d).mono ?_)
  rintro _ r rfl
  cases r <;> rfl

theorem visitCreated_follows (s : Settings) (now : Instant) (report : Report) (d : Deposit) :
    Follows none (visitCreated s now report d) (Still none) := by
  unfold visitCreated
  split
  · rfl
  · refine Follows.bind ((Follows.neutral (startRail_neutral s d) none).mono ?_)
    rintro _ r rfl
    cases r <;> rfl

theorem visitInitiated_follows (s : Settings) (report : Report) (d : Deposit) :
    Follows none (visitInitiated s report d) (Still none) := by
  unfold visitInitiated
  split
  · rfl
  · refine Follows.bind ((callback_follows s _).mono ?_)
    rintro _ r rfl
    split <;> rfl

theorem visitFunded_follows (report : Report) (d : Deposit) :
    Follows none (visitFunded report d) (Still none) := by
  refine Follows.bind ((recordUsage_follows d (.inl rfl)).mono ?_)
  rintro _ r rfl
  cases r <;> rfl

theorem phase_follows {visit : Report → Deposit → Program Report}
    {f : Report × Bool → Action Report}
    (hvisit : ∀ report d, Follows none (visit report d) (Still none)) (report : Report)
    (ds : List Deposit) (hf : ∀ report, Follows none (f (report, true)).run (Still none))
    (hstop : ∀ report, Follows none (f (report, false)).run (Still none)) :
    Follows none (liftM (visitAll visit report ds) >>= f).run (Still none) := by
  refine Follows.lift ((visitAll_follows hvisit report ds).mono ?_)
  rintro _ ⟨report, whole⟩ rfl
  cases whole with
  | false => exact hstop report
  | true => exact hf report

theorem sweep_follows (s : Settings) (now : Instant) :
    Follows none (sweep s now).run (Still none) := by
  have hlist {f : List Deposit → Action Report} (status : Status)
      (hf : ∀ ds, Follows none (f ds).run (Still none)) :
      Follows none (depositsIn status >>= f).run (Still none) :=
    Follows.skip (.request trivial) hf fun _ => rfl
  refine hlist .railCompleted fun ds =>
    phase_follows (visitFunding_follows s) {} ds (fun report => ?_) fun _ => rfl
  refine hlist .created fun ds =>
    phase_follows (visitCreated_follows s now) report ds (fun report => ?_) fun _ => rfl
  refine hlist .railInitiated fun ds =>
    phase_follows (visitInitiated_follows s) report ds (fun report => ?_) fun _ => rfl
  exact hlist .brokerFunded fun ds =>
    phase_follows visitFunded_follows report _ (fun _ => rfl) fun _ => rfl

/-! ## All operations -/

theorem deliver_follows (s : Settings) (body : Bytes) (signature : String) :
    Follows none (Webhook.deliver s body signature).run (Still none) := by
  have hread {γ : Type} (o : Option γ) : (Webhook.orMalformed o).run.Only Neutral := by
    cases o <;> trivial
  refine Follows.skip (.ofExcept _) (fun _ => ?_) fun _ => rfl
  refine Follows.skip (hread _) (fun e => ?_) fun _ => rfl
  split
  · refine Follows.skip (hread _) (fun e => ?_) fun _ => rfl
    refine Follows.seq ((callback_follows s e.id).mono ?_)
    rintro _ r rfl
    cases r <;> rfl
  · split
    · refine Follows.neutral (Only.seq (hread _) fun e => ?_) none
      refine (initiateForRailAccount_neutral e.account e.amount e.reference).result.seq fun r => ?_
      split <;> trivial
    · rfl

/-- An operation has no claim when it begins, and none when it ends. -/
theorem program_follows (s : Settings) (op : Operation) :
    Follows none (op.program s) (Still none) := by
  cases op with
  | initiate user railAccount amount reference =>
      exact Follows.bind (Follows.neutral (initiate_neutral _ _ _ _) none)
  | initiateForRailAccount railAccount amount reference =>
      exact Follows.bind (Follows.neutral (initiateForRailAccount_neutral _ _ _) none)
  | callback transfer => exact Follows.bind (callback_follows s transfer)
  | fund d => exact Follows.bind (fund_follows s d)
  | cancel id => exact Follows.bind (Follows.neutral (only_cancel trivial) none)
  | sweep now => exact Follows.bind (sweep_follows s now)
  | deliver body signature => exact Follows.bind (deliver_follows s body signature)

/-! ## All runs -/

variable {σ σ' : System} {w w' : World}

theorem Disturbance.claims (h : Disturbance w w') : w'.claims = w.claims := by
  cases h with
  | complete transfer =>
      unfold World.completeTransfer
      split <;> rfl
  | setState transfer state =>
      unfold World.setTransferState
      split <;> rfl
  | _ => rfl

/-- The deposit is funded, so that a claim on it keeps nobody from anything. -/
def Finished (w : World) (id : Uuid) : Prop :=
  ∃ d, w.deposits.get? id = some d ∧ d.status = .brokerFunded

theorem Finished.later (h : Finished w id) (hw : World.Later w w') : Finished w' id := by
  obtain ⟨d, hd, hst⟩ := h
  obtain ⟨d', hd', hl⟩ := hw.deposits hd
  exact ⟨d', hd', hl.status_funded hst⟩

/-- Each operation follows on from a claim that it holds, or from none, and each claim is held by
one of them or does not matter any more. -/
structure System.Custody (σ : System) : Prop where
  distinct : σ.world.claims.Nodup
  follows : ∀ a ∈ σ.running, ∃ held, Follows held a.rest (Still none)
  held : ∀ id ∈ σ.world.claims,
    Finished σ.world id ∨ ∃ a ∈ σ.running, Follows (some id) a.rest (Still none)

theorem System.custody_of_idle (hw : w.claims = []) : System.Custody { world := w } :=
  ⟨by simp [hw], (fun _ ha => nomatch ha), by simp [hw]⟩

variable {r : Request} {k : r.Answer → Program Result}

/-- An overflow meets only who counts a deposit that is funded. -/
theorem funded_of_overflow (hp : w.Permits r) (hl : Legal (some id) r) {o : Overflow}
    (ho : (w.perform r).1 = .error o) : Finished w id := by
  have hcounts : World.counts r := by
    by_contra hcounts
    obtain ⟨a, ha⟩ := w.perform_ok (r := r) (by simpa using hcounts)
    rw [ha] at ho
    cases ho
  cases r with
  | incrementUsage user flow amount => exact hp.elim
  | applyUsage user id' amount =>
      obtain ⟨d, ⟨cur, hcur, hled⟩, hst, -, rfl, -⟩ := hp
      obtain rfl : id = d.id := Option.some.inj (hl.resolve_left (by simp))
      exact ⟨cur, hcur, hled.status_funded hst⟩
  | _ => cases hcounts

/-- Who holds a claim still holds it after its turn, if it has not been released. -/
theorem follows_turn (hs : w.Sound) (hp : w.Permits r) (hn : w.claims.Nodup)
    (h : Follows (some id) (.call r k) (Still none)) (hid : id ∈ (w.perform r).2.claims) :
    Finished w id ∨ Follows (some id) (System.resume k (w.perform r).1) (Still none) := by
  cases ha : (w.perform r).1 with
  | error o => exact .inl (funded_of_overflow hp h.1 ha)
  | ok a =>
      have hnext := h.2 a ⟨w, hs, ha⟩
      cases r with
      | claim id' => cases h.1
      | release id' =>
          cases h.1
          exact absurd rfl (hn.mem_erase_iff.mp hid).1
      | _ => exact .inr hnext

theorem System.Custody.turn (h : σ.Custody) (ho : σ.Orderly) {before behind : List Activity}
    {op : Operation} (hr : σ.running = before ++ ⟨op, .call r k⟩ :: behind) :
    (σ.turn before behind op r k).Custody := by
  have hperm := ho.obeys.permits hr ho.sound
  have hlater := (World.perform_effect ho.sound hperm).later ho.sound
  have hmem : ⟨op, .call r k⟩ ∈ σ.running := by rw [hr]; simp
  refine ⟨World.nodup_claims_perform h.distinct r, fun a ha => ?_, fun id hid => ?_⟩
  · rcases System.mem_turn hr ha with rfl | ha
    · obtain ⟨held, hlegal, hnext⟩ := h.follows _ hmem
      cases hres : (σ.world.perform r).1 with
      | ok a => exact ⟨_, hnext a ⟨σ.world, ho.sound, hres⟩⟩
      | error o => exact ⟨none, rfl⟩
    · exact h.follows a ha
  · by_cases hold : id ∈ σ.world.claims
    · rcases h.held id hold with hfunded | ⟨a, ha, hfollows⟩
      · exact .inl (hfunded.later hlater)
      · rcases System.mem_running hr ha with rfl | ha
        · rcases follows_turn ho.sound hperm h.distinct hfollows hid with hfunded | hnext
          · exact .inl (hfunded.later hlater)
          · exact .inr ⟨⟨op, System.resume k _⟩, by simp [System.turn], hnext⟩
        · exact .inr ⟨a, ha, hfollows⟩
    · -- The claim is new, so the one whose turn it was holds it.
      obtain rfl := (World.mem_claims_perform hid).resolve_left hold
      have hclaimed : (σ.world.perform (.claim id)).1 = .ok true := by
        simp only [World.perform, if_neg hold]
      obtain ⟨held, hlegal, hnext⟩ := h.follows _ hmem
      refine .inr ⟨⟨op, k true⟩, ?_, hnext true ⟨σ.world, ho.sound, hclaimed⟩⟩
      simp [System.turn, System.resume, hclaimed]

theorem Step.custody (h : Step s σ σ') (ho : σ.Orderly) (hσ : σ.Custody) : σ'.Custody := by
  cases h with
  | start op =>
      refine ⟨hσ.distinct, fun a ha => ?_, fun id hid => ?_⟩
      · rcases List.mem_append.mp ha with ha | ha
        · exact hσ.follows a ha
        · obtain rfl := List.mem_singleton.mp ha
          exact ⟨none, program_follows s op⟩
      · exact (hσ.held id hid).imp_right fun ⟨a, ha, hf⟩ => ⟨a, List.mem_append_left _ ha, hf⟩
  | turn hr => exact hσ.turn ho hr
  | disturb hd =>
      have hlater := (World.Effect.quiet hd.quiet).later ho.sound
      refine ⟨by rw [hd.claims]; exact hσ.distinct, hσ.follows, fun id hid => ?_⟩
      rw [hd.claims] at hid
      exact (hσ.held id hid).imp_left fun h => h.later hlater

theorem Run.custody (h : Run s σ σ') (ho : σ.Orderly) (hσ : σ.Custody) : σ'.Custody := by
  induction h with
  | refl => exact hσ
  | tail hrun hstep ih => exact hstep.custody (Run.orderly hrun ho) ih

/-- When all operations have come to their ends, only funded deposits are still claimed. -/
theorem Run.funded_of_claimed (hrun : Run s { world := w } σ) (hs : w.Sound) (hw : w.claims = [])
    (hended : ∀ a ∈ σ.running, a.ended) (hid : id ∈ σ.world.claims) : Finished σ.world id := by
  refine ((hrun.custody (System.orderly_of_idle hs) (System.custody_of_idle hw)).held id
    hid).resolve_right ?_
  rintro ⟨⟨op, p⟩, ha, hf⟩
  cases p with
  | done a => cases hf
  | call r k => exact nomatch hended _ ha
  | crash o => cases hf

end Crossing

end Causeway
