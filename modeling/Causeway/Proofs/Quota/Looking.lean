import Causeway.Proofs.Quota.Gate
import Causeway.Proofs.Store.Alike

/-!
# Looking uses up nothing

A user's counters are written by what is recorded, but also by what only looks: validations and
reports begin missing counters and roll those whose period has ended. `looking_is_unobservable` says
that whoever leaves out some of what only looks gets the same answers from everything else and the
same counters at any later time.
-/

namespace Causeway

namespace Quota

/-- What users of the gate and of the ledger behind it can ask for. -/
inductive Call where
  | record (flow : Flow) (user : Uuid) (amount : Amount)
  | recordFunded (user deposit : Uuid) (amount : Amount)
  | validate (flow : Flow) (user : Uuid) (amount : Decimal)
  | userLimits (user : Uuid)

inductive Answer where
  | recorded
  | counted (first : Bool)
  | passed (check : Check)
  | limits (l : UserLimits)
deriving DecidableEq

namespace Call

/-- A call that only looks. -/
def Looks : Call → Prop
  | validate .. | userLimits _ => True
  | record .. | recordFunded .. => False

def action : Call → Action Answer
  | record flow user amount => do
    Quota.record flow user amount
    pure .recorded
  | recordFunded user deposit amount => return .counted (← Quota.recordFunded user deposit amount)
  | validate flow user amount => return .passed (← Quota.validate flow user amount)
  | userLimits user => return .limits (← Quota.userLimits user)

end Call

/-- A call at its instant, and whether it is made in the thinned run too. -/
structure Turn where
  now : Instant
  call : Call
  kept : Bool

abbrev Result := Except Overflow (Except Failure Answer)

def Turn.run (turn : Turn) (w : World) : Result × World :=
  (w.setClock turn.now).run turn.call.action.run

/-- The turns with their results, and the world after them. -/
def play (w : World) : List Turn → List (Turn × Result) × World
  | [] => ([], w)
  | turn :: turns =>
    let (r, w) := turn.run w
    let (rs, w) := play w turns
    ((turn, r) :: rs, w)

/-! ## What a call comes to -/

variable {w w' : World} {s s' : Store.Usages} {t now : Instant} {tier : Tier} {flow : Flow}
  {user : Uuid} {u u' : Usage} {amount : Decimal}

/-- Looking at a user's counters, unless the user's tier alone refuses the call. -/
def look (users : Table Uuid User) (s : Store.Usages) (now : Instant) (user : Uuid)
    (refuse : Tier → Except Denial Unit) (judge : Tier → Usage → Result) :
    Store.Usages.Changed Answer :=
  match users.get? user with
  | none => (.ok (.error (.notFound .user user.toText)), s)
  | some u =>
    match refuse u.tier with
    | .error d => (.ok (.error (.overLimit d)), s)
    | .ok () => (judge u.tier (s.reset user now).1, (s.reset user now).2)

def passedOr : Except Denial Check → Except Failure Answer
  | .ok c => .ok (.passed c)
  | .error d => .error (.overLimit d)

/-- What a call answers and makes of the usage store. -/
def Call.effect (users : Table Uuid User) (s : Store.Usages) (now : Instant) :
    Call → Store.Usages.Changed Answer
  | record flow user amount =>
    let (r, s) := s.increment user flow amount.value now
    (r.map (·.map fun _ => .recorded), s)
  | recordFunded user deposit amount =>
    let (r, s) := s.apply user deposit amount.value now
    (r.map (·.map .counted), s)
  | validate flow user amount =>
    look users s now user (checkMinimum · flow amount) fun tier usage =>
      (evaluate tier usage flow amount).map passedOr
  | userLimits user =>
    look users s now user (fun _ => .ok ()) fun tier usage =>
      (usage.limits tier).map fun l => .ok (.limits l)

theorem run_return {α β : Type} (g : β → α) (t : Action β) (w : World) :
    w.run (do return g (← t) : Action α).run =
      ((w.run t.run).1.map (·.map g), (w.run t.run).2) := by
  refine (World.run_bind w t.run _).trans ?_
  rcases w.run t.run with ⟨_ | _ | _, w'⟩ <;> rfl

theorem run_tierOf_of_none (hu : w.users.get? user = none) :
    w.run (tierOf user).run = (.ok (.error (.notFound .user user.toText)), w) := by
  have hfind : w.run (Program.request (.userById user)) = (.ok none, w) :=
    World.run_ask w (by rw [World.perform, hu])
  unfold tierOf
  rw [World.run_seq (World.run_lift hfind)]
  rfl

/-- The calls do what they are said to, and touch nothing but counters. -/
theorem run_call (hw : w.script.Faultless) (c : Call) :
    ∃ n, w.run c.action.run =
      ((c.effect w.users w.usages (w.clock w.readings)).1,
        { w with
          readings := n
          usages := (c.effect w.users w.usages (w.clock w.readings)).2 }) := by
  cases c with
  | record flow user amount =>
      have hrun : w.run (Quota.record flow user amount).run =
          w.changeUsage fun s now => s.increment user flow amount.value now := by
        refine (w.run_request _).trans ?_
        simp only [World.perform, World.guarded_of_faultless hw]
      refine ⟨w.readings + 1, (run_return _ _ w).trans ?_⟩
      rw [hrun]
      rfl
  | recordFunded user deposit amount =>
      have hrun : w.run (Quota.recordFunded user deposit amount).run =
          w.changeUsage fun s now => s.apply user deposit amount.value now := by
        refine (w.run_request _).trans ?_
        simp only [World.perform, World.guarded_of_faultless hw]
      refine ⟨w.readings + 1, (run_return _ _ w).trans ?_⟩
      rw [hrun]
      rfl
  | validate flow user amount =>
      have hreturn := run_return Answer.passed (Quota.validate flow user amount) w
      cases hu : w.users.get? user with
      | none =>
          refine ⟨w.readings, hreturn.trans ?_⟩
          rw [Quota.validate, World.run_seq_of_error (run_tierOf_of_none hu)]
          simp only [Call.effect, look, hu]
          rfl
      | some u =>
          rw [Quota.validate, World.run_seq (run_tierOf hu)] at hreturn
          cases hminimum : checkMinimum u.tier flow amount with
          | error d =>
              refine ⟨w.readings, hreturn.trans ?_⟩
              simp only [Call.effect, look, hu, hminimum]
              rfl
          | ok _ =>
              have hpassed : w.run (ofVerdict (.ok ()) : Action Unit).run = (.ok (.ok ()), w) := rfl
              refine ⟨w.readings + 1, hreturn.trans ?_⟩
              rw [hminimum, World.run_seq hpassed, World.run_seq (run_current hw user)]
              simp only [Call.effect, look, hu, hminimum]
              rcases evaluate u.tier (w.usages.reset user (w.clock w.readings)).1 flow amount with
                _ | _ | _ <;> rfl
  | userLimits user =>
      have hreturn := run_return Answer.limits (Quota.userLimits user) w
      cases hu : w.users.get? user with
      | none =>
          refine ⟨w.readings, hreturn.trans ?_⟩
          rw [Quota.userLimits, World.run_seq_of_error (run_tierOf_of_none hu)]
          simp only [Call.effect, look, hu]
          rfl
      | some u =>
          refine ⟨w.readings + 1, hreturn.trans ?_⟩
          rw [Quota.userLimits, World.run_seq (run_tierOf hu), World.run_seq (run_current hw user)]
          simp only [Call.effect, look, hu]
          rcases (w.usages.reset user (w.clock w.readings)).1.limits u.tier with _ | _ <;> rfl

/-! ## The same call on stores that are alike -/

theorem evaluate_congr (h : u.meter flow = u'.meter flow) (tier : Tier) (amount : Decimal) :
    evaluate tier u flow amount = evaluate tier u' flow amount := by
  simp only [evaluate, h]

theorem Usage.limits_congr (h : ∀ flow, u.meter flow = u'.meter flow) (tier : Tier) :
    u.limits tier = u'.limits tier := by
  have hd : u.deposit = u'.deposit := h .deposit
  have hw : u.withdrawal = u'.withdrawal := h .withdrawal
  simp only [limits, hd, hw]

section

variable {users : Table Uuid User} {refuse : Tier → Except Denial Unit}
  {judge : Tier → Usage → Result}

theorem look_alike_left (h : s.Alike t s') (ht : t ≤ now) :
    (look users s now user refuse judge).2.Alike now s' := by
  unfold look
  cases users.get? user with
  | none => exact h.later ht
  | some u =>
      dsimp only
      cases refuse u.tier with
      | error d => exact h.later ht
      | ok _ => exact h.reset_left user ht

theorem look_alike (h : s.Alike t s') (ht : t ≤ now)
    (hjudge : ∀ tier u u', (∀ flow, u.meter flow = u'.meter flow) → judge tier u = judge tier u') :
    (look users s now user refuse judge).1 = (look users s' now user refuse judge).1 ∧
      (look users s now user refuse judge).2.Alike now (look users s' now user refuse judge).2 := by
  unfold look
  cases users.get? user with
  | none => exact ⟨rfl, h.later ht⟩
  | some u =>
      dsimp only
      cases refuse u.tier with
      | error d => exact ⟨rfl, h.later ht⟩
      | ok _ => exact ⟨hjudge _ _ _ (h.meter_reset user ht), h.reset user ht⟩

/-- What only looks leaves the store alike to what it was. -/
theorem Call.Looks.alike {c : Call} (hc : c.Looks) (h : s.Alike t s') (ht : t ≤ now) :
    (c.effect users s now).2.Alike now s' := by
  cases c with
  | record | recordFunded => exact hc.elim
  | validate flow user amount =>
      rw [effect]
      exact look_alike_left h ht
  | userLimits user =>
      rw [effect]
      exact look_alike_left h ht

theorem Call.effect_alike (c : Call) (h : s.Alike t s') (ht : t ≤ now) :
    (c.effect users s now).1 = (c.effect users s' now).1 ∧
      (c.effect users s now).2.Alike now (c.effect users s' now).2 := by
  cases c with
  | record flow user amount =>
      obtain ⟨hresult, halike⟩ := h.increment ht user flow amount.value
      exact ⟨congrArg (Except.map _) hresult, halike⟩
  | recordFunded user deposit amount =>
      obtain ⟨hresult, halike⟩ := h.apply ht user deposit amount.value
      exact ⟨congrArg (Except.map _) hresult, halike⟩
  | validate flow user amount =>
      rw [effect, effect]
      exact look_alike h ht fun tier u u' hu => by rw [evaluate_congr (hu flow)]
  | userLimits user =>
      rw [effect, effect]
      exact look_alike h ht fun tier u u' hu => by rw [Usage.limits_congr hu]

end

/-! ## Two runs -/

namespace Turn

variable {turn : Turn}

/-- Worlds that no call at an instant or later tells apart. -/
structure Alike (t : Instant) (w w' : World) : Prop where
  users : w.users = w'.users
  usages : w.usages.Alike t w'.usages
  left : w.script.Faultless
  right : w'.script.Faultless

theorem run_eq (turn : Turn) (hw : w.script.Faultless) :
    ∃ n, turn.run w =
      ((turn.call.effect w.users w.usages turn.now).1,
        { w.setClock turn.now with
          readings := n
          usages := (turn.call.effect w.users w.usages turn.now).2 }) :=
  run_call (w := w.setClock turn.now) hw turn.call

/-- A turn that only looks, in the first of the worlds only. -/
theorem Alike.look (h : Alike t w w') (ht : t ≤ turn.now) (hlooks : turn.call.Looks) :
    Alike turn.now (turn.run w).2 w' := by
  obtain ⟨n, hrun⟩ := turn.run_eq h.left
  rw [hrun]
  exact ⟨h.users, hlooks.alike h.usages ht, h.left, h.right⟩

theorem Alike.run (h : Alike t w w') (ht : t ≤ turn.now) :
    (turn.run w).1 = (turn.run w').1 ∧ Alike turn.now (turn.run w).2 (turn.run w').2 := by
  obtain ⟨n, hrun⟩ := turn.run_eq h.left
  obtain ⟨n', hrun'⟩ := turn.run_eq h.right
  rw [hrun, hrun', ← h.users]
  obtain ⟨hresult, halike⟩ := turn.call.effect_alike h.usages ht
  exact ⟨hresult, h.users, halike, h.left, h.right⟩

end Turn

theorem play_thinned {turns : List Turn} (h : Turn.Alike t w w') (ht : ∀ turn ∈ turns, t ≤ turn.now)
    (hordered : turns.Pairwise fun turn later => turn.now ≤ later.now)
    (hlooks : ∀ turn ∈ turns, turn.kept = false → turn.call.Looks)
    (hnow : ∀ turn ∈ turns, turn.now ≤ now) (htnow : t ≤ now) :
    (play w' (turns.filter (·.kept))).1 = (play w turns).1.filter (·.1.kept) ∧
      Turn.Alike now (play w turns).2 (play w' (turns.filter (·.kept))).2 := by
  induction turns generalizing t w w' with
  | nil => exact ⟨rfl, h.users, h.usages.later htnow, h.left, h.right⟩
  | cons turn turns ih =>
      obtain ⟨hfirst, hrest⟩ := List.pairwise_cons.mp hordered
      have htturn := ht turn (by simp)
      have hnext := fun w w' (h : Turn.Alike turn.now w w') => ih h hfirst hrest
        (fun turn' hturn' => hlooks turn' (List.mem_cons_of_mem _ hturn'))
        (fun turn' hturn' => hnow turn' (List.mem_cons_of_mem _ hturn')) (hnow turn (by simp))
      cases hkept : turn.kept with
      | true =>
          obtain ⟨hresult, halike⟩ := h.run htturn
          obtain ⟨hresults, hend⟩ := hnext _ _ halike
          rw [List.filter_cons_of_pos hkept]
          refine ⟨?_, hend⟩
          simp only [play, List.filter_cons, hkept, if_true]
          rw [hresults, hresult]
      | false =>
          obtain ⟨hresults, hend⟩ := hnext _ _ (h.look htturn (hlooks turn (by simp) hkept))
          rw [List.filter_cons_of_neg (by simp [hkept])]
          refine ⟨?_, hend⟩
          simp only [play, List.filter_cons, hkept, Bool.false_eq_true, if_false]
          exact hresults

/-- Whoever leaves out some calls that only look gets the same results from all others, and finds
the same counters at any later time. -/
theorem looking_is_unobservable {turns : List Turn} (hw : w.script.Faultless)
    (hordered : turns.Pairwise fun turn later => turn.now ≤ later.now)
    (hlooks : ∀ turn ∈ turns, turn.kept = false → turn.call.Looks)
    (hnow : ∀ turn ∈ turns, turn.now ≤ now) :
    (play w (turns.filter (·.kept))).1 = (play w turns).1.filter (·.1.kept) ∧
      ∀ user flow, ((play w (turns.filter (·.kept))).2.usages.reset user now).1.meter flow =
        ((play w turns).2.usages.reset user now).1.meter flow := by
  have hstart (t : Instant) : Turn.Alike t w w := ⟨rfl, .refl t _, hw, hw⟩
  obtain ⟨t, ht, htnow⟩ : ∃ t, (∀ turn ∈ turns, t ≤ turn.now) ∧ t ≤ now := by
    cases turns with
    | nil => exact ⟨now, fun _ h => (nomatch h), Int.le_refl _⟩
    | cons turn turns =>
        refine ⟨turn.now, fun later hlater => ?_, hnow turn (by simp)⟩
        obtain rfl | hlater := List.mem_cons.mp hlater
        · exact Int.le_refl _
        · exact (List.pairwise_cons.mp hordered).1 later hlater
  obtain ⟨hresults, hend⟩ := play_thinned (hstart t) ht hordered hlooks hnow htnow
  exact ⟨hresults, fun user flow => (hend.usages.meter_reset user (Int.le_refl _) flow).symm⟩

/-! ## A run across the turn of a month -/

namespace Sample

def holder : User := ⟨.ofNat 1, "approved"⟩

def world : World where
  clock := fun _ => .epoch
  ids := .ofNat
  users := Table.empty.insert holder.id holder

def midnight (day : Int) (h : Instant.minDay ≤ day ∧ day ≤ Instant.maxDay) : Instant :=
  { Instant.epoch with day := day, day_ge := h.1, day_le := h.2 }

def forty : Amount where
  value := { Decimal.zero with magnitude := 40, magnitude_lt := by decide }
  pos := by decide

/-- The first look begins the counters and the last one rolls them; neither is in the thinned
run. -/
def turns : List Turn :=
  [⟨midnight 29 (by decide), .userLimits holder.id, false⟩,
    ⟨midnight 30 (by decide), .record .deposit holder.id forty, true⟩,
    ⟨midnight 30 (by decide), .validate .deposit holder.id forty.value, true⟩,
    ⟨midnight 31 (by decide), .validate .withdrawal holder.id forty.value, false⟩,
    ⟨midnight 31 (by decide), .recordFunded holder.id (.ofNat 2) forty, true⟩]

theorem looks_left_out :
    world.script.Faultless ∧ (turns.Pairwise fun turn later => turn.now ≤ later.now) ∧
      (∀ turn ∈ turns, turn.kept = false → turn.call.Looks) ∧
      (∀ turn ∈ turns, turn.now ≤ midnight 32 (by decide)) ∧
      (play world (turns.filter (·.kept))).1 = (play world turns).1.filter (·.1.kept) ∧
      ∀ user flow,
        ((play world (turns.filter (·.kept))).2.usages.reset user
            (midnight 32 (by decide))).1.meter flow =
          ((play world turns).2.usages.reset user (midnight 32 (by decide))).1.meter flow := by
  have hfaultless : world.script.Faultless := ⟨rfl, rfl⟩
  have hordered : turns.Pairwise fun turn later => turn.now ≤ later.now := by
    unfold turns
    decide
  have hlooks : ∀ turn ∈ turns, turn.kept = false → turn.call.Looks := by
    simp [turns, Call.Looks]
  have hnow : ∀ turn ∈ turns, turn.now ≤ midnight 32 (by decide) := by
    unfold turns
    decide
  exact ⟨hfaultless, hordered, hlooks, hnow,
    looking_is_unobservable hfaultless hordered hlooks hnow⟩

end Sample

end Quota

end Causeway
