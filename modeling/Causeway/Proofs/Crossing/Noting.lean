import Causeway.Proofs.Crossing.Counting
import Causeway.Proofs.Decimal.Sums
import Causeway.Proofs.Store.Whole

/-!
# Deposits that are noted and not counted

A deposit is noted before its amount is added, so what has been noted has been counted or its
counters have overflowed, and never both (`Run.noted`). What is marked has been noted: a sweep marks
a deposit that nothing has counted exactly if its counters have overflowed
(`recording_whole_iff`).
-/

namespace Causeway.Crossing

variable {s : Settings} {σ σ' : System} {id : Uuid}

/-- The deposit whose counters overflow in the exchange. -/
def Exchange.overflow? : Exchange → Option Uuid
  | ⟨w, .applyUsage user deposit amount⟩ =>
    match (w.perform (.applyUsage user deposit amount)).1 with
    | .error _ => some deposit
    | .ok _ => none
  | _ => none

def System.Counts (σ : System) (id : Uuid) : Prop := ∃ a ∈ σ.applications, a.deposit = id

def System.Overflowed (σ : System) (id : Uuid) : Prop := ∃ x ∈ σ.history, x.overflow? = some id

/-- What has been noted has been counted or has overflowed, and nothing has done both. -/
structure System.Noted (σ : System) : Prop where
  applied : ∀ id, id ∈ σ.world.usages.applied ↔ σ.Counts id ∨ σ.Overflowed id
  apart : ∀ id, σ.Counts id → ¬ σ.Overflowed id

/-- An exchange notes no deposit, or one that has not been noted, which it counts unless the counters
overflow. -/
theorem noting_cases {w : World} (hs : w.Sound) {r : Request} (hr : w.Permits r) :
    (Exchange.application? ⟨w, r⟩ = none ∧ Exchange.overflow? ⟨w, r⟩ = none ∧
        (w.perform r).2.usages.applied = w.usages.applied) ∨
      ∃ id, id ∉ w.usages.applied ∧
        (w.perform r).2.usages.applied = w.usages.applied ++ [id] ∧
        ((∃ a, a.deposit = id ∧ Exchange.application? ⟨w, r⟩ = some a) ∧
            Exchange.overflow? ⟨w, r⟩ = none ∨
          Exchange.application? ⟨w, r⟩ = none ∧ Exchange.overflow? ⟨w, r⟩ = some id) := by
  by_cases hne : ∀ user deposit amount, r ≠ .applyUsage user deposit amount
  · refine .inl ⟨application?_eq_none hne, ?_, by rw [perform_usages hs hr hne]⟩
    cases r with
    | applyUsage user deposit amount => exact absurd rfl (hne user deposit amount)
    | _ => rfl
  · simp only [not_forall, not_not] at hne
    obtain ⟨user, deposit, amount, rfl⟩ := hne
    rcases World.applyUsage_cases w user deposit amount with ⟨e, w', he, hq⟩ | ⟨-, he⟩
    · left
      simp only [Exchange.application?, Exchange.overflow?, he]
      exact ⟨trivial, trivial, congrArg Store.Usages.applied hq.usages⟩
    · rcases Store.Usages.apply_cases w.usages user deposit amount (w.clock w.readings) with
        ⟨-, ha⟩ | ⟨-, ha⟩ | ⟨-, hnew, hs, hr⟩
      · left
        rw [ha] at he
        simp only [Exchange.application?, Exchange.overflow?, he]
        exact ⟨trivial, trivial, trivial⟩
      · left
        rw [ha] at he
        simp only [Exchange.application?, Exchange.overflow?, he]
        exact ⟨trivial, trivial, trivial⟩
      · right
        refine ⟨deposit, hnew, by rw [he, hs], ?_⟩
        cases hover : ((w.usages.entry user (w.clock w.readings)).add .deposit amount
            (w.clock w.readings)).2 with
        | none =>
            rw [hr, hover] at he
            simp only [Exchange.application?, Exchange.overflow?, he]
            exact .inl ⟨⟨_, rfl, rfl⟩, trivial⟩
        | some o =>
            rw [hr, hover] at he
            simp only [Exchange.application?, Exchange.overflow?, he]
            exact .inr ⟨trivial, trivial⟩

/-- What an exchange notes is what it counts and what overflows in it. Neither had been noted, and
nothing is both. -/
theorem noting_iff {w : World} (hs : w.Sound) {r : Request} (hr : w.Permits r) (id : Uuid) :
    let counts := ∃ a, a.deposit = id ∧ Exchange.application? ⟨w, r⟩ = some a
    let overflows := Exchange.overflow? ⟨w, r⟩ = some id
    (id ∈ (w.perform r).2.usages.applied ↔ id ∈ w.usages.applied ∨ counts ∨ overflows) ∧
      (counts ∨ overflows → id ∉ w.usages.applied) ∧ (counts → ¬ overflows) := by
  rcases noting_cases hs hr with
    ⟨hnone, hkept, hsame⟩ | ⟨id', hnew, hadded, ⟨⟨a, rfl, hsome⟩, hnone⟩ | ⟨hnone, hsome⟩⟩
  · simp [hnone, hkept, hsame]
  · rw [hadded, hsome, hnone]
    refine ⟨by simp [eq_comm], ?_, by simp⟩
    rintro (⟨b, rfl, hb⟩ | hover)
    · cases hb
      exact hnew
    · cases hover
  · rw [hadded, hsome, hnone]
    refine ⟨by simp [eq_comm], ?_, by simp⟩
    rintro (⟨b, -, hb⟩ | hover)
    · cases hb
    · cases hover
      exact hnew

/-! ## All runs -/

section Turn

variable {before behind : List Activity} {op : Operation} {r : Request}
  {k : r.Answer → Program Result}

theorem System.counts_turn_iff : (σ.turn before behind op r k).Counts id ↔
    (∃ a, a.deposit = id ∧ Exchange.application? ⟨σ.world, r⟩ = some a) ∨ σ.Counts id := by
  unfold System.Counts System.applications System.turn
  rw [List.filterMap_cons]
  cases Exchange.application? ⟨σ.world, r⟩ <;> simp [eq_comm]

theorem System.overflowed_turn_iff : (σ.turn before behind op r k).Overflowed id ↔
    Exchange.overflow? ⟨σ.world, r⟩ = some id ∨ σ.Overflowed id := by
  simp [System.Overflowed, System.turn]

theorem System.Noted.turn (h : σ.Noted) (ho : σ.Orderly)
    (hrun : σ.running = before ++ ⟨op, .call r k⟩ :: behind) :
    (σ.turn before behind op r k).Noted := by
  have hnoting := noting_iff ho.sound (ho.obeys.permits hrun ho.sound)
  constructor
  · intro id
    have hafter : id ∈ (σ.turn before behind op r k).world.usages.applied ↔ _ := (hnoting id).1
    rw [hafter, h.applied, counts_turn_iff, overflowed_turn_iff, or_or_or_comm,
      or_comm (a := σ.Counts id), or_comm (a := σ.Overflowed id)]
  · intro id
    obtain ⟨-, hnew, hapart⟩ := hnoting id
    rw [h.applied] at hnew
    rw [counts_turn_iff, overflowed_turn_iff]
    rintro (hcounts | hcounted) (hover | hovered)
    · exact hapart hcounts hover
    · exact hnew (.inl hcounts) (.inr hovered)
    · exact hnew (.inr hover) (.inl hcounted)
    · exact h.apart id hcounted hovered

end Turn

theorem noted_of_idle {w : World} (hu : w.usages = {}) : System.Noted { world := w } where
  applied id := by
    rw [hu]
    simp [System.Counts, System.applications, System.Overflowed]
  apart _ := fun ⟨_, ha, _⟩ => nomatch ha

theorem Run.noted {w : World} (hrun : Run s { world := w } σ) (hw : w.Sound)
    (hu : w.usages = {}) : σ.Noted := by
  induction hrun with
  | refl => exact noted_of_idle hu
  | @tail σ σ' hrun hstep ih =>
      cases hstep with
      | start op => exact ⟨ih.applied, ih.apart⟩
      | disturb hd =>
          refine ⟨fun id => ?_, ih.apart⟩
          rw [hd.quiet.usages]
          exact ih.applied id
      | turn hr => exact ih.turn (Run.orderly hrun (System.orderly_of_idle hw)) hr

/-- A deposit that is marked has been counted unless its counters have overflowed. -/
theorem Run.marked_counted_iff {w : World} (hrun : Run s { world := w } σ) (hd : w.deposits = {})
    (hu : w.usages = {}) (hrace : w.script.race = none) {d : Deposit}
    (hget : σ.world.deposits.get? id = some d) (hmark : d.usageRecordedAt.isSome) :
    σ.Counts id ↔ ¬ σ.Overflowed id := by
  have hw : w.Sound := ⟨by rw [hd]; exact Store.Deposits.Sound.empty, hrace⟩
  have htally : σ.world.Tallied := hrun.invariant (System.orderly_of_idle hw)
    (fun _ _ hs he h => h.effect hs he) (World.tallied_of_empty hd hu)
  have hnoted := hrun.noted hw hu
  constructor
  · exact hnoted.apart id
  · intro hnot
    exact ((hnoted.applied id).mp (htally.marked hget hmark)).resolve_right hnot

/-- What recording comes to when a sum overflows. A plain record is whole unless the day has taken
the amount and the month could not. A record of a deposit is whole if the deposit has been noted
before or neither sum overflows; after an overflow no later record of the deposit adds anything. So
throughout every run from empty books, a deposit that is marked has been counted unless its counters
have overflowed. -/
theorem recording_whole_iff (u : Store.Usages) (user deposit : Uuid) (flow : Quota.Flow)
    (a : Amount) (now : Instant) :
    (u.Whole user flow a.value now none
        ((Store.Usages.Call.increment user flow a.value).perform now u) ↔
      ¬ (u.rolled user flow now).Torn a.value) ∧
    (u.Whole user .deposit a.value now (some deposit) (u.apply user deposit a.value now) ↔
      deposit ∈ u.applied ∨ ((u.rolled user .deposit now).add a.value).2 = none) ∧
    (∀ o, (u.apply user deposit a.value now).1 = .error o → ∀ cs user' (a' : Amount) t,
      ((u.apply user deposit a.value now).2.later cs).apply user' deposit a'.value t =
        (.ok (.ok false), (u.apply user deposit a.value now).2.later cs)) ∧
    ∀ (s : Settings) (w : World) σ, w.deposits = {} → w.usages = {} → w.script.race = none →
      Run s { world := w } σ → ∀ id d, σ.world.deposits.get? id = some d →
        d.usageRecordedAt.isSome → (σ.Counts id ↔ ¬ σ.Overflowed id) := by
  have ha := Decimal.not_le_zero a
  refine ⟨Store.Usages.increment_whole_iff ha u user flow now,
    Store.Usages.apply_whole_iff ha u user deposit now, ?_, ?_⟩
  · intro o h cs user' a' t
    exact Store.Usages.apply_of_overflow h cs user' (Decimal.not_le_zero a') t
  · intro s w σ hd hu hrace hrun id d hget hmark
    exact hrun.marked_counted_iff hd hu hrace hget hmark

/-! ## A deposit that is marked and not counted -/

namespace Sample

def largest : Amount := ⟨.largest, by decide⟩

/-- The transfer has been completed and the news of it has come in. -/
def settled (σ : System) (transfer : String) : System :=
  System.alone { σ with world := (σ.world.completeTransfer transfer).2 } .standard
    (.callback transfer)

theorem run_settled (σ : System) (transfer : String) : Run .standard σ (settled σ transfer) :=
  (run_disturb (.complete transfer)).trans (run_alone _ _)

/-- A deposit of the largest amount has been counted. -/
def laden : System :=
  settled (System.alone { world := world .epoch } .standard
    (.initiate user account.railAccount largest "first")) transfer

def second : Uuid := .ofNat 103

/-- Another has been paid in. -/
def overladen : System :=
  settled (laden.alone .standard (.initiate user account.railAccount amount "second"))
    (Rail.Sandbox.idOf (.ofNat 104))

/-- A sweep has marked it. -/
def marked : System := overladen.alone .standard (.sweep .epoch)

theorem run_marked : Run .standard { world := world .epoch } marked :=
  ((run_alone _ _).trans (run_settled _ _)).trans
    (((run_alone _ _).trans (run_settled _ _)).trans (run_alone _ _))

/-- The first deposit is counted as a whole; nothing later adds the second. -/
theorem first_recorded_whole :
    (laden.world.usages.apply user second amount.value .epoch).1 = .error .addition ∧
      ((laden.world.usages.apply user second amount.value .epoch).2.apply user second amount.value
        secondDay).1 = .ok (.ok false) ∧
      ({} : Store.Usages).Whole user .deposit largest.value .epoch (some deposit)
        (({} : Store.Usages).apply user deposit largest.value .epoch) ∧
      laden.Counts deposit := by
  have hover : (laden.world.usages.apply user second amount.value .epoch).1 =
      .error .addition := by decide
  obtain ⟨-, -, hlater, hmarked⟩ :=
    recording_whole_iff laden.world.usages user second .deposit amount .epoch
  obtain ⟨-, hwhole, -⟩ := recording_whole_iff {} user deposit .deposit largest .epoch
  refine ⟨hover, ?_, hwhole.mpr (.inr rfl), ?_⟩
  · exact congrArg Prod.fst (hlater _ hover [] user amount secondDay)
  · have hmark : (laden.world.deposits.get? deposit).map (·.usageRecordedAt.isSome) =
        some true := by decide
    obtain ⟨d, hget, hmark⟩ := Option.map_eq_some_iff.mp hmark
    have hrun : Run .standard { world := world .epoch } laden :=
      (run_alone _ _).trans (run_settled _ _)
    refine (hmarked .standard (world .epoch) laden rfl rfl rfl hrun deposit d hget hmark).mpr ?_
    have hnone : laden.history.all (·.overflow?.isNone) := by decide
    rintro ⟨x, hx, hover⟩
    simpa [hover] using List.all_eq_true.mp hnone x hx

/-- The counters have no room for the second deposit. It is noted all the same, so the sweep marks
it, though it has not been counted. -/
theorem second_marked_uncounted :
    ¬ laden.world.usages.Whole user .deposit amount.value .epoch (some second)
        (laden.world.usages.apply user second amount.value .epoch) ∧
      Run .standard { world := world .epoch } marked ∧
      ((marked.world.deposits.get? second).map (·.usageRecordedAt.isSome)) = some true ∧
      ¬ marked.Counts second := by
  refine ⟨?_, run_marked, by decide, ?_⟩
  · rw [Store.Usages.apply_whole_iff (Decimal.not_le_zero amount)]
    decide
  · have hnone : marked.applications.all (·.deposit ≠ second) := by decide
    rintro ⟨a, ha, heq⟩
    simpa [heq] using List.all_eq_true.mp hnone a ha

end Sample

end Causeway.Crossing
