import Causeway.Proofs.Replay.Course
import Causeway.Proofs.Store.Admission

/-!
# What a replay funds in a day and in a month

A row's limits are checked after all deposits that were funded before it have been counted. So on a
clock that does not go back, what is created and funded for a user in one period stays within the cap
of the user's tier (`funded_within_caps`). At the last instant there is no next period to wait for,
and nothing is held against the caps (`caps_missed_at_the_last_instant`).
-/

namespace Causeway.Replay

open Decimal (HasPlaces Representable)
open Quota (Admitted Fine Period Tier sumIn sumIn_cons)
open Store (Usages)

variable {s : Settings} {rows : List (Except Instruction.RowFault Instruction)} {v : World}
  {n : Nat} {st st' : State} {row : Instruction} {d : Deposit} {ds : List Deposit}
  {given : Except Instruction.RowFault Instruction} {clock : Nat → Instant} {ids : Nat → Uuid}
  {tier : Uuid → Tier} {p : Period} {i : Int} {user : Uuid} {t now : Instant}

/-! ## Sums over deposits -/

/-- The deposit was created and funded for the user in the period of number `i`. -/
def FundedIn (p : Period) (i : Int) (user : Uuid) (d : Deposit) : Prop :=
  d.user = user ∧ d.status = .brokerFunded ∧ p.index d.createdAt = i ∧
    d.brokerFundedAt.map p.index = some i

instance : Decidable (FundedIn p i user d) :=
  inferInstanceAs (Decidable (d.user = user ∧ d.status = .brokerFunded ∧ p.index d.createdAt = i ∧
    d.brokerFundedAt.map p.index = some i))

def fundedIn (p : Period) (i : Int) (user : Uuid) (ds : List Deposit) : ℚ :=
  ((ds.filter fun d => FundedIn p i user d).map (·.amount.value.value)).sum

theorem fundedIn_cons (d : Deposit) (ds : List Deposit) : fundedIn p i user (d :: ds) =
    (if FundedIn p i user d then d.amount.value.value else 0) + fundedIn p i user ds := by
  unfold fundedIn
  by_cases h : FundedIn p i user d <;> simp [h]

theorem fundedIn_append (ds es : List Deposit) :
    fundedIn p i user (ds ++ es) = fundedIn p i user ds + fundedIn p i user es := by
  unfold fundedIn
  rw [List.filter_append, List.map_append, List.sum_append]

theorem fundedIn_reverse (ds : List Deposit) :
    fundedIn p i user ds.reverse = fundedIn p i user ds := by
  unfold fundedIn
  exact (((List.reverse_perm ds).filter _).map _).sum_eq

theorem fundedIn_funded (ds : List Deposit) :
    fundedIn p i user (ds.filter (·.status = .brokerFunded)) = fundedIn p i user ds := by
  unfold fundedIn
  rw [List.filter_filter]
  congr 2
  refine List.filter_congr fun d _ => ?_
  by_cases h : FundedIn p i user d
  · simp [h, h.2.1]
  · simp [h]

/-! ## The ledger -/

/-- The deposits that have been counted, each with the instant of its counting, the latest first. -/
abbrev Ledger := List (Instant × Deposit)

variable {ledger : Ledger}

/-- What has been counted for a user. -/
def Ledger.entries (user : Uuid) (ledger : Ledger) : List (Instant × ℚ) :=
  (ledger.filter (·.2.user = user)).map fun x => (x.1, x.2.amount.value.value)

theorem Ledger.entries_cons (x : Instant × Deposit) : Ledger.entries user (x :: ledger) =
    if x.2.user = user then (x.1, x.2.amount.value.value) :: ledger.entries user
    else ledger.entries user := by
  unfold entries
  by_cases h : x.2.user = user <;> simp [h]

/-- Of what has been counted up to `t`, all that was created and funded in a period that is not over
by `t` has been counted in it. -/
theorem Ledger.fundedIn_le (hamounts : ∀ x ∈ ledger, 0 ≤ x.2.amount.value.value)
    (htimes : ∀ x ∈ ledger, x.1 ≤ t ∧ ∃ funded, x.2.brokerFundedAt = some funded ∧ funded ≤ x.1)
    (hi : p.index t ≤ i) :
    fundedIn p i user (ledger.map (·.2)) ≤ sumIn p (p.index t) (ledger.entries user) := by
  induction ledger with
  | nil => exact le_refl _
  | cons x ledger ih =>
      obtain ⟨⟨hle, funded, hat, hfunded⟩, htimes⟩ := List.forall_mem_cons.mp htimes
      obtain ⟨hamount, hamounts⟩ := List.forall_mem_cons.mp hamounts
      have hrest := ih hamounts htimes
      rw [List.map_cons, fundedIn_cons, Ledger.entries_cons]
      by_cases hx : FundedIn p i user x.2
      · have hindex : p.index funded = i := by
          have hperiod := hx.2.2.2
          rw [hat] at hperiod
          exact Option.some.inj hperiod
        have hearly := Period.index_mono (p := p) hfunded
        have hlate := Period.index_mono (p := p) hle
        have hsame : p.index x.1 = p.index t := by omega
        rw [if_pos hx, if_pos hx.1, sumIn_cons, if_pos hsame]
        exact add_le_add (le_refl _) hrest
      · rw [if_neg hx, zero_add]
        split
        · rw [sumIn_cons]
          split
          · exact hrest.trans (le_add_of_nonneg_left hamount)
          · rwa [zero_add]
        · exact hrest

/-- The clock has shown the instant. -/
def Shown (v : World) (t : Instant) : Prop := ∃ k < v.readings, t = v.clock k

/-- The ledger is that of the funded deposits, and the counters hold what it says. -/
structure Accounted (v : World) (ledger : Ledger) : Prop where
  deposits : ledger.map (·.2) =
    (v.deposits.byId.values.filter (·.status = .brokerFunded)).reverse
  amounts : ∀ x ∈ ledger, 0 ≤ x.2.amount.value.value ∧ HasPlaces 20 x.2.amount.value.value
  times : ∀ x ∈ ledger, Shown v x.1 ∧
    ∃ funded, x.2.brokerFundedAt = some funded ∧ funded ≤ x.1
  holds : ∀ user, v.usages.Holds user (ledger.entries user) (Shown v)

theorem Shown.mono {v' : World} (h : Shown v t) (hclock : v'.clock = v.clock)
    (hreadings : v.readings ≤ v'.readings) : Shown v' t := by
  obtain ⟨k, hk, rfl⟩ := h
  exact ⟨k, by omega, by rw [hclock]⟩

theorem Shown.le (h : Shown v t) (hclock : ∀ j k, j ≤ k → v.clock j ≤ v.clock k) {k : Nat}
    (hk : v.readings ≤ k) : t ≤ v.clock k := by
  obtain ⟨j, hj, rfl⟩ := h
  exact hclock j k (by omega)

namespace Accounted

variable {v' : World}

theorem fundedIn_values (h : Accounted v ledger) (p : Period) (i : Int) (user : Uuid) :
    fundedIn p i user v.deposits.byId.values = fundedIn p i user (ledger.map (·.2)) := by
  rw [h.deposits, fundedIn_reverse, fundedIn_funded]

theorem fine (h : Accounted v ledger) (user : Uuid) : Fine (ledger.entries user) := by
  intro x hx
  obtain ⟨y, hy, rfl⟩ := List.mem_map.mp hx
  exact h.amounts y (List.mem_filter.mp hy).1

/-- What leaves the deposits alone leaves the ledger as it is. -/
theorem still (h : Accounted v ledger) (hdeposits : v'.deposits = v.deposits)
    (hclock : v'.clock = v.clock) (hreadings : v.readings ≤ v'.readings)
    (hholds : ∀ user, v'.usages.Holds user (ledger.entries user) (Shown v')) :
    Accounted v' ledger where
  deposits := by rw [hdeposits]; exact h.deposits
  amounts := h.amounts
  times x hx := by
    obtain ⟨hshown, hfunded⟩ := h.times x hx
    exact ⟨hshown.mono hclock hreadings, hfunded⟩
  holds := hholds

theorem registered (h : Accounted v ledger) (row : Instruction) :
    Accounted (registered row v) ledger := by
  have hclock := clock_registered row v
  have hreadings := readings_registered row v
  have husages : (Replay.registered row v).usages = v.usages := by
    rcases registered_cases row v with ⟨-, hw⟩ | ⟨-, hw⟩ <;> rw [hw] <;> rfl
  refine h.still (kept_registered row v).deposits hclock hreadings fun user => ?_
  rw [husages]
  exact (h.holds user).mono fun t ht => ht.mono hclock hreadings

theorem looked (h : Accounted v ledger) (hclock : ∀ j k, j ≤ k → v.clock j ≤ v.clock k)
    (hlast : ∀ k, v.clock k < .last) (user : Uuid) : Accounted (v.checked user) ledger := by
  refine h.still rfl rfl (Nat.le_succ _) fun user' => ?_
  exact (h.holds user').after_reset (fun t ht => ht.le hclock (Nat.le_refl _)) (hlast _) user
    (fun t ht => ht.mono rfl (Nat.le_succ _)) ⟨v.readings, Nat.lt_succ_self _, rfl⟩

theorem placed_unfunded (h : Accounted v ledger) (hfree : v.deposits.Free d)
    (hdeposits : v'.deposits = v.deposits.put d) (hst : d.status ≠ .brokerFunded)
    (husages : v'.usages = v.usages) (hclock : v'.clock = v.clock)
    (hreadings : v.readings ≤ v'.readings) : Accounted v' ledger where
  deposits := by
    rw [h.deposits, hdeposits, Store.Deposits.values_put hfree.id, List.filter_append]
    simp [hst]
  amounts := h.amounts
  times x hx := by
    obtain ⟨hshown, hfunded⟩ := h.times x hx
    exact ⟨hshown.mono hclock hreadings, hfunded⟩
  holds user := by
    rw [husages]
    exact (h.holds user).mono fun t ht => ht.mono hclock hreadings

theorem placed_funded (h : Accounted v ledger) (hmono : ∀ j k, j ≤ k → v.clock j ≤ v.clock k)
    (hlast : ∀ k, v.clock k < .last) (hfree : v.deposits.Free d)
    (hdeposits : v'.deposits = v.deposits.put d) (hst : d.status = .brokerFunded)
    (hamount : 0 ≤ d.amount.value.value ∧ HasPlaces 20 d.amount.value.value)
    (hid : d.id ∉ v.usages.applied) {paid counted : Nat} (hpaid : v.readings ≤ paid)
    (hcounted : paid ≤ counted) (hend : counted < v'.readings)
    (hat : d.brokerFundedAt = some (v.clock paid))
    (husages : v'.usages = (v.usages.apply d.user d.id d.amount.value (v.clock counted)).2)
    (hclock : v'.clock = v.clock)
    (hexact : ∀ p : Period, Representable (sumIn p (p.index (v.clock counted))
      ((v.clock counted, d.amount.value.value) :: ledger.entries d.user))) :
    Accounted v' ((v.clock counted, d) :: ledger) := by
  have hreadings : v.readings ≤ v'.readings := by omega
  have hnow : Shown v' (v.clock counted) := ⟨counted, hend, by rw [hclock]⟩
  refine ⟨?_, List.forall_mem_cons.mpr ⟨hamount, h.amounts⟩,
    List.forall_mem_cons.mpr ⟨⟨hnow, v.clock paid, hat, hmono _ _ hcounted⟩, fun x hx => ?_⟩,
    fun user => ?_⟩
  · rw [List.map_cons, h.deposits, hdeposits, Store.Deposits.values_put hfree.id,
      List.filter_append]
    simp [hst]
  · obtain ⟨hshown, hfunded⟩ := h.times x hx
    exact ⟨hshown.mono hclock hreadings, hfunded⟩
  · rw [husages, Ledger.entries_cons]
    refine (h.holds user).after_apply (fun t ht => ht.le hmono (by omega)) (hlast _)
      (Decimal.not_le_zero d.amount) hid ?_ (fun t ht => ht.mono hclock hreadings) hnow
    rintro rfl
    exact hexact

/-- A deposit that was admitted at `t` stays within the cap of the period it is funded in. -/
theorem within (h : Accounted v ledger) (ht : ∀ t', Shown v t' → t' ≤ t) (hcreated : t ≤ d.createdAt)
    (hd : FundedIn p i user d) {cap : ℚ}
    (hcap : sumIn p (p.index t) (ledger.entries d.user) + d.amount.value.value ≤ cap) :
    fundedIn p i user v.deposits.byId.values + d.amount.value.value ≤ cap := by
  obtain ⟨rfl, -, hi, -⟩ := hd
  have hindex := Period.index_mono (p := p) hcreated
  rw [hi] at hindex
  rw [h.fundedIn_values]
  refine (add_le_add_left (Ledger.fundedIn_le (fun x hx => (h.amounts x hx).1)
    (fun x hx => ?_) hindex) _).trans hcap
  obtain ⟨hshown, hfunded⟩ := h.times x hx
  exact ⟨ht x.1 hshown, hfunded⟩

end Accounted

/-! ## Rows -/

/-- So far, what was funded for each user in any one period is within the cap of the user's tier. -/
structure Capped (tier : Uuid → Tier) (v : World) : Prop where
  accounted : ∃ ledger, Accounted v ledger
  within : ∀ user p i, fundedIn p i user v.deposits.byId.values ≤
    (((tier user).caps .deposit).during p).value

theorem cap_nonneg (tier : Tier) (p : Period) : 0 ≤ ((tier.caps .deposit).during p).value := by
  rw [← Decimal.value_zero, ← Decimal.le_iff]
  cases tier <;> cases p <;> decide

theorem Capped.start : Capped tier (initialWorld s clock ids) where
  accounted := ⟨[], rfl, fun _ h => (nomatch h), fun _ h => (nomatch h), fun _ => .inl ⟨rfl, rfl⟩⟩
  within _ p _ := cap_nonneg _ p

theorem amount_nonneg (a : Amount) : 0 ≤ a.value.value := by
  have hpos := Decimal.lt_iff.mp a.pos
  rw [Decimal.value_zero] at hpos
  exact hpos.le

theorem fundedIn_put {deposits : Store.Deposits} (hfree : deposits.Free d) :
    fundedIn p i user (deposits.put d).byId.values = fundedIn p i user deposits.byId.values +
      if FundedIn p i user d then d.amount.value.value else 0 := by
  have hnone : fundedIn p i user [] = 0 := rfl
  rw [Store.Deposits.values_put hfree.id, fundedIn_append, fundedIn_cons, hnone, add_zero]

/-- A row that leaves the deposits alone leaves what has been funded as it is. -/
theorem Capped.still (h : Capped tier v) {v' : World} {ledger : Ledger}
    (hdeposits : v'.deposits = v.deposits) (hledger : Accounted v' ledger) : Capped tier v' :=
  ⟨⟨ledger, hledger⟩, by rw [hdeposits]; exact h.within⟩

theorem Capped.put (h : Capped tier v) {v' : World} {ledger : Ledger} (hfree : v.deposits.Free d)
    (hdeposits : v'.deposits = v.deposits.put d) (hledger : Accounted v' ledger)
    (hd : ∀ user p i, FundedIn p i user d → fundedIn p i user v.deposits.byId.values +
      d.amount.value.value ≤ (((tier user).caps .deposit).during p).value) : Capped tier v' := by
  refine ⟨⟨ledger, hledger⟩, fun user p i => ?_⟩
  rw [hdeposits, fundedIn_put hfree]
  split
  · rename_i hfunded
    exact hd user p i hfunded
  · rw [add_zero]
    exact h.within user p i

theorem Capped.carried (h : Capped tier v) {v' : World} {r : Except Failure Unit}
    (hmono : ∀ j k, j ≤ k → v.clock j ≤ v.clock k) (hlast : ∀ k, v.clock k < .last)
    (htier : Tier.ofStatus row.status = tier row.user) (hplaces : HasPlaces 20 row.amount.value.value)
    (hcarried : Carried s row v r v') : Capped tier v' := by
  obtain ⟨ledger, hledger⟩ := h.accounted
  have hregistered := hledger.registered row
  have hsame := clock_registered row v
  rw [← hsame] at hmono hlast
  have hchecked : Accounted (checked row v) ledger := hregistered.looked hmono hlast row.user
  have hkept : (registered row v).deposits = v.deposits := (kept_registered row v).deposits
  cases hcarried with
  | overLimit denial _ hpass hw' =>
      rcases hw' with rfl | rfl
      · exact h.still hkept hregistered
      · exact h.still hkept hchecked
  | stopped e _ hpass hobstacle hw' =>
      rcases hw' with rfl | rfl
      · exact h.still hkept hchecked
      · refine h.still hkept (hchecked.still rfl rfl (Nat.le_succ _) fun user => ?_)
        exact (hchecked.holds user).mono fun t ht => ht.mono rfl (Nat.le_succ _)
  | placed _ _ d hpass hadmitted a hready hplaced htells hcounted hbegun hclock hreadings =>
      have hfree : (checked row v).deposits.Free d := hplaced.free
      have hcapped : Capped tier (checked row v) := h.still hkept hchecked
      have hclock' : v'.clock = (checked row v).clock := hclock.trans hsame.symm
      have hamount : 0 ≤ d.amount.value.value ∧ HasPlaces 20 d.amount.value.value := by
        rw [htells.amount]
        exact ⟨amount_nonneg row.amount, hplaces⟩
      cases hcounted with
      | unfunded hst husages =>
          exact hcapped.put hfree hplaced.deposits (hchecked.placed_unfunded hfree hplaced.deposits
            hst husages hclock' hreadings) fun user p i hd => absurd hd.2.1 hst
      | funded hst paid counted hpaid hcounted hend hat husages =>
          -- What the gate has admitted by the counters bounds what is funded from then on.
          have hshown : ∀ t, Shown (registered row v) t → t ≤ (registered row v).now :=
            fun t ht => ht.le hmono (Nat.le_refl _)
          have hholds := (hregistered.holds row.user).reset hshown (hlast _)
          rw [htier, ← htells.user, ← htells.amount] at hadmitted
          rw [← htells.user] at hholds
          have hadmits := fun p => hadmitted.within hholds (hregistered.fine d.user) hamount p
          have hnew : d.id ∉ (checked row v).usages.applied := by
            rw [hplaced.id_eq]
            exact hready.steady.applied_new (hready.fresh.not_drawn (n := 0) (by decide))
          have hlater : (registered row v).now ≤ (checked row v).clock counted :=
            hmono _ _ (by
              have hmore : (checked row v).readings = (registered row v).readings + 1 := rfl
              omega)
          have hcreated : (registered row v).now ≤ d.createdAt := by
            rw [hbegun]
            exact hmono _ _ (Nat.le_succ _)
          refine hcapped.put hfree hplaced.deposits (hchecked.placed_funded hmono hlast hfree
            hplaced.deposits hst hamount hnew hpaid hcounted hend hat husages hclock' fun p =>
              Quota.representable_later (hholds.during p).upTo hlater (hadmits p).1)
            fun user p i hd => ?_
          obtain rfl := hd.1
          exact hregistered.within hshown hcreated hd (hadmits p).2

/-- Amounts of at most twenty decimal places, under settings that can work, on a clock that does not
go back and stays before the last instant: what a replay that ends in a report has created and funded
for a user in one day or one month is within the cap of the user's tier. -/
theorem funded_within_caps (tier : Uuid → Tier) (hs : s.validate = .ok ())
    (hfresh : (initialWorld s clock ids).FreshFor (4 * rows.length))
    (hclock : ∀ j k, j ≤ k → clock j ≤ clock k) (hlast : ∀ k, clock k < .last)
    (htier : ∀ row, .ok row ∈ rows → Tier.ofStatus row.status = tier row.user)
    (hplaces : ∀ row, .ok row ∈ rows → HasPlaces 20 row.amount.value.value) {text : String}
    (h : run s rows (initialWorld s clock ids) = (.report text, st)) (user : Uuid) (p : Period)
    (i : Int) : fundedIn p i user st.world.deposits.byId.values ≤
      (((tier user).caps .deposit).during p).value := by
  have hworkable := Settings.workable_of_valid hs
  obtain ⟨st₀, hreach, -, hmoved, -⟩ := reaches_of_run hworkable hfresh h nofun
  have hcapped := (hreach.rule (P := fun _ st => Capped tier st.world) hworkable hfresh .start
    (fun n given st st' hrow hreach hunder hfresh htaken hcapped => ?_) (Nat.le_refl _)).2
  · rw [hmoved.deposits]
    exact hcapped.within user p i
  · cases htaken with
    | unreadable fault hworld =>
        rw [hworld]
        exact hcapped
    | carriedOut row r hcarried =>
        have hmem : .ok row ∈ rows := List.mem_of_getElem? hrow
        have hsame : st.world.clock = clock := hunder.clock
        exact hcapped.carried (by rw [hsame]; exact hclock) (by rw [hsame]; exact hlast)
          (htier row hmem) (hplaces row hmem) hcarried

/-- Two rows of a user, each of which takes up the cap of a day. -/
def cappedRows : List (Except Instruction.RowFault Instruction) :=
  let hundred := sampleAmount 100 (by decide)
  [.ok (sampleRow 1 "a" hundred .completed), .ok (sampleRow 1 "b" hundred .completed)]

theorem conditions_cappedRows :
    (∀ row, .ok row ∈ cappedRows → Tier.ofStatus row.status = .unverified) ∧
      (∀ row, .ok row ∈ cappedRows → HasPlaces 20 row.amount.value.value) ∧
      ∀ clock, (initialWorld .standard clock .ofNat).FreshFor (4 * cappedRows.length) := by
  have hrows : ∀ row, .ok row ∈ cappedRows →
      row.status = "none" ∧ row.amount.value = { magnitude := 100, places := 0 } := by
    intro row hrow
    simp only [cappedRows, List.mem_cons, List.not_mem_nil, or_false, Except.ok.injEq] at hrow
    rcases hrow with rfl | rfl <;> exact ⟨rfl, rfl⟩
  refine ⟨fun row hrow => ?_, fun row hrow => ⟨100 * tenTo 20, ?_⟩, fun clock => ?_⟩
  · rw [(hrows row hrow).1]
    decide +kernel
  · rw [(hrows row hrow).2]
    simp [Decimal.value, Decimal.coefficient, Decimal.signed, (Decimal.tenTo_cast_pos 20).ne']
  · exact freshFor_initialWorld .standard clock (by simp [cappedRows])

theorem fundedIn_eq_of_amounts {amounts : List Decimal}
    (h : (ds.filter fun d => FundedIn p i user d).map (·.amount.value) = amounts) :
    fundedIn p i user ds = (amounts.map Decimal.value).sum := by
  rw [← h, List.map_map]
  rfl

theorem funded_within_caps_cappedRows : ∃ text st,
    run .standard cappedRows (initialWorld .standard (fun _ => .epoch) .ofNat) =
        (.report text, st) ∧
      fundedIn .daily 0 (.ofNat 1) st.world.deposits.byId.values = 100 ∧
      ∀ user p i, fundedIn p i user st.world.deposits.byId.values ≤
        ((Tier.unverified.caps .deposit).during p).value := by
  have hrun : (run .standard cappedRows
        (initialWorld .standard (fun _ => .epoch) .ofNat)).1.isReport ∧
      (((run .standard cappedRows (initialWorld .standard (fun _ => .epoch) .ofNat)
        ).2.world.deposits.byId.values.filter fun d => FundedIn .daily 0 (.ofNat 1) d).map
          (·.amount.value)) = [{ magnitude := 100, places := 0 }] := by decide +kernel
  obtain ⟨htier, hplaces, hfresh⟩ := conditions_cappedRows
  rcases hcapped : run .standard cappedRows (initialWorld .standard (fun _ => .epoch) .ofNat) with
    ⟨ending, st⟩
  rw [hcapped] at hrun
  obtain ⟨hreport, hamounts⟩ := hrun
  obtain ⟨text, rfl⟩ := Ending.exists_of_isReport hreport
  refine ⟨text, st, rfl, ?_, fun user p i => ?_⟩
  · rw [fundedIn_eq_of_amounts hamounts]
    simp [Decimal.value, Decimal.coefficient, Decimal.signed]
  · exact funded_within_caps (fun _ => .unverified) Settings.validate_standard (hfresh _)
      (fun _ _ _ => Int.le_refl _) (fun _ => by decide) htier hplaces hcapped user p i

/-- At the last instant each look at a counter starts it anew, so both rows are funded on one day. -/
theorem caps_missed_at_the_last_instant :
    ¬ ∀ (rows : List (Except Instruction.RowFault Instruction)) (clock : Nat → Instant),
      (initialWorld .standard clock .ofNat).FreshFor (4 * rows.length) →
      (∀ j k, j ≤ k → clock j ≤ clock k) →
      (∀ row, .ok row ∈ rows → Tier.ofStatus row.status = .unverified) →
      (∀ row, .ok row ∈ rows → HasPlaces 20 row.amount.value.value) →
      ∀ text st, run .standard rows (initialWorld .standard clock .ofNat) = (.report text, st) →
        ∀ user p i, fundedIn p i user st.world.deposits.byId.values ≤
          ((Tier.unverified.caps .deposit).during p).value := by
  intro h
  have hrun : (run .standard cappedRows
        (initialWorld .standard (fun _ => .last) .ofNat)).1.isReport ∧
      (((run .standard cappedRows (initialWorld .standard (fun _ => .last) .ofNat)
        ).2.world.deposits.byId.values.filter fun d =>
          FundedIn .daily Instant.last.day (.ofNat 1) d).map (·.amount.value)) =
        [{ magnitude := 100, places := 0 }, { magnitude := 100, places := 0 }] := by decide +kernel
  obtain ⟨htier, hplaces, hfresh⟩ := conditions_cappedRows
  rcases hmissed : run .standard cappedRows (initialWorld .standard (fun _ => .last) .ofNat) with
    ⟨ending, st⟩
  rw [hmissed] at hrun
  obtain ⟨hreport, hamounts⟩ := hrun
  obtain ⟨text, rfl⟩ := Ending.exists_of_isReport hreport
  have hle := h cappedRows (fun _ => .last) (hfresh _) (fun _ _ _ => Int.le_refl _) htier hplaces
    text st hmissed (.ofNat 1) .daily Instant.last.day
  rw [fundedIn_eq_of_amounts hamounts] at hle
  norm_num [Decimal.value, Decimal.coefficient, Decimal.signed, Quota.Tier.caps,
    Quota.Caps.during, tenTo] at hle

end Causeway.Replay
