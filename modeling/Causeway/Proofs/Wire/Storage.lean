import Causeway.Proofs.Wire.Scalars
import Causeway.Wire.Quota
import Causeway.Wire.Records

/-!
# Deposits and usage as they are stored

What is stored of a deposit or of a user's usage is read back as it was, provided that no zero has a
sign and no instant stands in a leap second (`storage_is_lossless`). A deposit that was stored
before the last of its members came up is read as one on which no usage has been recorded.
-/

namespace Causeway

open Json (NumberFree Tree)

/-- An object without its members of one name. -/
def Json.without (name : String) : Json → Json
  | .object ms => .object (ms.filter (·.1 ≠ name))
  | j => j

/-! ## Deposits -/

namespace Deposit

/-- No zero has a sign, and no instant stands in a leap second. -/
structure Storable (d : Deposit) : Prop where
  destinationAmount : ∀ x ∈ d.destinationAmount, ¬ x.IsNegativeZero
  createdAt : ¬ d.createdAt.InLeapSecond
  updatedAt : ¬ d.updatedAt.InLeapSecond
  railInitiatedAt : ∀ t ∈ d.railInitiatedAt, ¬ t.InLeapSecond
  railCompletedAt : ∀ t ∈ d.railCompletedAt, ¬ t.InLeapSecond
  brokerFundedAt : ∀ t ∈ d.brokerFundedAt, ¬ t.InLeapSecond
  usageRecordedAt : ∀ t ∈ d.usageRecordedAt, ¬ t.InLeapSecond

variable {d : Deposit}

/-- The members that a deposit has always had. -/
def olderMembers (d : Deposit) : List (String × Json) :=
  [("id", d.id.toJson),
   ("user_id", d.user.toJson),
   ("virtual_account_id", d.account.toJson),
   ("reference", .string d.reference),
   ("amount", d.amount.toJson),
   ("currency", .string d.currency),
   ("status", .string d.status.name),
   ("provider_tx_id", .ofText d.transfer),
   ("destination_amount", .ofDecimal d.destinationAmount),
   ("funding_ref", .ofText d.fundingRef),
   ("failure_reason", .ofText d.failureReason),
   ("created_at", d.createdAt.toJson),
   ("updated_at", d.updatedAt.toJson),
   ("rail_initiated_at", .ofInstant d.railInitiatedAt),
   ("rail_completed_at", .ofInstant d.railCompletedAt),
   ("broker_funded_at", .ofInstant d.brokerFundedAt)]

theorem toJson_eq (d : Deposit) : d.toJson =
    .object (d.olderMembers ++ [("usage_recorded_at", .ofInstant d.usageRecordedAt)]) := rfl

theorem toJson_without (d : Deposit) :
    d.toJson.without "usage_recorded_at" = .object d.olderMembers := rfl

/-- The members may stand in any order, among others that are not known. -/
theorem ofTree?_of_subset (h : d.Storable) {ms : List (String × Json)}
    (hnames : (ms.map Prod.fst).Nodup) (holder : d.olderMembers ⊆ ms) {recorded : Option Instant}
    (hrecorded : (Tree.slot ms "usage_recorded_at").orElse none
      (Tree.nullable? Instant.ofTree?) = some recorded) :
    ofTree? (Json.object ms).toTree = some { d with usageRecordedAt := recorded } := by
  have hmem : ∀ m ∈ d.olderMembers, m ∈ ms := holder
  simp only [olderMembers, List.forall_mem_cons] at hmem
  obtain ⟨hid, huser, haccount, hreference, hamount, hcurrency, hstatus, htransfer, hdestination,
    hfundingRef, hfailureReason, hcreatedAt, hupdatedAt, hrailInitiatedAt, hrailCompletedAt,
    hbrokerFundedAt, -⟩ := hmem
  rw [ofTree?, Tree.members?_toTree hnames, Option.bind_eq_bind, Option.bind_some,
    Tree.required_bind hnames hid d.id.ofTree?_toTree,
    Tree.required_bind hnames huser d.user.ofTree?_toTree,
    Tree.required_bind hnames haccount d.account.ofTree?_toTree,
    Tree.required_bind hnames hreference (Tree.text?_toTree _),
    Tree.required_bind hnames hamount d.amount.ofTree?_toTree,
    Tree.required_bind hnames hcurrency (Tree.text?_toTree _),
    Tree.required_bind hnames hstatus d.status.ofTree?_name,
    Tree.optional_bind hnames htransfer (Tree.nullable?_ofText _),
    Tree.optional_bind hnames hdestination (Tree.nullable?_ofDecimal _),
    Decimal.map_unsignZero h.destinationAmount,
    Tree.optional_bind hnames hfundingRef (Tree.nullable?_ofText _),
    Tree.optional_bind hnames hfailureReason (Tree.nullable?_ofText _),
    Tree.required_bind hnames hcreatedAt (d.createdAt.ofTree?_toTree h.createdAt),
    Tree.required_bind hnames hupdatedAt (d.updatedAt.ofTree?_toTree h.updatedAt),
    Tree.optional_bind hnames hrailInitiatedAt (Tree.nullable?_ofInstant h.railInitiatedAt),
    Tree.optional_bind hnames hrailCompletedAt (Tree.nullable?_ofInstant h.railCompletedAt),
    Tree.optional_bind hnames hbrokerFundedAt (Tree.nullable?_ofInstant h.brokerFundedAt),
    hrecorded]
  rfl

theorem numberFree_olderMembers (d : Deposit) : ∀ m ∈ d.olderMembers, m.2.NumberFree := by
  simp only [olderMembers, List.forall_mem_cons]
  exact ⟨.string _, .string _, .string _, .string _, .string _, .string _, .string _, .ofText _,
    .ofDecimal _, .ofText _, .ofText _, .string _, .string _, .ofInstant _, .ofInstant _,
    .ofInstant _, fun m hm => by cases hm⟩

theorem numberFree_toJson (d : Deposit) : d.toJson.NumberFree := by
  rw [toJson_eq]
  refine .object fun m hm => ?_
  rcases List.mem_append.mp hm with hm | hm
  · exact d.numberFree_olderMembers m hm
  · rw [List.mem_singleton.mp hm]
    exact .ofInstant _

theorem ofTree?_toTree (h : d.Storable) : ofTree? d.toJson.toTree = some d := by
  have hnames : ((d.olderMembers ++
      [("usage_recorded_at", Json.ofInstant d.usageRecordedAt)]).map Prod.fst).Nodup := by
    show members.Nodup
    decide
  rw [toJson_eq]
  refine ofTree?_of_subset h hnames (List.subset_append_left _ _) ?_
  rw [Tree.slot_of_mem hnames (List.mem_append_right _ List.mem_cons_self), Tree.Slot.orElse,
    Tree.nullable?_ofInstant h.usageRecordedAt]

/-- Without its last member a deposit is read as one on which no usage has been recorded. -/
theorem ofTree?_without (h : d.Storable) :
    ofTree? (d.toJson.without "usage_recorded_at").toTree =
      some { d with usageRecordedAt := none } := by
  have hnames : (d.olderMembers.map Prod.fst).Nodup := by
    show (members.take 16).Nodup
    decide
  rw [toJson_without]
  exact ofTree?_of_subset h hnames (List.Subset.refl _) rfl

end Deposit

/-! ## Usage -/

namespace Quota

namespace Counter

/-- Its zero has no sign, and its instant stands in no leap second. -/
structure Storable (c : Counter) : Prop where
  used : ¬ c.used.IsNegativeZero
  resetAt : ¬ c.resetAt.InLeapSecond

variable {c : Counter}

def members (c : Counter) : List (String × Json) :=
  [("used", c.used.toJson), ("reset_at", c.resetAt.toJson)]

theorem toJson_eq (c : Counter) : c.toJson = .object c.members := rfl

theorem numberFree_toJson (c : Counter) : c.toJson.NumberFree := by
  refine .object ?_
  simp only [List.forall_mem_cons]
  exact ⟨.string _, .string _, fun m hm => by cases hm⟩

theorem ofTree?_of_subset (h : c.Storable) {ms : List (String × Json)}
    (hnames : (ms.map Prod.fst).Nodup) (hsub : c.members ⊆ ms) :
    ofTree? (Json.object ms).toTree = some c := by
  have hmem : ∀ m ∈ c.members, m ∈ ms := hsub
  simp only [members, List.forall_mem_cons] at hmem
  obtain ⟨hused, hresetAt, -⟩ := hmem
  rw [ofTree?, Tree.members?_toTree hnames, Option.bind_eq_bind, Option.bind_some,
    Tree.required_bind hnames hused c.used.ofTree?_toTree, Decimal.unsignZero_eq h.used,
    Tree.required_bind hnames hresetAt (c.resetAt.ofTree?_toTree h.resetAt)]
  rfl

theorem ofTree?_toTree (h : c.Storable) : ofTree? c.toJson.toTree = some c := by
  have hnames : (c.members.map Prod.fst).Nodup := by
    show (["used", "reset_at"] : List String).Nodup
    decide
  rw [toJson_eq, ofTree?_of_subset h hnames (List.Subset.refl _)]

end Counter

namespace Usage

/-- No zero has a sign, and no instant stands in a leap second. -/
structure Storable (u : Usage) : Prop where
  depositDaily : u.deposit.daily.Storable
  depositMonthly : u.deposit.monthly.Storable
  withdrawalDaily : u.withdrawal.daily.Storable
  withdrawalMonthly : u.withdrawal.monthly.Storable
  createdAt : ¬ u.createdAt.InLeapSecond
  updatedAt : ¬ u.updatedAt.InLeapSecond

variable {u : Usage}

def members (u : Usage) : List (String × Json) :=
  [("user_id", u.user.toJson),
   ("daily_deposit", u.deposit.daily.toJson),
   ("monthly_deposit", u.deposit.monthly.toJson),
   ("daily_withdrawal", u.withdrawal.daily.toJson),
   ("monthly_withdrawal", u.withdrawal.monthly.toJson),
   ("created_at", u.createdAt.toJson),
   ("updated_at", u.updatedAt.toJson)]

theorem toJson_eq (u : Usage) : u.toJson = .object u.members := rfl

theorem numberFree_toJson (u : Usage) : u.toJson.NumberFree := by
  refine .object ?_
  simp only [List.forall_mem_cons]
  exact ⟨.string _, u.deposit.daily.numberFree_toJson, u.deposit.monthly.numberFree_toJson,
    u.withdrawal.daily.numberFree_toJson, u.withdrawal.monthly.numberFree_toJson, .string _,
    .string _, fun m hm => by cases hm⟩

theorem ofTree?_of_subset (h : u.Storable) {ms : List (String × Json)}
    (hnames : (ms.map Prod.fst).Nodup) (hsub : u.members ⊆ ms) :
    ofTree? (Json.object ms).toTree = some u := by
  have hmem : ∀ m ∈ u.members, m ∈ ms := hsub
  simp only [members, List.forall_mem_cons] at hmem
  obtain ⟨huser, hdepositDaily, hdepositMonthly, hwithdrawalDaily, hwithdrawalMonthly, hcreatedAt,
    hupdatedAt, -⟩ := hmem
  rw [ofTree?, Tree.members?_toTree hnames, Option.bind_eq_bind, Option.bind_some,
    Tree.required_bind hnames huser u.user.ofTree?_toTree,
    Tree.required_bind hnames hdepositDaily (Counter.ofTree?_toTree h.depositDaily),
    Tree.required_bind hnames hdepositMonthly (Counter.ofTree?_toTree h.depositMonthly),
    Tree.required_bind hnames hwithdrawalDaily (Counter.ofTree?_toTree h.withdrawalDaily),
    Tree.required_bind hnames hwithdrawalMonthly (Counter.ofTree?_toTree h.withdrawalMonthly),
    Tree.required_bind hnames hcreatedAt (u.createdAt.ofTree?_toTree h.createdAt),
    Tree.required_bind hnames hupdatedAt (u.updatedAt.ofTree?_toTree h.updatedAt)]
  rfl

theorem ofTree?_toTree (h : u.Storable) : ofTree? u.toJson.toTree = some u := by
  have hnames : (u.members.map Prod.fst).Nodup := by
    show (["user_id", "daily_deposit", "monthly_deposit", "daily_withdrawal", "monthly_withdrawal",
      "created_at", "updated_at"] : List String).Nodup
    decide
  rw [toJson_eq, ofTree?_of_subset h hnames (List.Subset.refl _)]

end Usage

end Quota

/-! ## Reading what is stored -/

/-- What is stored of a value, as a text. -/
def Json.stored (j : Json) : Bytes := Text.toBytes j.render

/-- Deposits and usage come back from their texts as they were, every decimal with its places and
every instant to the nanosecond. -/
theorem storage_is_lossless :
    (∀ d : Deposit, d.Storable →
      (Tree.ofBytes? d.toJson.stored).bind Deposit.ofTree? = some d ∧
      (Tree.ofBytes? (d.toJson.without "usage_recorded_at").stored).bind Deposit.ofTree? =
        some { d with usageRecordedAt := none }) ∧
    ∀ u : Quota.Usage, u.Storable →
      (Tree.ofBytes? u.toJson.stored).bind Quota.Usage.ofTree? = some u := by
  refine ⟨fun d hd => ⟨?_, ?_⟩, fun u hu => ?_⟩
  · rw [Json.stored, Json.ofBytes?_render d.numberFree_toJson, Option.bind_some,
      Deposit.ofTree?_toTree hd]
  · have hfree : (d.toJson.without "usage_recorded_at").NumberFree :=
      .object d.numberFree_olderMembers
    rw [Json.stored, Json.ofBytes?_render hfree, Option.bind_some, Deposit.ofTree?_without hd]
  · rw [Json.stored, Json.ofBytes?_render u.numberFree_toJson, Option.bind_some,
      Quota.Usage.ofTree?_toTree hu]

namespace Json.Sample

/-- The last nanosecond of a day, in a year with a minus. -/
def early : Instant :=
  { Instant.last with day := -720000, day_ge := by decide, day_le := by decide }

def late : Instant :=
  { Instant.last with nano := 1000, nano_lt := by decide, leap := by decide }

def deposit : Deposit :=
  { id := ⟨1⟩, user := ⟨2⟩, account := ⟨3⟩
    reference := "\"\\\x00 – 😀"
    amount := ⟨{ magnitude := 2000, places := 27 }, by decide +kernel⟩
    currency := "USDC"
    status := .brokerFunded
    transfer := some ""
    destinationAmount := some { magnitude := 79228162514264337593543950335, places := 1 }
    fundingRef := some "null"
    failureReason := none
    createdAt := early
    updatedAt := late
    railInitiatedAt := some early
    railCompletedAt := none
    brokerFundedAt := some late
    usageRecordedAt := some late }

def usage : Quota.Usage :=
  { user := ⟨2⟩
    deposit :=
      { daily := ⟨{ Decimal.zero with places := 26, places_le := by decide }, early⟩
        monthly := ⟨{ Decimal.one with negative := true }, late⟩ }
    withdrawal := { daily := ⟨Decimal.zero, early⟩, monthly := ⟨Decimal.one, late⟩ }
    createdAt := early
    updatedAt := late }

/-- Control characters, quotes and other planes, years of either sign and the longest decimals. -/
theorem stored_sample : deposit.Storable ∧ usage.Storable ∧
    (Tree.ofBytes? deposit.toJson.stored).bind Deposit.ofTree? = some deposit ∧
    (Tree.ofBytes? (deposit.toJson.without "usage_recorded_at").stored).bind Deposit.ofTree? =
      some { deposit with usageRecordedAt := none } ∧
    (Tree.ofBytes? usage.toJson.stored).bind Quota.Usage.ofTree? = some usage := by
  have hdeposit : deposit.Storable := by constructor <;> decide
  have husage : usage.Storable :=
    ⟨⟨by decide, by decide⟩, ⟨by decide, by decide⟩, ⟨by decide, by decide⟩,
      ⟨by decide, by decide⟩, by decide, by decide⟩
  obtain ⟨hread, holder⟩ := storage_is_lossless.1 deposit hdeposit
  exact ⟨hdeposit, husage, hread, holder, storage_is_lossless.2 usage husage⟩

end Json.Sample

end Causeway
