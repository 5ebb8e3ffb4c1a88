import Causeway.Proofs.Crossing.Intake
import Causeway.Proofs.Crossing.Turns
import Causeway.Proofs.Webhook.Delivery
import Mathlib.Data.List.Pairwise

/-!
# Announcements that are repeated

What has arrived on an account may be announced any number of times. The announcement that stores a
deposit under its reference starts the conversion, and since nothing goes in under a reference twice,
no other does (`announcements_start_once`).
-/

namespace Causeway.Crossing

open Webhook (Announces DepositEvent answerOf)
open World (Filed Retains)

variable {s : Settings} {w : World} {σ₀ σ τ : System} {log : Log} {reference : String} {i : Nat}
  {a : Activity} {e : DepositEvent} {xs : List Exchange}

/-- The operation is the delivery of an announcement under the reference. -/
structure Delivers (s : Settings) (reference : String) (e : DepositEvent) (a : Activity) : Prop where
  operation : ∃ body signature, a.operation = .deliver body signature ∧
    Announces s.webhookSecret body signature e
  reference : e.reference = reference

def Activity.Started (a : Activity) : Prop :=
  ∃ id status, a.rest = .done (.delivery (.ok (.started id status)))

/-! ## Deliveries -/

theorem started_of_answer {r : Except Failure Deposit} {id : Uuid} {status : Deposit.Status}
    (h : answerOf r = .ok (.started id status)) : ∃ d, r = .ok d := by
  cases r with
  | ok d => exact ⟨d, rfl⟩
  | error e => cases e <;> cases h

/-- A delivery has taken in its deposit as far as it has come, and tells what has come of it. -/
theorem Delivers.intake (h : Delivers s reference e a)
    (hreference : Text.isBlankText reference = false)
    (hpath : Path (a.operation.program s) xs a.rest) :
    ∃ q, Intake e.account reference xs q ∧ a.rest = Result.delivery <$> answerOf <$> q ∧
      ((∃ r, q = .done r) ∨ Waiting q) := by
  obtain ⟨⟨body, signature, hop, hannounces⟩, rfl⟩ := h
  rw [hop, Operation.program, hannounces.deliver] at hpath
  obtain ⟨p, hp, hrest⟩ := hpath.map
  obtain ⟨q, hq, rfl⟩ := hp.map
  refine ⟨q, initiateForRailAccount_intake hreference hq, hrest, ?_⟩
  by_cases hdone : ∃ r, q = .done r
  · exact .inl hdone
  · exact .inr (waiting_of_answered (hq.answered initiateForRailAccount_counts_nothing)
      fun r hr => hdone ⟨r, hr⟩)

theorem Delivers.stores (h : Delivers s reference e a)
    (hreference : Text.isBlankText reference = false)
    (hpath : Path (a.operation.program s) xs a.rest) (hstarted : a.Started) :
    ∃ x ∈ xs, x.Stores reference := by
  obtain ⟨q, hq, hrest, -⟩ := h.intake hreference hpath
  obtain ⟨id, status, hdone⟩ := hstarted
  obtain ⟨answer, hanswer, htold⟩ := map_eq_done_iff.mp (hrest.symm.trans hdone)
  obtain ⟨r, rfl, hr⟩ := map_eq_done_iff.mp hanswer
  cases htold
  obtain ⟨d, rfl⟩ := started_of_answer hr
  exact hq.stores

/-! ## References that are taken once -/

/-- At most one exchange of the log stores a deposit under the reference. -/
theorem Log.InOrder.stores_once (h : log.InOrder σ) (reference : String) :
    log.Pairwise fun x y => ¬ (x.2.Stores reference ∧ y.2.Stores reference) := by
  refine h.order.imp_of_mem fun {x y} hx _ hretains => ?_
  rintro ⟨hlater, hearlier⟩
  refine hlater.not_held (h.filed x hx) ?_
  obtain ⟨j, y⟩ := y
  cases hearlier with
  | created hd hcreated => exact (hd ▸ World.holds_of_created hcreated).retained hretains

theorem Log.InOrder.storer_unique (h : log.InOrder σ) {j : Nat} {x y : Exchange}
    (hx : x ∈ log.exchangesOf i) (hy : y ∈ log.exchangesOf j) (hsx : x.Stores reference)
    (hsy : y.Stores reference) : i = j := by
  by_contra hne
  have hpair := h.stores_once reference
  have : Std.Symm fun x y : Nat × Exchange => ¬ (x.2.Stores reference ∧ y.2.Stores reference) :=
    ⟨fun _ _ hxy hyx => hxy hyx.symm⟩
  exact hpair.forall (mem_exchangesOf.mp hx) (mem_exchangesOf.mp hy)
    (fun heq => hne (congrArg Prod.fst heq)) ⟨hsx, hsy⟩

theorem Log.InOrder.exchangesOf (h : log.InOrder σ) (i : Nat) :
    (∀ x ∈ log.exchangesOf i, x.before.Filed) ∧
      (log.exchangesOf i).Pairwise fun x y => Retains x.before y.before := by
  refine ⟨fun x hx => h.filed _ (mem_exchangesOf.mp hx), ?_⟩
  rw [Log.exchangesOf, List.pairwise_reverse, List.pairwise_map]
  refine (h.order.imp_of_mem fun {x y} _ hy hretains => ?_).filter _
  exact ((h.filed y hy).retains y.2.request).trans hretains

/-- What is stored under a reference, and what the rail has made under it, is at any later time the
one that it was. -/
theorem Run.taken_once (h : Run s τ σ) (hτ : τ.world.Filed) (reference : String) :
    (∀ id id' d d', τ.world.deposits.get? id = some d → σ.world.deposits.get? id' = some d' →
      d.reference = reference → d'.reference = reference → id = id') ∧
    ∀ t ∈ τ.world.rail.transfers, ∀ t' ∈ σ.world.rail.transfers,
      t.reference = reference → t'.reference = reference → t.origin = t'.origin := by
  obtain ⟨hσ, hretains⟩ := h.filed hτ
  constructor
  · rintro id id' d d' hd hd' href href'
    obtain ⟨cur, hcur, hkept⟩ := hretains.deposits id d hd
    exact hσ.deposits.inj hcur hd' ((hkept.trans href).trans href'.symm)
  · rintro t ht t' ht' href href'
    exact List.inj_on_of_nodup_map hσ.transfers
      (hretains.transfers.subset (List.mem_map_of_mem ht)) (List.mem_map_of_mem ht')
      (href.trans href'.symm)

/-! ## Repetitions -/

/-- A delivery that has begun with the exchange and found its reference taken then: no book is
changed, and it ends as a duplicate, or for want of its account. -/
structure Repeats (reference railAccount : String) (x : Exchange) (xs : List Exchange)
    (a : Activity) : Prop where
  books : ∀ y ∈ x :: xs, y.after.books = y.before.books
  length : (x :: xs).length ≤ 5
  answer : (Waiting a.rest ∧ (x :: xs).length < 5) ∨ ∃ r, a.rest = .done (.delivery r) ∧
    ((∀ y ∈ x :: xs, y.before.TakesIn) →
      r = if x.before.accountByRail? railAccount = none
        then .error (.notFound .virtualAccount railAccount) else .ok (.duplicate reference))

theorem Delivers.repeats {x : Exchange} (h : Delivers s reference e a)
    (hreference : Text.isBlankText reference = false)
    (hpath : Path (a.operation.program s) (x :: xs) a.rest)
    (hfiled : ∀ y ∈ x :: xs, y.before.Filed)
    (horder : (x :: xs).Pairwise fun y z => Retains y.before z.before)
    (hx : x.before.Holds reference) : Repeats reference e.account x xs a := by
  obtain ⟨q, hq, hrest, hend⟩ := h.intake hreference hpath
  have hheld : ∀ y ∈ x :: xs, y.before.Filed ∧ y.before.Holds reference := by
    intro y hy
    refine ⟨hfiled y hy, ?_⟩
    rcases List.mem_cons.mp hy with rfl | hy
    · exact hx
    · exact hx.retained ((List.pairwise_cons.mp horder).1 y hy)
  obtain ⟨hlength, hwaits⟩ := hq.length_le hheld
  refine ⟨hq.books_eq hheld, hlength, ?_⟩
  rcases hend with ⟨r, rfl⟩ | ⟨r, k, rfl⟩
  · refine .inr ⟨answerOf r, hrest, fun htakes => ?_⟩
    rw [hq.answer_eq hheld rfl horder htakes]
    split <;> rfl
  · exact .inl ⟨by rw [hrest]; exact ⟨r, _, rfl⟩, hwaits fun _ hdone => nomatch hdone⟩

/-- In every run of operations side by side, of all deliveries of announcements under one reference
at most one starts a conversion, whatever their amounts and accounts are; at any time the one deposit
and the one transfer under the reference are those of any other time. A delivery that begins when the
deposit is stored ends after at most five requests, none of which changes what is stored, counted,
paid in or ordered or calls the rail, with the answer that it is a duplicate, or that there is no such
account if there was none. -/
theorem announcements_start_once (hw : Reached s w) (hlog : Logged s { world := w } σ log)
    (hreference : Text.isBlankText reference = false) :
    (∀ (i j : Nat) (a b : Activity) (e f : DepositEvent),
      σ.running[i]? = some a → σ.running[j]? = some b →
      Delivers s reference e a → Delivers s reference f b → a.Started → b.Started → i = j) ∧
    (∀ τ, Run s { world := w } τ → Run s τ σ →
      (∀ id id' d d', τ.world.deposits.get? id = some d → σ.world.deposits.get? id' = some d' →
        d.reference = reference → d'.reference = reference → id = id') ∧
      ∀ t ∈ τ.world.rail.transfers, ∀ t' ∈ σ.world.rail.transfers,
        t.reference = reference → t'.reference = reference → t.origin = t'.origin) ∧
    (σ.world.rail.transfers.filter (·.reference = reference)).length ≤ 1 ∧
    ∀ (i : Nat) (a : Activity) (e : DepositEvent) (x : Exchange) (xs : List Exchange),
      σ.running[i]? = some a → Delivers s reference e a → log.exchangesOf i = x :: xs →
      x.before.Holds reference → Repeats reference e.account x xs a := by
  have hfiled : w.Filed := hw.filed
  have horder : log.InOrder σ := hlog.inOrder hfiled
  have htraces : log.Traces s σ := hlog.traces rfl
  refine ⟨?once, ?_, Rail.Sandbox.length_ofReference horder.now.transfers reference, ?repeated⟩
  case once =>
    intro i j a b e f ha hb hea hfb hsa hsb
    obtain ⟨x, hx, hsx⟩ := hea.stores hreference (htraces.path i a ha) hsa
    obtain ⟨y, hy, hsy⟩ := hfb.stores hreference (htraces.path j b hb) hsb
    exact horder.storer_unique hx hy hsx hsy
  · exact fun τ hτ hrun => hrun.taken_once (hτ.filed hfiled).1 reference
  case repeated =>
    intro i a e x xs ha he hxs hx
    obtain ⟨hown, hpair⟩ := horder.exchangesOf i
    rw [hxs] at hown hpair
    exact he.repeats hreference (hxs ▸ htraces.path i a ha) hown hpair hx

namespace Sample

def announcement (type : String) (e : DepositEvent) : Bytes :=
  Text.toBytes (Webhook.Envelope.toJson ⟨type, none, e.toJson⟩).render

def delivery (type : String) (e : DepositEvent) : Operation :=
  let body := announcement type e
  .deliver body (Webhook.sign Settings.standard.webhookSecret body)

def received : DepositEvent := ⟨account.railAccount, amount, none, "reference"⟩

def raised : Amount :=
  ⟨{ Decimal.zero with magnitude := 180, magnitude_lt := by decide }, by decide⟩

def confirmed : DepositEvent := ⟨account.railAccount, raised, some "USD", "reference"⟩

def strayed : DepositEvent := ⟨"nowhere", amount, none, "reference"⟩

/-- A deposit is announced as received, with another amount as confirmed, and then as confirmed on an
account that nobody knows. -/
def once : System :=
  System.alone { world := world .epoch } .standard (delivery "deposit.received" received)

def twice : System := once.alone .standard (delivery "deposit.confirmed" confirmed)

def thrice : System := twice.alone .standard (delivery "deposit.confirmed" strayed)

section Deliveries

variable {type : String} (htype : type = "deposit.received" ∨ type = "deposit.confirmed")

include htype

theorem announces (e : DepositEvent) :
    Announces Settings.standard.webhookSecret (announcement type e)
      (Webhook.sign Settings.standard.webhookSecret (announcement type e)) e :=
  Webhook.announces_sign _ htype none e rfl

theorem delivers (e : DepositEvent) (rest : Program Result) :
    Delivers .standard e.reference e ⟨delivery type e, rest⟩ :=
  ⟨⟨_, _, rfl, announces htype e⟩, rfl⟩

/-- A delivery is played by taking its deposit in, so that no signature need be computed. -/
theorem alone_delivery (σ : System) (e : DepositEvent) :
    σ.alone .standard (delivery type e) = System.play σ.running (delivery type e)
      (Result.delivery <$> answerOf <$>
        (initiateForRailAccount .standard e.account e.amount e.reference).run)
      σ.world σ.history := by
  rw [System.alone, delivery, Operation.program, (announces htype e).deliver]

end Deliveries

/-- Whether an exchange finds the reference and the account, and nothing in the way. -/
def glance (railAccount : String) (x : Exchange) : Option String × Bool × Bool × Bool :=
  ((x.before.deposits.get? deposit).map (·.reference),
    (x.before.accountByRail? railAccount).isSome,
    (x.before.script.fault? .accountsByRail).isNone,
    (x.before.script.fault? .depositsCreate).isNone)

theorem running_once : once.running = [⟨delivery "deposit.received" received,
    .done (.delivery (.ok (.started deposit .railInitiated)))⟩] := by
  rw [once, alone_delivery (.inl rfl)]
  rfl

theorem glance_twice : (twice.since once).reverse.map (glance account.railAccount) =
    List.replicate 5 (some "reference", true, true, true) := by
  rw [twice, alone_delivery (.inr rfl), once, alone_delivery (.inl rfl)]
  decide

theorem glance_thrice : (thrice.since twice).reverse.map (glance "nowhere") =
    List.replicate 1 (some "reference", false, true, true) := by
  rw [thrice, alone_delivery (.inr rfl), twice, alone_delivery (.inr rfl), once,
    alone_delivery (.inl rfl)]
  decide

theorem of_glance {railAccount : String} {known : Bool} {x : Exchange}
    (h : glance railAccount x = (some "reference", known, true, true)) :
    x.before.Holds "reference" ∧
      (x.before.accountByRail? railAccount).isSome = known ∧ x.before.TakesIn := by
  obtain ⟨hheld, hrest⟩ := Prod.mk.inj h
  obtain ⟨hknown, hrest⟩ := Prod.mk.inj hrest
  obtain ⟨haccounts, hdeposits⟩ := Prod.mk.inj hrest
  obtain ⟨d, hd, href⟩ := Option.map_eq_some_iff.mp hheld
  exact ⟨⟨deposit, d, hd, href⟩, hknown, Option.isNone_iff_eq_none.mp haccounts,
    Option.isNone_iff_eq_none.mp hdeposits⟩

theorem rest_of_repeats {railAccount : String} {n : Nat} {known : Bool}
    (hglance : xs.map (glance railAccount) =
      List.replicate (n + 1) (some "reference", known, true, true))
    (hrepeats : ∀ x ys, xs = x :: ys → x.before.Holds "reference" →
      Repeats "reference" railAccount x ys a)
    (hended : ¬ Waiting a.rest) :
    a.rest = .done (.delivery (if known then .ok (.duplicate "reference")
      else .error (.notFound .virtualAccount railAccount))) := by
  have hall : ∀ y ∈ xs, glance railAccount y = (some "reference", known, true, true) := fun y hy =>
    List.eq_of_mem_replicate (hglance ▸ List.mem_map_of_mem hy)
  cases xs with
  | nil => cases hglance
  | cons x ys =>
      obtain ⟨hheld, rfl, -⟩ := of_glance (hall x List.mem_cons_self)
      rcases (hrepeats x ys rfl hheld).answer with ⟨hwaiting, -⟩ | ⟨r, hr, hanswer⟩
      · exact absurd hwaiting hended
      · rw [hr, hanswer fun y hy => (of_glance (hall y hy)).2.2]
        cases x.before.accountByRail? railAccount <;> rfl

/-- The log of three operations one after another. -/
def inTurn (xs ys zs : List Exchange) : Log :=
  zs.map (2, ·) ++ (ys.map (1, ·) ++ (xs.map (0, ·) ++ []))

theorem exchangesOf_inTurn (xs ys zs : List Exchange) :
    (inTurn xs ys zs).exchangesOf 1 = ys.reverse ∧
      (inTurn xs ys zs).exchangesOf 2 = zs.reverse := by
  simp [inTurn, exchangesOf_append, exchangesOf_map]

def noted : Log :=
  inTurn (once.since { world := world .epoch }) (twice.since once) (thrice.since twice)

theorem logged_thrice : Logged .standard { world := world .epoch } thrice noted := by
  have honce : once.running.length = 1 := by
    rw [running_once]
    rfl
  have htwice : twice.running.length = 2 := by
    obtain ⟨q, hq, -⟩ := alone_running (s := .standard) once (delivery "deposit.confirmed" confirmed)
    rw [show twice.running = _ from hq, List.length_append, honce]
    rfl
  have h : Logged .standard { world := world .epoch } once
      ((once.since { world := world .epoch }).map (0, ·) ++ []) := Logged.refl.alone _
  have h : Logged .standard { world := world .epoch } twice
      ((twice.since once).map (once.running.length, ·) ++ _) := h.alone _
  have h : Logged .standard { world := world .epoch } thrice
      ((thrice.since twice).map (twice.running.length, ·) ++ _) := h.alone _
  rw [honce, htwice] at h
  exact h

end Sample

/-- Of three announcements the first starts a conversion, the second is a duplicate and the third
knows no account. -/
theorem sample_starts_once : ∃ b c,
    Logged .standard { world := Sample.world .epoch } Sample.thrice Sample.noted ∧
      Sample.thrice.running = [⟨Sample.delivery "deposit.received" Sample.received,
        .done (.delivery (.ok (.started Sample.deposit .railInitiated)))⟩, b, c] ∧
      b.rest = .done (.delivery (.ok (.duplicate "reference"))) ∧
      c.rest = .done (.delivery (.error (.notFound .virtualAccount "nowhere"))) ∧
      (Sample.thrice.world.rail.transfers.filter (·.reference = "reference")).length ≤ 1 := by
  have hw : Reached .standard (Sample.world .epoch) := .empty rfl rfl rfl
  obtain ⟨p, hp, hpend⟩ := alone_running (s := .standard) Sample.once
    (Sample.delivery "deposit.confirmed" Sample.confirmed)
  obtain ⟨q, hq, hqend⟩ := alone_running (s := .standard) Sample.twice
    (Sample.delivery "deposit.confirmed" Sample.strayed)
  have htwice : Sample.twice.running = _ := hp
  have hthrice : Sample.thrice.running = _ := hq
  rw [htwice, Sample.running_once] at hthrice
  have hreference : Text.isBlankText "reference" = false := by decide
  obtain ⟨hconfirmed, hstrayed⟩ := Sample.exchangesOf_inTurn
    (Sample.once.since { world := Sample.world .epoch }) (Sample.twice.since Sample.once)
    (Sample.thrice.since Sample.twice)
  obtain ⟨-, -, htransfers, hrepeats⟩ :=
    announcements_start_once hw Sample.logged_thrice hreference
  refine ⟨_, _, Sample.logged_thrice, hthrice, ?_, ?_, htransfers⟩
  · refine Sample.rest_of_repeats Sample.glance_twice (fun x xs hxs hx => ?_) hpend
    exact hrepeats 1 _ _ x xs (by rw [hthrice]; rfl)
      (Sample.delivers (.inr rfl) Sample.confirmed p) (hconfirmed.trans hxs) hx
  · refine Sample.rest_of_repeats Sample.glance_thrice (fun x xs hxs hx => ?_) hqend
    exact hrepeats 2 _ _ x xs (by rw [hthrice]; rfl)
      (Sample.delivers (.inr rfl) Sample.strayed q) (hstrayed.trans hxs) hx

end Causeway.Crossing
