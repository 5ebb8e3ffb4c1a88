import Causeway.Proofs.Crossing.Log
import Causeway.Proofs.Crossing.Reorder
import Causeway.Proofs.Crossing.Solo
import Causeway.Proofs.Deposit.Coherence

/-!
# One callback moves a deposit

A deposit leaves the rail by one exchange only, the write of a callback that read it there, since the
store takes a write only from the stage that it names. So of all the calls in a log one has moved the
deposit (`Observed`); the others find it moved, or their write refused, and tell the stage that they
find (`one_callback_advances`).
-/

namespace Causeway

open Deposit (Event Status)
open World (Later Effect)

variable {w w' : World} {id : Uuid} {d d' : Deposit}

/-! ## Leaving the rail -/

/-- The deposit has been on the rail and has left it. -/
def World.Left (w : World) (id : Uuid) : Prop :=
  ∃ d, w.deposits.get? id = some d ∧ d.transfer ≠ none ∧ d.status ≠ .railInitiated

instance : Decidable (w.Left id) :=
  inferInstanceAs (Decidable
    (∃ d ∈ w.deposits.get? id, d.transfer ≠ none ∧ d.status ≠ .railInitiated))

/-- The deposit is past the rail, or has failed. -/
def World.Past (w : World) (id : Uuid) : Prop :=
  ∃ d, w.deposits.get? id = some d ∧ 1 < d.status.rank

/-- The deposit is on the rail in the first world and not in the second. -/
def World.LeavesRail (w w' : World) (id : Uuid) : Prop :=
  ∃ d d', w.deposits.get? id = some d ∧ d.status = .railInitiated ∧
    w'.deposits.get? id = some d' ∧ d'.status ≠ .railInitiated

theorem World.Past.later (h : w.Past id) (hw : Later w w') : w'.Past id := by
  obtain ⟨d, hd, hrank⟩ := h
  obtain ⟨d', hd', hl⟩ := hw.deposits hd
  exact ⟨d', hd', Nat.lt_of_lt_of_le hrank hl.rank_le⟩

theorem World.Past.not_initiated (h : w.Past id) (hd : w.deposits.get? id = some d) :
    d.status ≠ .railInitiated := by
  obtain ⟨d', hd', hrank⟩ := h
  rw [hd] at hd'
  cases hd'
  intro hst
  simp [hst, Status.rank] at hrank

theorem World.Left.past (h : w.Left id) (hs : w.Sound) : w.Past id := by
  obtain ⟨d, hd, ht, hst⟩ := h
  refine ⟨d, hd, ?_⟩
  have hcreated := (hs.deposits.coherent hd).transfer
  cases hd' : d.status <;> simp_all [Status.rank]

/-- What has been noted as a deposit's transfer stays. -/
theorem World.Later.transfer (hw : Later w w') (hs : w.Sound) (hd : w.deposits.get? id = some d)
    {t : String} (ht : d.transfer = some t) :
    ∃ d', w'.deposits.get? id = some d' ∧ d'.transfer = some t := by
  obtain ⟨d', hd', hl⟩ := hw.deposits hd
  exact ⟨d', hd', (hl.extends (hs.deposits.coherent hd)).transfer t ht⟩

theorem World.Left.later (h : w.Left id) (hs : w.Sound) (hw : Later w w') : w'.Left id := by
  have hpast := (h.past hs).later hw
  obtain ⟨d, hd, ht, -⟩ := h
  obtain ⟨t, ht⟩ := Option.ne_none_iff_exists'.mp ht
  obtain ⟨d', hd', ht'⟩ := hw.transfer hs hd ht
  exact ⟨d', hd', by simp [ht'], hpast.not_initiated hd'⟩

theorem World.LeavesRail.past (h : w.LeavesRail w' id) (hw : Later w w') : w'.Past id := by
  obtain ⟨d, d', hd, hst, hd', hst'⟩ := h
  obtain ⟨d'', hd'', hl⟩ := hw.deposits hd
  rw [hd'] at hd''
  cases hd''
  refine ⟨d', hd', ?_⟩
  have hle := hl.rank_le
  rw [hst] at hle
  cases hd' : d'.status <;> simp_all [Status.rank]

/-- A deposit that appears has no transfer yet. -/
theorem World.Effect.new (h : Effect w w') (hd : w.deposits.get? id = none)
    (hd' : w'.deposits.get? id = some d') : d'.transfer = none := by
  cases h with
  | quiet hq =>
      rw [hq.deposits, hd] at hd'
      cases hd'
  | created hc =>
      rw [Store.Deposits.get?_create hc] at hd'
      split at hd'
      · cases hd'
        rfl
      · rw [hd] at hd'
        cases hd'
  | @moved cur d e now deposits hcur ha hb hu =>
      rw [Store.Deposits.get?_update hu] at hd'
      split at hd'
      · have hid : d.id = cur.id := congrArg Deposit.Origin.id (Deposit.origin_of_apply ha)
        simp_all
      · rw [hd] at hd'
        cases hd'
  | counted hcur hf =>
      rw [hd] at hd'
      cases hd'
  | paid hcur hset ha hkey hq hdrawn hfund hby =>
      have hdep : _ = w.deposits := hq.deposits
      rw [show w'.deposits = w.deposits from hdep, hd] at hd'
      cases hd'

theorem Deposit.Moves.has_transfer (h : d.Moves d') (ht : d'.transfer ≠ none)
    (hst : d'.status ≠ .railInitiated) : d.transfer ≠ none := by
  obtain ⟨e, now, ha, -⟩ := h
  obtain ⟨-, rfl⟩ := Deposit.apply_eq_ok_iff.mp ha
  cases e with
  | railInitiated t => exact absurd rfl hst
  | _ => exact ht

/-- A deposit that has left had left before, or leaves. -/
theorem World.Effect.left (h : Effect w w') (hs : w.Sound) (hl : w'.Left id) :
    w.Left id ∨ w.LeavesRail w' id := by
  obtain ⟨d', hd', ht', hst'⟩ := hl
  cases hd : w.deposits.get? id with
  | none => exact absurd (h.new hd hd') ht'
  | some d =>
      obtain ⟨d'', hd'', hm⟩ := (h.deposits hs).2 hd
      rw [hd'] at hd''
      cases hd''
      by_cases hst : d.status = .railInitiated
      · exact .inr ⟨d, d', hd, hst, hd', hst'⟩
      · refine .inl ⟨d, hd, ?_, hst⟩
        rcases hm with rfl | hm
        · exact ht'
        · exact hm.has_transfer ht' hst'

namespace Crossing

variable {s : Settings} {x : Exchange} {xs : List Exchange} {c c' : Call} {cs cs' : List Call}
  {transfer : String} {q : Program (Except Failure CallbackOutcome)}

/-! ## The exchange that moves a deposit -/

def Exchange.after (x : Exchange) : World := (x.before.perform x.request).2

def Exchange.Moves (x : Exchange) (id : Uuid) : Prop := x.before.LeavesRail x.after id

theorem Exchange.Moves.write {r : Request} (h : Exchange.Moves ⟨w, r⟩ id) (hs : w.Sound) :
    ∃ d, r = .updateDeposit d .railInitiated ∧ d.id = id ∧
      (w.perform (.updateDeposit d .railInitiated)).1 = .ok (.ok ()) := by
  obtain ⟨cur, d', hcur, hst, hd', hst'⟩ := h
  have hchanged : (w.perform r).2.deposits.get? id ≠ w.deposits.get? id := by
    intro he
    rw [show (Exchange.after ⟨w, r⟩) = (w.perform r).2 from rfl, he, hcur] at hd'
    cases hd'
    exact hst' hst
  by_cases hcreate : ∃ d, r = .createDeposit d
  · obtain ⟨d, rfl⟩ := hcreate
    rcases w.createDeposit_cases d with ⟨e, w', he, hq⟩ | ⟨deposits, hc, he⟩
    · rw [he, hq.deposits] at hchanged
      exact absurd rfl hchanged
    · rw [he] at hchanged
      refine absurd ?_ hchanged
      have hnew := (Store.Deposits.create_eq_ok hc).1
      rw [Store.Deposits.get?_create hc, if_neg]
      rintro rfl
      rw [hnew] at hcur
      cases hcur
  by_cases hupdate : ∃ d expected, r = .updateDeposit d expected
  · obtain ⟨d, expected, rfl⟩ := hupdate
    rcases World.updateDeposit_cases hs.race d expected with ⟨e, w', he, hq⟩ | ⟨deposits, hu, he⟩
    · rw [he, hq.deposits] at hchanged
      exact absurd rfl hchanged
    · rw [he] at hchanged
      have hid : d.id = id := by
        by_contra hne
        exact hchanged (by rw [Store.Deposits.get?_update hu, if_neg hne])
      obtain ⟨cur', hcur', hexpected, -⟩ := Store.Deposits.update_eq_ok hu
      rw [hid, hcur] at hcur'
      cases hcur'
      rw [← hexpected, hst] at he ⊢
      exact ⟨d, rfl, hid, by rw [he]⟩
  · refine absurd ?_ hchanged
    rw [w.perform_deposits (fun d hd => hcreate ⟨d, hd⟩) fun d e he => hupdate ⟨d, e, he⟩]

/-- A write that goes through from the rail takes the deposit off it. -/
theorem moves_of_write {e : Event} {now : Instant} (hs : w.Sound) (hst : d.status = .railInitiated)
    (ha : d.apply e now = .ok d')
    (hw : (w.perform (.updateDeposit d' .railInitiated)).1 = .ok (.ok ())) :
    Exchange.Moves ⟨w, .updateDeposit d' .railInitiated⟩ d.id := by
  obtain ⟨hal, rfl⟩ := Deposit.apply_eq_ok_iff.mp ha
  have hid : (d.after e now).id = d.id := congrArg Deposit.Origin.id (Deposit.origin_after d e now)
  rcases World.updateDeposit_cases hs.race (d.after e now) .railInitiated with
    ⟨e', w', he, hq⟩ | ⟨deposits, hu, he⟩
  · rw [he] at hw
    cases hw
  · obtain ⟨cur, hcur, hexpected, -⟩ := Store.Deposits.update_eq_ok hu
    refine ⟨cur, d.after e now, by rw [← hid]; exact hcur, hexpected, ?_, ?_⟩
    · rw [Exchange.after, he, ← hid]
      exact Store.Deposits.get?_update_self hu
    · cases e <;> simp_all [Deposit.Allows, Deposit.after]

/-- The look-up of a callback has found `d`. -/
def Finds (transfer : String) (xs : List Exchange) (d : Deposit) : Prop :=
  ∃ w ys, xs = ⟨w, .depositByTransfer transfer⟩ :: ys ∧
    (w.perform (.depositByTransfer transfer)).1 = .ok (.ok (some d))

/-- The write of a callback is of the deposit that it has found, and it is the only one that names
the rail as the stage. -/
theorem Course.write {v : World} (h : Course transfer xs q)
    (hx : ⟨v, .updateDeposit d' .railInitiated⟩ ∈ xs) :
    ∃ w d ys zs event now,
      xs = ⟨w, .depositByTransfer transfer⟩ :: (ys ++ ⟨v, .updateDeposit d' .railInitiated⟩ :: zs) ∧
      (w.perform (.depositByTransfer transfer)).1 = .ok (.ok (some d)) ∧
      d.apply event now = .ok d' ∧ (∀ y ∈ ys, Asking y.request) ∧
      ∀ name, (v.perform (.updateDeposit d' .railInitiated)).1 = .ok (.error (.stale name)) →
        Rereads d.id zs q := by
  cases h with
  | failed h | unmatched h | settled h hd => cases List.mem_singleton.mp hx
  | @pursues w d ys q h hd hys =>
      rcases List.mem_cons.mp hx with hx | hx
      · cases hx
      cases hys with
      | asking hys hq => exact (hys _ hx).elim
      | refused hys hd' hw he =>
          rcases List.mem_append.mp hx with hx | hx
          · exact (hys _ hx).elim
          · cases List.mem_singleton.mp hx
            refine ⟨w, d, _, [], _, _, rfl, h, hd', hys, fun name hstale => ?_⟩
            rw [hw] at hstale
            cases hstale
            exact absurd rfl (he name)
      | lost hys hd' hw hzs =>
          rcases List.mem_append.mp hx with hx | hx
          · exact (hys _ hx).elim
          rcases List.mem_cons.mp hx with hx | hx
          · cases hx
            exact ⟨w, d, _, _, _, _, rfl, h, hd', hys, fun _ _ => hzs⟩
          · cases hzs with
            | waiting k => exact (List.not_mem_nil hx).elim
            | failed h | told h => cases List.mem_singleton.mp hx
      | won hys hd' hw hzs =>
          rcases List.mem_append.mp hx with hx | hx
          · exact (hys _ hx).elim
          rcases List.mem_cons.mp hx with hx | hx
          · cases hx
            refine ⟨w, d, _, _, _, _, rfl, h, hd', hys, fun name hstale => ?_⟩
            rw [hw] at hstale
            cases hstale
          · rcases hzs _ hx with h | h <;> cases h

theorem Course.moved (h : Course transfer xs q) (hs : ∀ x ∈ xs, x.before.Sound) (hx : x ∈ xs)
    (hm : x.Moves id) : ∃ d, Finds transfer xs d ∧ d.id = id := by
  obtain ⟨v, r⟩ := x
  obtain ⟨d', rfl, hid, -⟩ := hm.write (hs _ hx)
  obtain ⟨w, d, ys, zs, event, now, hxs, hfound, ha, -⟩ := h.write hx
  have hsame : d'.id = d.id := congrArg Deposit.Origin.id (Deposit.origin_of_apply ha)
  exact ⟨d, ⟨w, _, hxs, hfound⟩, hsame.symm.trans hid⟩

/-- A callback that tells of an advance has moved the deposit that it has found. -/
theorem Course.advanced (h : Course transfer xs q) (hs : ∀ x ∈ xs, x.before.Sound)
    (hq : Advanced q) : ∃ d, Finds transfer xs d ∧ ∃ x ∈ xs, x.Moves d.id := by
  obtain ⟨source, target, rfl⟩ := hq
  cases h with
  | @pursues w d ys q h hd hys =>
      refine ⟨d, ⟨w, ys, rfl, h⟩, ?_⟩
      cases hys with
      | asking hys hq => exact absurd ⟨source, target, rfl⟩ hq
      | lost hys hd' hw hzs =>
          cases hzs
      | @won ys zs v d' e now q hys hd' hw hzs =>
          have hmem : ⟨v, .updateDeposit d' .railInitiated⟩ ∈
              ⟨w, .depositByTransfer transfer⟩ :: (ys ++ ⟨v, .updateDeposit d' .railInitiated⟩ :: zs) :=
            by simp
          exact ⟨_, hmem, moves_of_write (hs _ hmem) hd hd' hw⟩

/-! ## What a run keeps to -/

def Call.Moved (c : Call) (id : Uuid) : Prop := ∃ x ∈ c.exchanges, x.Moves id

/-- The exchanges of a call lie in the past, one after another. -/
structure Call.Timely (w : World) (c : Call) : Prop where
  sound : ∀ x ∈ c.exchanges, x.before.Sound ∧ x.before.deposits.Indexed
  past : ∀ x ∈ c.exchanges, Later x.before w
  order : c.exchanges.Pairwise fun x y => Later x.before y.before

theorem Call.Timely.later (h : c.Timely w) (hw : Later w w') : c.Timely w' :=
  { h with past := fun x hx => (h.past x hx).trans hw }

theorem Call.Timely.snoc (h : c.Timely x.before) (hs : x.before.Sound)
    (hi : x.before.deposits.Indexed) (hx : Later x.before w)
    (hc : c'.exchanges = c.exchanges ++ [x]) : c'.Timely w := by
  have hsplit : ∀ {y : Exchange}, y ∈ c'.exchanges → y ∈ c.exchanges ∨ y = x := by
    intro y hy
    rw [hc] at hy
    simpa using hy
  refine ⟨fun y hy => ?_, fun y hy => ?_, ?_⟩
  · rcases hsplit hy with hy | rfl
    · exact h.sound y hy
    · exact ⟨hs, hi⟩
  · rcases hsplit hy with hy | rfl
    · exact (h.past y hy).trans hx
    · exact hx
  · rw [hc, List.pairwise_append]
    exact ⟨h.order, List.pairwise_singleton _ _, fun y hy z hz => by
      rw [List.mem_singleton.mp hz]
      exact h.past y hy⟩

/-- Of the calls so far one has moved the deposit if it has left, and at most one in any case. -/
structure Observed (s : Settings) (id : Uuid) (log : Log) (σ : System) : Prop where
  orderly : σ.Orderly
  indexed : σ.world.deposits.Indexed
  places : log.Places s σ
  timely : ∀ c ∈ calls s log, c.Timely σ.world
  past : ∀ c ∈ calls s log, c.Moved id → σ.world.Past id
  once : (calls s log).Pairwise fun c c' => c.Moved id → ¬ c'.Moved id
  found : σ.world.Left id → ∃ c ∈ calls s log, c.Moved id

variable {σ : System} {log : Log}

theorem Noted.timely (h : Noted x cs cs') (hs : x.before.Sound) (hi : x.before.deposits.Indexed)
    (hx : Later x.before w) (hcs : ∀ c ∈ cs, c.Timely x.before) : ∀ c ∈ cs', c.Timely w := by
  cases h with
  | @begun c hreq hc =>
      intro c' hc'
      rcases List.mem_cons.mp hc' with rfl | hc'
      · refine ⟨?_, ?_, ?_⟩ <;> simp [hc, hs, hi, hx]
      · exact (hcs c' hc').later hx
  | @fed before behind c c' hsplit ht hc =>
      subst hsplit
      intro c'' hc''
      rcases List.mem_append.mp hc'' with hb | hb
      · exact (hcs _ (List.mem_append_left _ hb)).later hx
      · rcases List.mem_cons.mp hb with rfl | hb
        · exact (hcs c (by simp)).snoc hs hi hx hc
        · exact (hcs _ (by simp [hb])).later hx
  | apart hreq => exact fun c hc => (hcs c hc).later hx

/-- A call has moved what it had moved before or what the exchange moves. -/
theorem Noted.moved (h : Noted x cs cs') (hc' : c' ∈ cs') (hm : c'.Moved id) :
    (∃ c ∈ cs, c.Moved id) ∨ x.Moves id := by
  obtain ⟨y, hy, hmy⟩ := hm
  cases h with
  | @begun c hreq hc =>
      rcases List.mem_cons.mp hc' with rfl | hc'
      · rw [hc] at hy
        rw [List.mem_singleton.mp hy] at hmy
        exact .inr hmy
      · exact .inl ⟨c', hc', y, hy, hmy⟩
  | @fed before behind c c'' hsplit ht hc =>
      subst hsplit
      rcases List.mem_append.mp hc' with hb | hb
      · exact .inl ⟨c', List.mem_append_left _ hb, y, hy, hmy⟩
      · rcases List.mem_cons.mp hb with rfl | hb
        · rw [hc] at hy
          rcases List.mem_append.mp hy with hy | hy
          · exact .inl ⟨c, by simp, y, hy, hmy⟩
          · rw [List.mem_singleton.mp hy] at hmy
            exact .inr hmy
        · exact .inl ⟨c', by simp [hb], y, hy, hmy⟩
  | apart hreq => exact .inl ⟨c', hc', y, hy, hmy⟩

theorem Noted.still_moved (h : Noted x cs cs') (hc : c ∈ cs) (hm : c.Moved id) :
    ∃ c' ∈ cs', c'.Moved id := by
  cases h with
  | begun hreq hc' => exact ⟨c, List.mem_cons_of_mem _ hc, hm⟩
  | @fed before behind c₀ c' hsplit ht hc' =>
      subst hsplit
      rcases List.mem_append.mp hc with hb | hb
      · exact ⟨c, List.mem_append_left _ hb, hm⟩
      · rcases List.mem_cons.mp hb with rfl | hb
        · obtain ⟨y, hy, hmy⟩ := hm
          exact ⟨c', by simp, y, by simp [hc', hy], hmy⟩
        · exact ⟨c, by simp [hb], hm⟩
  | apart hreq => exact ⟨c, hc, hm⟩

/-- What moves a deposit is part of a call. -/
theorem Noted.moves (h : Noted x cs cs') (hs : x.before.Sound) (hm : x.Moves id) :
    ∃ c' ∈ cs', c'.Moved id := by
  obtain ⟨v, r⟩ := x
  obtain ⟨d, rfl, -⟩ := hm.write hs
  cases h with
  | begun hreq hc => cases hreq
  | @fed before behind c c' hsplit ht hc => exact ⟨c', by simp, _, by simp [hc], hm⟩
  | apart hreq => exact absurd rfl hreq

theorem Noted.once (h : Noted x cs cs') (hfirst : x.Moves id → ∀ c ∈ cs, ¬ c.Moved id)
    (hcs : cs.Pairwise fun c c' => c.Moved id → ¬ c'.Moved id) :
    cs'.Pairwise fun c c' => c.Moved id → ¬ c'.Moved id := by
  cases h with
  | @begun c hreq hc =>
      refine List.pairwise_cons.mpr ⟨fun c' hc' ⟨y, hy, hmy⟩ => ?_, hcs⟩
      rw [hc] at hy
      rw [List.mem_singleton.mp hy] at hmy
      exact hfirst hmy c' hc'
  | @fed before behind c c' hsplit ht hc =>
      subst hsplit
      have hnew : c'.Moved id → c.Moved id ∨ x.Moves id := by
        rintro ⟨y, hy, hmy⟩
        rw [hc] at hy
        rcases List.mem_append.mp hy with hy | hy
        · exact .inl ⟨y, hy, hmy⟩
        · rw [List.mem_singleton.mp hy] at hmy
          exact .inr hmy
      rw [List.pairwise_append, List.pairwise_cons] at hcs ⊢
      obtain ⟨hbefore, ⟨hc, hbehind⟩, hacross⟩ := hcs
      refine ⟨hbefore, ⟨fun b hb hm hmb => ?_, hbehind⟩, fun b hb b' hb' hm hmb => ?_⟩
      · rcases hnew hm with hm | hm
        · exact hc b hb hm hmb
        · exact hfirst hm b (by simp [hb]) hmb
      · rcases List.mem_cons.mp hb' with rfl | hb'
        · rcases hnew hmb with hmb | hmb
          · exact hacross b hb c (by simp) hm hmb
          · exact hfirst hmb b (by simp [hb]) hm
        · exact hacross b hb b' (by simp [hb']) hm hmb
  | apart hreq => exact hcs

theorem Observed.turn (h : Observed s id log σ) {before behind : List Activity} {op : Operation}
    {r : Request} {k : r.Answer → Program Result}
    (hr : σ.running = before ++ ⟨op, .call r k⟩ :: behind) :
    Observed s id ((before.length, ⟨σ.world, r⟩) :: log) (σ.turn before behind op r k) := by
  have hstep : Step s σ (σ.turn before behind op r k) := .turn hr
  have heffect : Effect σ.world (σ.world.perform r).2 :=
    hstep.effect h.orderly.sound h.orderly.obeys
  have hlater := heffect.later h.orderly.sound
  obtain ⟨hnoted, hplaces⟩ := h.places.turn hr
  refine ⟨hstep.orderly h.orderly, heffect.indexed h.orderly.sound h.indexed, hplaces, ?_, ?_, ?_, ?_⟩
  · exact hnoted.timely h.orderly.sound h.indexed hlater h.timely
  · intro c hc hm
    rcases hnoted.moved hc hm with ⟨c', hc', hm⟩ | hm
    · exact (h.past c' hc' hm).later hlater
    · exact World.LeavesRail.past hm hlater
  · refine hnoted.once (fun hm c hc hmc => ?_) h.once
    obtain ⟨d, d', hd, hst, -⟩ := hm
    exact (h.past c hc hmc).not_initiated hd hst
  · intro hl
    rcases heffect.left h.orderly.sound hl with hl | hm
    · obtain ⟨c, hc, hm⟩ := h.found hl
      exact hnoted.still_moved hc hm
    · exact hnoted.moves h.orderly.sound hm

theorem Logged.observed (h : Logged s { world := w } σ log) (hs : w.Sound)
    (hi : w.deposits.Indexed) (hstart : ¬ w.Left id) : Observed s id log σ := by
  induction h with
  | refl =>
      exact {
        orderly := System.orderly_of_idle hs
        indexed := hi
        places := Logged.places .refl rfl
        timely := fun _ hc => (List.not_mem_nil hc).elim
        past := fun _ hc => (List.not_mem_nil hc).elim
        once := List.Pairwise.nil
        found := fun hl => absurd hl hstart }
  | start _ op ih =>
      exact { ih with
        orderly := Step.orderly (.start op) ih.orderly
        places := ih.places.start op }
  | turn _ hr ih => exact ih.turn hr
  | @disturb σ log _ w hd ih =>
      have hq := hd.quiet
      have hlater : Later σ.world w := (World.Effect.quiet hq).later ih.orderly.sound
      exact {
        orderly := Step.orderly (s := s) (.disturb hd) ih.orderly
        indexed := by rw [show _ = _ from hq.deposits]; exact ih.indexed
        places := ⟨ih.places.sound, ih.places.serves, ih.places.known⟩
        timely := fun c hc => (ih.timely c hc).later hlater
        past := fun c hc hm => (ih.past c hc hm).later hlater
        once := ih.once
        found := fun ⟨d, hd, hl⟩ => ih.found ⟨d, by rw [← hq.deposits]; exact hd, hl⟩ }

/-! ## What the calls tell -/

/-- What a call has found under its transfer still has that transfer. -/
theorem Observed.of_found (h : Observed s id log σ) (hc : c ∈ calls s log)
    (hd : Finds c.transfer c.exchanges d) :
    ∃ d', σ.world.deposits.get? d.id = some d' ∧ d'.transfer = some c.transfer := by
  obtain ⟨w, ys, hxs, hfound⟩ := hd
  have hmem : ⟨w, .depositByTransfer c.transfer⟩ ∈ c.exchanges := by rw [hxs]; simp
  obtain ⟨hs, hi⟩ := (h.timely c hc).sound _ hmem
  have hstored := (World.look_ok hfound).1
  obtain ⟨hget, ht⟩ := (hi.getByTransfer?_eq_some_iff hs.deposits).mp hstored.symm
  exact ((h.timely c hc).past _ hmem).transfer hs hget ht

/-- Exactly the calls for its transfer can find a deposit. -/
theorem Observed.found_iff (h : Observed s id log σ) (hc : c ∈ calls s log)
    (hd : σ.world.deposits.get? id = some d) (ht : d.transfer = some transfer)
    (hd' : Finds c.transfer c.exchanges d') : d'.id = id ↔ c.transfer = transfer := by
  obtain ⟨cur, hcur, htcur⟩ := h.of_found hc hd'
  constructor
  · rintro rfl
    rw [hd] at hcur
    cases hcur
    rw [ht] at htcur
    exact (Option.some.inj htcur).symm
  · rintro rfl
    exact h.indexed.transfer_inj hcur hd htcur ht

theorem Observed.course (h : Observed s id log σ) (hc : c ∈ calls s log) :
    Course c.transfer c.exchanges c.rest ∧ ∀ x ∈ c.exchanges, x.before.Sound :=
  ⟨(h.places.sound c hc).course, fun x hx => ((h.timely c hc).sound x hx).1⟩

theorem Observed.moved_of_advanced (h : Observed s id log σ) (hc : c ∈ calls s log)
    (hd : σ.world.deposits.get? id = some d) (ht : d.transfer = some c.transfer)
    (ha : Advanced c.rest) : c.Moved id := by
  obtain ⟨hcourse, hs⟩ := h.course hc
  obtain ⟨d', hfound, x, hx, hm⟩ := hcourse.advanced hs ha
  rw [(h.found_iff hc hd ht hfound).mpr rfl] at hm
  exact ⟨x, hx, hm⟩

theorem Observed.transfer_of_moved (h : Observed s id log σ) (hc : c ∈ calls s log)
    (hd : σ.world.deposits.get? id = some d) (ht : d.transfer = some transfer)
    (hm : c.Moved id) : c.transfer = transfer := by
  obtain ⟨hcourse, hs⟩ := h.course hc
  obtain ⟨x, hx, hm⟩ := hm
  obtain ⟨d', hfound, hid⟩ := hcourse.moved hs hx hm
  exact (h.found_iff hc hd ht hfound).mp hid

/-- A call that begins once the deposit has left finds it where it is, and does nothing else. -/
theorem Observed.late (h : Observed s id log σ) (hc : c ∈ calls s log)
    (hd : σ.world.deposits.get? id = some d) (ht : d.transfer = some c.transfer)
    (hxs : c.exchanges = x :: xs) (hleft : x.before.Left id)
    (hfault : x.before.script.fault? .depositsByTransfer = none) :
    ∃ d', x.before.deposits.get? id = some d' ∧ x.request = .depositByTransfer c.transfer ∧
      xs = [] ∧ c.rest = .done (.ok (.unchanged d'.status)) := by
  have hmem : x ∈ c.exchanges := by rw [hxs]; simp
  obtain ⟨hs, hi⟩ := (h.timely c hc).sound x hmem
  obtain ⟨d', hd', ht', hst⟩ := hleft
  obtain ⟨t, ht'⟩ := Option.ne_none_iff_exists'.mp ht'
  obtain ⟨cur, hcur, htcur⟩ := ((h.timely c hc).past x hmem).transfer hs hd' ht'
  rw [hd] at hcur
  cases hcur
  rw [ht] at htcur
  cases htcur
  have hget : x.before.deposits.getByTransfer? c.transfer = some d' := by
    obtain rfl := hs.deposits.id_eq hd'
    exact (hi.getByTransfer?_eq_some_iff hs.deposits).mpr ⟨hd', ht'⟩
  have hanswer : (x.before.perform (.depositByTransfer c.transfer)).1 = .ok (.ok (some d')) := by
    rw [← hget]
    simp only [World.perform, World.look, World.guarded_of_none hfault]
  have hcourse := (h.course hc).1
  rw [hxs] at hcourse
  generalize hq : c.rest = q at hcourse
  cases hcourse with
  | failed hw | unmatched hw =>
      rw [hanswer] at hw
      cases hw
  | settled hw hne =>
      rw [hanswer] at hw
      cases hw
      exact ⟨d', hd', rfl, rfl, rfl⟩
  | pursues hw heq hys =>
      rw [hanswer] at hw
      cases hw
      exact absurd heq hst

/-! ## Writes that come too late -/

/-- The write names the rail as the stage, but the deposit has left it; no fault is in its way. -/
def Exchange.Loses (x : Exchange) (id : Uuid) : Prop :=
  ∃ v d, x = ⟨v, .updateDeposit d .railInitiated⟩ ∧ v.Left id ∧ v.Accepts d.status

/-- What a write that names the rail as the stage would store. -/
def Exchange.offRail? : Exchange → Option Deposit
  | ⟨_, .updateDeposit d .railInitiated⟩ => some d
  | _ => none

theorem Exchange.offRail?_eq_some_iff :
    x.offRail? = some d ↔ x = ⟨x.before, .updateDeposit d .railInitiated⟩ := by
  unfold offRail?
  constructor
  · intro h
    split at h
    · cases h
      rfl
    · cases h
  · intro h
    rw [h]

theorem Exchange.loses_iff : x.Loses id ↔
    ∃ d ∈ x.offRail?, x.before.Left id ∧ x.before.Accepts d.status := by
  constructor
  · rintro ⟨v, d, rfl, hleft, haccepts⟩
    exact ⟨d, rfl, hleft, haccepts⟩
  · rintro ⟨d, hd, hleft, haccepts⟩
    exact ⟨x.before, d, offRail?_eq_some_iff.mp hd, hleft, haccepts⟩

instance (x : Exchange) (id : Uuid) : Decidable (x.Loses id) :=
  decidable_of_iff' _ x.loses_iff

theorem stale_of_left (hrace : w.script.race = none) (hleft : w.Left d.id)
    (haccepts : w.Accepts d.status) :
    ∃ name, (w.perform (.updateDeposit d .railInitiated)).1 = .ok (.error (.stale name)) := by
  obtain ⟨cur, hcur, -, hst⟩ := hleft
  have hstale : w.deposits.update d .railInitiated = .error (.stale d.id.toText) := by
    unfold Store.Deposits.get? at hcur
    simp only [Store.Deposits.update, hcur, ne_eq, hst, not_false_eq_true, if_true]
  refine ⟨d.id.toText, ?_⟩
  simp only [World.perform, World.contestedUpdate, World.guarded_of_none haccepts.1, haccepts.2,
    World.race, hrace, World.updateDeposit, hstale]

/-- What neither writes a deposit nor pays one in. -/
def Reading : Request → Prop
  | .createDeposit _ | .updateDeposit _ _ | .fundAccount _ _ _ => False
  | _ => True

theorem Asking.reading {r : Request} (h : Asking r) : Reading r := by
  cases r with
  | createDeposit d | updateDeposit d e | fundAccount k a x => exact h
  | _ => trivial

theorem Rereads.reading (h : Rereads id xs q) (hx : x ∈ xs) : Reading x.request := by
  cases h with
  | waiting k => exact (List.not_mem_nil hx).elim
  | failed h | told h =>
      rw [List.mem_singleton.mp hx]
      trivial

theorem deposits_of_reading (h : Reading x.request) : x.after.deposits = x.before.deposits := by
  refine x.before.perform_deposits (fun d hd => ?_) fun d e he => ?_
  · rw [hd] at h
    exact h
  · rw [he] at h
    exact h

/-- A call whose write comes too late has written nothing and paid nothing in; it reads the deposit
again and tells its stage. -/
theorem Observed.loses (h : Observed s id log σ) (hc : c ∈ calls s log)
    (hd : σ.world.deposits.get? id = some d) (ht : d.transfer = some c.transfer)
    (hx : x ∈ c.exchanges) (hloses : x.Loses id) :
    (∀ y ∈ c.exchanges, y.after.deposits = y.before.deposits ∧ ∀ key account amount,
      y.request ≠ .fundAccount key account amount) ∧
    (∃ c' ∈ calls s log, c' ≠ c ∧ c'.Moved id) ∧
    ((∃ k, c.rest = .call (.depositById id) k) ∨ ∃ y d', c.exchanges.getLast? = some y ∧
      y.request = .depositById id ∧ y.before.deposits.get? id = some d' ∧
      d'.status ≠ .railInitiated ∧ (y.before.script.fault? .depositsById = none →
        c.rest = .done (.ok (.unchanged d'.status)))) := by
  obtain ⟨v, d₀, rfl, hleft, haccepts⟩ := hloses
  obtain ⟨hcourse, hs⟩ := h.course hc
  have htimely := h.timely c hc
  obtain ⟨w, d₁, ys, zs, event, now, hxs, hfound, ha, hasking, hstale⟩ := hcourse.write hx
  have hid : d₁.id = id := (h.found_iff hc hd ht ⟨w, _, hxs, hfound⟩).mpr rfl
  have hid₀ : d₀.id = id := (congrArg Deposit.Origin.id (Deposit.origin_of_apply ha)).trans hid
  obtain ⟨name, hname⟩ := stale_of_left (hs _ hx).race (by rw [hid₀]; exact hleft) haccepts
  have hzs := hid ▸ hstale name hname
  have hnothing : ∀ y ∈ c.exchanges, y.after.deposits = y.before.deposits ∧
      ∀ key account amount, y.request ≠ .fundAccount key account amount := by
    intro y hy
    have hreading : y = ⟨v, .updateDeposit d₀ .railInitiated⟩ ∨ Reading y.request := by
      rw [hxs] at hy
      rcases List.mem_cons.mp hy with rfl | hy
      · exact .inr trivial
      rcases List.mem_append.mp hy with hy | hy
      · exact .inr (hasking y hy).reading
      rcases List.mem_cons.mp hy with rfl | hy
      · exact .inl rfl
      · exact .inr (hzs.reading hy)
    rcases hreading with rfl | hreading
    · refine ⟨?_, fun _ _ _ hf => nomatch hf⟩
      rcases World.updateDeposit_cases (hs _ hx).race d₀ .railInitiated with
        ⟨e, w', he, hq⟩ | ⟨deposits, hu, he⟩
      · rw [Exchange.after, he]
        exact hq.deposits
      · rw [he] at hname
        cases hname
    · refine ⟨deposits_of_reading hreading, fun _ _ _ hf => ?_⟩
      rw [hf] at hreading
      exact hreading
  refine ⟨hnothing, ?_, ?_⟩
  · have hnow : σ.world.Left id := hleft.later (hs _ hx) (htimely.past _ hx)
    obtain ⟨c', hc', hm⟩ := h.found hnow
    refine ⟨c', hc', ?_, hm⟩
    rintro rfl
    obtain ⟨y, hy, cur, cur', hcur, hst, hcur', hst'⟩ := hm
    rw [(hnothing y hy).1, hcur] at hcur'
    cases hcur'
    exact hst' hst
  · have hlast : ∀ {y : Exchange}, zs = [y] → c.exchanges.getLast? = some y := by
      rintro y rfl
      have hsnoc (x z : Exchange) : z :: (ys ++ [x, y]) = (z :: (ys ++ [x])) ++ [y] := by simp
      rw [hxs, hsnoc, List.getLast?_concat]
    have hreread : ∀ {y : World}, ⟨y, .depositById id⟩ ∈ zs → ∃ d', y.deposits.get? id = some d' ∧
        d'.status ≠ .railInitiated := by
      intro y hy
      have horder := htimely.order
      rw [hxs, List.pairwise_cons, List.pairwise_append, List.pairwise_cons] at horder
      have hlater : Later v y := horder.2.2.1.1 _ hy
      obtain ⟨d', hd', -, hst⟩ := hleft.later (hs _ hx) hlater
      exact ⟨d', hd', hst⟩
    generalize c.rest = q at hzs
    cases hzs with
    | waiting k => exact .inl ⟨k, rfl⟩
    | @failed y e hfail =>
        obtain ⟨d', hd', hst⟩ := hreread (List.mem_singleton.mpr rfl)
        refine .inr ⟨⟨y, .depositById id⟩, d', hlast rfl, rfl, hd', hst, fun hfault => ?_⟩
        refine absurd ?_ (hfail d')
        simp only [World.perform, World.look, World.guarded_of_none hfault, hd']
    | @told y d₂ htold =>
        obtain ⟨d', hd', hst⟩ := hreread (List.mem_singleton.mpr rfl)
        have hsome := (World.look_ok htold).1
        rw [hd'] at hsome
        cases hsome
        exact .inr ⟨⟨y, .depositById id⟩, d₂, hlast rfl, rfl, hd', hst, fun _ => rfl⟩

/-! ## Cancellations -/

/-- A cancellation reads the deposit and is then refused, since the rail takes none. -/
theorem cancel_refused {q : Program (Except Failure Deposit)}
    (h : Path (cancel s id).run xs q) :
    (∀ x ∈ xs, x.request = .depositById id) ∧ ∀ d, q ≠ .done (.ok d) := by
  refine ⟨(h.only (P := (· = .depositById id)) (only_cancel rfl)).1, fun d hd => ?_⟩
  subst hd
  cases h with
  | @cons w _ _ xs _ h =>
      obtain ⟨a, ha⟩ := w.perform_ok (r := .depositById id) rfl
      rw [ha] at h
      rcases a with e | _ | d
      · cases (Path.of_done h).2
      · cases (Path.of_done h).2
      · change Path (ExceptT.run (if d.transfer.isNone then _ else _)) _ _ at h
        split at h
        · cases (Path.of_done h).2
        · change Path (ExceptT.run (if d.status ≠ .railInitiated then _ else _)) _ _ at h
          split at h <;> cases (Path.of_done h).2

/-- In every run that begins before a deposit has left the rail, of all the calls for its transfer at
most one tells of an advance. If the deposit has left, exactly one call has moved it, and it is one
for that transfer. A call that begins afterwards tells where the deposit then is and does nothing
else. A call whose write comes too late has written nothing and paid nothing in; another has moved
the deposit, and it tells where the deposit is. -/
theorem one_callback_advances (hs : w.Sound) (hi : w.deposits.Indexed) (hstart : ¬ w.Left id)
    (hlog : Logged s { world := w } σ log) (hd : σ.world.deposits.get? id = some d)
    (ht : d.transfer = some transfer) :
    ((calls s log).Pairwise fun c c' => c.transfer = transfer → c'.transfer = transfer →
      Advanced c.rest → ¬ Advanced c'.rest) ∧
    (d.status ≠ .railInitiated → ∃ before c behind, calls s log = before ++ c :: behind ∧
      c.transfer = transfer ∧ c.Moved id ∧ ∀ c' ∈ before ++ behind, ¬ c'.Moved id) ∧
    (∀ c ∈ calls s log, c.transfer = transfer → ∀ x xs, c.exchanges = x :: xs →
      x.before.Left id → x.before.script.fault? .depositsByTransfer = none →
      ∃ d', x.before.deposits.get? id = some d' ∧ x.request = .depositByTransfer transfer ∧
        xs = [] ∧ c.rest = .done (.ok (.unchanged d'.status))) ∧
    (∀ c ∈ calls s log, c.transfer = transfer → ∀ x ∈ c.exchanges, x.Loses id →
      (∀ y ∈ c.exchanges, y.after.deposits = y.before.deposits ∧ ∀ key account amount,
        y.request ≠ .fundAccount key account amount) ∧
      (∃ c' ∈ calls s log, c' ≠ c ∧ c'.Moved id) ∧
      ((∃ k, c.rest = .call (.depositById id) k) ∨ ∃ y d', c.exchanges.getLast? = some y ∧
        y.request = .depositById id ∧ y.before.deposits.get? id = some d' ∧
        d'.status ≠ .railInitiated ∧ (y.before.script.fault? .depositsById = none →
          c.rest = .done (.ok (.unchanged d'.status))))) ∧
    ∀ id xs q, Path (cancel s id).run xs q →
      (∀ x ∈ xs, x.request = .depositById id) ∧ ∀ d, q ≠ .done (.ok d) := by
  have h : Observed s id log σ := hlog.observed hs hi hstart
  refine ⟨?_, fun hst => ?_, ?_, ?_, fun _ _ _ hpath => cancel_refused hpath⟩
  · refine h.once.imp_of_mem fun {c c'} hc hc' honce ht₁ ht₂ ha ha' => ?_
    have hm := h.moved_of_advanced hc hd (ht₁ ▸ ht) ha
    exact honce hm (h.moved_of_advanced hc' hd (ht₂ ▸ ht) ha')
  · obtain ⟨c, hc, hm⟩ := h.found ⟨d, hd, by simp [ht], hst⟩
    obtain ⟨before, behind, hsplit⟩ := List.append_of_mem hc
    refine ⟨before, c, behind, hsplit, h.transfer_of_moved hc hd ht hm, hm, fun c' hc' hm' => ?_⟩
    have honce := h.once
    rw [hsplit, List.pairwise_append, List.pairwise_cons] at honce
    rcases List.mem_append.mp hc' with hb | hb
    · exact honce.2.2 c' hb c (by simp) hm' hm
    · exact honce.2.1.1 c' hb hm hm'
  · rintro c hc rfl x xs hxs hleft hfault
    exact h.late hc hd ht hxs hleft hfault
  · rintro c hc rfl x hx hloses
    exact h.loses hc hd ht hx hloses

namespace Sample

/-- The news that a transfer is complete. -/
def news : Operation := .callback Sample.transfer

/-- A deposit has been taken in, and its transfer has been completed. -/
def ordered : System × Log :=
  let (σ, log) := (List.replicate 8 0).foldl playTurn
    (System.start { world := world .epoch } .standard
      (.initiate user account.railAccount amount "reference"), [])
  ({ σ with world := (σ.world.completeTransfer Sample.transfer).2 }, log)

/-- Two callbacks find it on the rail before one of them takes it off. -/
def racing : System × Log :=
  ([1, 2] ++ List.replicate 15 1 ++ List.replicate 5 2).foldl playTurn
    ((ordered.1.start .standard news).start .standard news, ordered.2)

/-- A third one comes when both have ended. -/
def raced : System × Log := playTurn (racing.1.start .standard news, racing.2) 3

theorem logged_ordered : Logged .standard { world := world .epoch } ordered.1 ordered.2 := by
  have hbegun : Logged .standard { world := world .epoch } (System.start { world := world .epoch }
    .standard (.initiate user account.railAccount amount "reference")) [] := .start .refl _
  have hended := Logged.playTurns (x := (_, _)) hbegun (List.replicate 8 0)
  exact hended.disturb (.complete Sample.transfer)

theorem logged_racing : Logged .standard { world := world .epoch } racing.1 racing.2 :=
  Logged.playTurns (x := (_, _)) ((logged_ordered.start news).start news) _

theorem logged_raced : Logged .standard { world := world .epoch } raced.1 raced.2 :=
  Logged.playTurn (x := (_, _)) (logged_racing.start news) 3

end Sample

/-- One of two racing callbacks brings the deposit to its end. The write of the other comes too late,
and like the third, which has nothing to write, it tells the stage that it finds. -/
theorem sample_is_moved_once : ∃ d, Sample.raced.1.world.deposits.get? Sample.deposit = some d ∧
    Logged .standard { world := Sample.world .epoch } Sample.raced.1 Sample.raced.2 ∧
    (calls .standard Sample.raced.2).length = 3 ∧
    (∃ before c behind, calls .standard Sample.raced.2 = before ++ c :: behind ∧
      c.transfer = Sample.transfer ∧ c.Moved Sample.deposit ∧
      ∀ c' ∈ before ++ behind, ¬ c'.Moved Sample.deposit) ∧
    (∃ c ∈ calls .standard Sample.raced.2, ∃ x ∈ c.exchanges, x.Loses Sample.deposit ∧
      (∀ y ∈ c.exchanges, y.after.deposits = y.before.deposits ∧ ∀ key account amount,
        y.request ≠ .fundAccount key account amount) ∧
      ∃ d' : Deposit, d'.status ≠ .railInitiated ∧ c.rest = .done (.ok (.unchanged d'.status))) ∧
    ∃ c ∈ calls .standard Sample.raced.2, ∃ x d', c.exchanges = [x] ∧
      x.before.deposits.get? Sample.deposit = some d' ∧ d'.status ≠ .railInitiated ∧
      c.rest = .done (.ok (.unchanged d'.status)) := by
  have hstored : (Sample.raced.1.world.deposits.get? Sample.deposit).map
      (fun d => (d.transfer, d.status)) = some (some Sample.transfer, .brokerFunded) := by
    decide +kernel
  obtain ⟨d, hd, he⟩ := Option.map_eq_some_iff.mp hstored
  obtain ⟨ht, hst⟩ := Prod.mk.inj he
  have hcalls : ∀ c ∈ calls .standard Sample.raced.2, c.transfer = Sample.transfer ∧
      ¬ Waiting c.rest ∧ ∀ x ∈ c.exchanges, x.before.script = {} := by
    decide +kernel
  have hlost : ∃ c ∈ calls .standard Sample.raced.2, ∃ x ∈ c.exchanges, x.Loses Sample.deposit := by
    decide +kernel
  have hlate : ∃ c ∈ calls .standard Sample.raced.2, ∃ x ∈ c.exchanges.head?,
      x.before.Left Sample.deposit := by
    decide +kernel
  have hstart : ¬ (Sample.world .epoch).Left Sample.deposit := by decide
  have hs : (Sample.world .epoch).Sound := ⟨.empty, rfl⟩
  obtain ⟨-, hmoved, hbehind, hloses, -⟩ :=
    one_callback_advances hs .empty hstart Sample.logged_raced hd ht
  refine ⟨d, hd, Sample.logged_raced, by decide +kernel, hmoved (by simp [hst]), ?_, ?_⟩
  · obtain ⟨c, hc, x, hx, hlose⟩ := hlost
    obtain ⟨htransfer, hended, hscript⟩ := hcalls c hc
    obtain ⟨hidle, -, hrest⟩ := hloses c hc htransfer x hx hlose
    obtain ⟨y, d', hy, -, -, hst', htold⟩ := hrest.resolve_left fun ⟨k, hk⟩ => hended ⟨_, k, hk⟩
    have hfault := hscript y (List.mem_of_getLast? hy)
    exact ⟨c, hc, x, hx, hlose, hidle, d', hst', htold (by rw [hfault]; rfl)⟩
  · obtain ⟨c, hc, x, hx, hleft⟩ := hlate
    obtain ⟨htransfer, -, hscript⟩ := hcalls c hc
    obtain ⟨xs, hxs⟩ := List.head?_eq_some_iff.mp hx
    have hfault := hscript x (by simp [hxs])
    obtain ⟨d', hd', -, rfl, hrest⟩ := hbehind c hc htransfer x xs hxs hleft (by rw [hfault]; rfl)
    obtain ⟨d'', hd'', -, hst'⟩ := hleft
    rw [hd'] at hd''
    cases hd''
    exact ⟨c, hc, x, d', hxs, hd', hst', hrest⟩

end Crossing

end Causeway
