import Causeway.Proofs.Store.Index
import Mathlib.Data.List.Induction

/-!
# The index of transfers

The index of transfers is kept by two operations. An update looks for another owner of the transfer
before it writes, a creation does not, and neither takes back an entry that a deposit leaves. So the
index stays exact as long as what is created brings no transfer that another deposit has, and what
is updated keeps the transfer that it has (`transfers_exact_iff`).
-/

namespace Causeway.Store.Deposits

variable {s s' : Deposits} {d : Deposit} {expected : Deposit.Status}

/-! ## Writes -/

inductive Write where
  | create (d : Deposit)
  | update (d : Deposit) (expected : Deposit.Status)

def Write.run (s : Deposits) : Write → Except Failure Deposits
  | create d => s.create d
  | update d expected => s.update d expected

/-- A write that is refused changes nothing. -/
def Write.apply (s : Deposits) (wr : Write) : Deposits :=
  match wr.run s with
  | .ok s' => s'
  | .error _ => s

/-- What writes make of an empty store. -/
def written (wrs : List Write) : Deposits := wrs.foldl Write.apply {}

theorem written_snoc (wrs : List Write) (wr : Write) :
    written (wrs ++ [wr]) = wr.apply (written wrs) :=
  List.foldl_append

/-- No two deposits have the same transfer, and the deposit of a transfer is found by it and by no
other transfer. -/
structure Exact (s : Deposits) : Prop where
  unique : ∀ d d' t, s.get? d.id = some d → s.get? d'.id = some d' → d.transfer = some t →
    d'.transfer = some t → d = d'
  found : ∀ t d, s.getByTransfer? t = some d ↔ s.get? d.id = some d ∧ d.transfer = some t

/-- A creation brings no transfer that a stored deposit has, and an update keeps the transfer that
the stored deposit has. -/
def Write.Keeps (s : Deposits) : Write → Prop
  | create d => ∀ id e t, s.get? id = some e → e.transfer = some t → d.transfer ≠ some t
  | update d _ => ∀ cur t, s.get? d.id = some cur → cur.transfer = some t → d.transfer = some t

/-! ## What a write does -/

def Write.deposit : Write → Deposit
  | create d => d
  | update d _ => d

variable {wr : Write}

theorem get?_run (hr : wr.run s = .ok s') (id : Uuid) :
    s'.get? id = if wr.deposit.id = id then some wr.deposit else s.get? id := by
  cases wr with
  | create d => exact get?_create hr
  | update d expected => exact get?_update hr

theorem byTransfer_run (hr : wr.run s = .ok s') (t : String) :
    s'.byTransfer.get? t =
      if wr.deposit.transfer = some t then some wr.deposit.id else s.byTransfer.get? t := by
  rw [← get?_linked]
  cases wr with
  | create d => rw [(create_eq_ok hr).2, Write.deposit]
  | update d expected =>
      obtain ⟨_, _, _, _, _, hs'⟩ := update_eq_ok hr
      rw [hs', Write.deposit]

/-- Deposits are kept under their own ids, and no entry of the index leads nowhere. -/
structure Rooted (s : Deposits) : Prop where
  keyed : s.Keyed
  leads : ∀ t id, s.byTransfer.get? t = some id → ∃ d, s.get? id = some d

theorem Rooted.empty : Rooted {} where
  keyed := Sound.empty.keyed
  leads _ _ h := nomatch h

theorem Rooted.run (h : s.Rooted) (hr : wr.run s = .ok s') : s'.Rooted := by
  constructor
  · cases wr with
    | create d => exact h.keyed.create hr
    | update d expected => exact h.keyed.update hr
  · intro t id hlink
    rw [get?_run hr]
    rw [byTransfer_run hr] at hlink
    by_cases hid : wr.deposit.id = id
    · exact ⟨wr.deposit, if_pos hid⟩
    · by_cases hdt : wr.deposit.transfer = some t
      · rw [if_pos hdt] at hlink
        exact absurd (Option.some.inj hlink) hid
      · rw [if_neg hdt] at hlink
        rw [if_neg hid]
        exact h.leads t id hlink

theorem rooted_written (wrs : List Write) : (written wrs).Rooted := by
  induction wrs using List.reverseRecOn with
  | nil => exact .empty
  | append_singleton wrs wr ih =>
      rw [written_snoc, Write.apply]
      split
      · rename_i hr
        exact ih.run hr
      · exact ih

/-! ## The index as it should be -/

/-- The index leads to a deposit exactly if the deposit has the transfer. -/
def Linking (s : Deposits) : Prop :=
  ∀ t id, s.byTransfer.get? t = some id ↔ ∃ d, s.get? id = some d ∧ d.transfer = some t

theorem Rooted.exact_iff (h : s.Rooted) : s.Exact ↔ s.Linking := by
  constructor
  · intro hexact t id
    constructor
    · intro hlink
      obtain ⟨d, hd⟩ := h.leads t id hlink
      have hfound : s.getByTransfer? t = some d := by
        rw [getByTransfer?, hlink]
        exact hd
      exact ⟨d, hd, ((hexact.found t d).mp hfound).2⟩
    · rintro ⟨d, hd, ht⟩
      obtain rfl := h.keyed.id_eq hd
      have hfound := (hexact.found t d).mpr ⟨hd, ht⟩
      obtain ⟨id, hlink, hd'⟩ := Option.bind_eq_some_iff.mp hfound
      rw [h.keyed.id_eq hd']
      exact hlink
  · intro hlinking
    constructor
    · intro d d' t hd hd' ht ht'
      have hlink := (hlinking t d.id).mpr ⟨d, hd, ht⟩
      have hlink' := (hlinking t d'.id).mpr ⟨d', hd', ht'⟩
      have hid : d.id = d'.id := Option.some.inj (hlink.symm.trans hlink')
      rw [hid] at hd
      exact Option.some.inj (hd.symm.trans hd')
    · intro t d
      rw [getByTransfer?, Option.bind_eq_some_iff]
      constructor
      · rintro ⟨id, hlink, hd⟩
        obtain ⟨d', hd', ht⟩ := (hlinking t id).mp hlink
        obtain rfl : d' = d := Option.some.inj (hd'.symm.trans hd)
        obtain rfl := h.keyed.id_eq hd
        exact ⟨hd, ht⟩
      · rintro ⟨hd, ht⟩
        exact ⟨d.id, (hlinking t d.id).mpr ⟨d, hd, ht⟩, hd⟩

/-- The deposit of an accepted write keeps the transfer that it was stored with. -/
theorem Write.Keeps.own (h : wr.Keeps s) (hr : wr.run s = .ok s') {cur : Deposit} {t : String}
    (hcur : s.get? wr.deposit.id = some cur) (ht : cur.transfer = some t) :
    wr.deposit.transfer = some t := by
  cases wr with
  | create d =>
      rw [Write.deposit, (create_eq_ok hr).1] at hcur
      cases hcur
  | update d expected => exact h cur t hcur ht

/-- The deposit of an accepted write brings no transfer of another. -/
theorem Write.Keeps.other (h : wr.Keeps s) (hs : s.Linking) (hr : wr.run s = .ok s') {id : Uuid}
    {e : Deposit} {t : String} (hid : wr.deposit.id ≠ id) (he : s.get? id = some e)
    (ht : e.transfer = some t) : wr.deposit.transfer ≠ some t := by
  cases wr with
  | create d => exact h id e t he ht
  | update d expected =>
      intro hdt
      exact hid (owner_of_update hr hdt ((hs t id).mpr ⟨e, he, ht⟩)).symm

theorem Linking.run (h : s.Linking) (hr : wr.run s = .ok s') (hkeeps : wr.Keeps s) :
    s'.Linking := by
  intro t id
  rw [byTransfer_run hr, get?_run hr]
  by_cases hid : wr.deposit.id = id
  · rw [if_pos hid]
    by_cases hdt : wr.deposit.transfer = some t
    · rw [if_pos hdt]
      exact iff_of_true (congrArg some hid) ⟨wr.deposit, rfl, hdt⟩
    · rw [if_neg hdt, h t id]
      refine iff_of_false ?_ ?_
      · rintro ⟨cur, hcur, ht⟩
        exact hdt (hkeeps.own hr (hid ▸ hcur) ht)
      · rintro ⟨d, hd, ht⟩
        cases hd
        exact hdt ht
  · rw [if_neg hid]
    by_cases hdt : wr.deposit.transfer = some t
    · rw [if_pos hdt]
      refine iff_of_false (fun he => hid (Option.some.inj he)) ?_
      rintro ⟨e, he, ht⟩
      exact hkeeps.other h hr hid he ht hdt
    · rw [if_neg hdt]
      exact h t id

/-- Where the index was exact, it is exact after an accepted write only if the write keeps it. -/
theorem Linking.keeps (h : s.Linking) (hr : wr.run s = .ok s') (hs' : s'.Linking) :
    wr.Keeps s := by
  cases wr with
  | create d =>
      intro id e t he ht hdt
      have hne : d.id ≠ id := by
        rintro rfl
        rw [(create_eq_ok hr).1] at he
        cases he
      have hlink := (hs' t id).mpr ⟨e, by rw [get?_create hr, if_neg hne]; exact he, ht⟩
      rw [byTransfer_run hr, Write.deposit, if_pos hdt] at hlink
      exact hne (Option.some.inj hlink)
  | update d expected =>
      intro cur t hcur ht
      by_cases hdt : d.transfer = some t
      · exact hdt
      have hlink : s'.byTransfer.get? t = some d.id := by
        rw [byTransfer_run hr, Write.deposit, if_neg hdt]
        exact (h t d.id).mpr ⟨cur, hcur, ht⟩
      obtain ⟨d', hd', ht'⟩ := (hs' t d.id).mp hlink
      rw [get?_update_self hr] at hd'
      cases hd'
      exact ht'

theorem exact_apply_iff (h : s.Rooted) (hs : s.Exact) (wr : Write) :
    (wr.apply s).Exact ↔ ((∃ s', wr.run s = .ok s') → wr.Keeps s) := by
  have hlinking := h.exact_iff.mp hs
  unfold Write.apply
  cases hr : wr.run s with
  | error e => exact iff_of_true hs (fun ⟨_, h⟩ => nomatch h)
  | ok s' =>
      rw [(h.run hr).exact_iff]
      constructor
      · exact fun hs' _ => hlinking.keeps hr hs'
      · exact fun hkeeps => hlinking.run hr (hkeeps ⟨s', rfl⟩)

/-- Along any writes the index stays exact if and only if each creation that is accepted brings no
transfer that a stored deposit has, and each update that is accepted keeps the transfer that the
stored deposit has. -/
theorem transfers_exact_iff (wrs : List Write) :
    (∀ past, past <+: wrs → (written past).Exact) ↔
      ∀ past wr, past ++ [wr] <+: wrs → (∃ s', wr.run (written past) = .ok s') →
        wr.Keeps (written past) := by
  constructor
  · intro h past wr hpast haccepted
    have hbefore := h past ((List.prefix_append past [wr]).trans hpast)
    have hafter := h (past ++ [wr]) hpast
    rw [written_snoc] at hafter
    exact (exact_apply_iff (rooted_written past) hbefore wr).mp hafter haccepted
  · intro h past hpast
    induction past using List.reverseRecOn with
    | nil => exact Rooted.empty.exact_iff.mpr Indexed.empty.transfer
    | append_singleton past wr ih =>
        have hbefore := ih ((List.prefix_append past [wr]).trans hpast)
        rw [written_snoc]
        exact (exact_apply_iff (rooted_written past) hbefore wr).mpr (h past wr hpast)

/-! ## Two deposits of one transfer -/

namespace Sample

def first : Deposit :=
  { Deposit.start (.ofNat 1) (.ofNat 3) (.ofNat 4) "ref-1" ⟨.one, by decide⟩ "USDC" .epoch with
    transfer := some "tx-1" }

def second : Deposit := { first with id := .ofNat 2, reference := "ref-2" }

/-- The second creation is accepted, and the index leads to it from then on. -/
theorem second_takes_over :
    ¬ (written [.create first, .create second]).Exact ∧
      (written [.create first, .create second]).getByTransfer? "tx-1" = some second := by
  refine ⟨fun h => ?_, by decide⟩
  have heq := h.unique first second "tx-1" (by decide) (by decide) rfl rfl
  exact absurd heq (by decide)

end Sample

end Causeway.Store.Deposits
