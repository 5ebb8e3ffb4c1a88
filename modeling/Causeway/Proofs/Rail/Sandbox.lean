import Causeway.Rail.Sandbox
import Mathlib.Data.List.Nodup

/-!
# The transfers of the rail

A transfer keeps its id, its reference and the amount it was made for, whatever state it is in. Only
an order adds to these origins, and only one under a reference that the rail has not seen
(`create_cases`).
-/

namespace Causeway.Rail

/-- What a transfer was made with. -/
structure Transfer.Origin where
  id : String
  reference : String
  amount : Option Decimal

def Transfer.origin (t : Transfer) : Transfer.Origin := ⟨t.id, t.reference, t.source.amount⟩

namespace Sandbox

variable {s s' : Sandbox} {o : Order} {t t' : Transfer} {id : String} {feeRate : Decimal}
  {state : State}

def origins (s : Sandbox) : List Transfer.Origin := s.transfers.map Transfer.origin

theorem mem_origins_of_find? (h : s.find? id = some t) : t.origin ∈ s.origins ∧ t.id = id :=
  ⟨List.mem_map_of_mem (List.mem_of_find?_eq_some h), by simpa using List.find?_some h⟩

theorem mem_origins_of_findReference? {reference : String}
    (h : s.findReference? reference = some t) : t.origin ∈ s.origins ∧ t.reference = reference :=
  ⟨List.mem_map_of_mem (List.mem_of_find?_eq_some h), by simpa using List.find?_some h⟩

theorem findReference?_eq_none_iff {reference : String} :
    s.findReference? reference = none ↔ ∀ x ∈ s.origins, x.reference ≠ reference := by
  simp [findReference?, origins, Transfer.origin]

theorem find?_of_nodup {α β : Type} [DecidableEq β] {f : α → β} {as : List α} {a : α}
    (h : (as.map f).Nodup) (ha : a ∈ as) : as.find? (fun x => f x = f a) = some a := by
  induction as with
  | nil => cases ha
  | cons b as ih =>
      rw [List.map_cons, List.nodup_cons] at h
      rcases List.mem_cons.mp ha with rfl | ha
      · simp
      · have hne : f b ≠ f a := fun he => h.1 (he ▸ List.mem_map_of_mem ha)
        simp [hne, ih h.2 ha]

theorem find?_of_mem_origins {x : Transfer.Origin} (h : (s.origins.map (·.id)).Nodup)
    (hx : x ∈ s.origins) : ∃ t, s.find? x.id = some t ∧ t.origin = x := by
  obtain ⟨t, ht, rfl⟩ := List.mem_map.mp hx
  rw [origins, List.map_map] at h
  exact ⟨t, find?_of_nodup h ht, rfl⟩

theorem findReference?_of_mem_origins {x : Transfer.Origin}
    (h : (s.origins.map (·.reference)).Nodup) (hx : x ∈ s.origins) :
    ∃ t, s.findReference? x.reference = some t ∧ t.origin = x := by
  obtain ⟨t, ht, rfl⟩ := List.mem_map.mp hx
  rw [origins, List.map_map] at h
  exact ⟨t, find?_of_nodup h ht, rfl⟩

theorem nodup_references_snoc {x : Transfer.Origin} (h : (s.origins.map (·.reference)).Nodup)
    (hnew : s.findReference? x.reference = none) :
    ((s.origins ++ [x]).map (·.reference)).Nodup := by
  rw [List.map_append, List.nodup_append]
  refine ⟨h, by simp, ?_⟩
  rintro y hy z hz rfl
  obtain ⟨o, ho, hreference⟩ := List.mem_map.mp hy
  exact findReference?_eq_none_iff.mp hnew o ho (hreference.trans (List.mem_singleton.mp hz))

theorem length_ofReference (h : (s.origins.map (·.reference)).Nodup) (reference : String) :
    (s.transfers.filter (·.reference = reference)).length ≤ 1 := by
  rw [origins, List.map_map] at h
  set ts := s.transfers.filter (·.reference = reference) with hts
  have hsame : ts.map (·.reference) = List.replicate ts.length reference := by
    refine List.eq_replicate_iff.mpr ⟨List.length_map .., fun x hx => ?_⟩
    obtain ⟨t, ht, rfl⟩ := List.mem_map.mp hx
    simpa using (List.mem_filter.mp ht).2
  have hsub : (ts.map (·.reference)).Nodup := h.sublist (List.filter_sublist.map _)
  rw [hsame] at hsub
  exact List.nodup_replicate.mp hsub

/-! ## Orders -/

/-- An order fails, is answered with the transfer under its reference, or makes one. -/
theorem create_cases (s : Sandbox) (o : Order) (fresh : Uuid) :
    (∃ e, (s.create o fresh).1 = .error e ∧ (s.create o fresh).2.transfers = s.transfers) ∨
      (∃ t, s.findReference? o.reference = some t ∧ (s.create o fresh).1 = .ok (t, false) ∧
        (s.create o fresh).2.transfers = s.transfers) ∨
      (s.findReference? o.reference = none ∧
        (s.create o fresh).1 = .ok (opened o fresh, true) ∧
        (s.create o fresh).2.transfers = s.transfers ++ [opened o fresh]) := by
  unfold create findReference?
  dsimp only
  cases s.createFailures with
  | cons e es => exact .inl ⟨e, rfl, rfl⟩
  | nil =>
      by_cases ha : o.amount ≤ .zero
      · exact .inl ⟨_, by rw [if_pos ha], by rw [if_pos ha]⟩
      · simp only [ha, if_false]
        cases hf : s.transfers.find? (·.reference = o.reference) with
        | some t => exact .inr (.inl ⟨t, rfl, rfl, rfl⟩)
        | none => exact .inr (.inr ⟨rfl, rfl, rfl⟩)

/-- An order that nothing stands in the way of is answered with the transfer under its reference, or
makes one. -/
theorem create_of_open {o : Order} (hf : s.createFailures = []) (ha : ¬ o.amount ≤ .zero)
    (fresh : Uuid) :
    s.create o fresh =
      let s' := { s with createCalls := s.createCalls + 1 }
      match s.findReference? o.reference with
      | some t => (.ok (t, false), s')
      | none =>
        (.ok (opened o fresh, true), { s' with transfers := s.transfers ++ [opened o fresh] }) := by
  unfold create
  dsimp only
  split
  · rename_i hfailures
    rw [hf] at hfailures
    cases hfailures
  · rw [if_neg ha]
    rfl

theorem list_of_open (h : s.listFailures = []) (limit offset : Nat) :
    s.list limit offset =
      (.ok (s.page limit offset), { s with listCalls := s.listCalls + 1 }) := by
  unfold list
  dsimp only
  split
  · rename_i hfailures
    rw [h] at hfailures
    cases hfailures
  · rfl

theorem transfers_list (s : Sandbox) (limit offset : Nat) :
    (s.list limit offset).2.transfers = s.transfers := by
  unfold list
  dsimp only
  split <;> rfl

/-! ## Settlement -/

theorem origin_settled (h : settled feeRate t = .ok t') : t'.origin = t.origin := by
  unfold settled at h
  cases hfee : (t.source.amount.getD .zero).mul feeRate with
  | error o => simp [hfee, bind, Except.bind] at h
  | ok fee =>
      cases hrest : (t.source.amount.getD .zero).sub fee with
      | error o => simp [hfee, hrest, bind, Except.bind] at h
      | ok rest =>
          simp only [hfee, hrest, bind, Except.bind, pure, Except.pure, Except.ok.injEq] at h
          rw [← h]
          rfl

theorem origin_interrupted (feeRate : Decimal) (t : Transfer) :
    (interrupted feeRate t).origin = t.origin := by
  unfold interrupted
  split <;> rfl

theorem origins_replaceFirst {ts : List Transfer} (ht : ts.find? (·.id = id) = some t)
    (h : t'.origin = t.origin) :
    (replaceFirst id t' ts).map Transfer.origin = ts.map Transfer.origin := by
  induction ts with
  | nil => rfl
  | cons u ts ih =>
      by_cases hu : u.id = id
      · rw [List.find?_cons_of_pos (by simpa using hu)] at ht
        cases ht
        rw [replaceFirst, if_pos hu, List.map_cons, List.map_cons, h]
      · rw [List.find?_cons_of_neg (by simpa using hu)] at ht
        rw [replaceFirst, if_neg hu, List.map_cons, List.map_cons, ih ht]

/-! ### The latest transfer -/

variable {ts : List Transfer}

theorem find?_latest (ht : s.transfers = ts ++ [t]) (hnew : ∀ x ∈ ts, x.id ≠ t.id) :
    s.find? t.id = some t := by
  have hnone : ts.find? (·.id = t.id) = none := List.find?_eq_none.mpr fun x hx => by
    simpa using hnew x hx
  rw [find?, ht, List.find?_append, hnone]
  simp

theorem replaceFirst_latest (hnew : ∀ x ∈ ts, x.id ≠ t.id) :
    replaceFirst t.id t' (ts ++ [t]) = ts ++ [t'] := by
  induction ts with
  | nil => simp [replaceFirst]
  | cons x ts ih =>
      rw [List.cons_append, replaceFirst, if_neg (hnew x (by simp)),
        ih fun y hy => hnew y (by simp [hy])]
      rfl

theorem settled_eq_ok (h : settled feeRate t = .ok t') :
    ∃ fee received, (t.source.amount.getD .zero).mul feeRate = .ok fee ∧
      (t.source.amount.getD .zero).sub fee = .ok received ∧ t'.state = .completed ∧
      t'.destination.amount = some received := by
  unfold settled at h
  cases hfee : (t.source.amount.getD .zero).mul feeRate with
  | error o => simp [hfee, bind, Except.bind] at h
  | ok fee =>
      cases hreceived : (t.source.amount.getD .zero).sub fee with
      | error o => simp [hfee, hreceived, bind, Except.bind] at h
      | ok received =>
          simp only [hfee, hreceived, bind, Except.bind, pure, Except.pure, Except.ok.injEq] at h
          exact ⟨fee, received, rfl, hreceived, by rw [← h], by rw [← h]⟩

/-! ### What stays -/

theorem origins_complete? {r : Except Overflow Transfer} (h : s.complete? id = some (r, s')) :
    s'.origins = s.origins := by
  obtain ⟨t, ht, hs'⟩ := Option.map_eq_some_iff.mp h
  cases hsettled : settled s.feeRate t with
  | ok t' =>
      rw [hsettled] at hs'
      cases hs'
      exact origins_replaceFirst ht (origin_settled hsettled)
  | error o =>
      rw [hsettled] at hs'
      cases hs'
      exact origins_replaceFirst ht (origin_interrupted s.feeRate t)

theorem origins_setState? (h : s.setState? id state = some (t, s')) : s'.origins = s.origins := by
  obtain ⟨t, ht, hs'⟩ := Option.map_eq_some_iff.mp h
  cases hs'
  exact origins_replaceFirst ht rfl

end Sandbox

end Causeway.Rail
