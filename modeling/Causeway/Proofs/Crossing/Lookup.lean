import Causeway.Proofs.Crossing.Calls
import Causeway.Proofs.Crossing.Onward

/-!
# Looking a transfer up by its id

The rail's history is read newest first, page by page. Transfers that others make meanwhile push the
ones that have not been read to higher offsets, so the transfer that is looked for stays ahead of
the search (`Ahead.order`) and is found (`runAmong_lookup`). With nobody else at work
(`World.runAmong_none`) the answer is that of a direct search, and the number of pages is known
(`run_lookup`).
-/

namespace Causeway

open Rail (Order Transfer Sandbox)
open Retry (Timer)

variable {ε α β : Type} {w w' : World}

/-! ## Among others -/

namespace World

/-- Others have placed orders. -/
def crowded (w : World) (os : List Order) : World :=
  os.foldl (fun w o => (w.perform (.createTransfer o)).2) w

/-- Runs a program among others, who may place any number of orders before each of its requests. -/
def runAmong (others : World → List Order) : Program α → World → Outcome α
  | .done a, w => (.ok a, w)
  | .crash o, w => (.error o, w)
  | .call r k, w =>
    match (w.crowded (others w)).perform r with
    | (.ok a, w) => runAmong others (k a) w
    | (.error o, w) => (.error o, w)

/-- Others who place no orders leave the program alone. -/
theorem runAmong_none (p : Program α) (w : World) : w.runAmong (fun _ => []) p = w.run p := by
  induction p generalizing w with
  | done a => rfl
  | crash o => rfl
  | call r k ih =>
      simp only [runAmong, run, crowded, List.foldl_nil]
      rcases w.perform r with ⟨o | a, w'⟩
      · rfl
      · exact ih a w'

end World

/-- Others place orders between two requests. -/
def Rules.among : Rules where
  assumes _ _ := True
  rely w w' := ∃ os, w' = w.crowded os
  permits _ _ := True
  refl _ := ⟨[], rfl⟩
  trans := by
    rintro u v w ⟨os, rfl⟩ ⟨os', rfl⟩
    exact ⟨os ++ os', List.foldl_append.symm⟩

/-- What a program keeps to among others is what its run among them comes to. -/
theorem World.runAmong_keeps {p : Program α} {Q : α → World → Prop}
    (hp : p.Only fun r => counts r = false) (h : Rules.among.Keeps p Q w)
    (others : World → List Order) : ∃ a w', w.runAmong others p = (.ok a, w') ∧ Q a w' := by
  induction p generalizing w with
  | done a => exact ⟨a, w, rfl, h⟩
  | crash o => exact hp.elim
  | call r k ih =>
      have hnext := (h _ ⟨others w, rfl⟩ trivial).2
      obtain ⟨a, ha⟩ := (w.crowded (others w)).perform_ok hp.1
      obtain ⟨b, w', hrun, hb⟩ := ih a (hp.2 a) (hnext a ha)
      refine ⟨b, w', ?_, hb⟩
      rw [runAmong, show (w.crowded (others w)).perform r =
        (.ok a, ((w.crowded (others w)).perform r).2) from Prod.ext ha rfl]
      exact hrun

/-! ## The timer and the failures that wait at the rail -/

theorem Retry.Timer.abortAt_pause (t : Timer) (ms : Nat) : (t.pause ms).2.abortAt = t.abortAt :=
  t.abortAt_now _

/-- A wait that does not run to its end was cut short by an abort. -/
theorem Retry.Timer.abortAt_of_cut {t : Timer} {ms : Nat} (h : (t.pause ms).1 = false) :
    t.abortAt ≠ none := by
  intro hnone
  have hclear : t.Clear ms := fun a ha => by rw [hnone] at ha; cases ha
  rw [Timer.pause_of_clear hclear] at h
  cases h

namespace World

theorem listFailures_createTransfer (w : World) (o : Order) :
    (w.perform (.createTransfer o)).2.rail.listFailures = w.rail.listFailures := by
  have hcreate : ∀ fresh, (w.rail.create o fresh).2.listFailures = w.rail.listFailures := by
    intro fresh
    unfold Sandbox.create
    dsimp only
    split
    · rfl
    · split
      · rfl
      · split <;> rfl
  simp only [perform, createTransfer, send, freshId]
  have hfailures := hcreate (w.ids w.drawn)
  split
  all_goals
    rename_i heq
    rw [heq] at hfailures
    obtain ⟨c, hw, -⟩ := delayed_world _ _ _
    rw [hw]
    exact hfailures

/-- A page is asked for, and the answer is the page, unless a failure waits for the call. -/
theorem listTransfers_cases (w : World) (limit offset : Nat) :
    ∃ r, (w.perform (.listTransfers limit offset)).1 = .ok r ∧
      (r.answer = .ok (w.rail.page limit offset) ∧
          (w.perform (.listTransfers limit offset)).2.rail =
            { w.rail with listCalls := w.rail.listCalls + 1 } ∨
        ∃ e es, w.rail.listFailures = e :: es ∧ r.answer = .error e ∧
          (w.perform (.listTransfers limit offset)).2.rail =
            { w.rail with listCalls := w.rail.listCalls + 1, listFailures := es }) := by
  obtain ⟨ms, hr⟩ := delayed_answer { w.send (.list limit offset) with
    rail := (w.rail.list limit offset).2 } .railList (w.rail.list limit offset).1
  refine ⟨_, hr, ?_⟩
  rw [listTransfers_rail]
  cases hf : w.rail.listFailures with
  | nil =>
      rw [Sandbox.list_of_open hf]
      exact .inl ⟨rfl, rfl⟩
  | cons e es =>
      simp only [Sandbox.list, hf]
      exact .inr ⟨e, es, rfl, rfl, rfl⟩

end World

namespace Crossing

variable {t : Transfer} {failures : List Rail.ApiError} {due : Option Nat} {offset : Nat}

/-! ## The transfer stays ahead -/

/-- The transfer is not among the first `offset`, newest first. Nothing fails but with what waits at
the rail, or by an abort when it is due. -/
structure Ahead (t : Transfer) (failures : List Rail.ApiError) (due : Option Nat) (offset : Nat)
    (w : World) : Prop where
  ahead : t ∈ w.rail.transfers.reverse.drop offset
  failures : ∀ e ∈ w.rail.listFailures, e ∈ failures
  due : w.timer.abortAt = due

theorem Ahead.mem (h : Ahead t failures due offset w) : t ∈ w.rail.transfers :=
  List.mem_reverse.mp (List.mem_of_mem_drop h.ahead)

theorem mem_drop_reverse_append {xs ys : List Transfer} (h : t ∈ xs.reverse.drop offset) :
    t ∈ (xs ++ ys).reverse.drop offset := by
  rw [List.reverse_append, List.drop_append]
  exact List.mem_append_right _ (List.drop_subset_drop_left _ (Nat.sub_le ..) h)

theorem Ahead.order (h : Ahead t failures due offset w) (o : Order) :
    Ahead t failures due offset (w.perform (.createTransfer o)).2 where
  ahead := by
    obtain ⟨r, -, ⟨hsame, -⟩ | ⟨-, -, hmade, -⟩⟩ := w.createTransfer_cases o
    · rw [hsame]
      exact h.ahead
    · rw [hmade]
      exact mem_drop_reverse_append h.ahead
  failures := by
    rw [w.listFailures_createTransfer o]
    exact h.failures
  due := by
    rw [w.perform_timer (by simp)]
    exact h.due

theorem Ahead.stable : Rules.among.Stable (Ahead t failures due offset) := by
  rintro w _ ⟨os, rfl⟩ h
  induction os generalizing w with
  | nil => exact h
  | cons o os ih => exact ih (h.order o)

theorem Ahead.wait (h : Ahead t failures due offset w) (ms : Nat) :
    Ahead t failures due offset (w.perform (.pause ms)).2 :=
  { h with due := (w.timer.abortAt_pause ms).trans h.due }

/-- Asking for a page moves nothing. -/
theorem Ahead.list (h : Ahead t failures due offset w) (limit : Nat) {x : Transfer} {offset' : Nat}
    (hahead : x ∈ w.rail.transfers.reverse.drop offset') :
    Ahead x failures due offset' (w.perform (.listTransfers limit offset)).2 where
  ahead := by
    rw [w.perform_transfers (by simp)]
    exact hahead
  failures := by
    intro e he
    obtain ⟨r, -, ⟨-, hrail⟩ | ⟨e', es, hes, -, hrail⟩⟩ := w.listTransfers_cases limit offset
    · rw [hrail] at he
      exact h.failures e he
    · rw [hrail] at he
      exact h.failures e (by rw [hes]; exact List.mem_cons_of_mem _ he)
  due := by
    rw [w.perform_timer (by simp)]
    exact h.due

/-! ## The search among others -/

/-- Why a search stops short of a transfer that is there: a failure waited at the rail, or there are
more transfers than offsets, or an abort was due. -/
def Missed (failures : List Rail.ApiError) (due : Option Nat) : Stop → World → Prop
  | .failure f => fun w =>
    (∃ e ∈ failures, f = .ofApiError e) ∨ twoTo 64 < w.rail.transfers.length
  | .interrupted => fun _ => due ≠ none

theorem receive_among {failure : ε → Failure} (r : Reply (Except ε α))
    (hw : Ahead t failures due offset w) :
    Rules.among.Yields (Attempt.receive failure r)
      (fun a w' => Ahead t failures due offset w' ∧ r.answer = .ok a)
      (fun e _ => (∃ x, r.answer = .error x ∧ e = .failure (failure x)) ∨
        e = .interrupted ∧ due ≠ none) w := by
  have hdone : ∀ {w}, Ahead t failures due offset w → Rules.among.Yields
      (Attempt.ofExcept (r.answer.mapError failure))
      (fun a w' => Ahead t failures due offset w' ∧ r.answer = .ok a)
      (fun e _ => (∃ x, r.answer = .error x ∧ e = .failure (failure x)) ∨
        e = .interrupted ∧ due ≠ none) w := by
    intro w hw
    cases hr : r.answer with
    | ok a => exact ⟨hw, rfl⟩
    | error x => exact .inl ⟨x, rfl, rfl⟩
  unfold Attempt.receive
  dsimp only
  split
  · refine Rules.Yields.bind (Rules.Yields.lift (Rules.Keeps.request fun v hv _ => ?_))
    replace hw := Ahead.stable hv hw
    refine ⟨trivial, fun elapsed helapsed => ?_⟩
    cases elapsed with
    | true => exact hdone (hw.wait _)
    | false =>
        have hcut := Timer.abortAt_of_cut (Except.ok.inj helapsed)
        exact Rules.Yields.throw (.inr ⟨rfl, by rwa [hw.due] at hcut⟩)
  · exact hdone hw

/-- A transfer with the id is on the page, or the page is full and the transfer is ahead still. -/
theorem list_among (hw : Ahead t failures due offset w) (limit : Nat) :
    Rules.among.Yields (Provider.listTransfers limit offset)
      (fun page w' =>
        (∃ x, page.find? (·.id = t.id) = some x ∧ x ∈ w'.rail.transfers ∧ x.id = t.id) ∨
        page.find? (·.id = t.id) = none ∧ page.length = limit ∧
          Ahead t failures due (offset + limit) w')
      (Missed failures due) w := by
  refine Rules.Yields.bind (Rules.Yields.lift (Rules.Keeps.request fun v hv _ => ?_))
  replace hw := Ahead.stable hv hw
  refine ⟨trivial, fun r hr => ?_⟩
  obtain ⟨r', hr', hcases⟩ := v.listTransfers_cases limit offset
  obtain rfl : r' = r := Except.ok.inj (hr'.symm.trans hr)
  have hmissed : ∀ e w', ((∃ x, r'.answer = .error x ∧ e = .failure (.ofApiError x)) ∨
      e = .interrupted ∧ due ≠ none) → Missed failures due e w' := by
    rintro e w' (⟨x, hx, rfl⟩ | ⟨rfl, hdue⟩)
    · rcases hcases with ⟨hanswer, -⟩ | ⟨x', es, hes, hanswer, -⟩
      · rw [hanswer] at hx
        cases hx
      · obtain rfl : x' = x := Except.error.inj (hanswer.symm.trans hx)
        exact .inl ⟨x', hw.failures x' (by rw [hes]; exact List.mem_cons_self), rfl⟩
    · exact hdue
  have hpage : ∀ {page}, r'.answer = .ok page → v.rail.page limit offset = page := by
    intro page h
    rcases hcases with ⟨hanswer, -⟩ | ⟨e, es, -, hanswer, -⟩
    · exact Except.ok.inj (hanswer.symm.trans h)
    · rw [hanswer] at h
      cases h
  cases hfind : (v.rail.page limit offset).find? (·.id = t.id) with
  | some x =>
      have hx : x ∈ v.rail.transfers.reverse.drop 0 :=
        List.mem_of_mem_drop (List.mem_of_mem_take (List.mem_of_find?_eq_some hfind))
      refine Rules.Yields.mono (receive_among r' (hw.list limit hx)) ?_ hmissed
      rintro page w' ⟨hw', h⟩
      obtain rfl := hpage h
      exact .inl ⟨x, hfind, hw'.mem, by simpa using List.find?_some hfind⟩
  | none =>
      have hnot : t ∉ v.rail.page limit offset := fun hon => by
        simpa using List.find?_eq_none.mp hfind t hon
      obtain ⟨hfull, hbehind⟩ := page_of_behind hw.ahead hnot
      refine Rules.Yields.mono (receive_among r' (hw.list limit hbehind)) ?_ hmissed
      rintro page w' ⟨hw', h⟩
      obtain rfl := hpage h
      exact .inr ⟨hfind, hfull, hw'⟩

theorem search_among {pageSize pages : Nat} (hpage : 0 < pageSize)
    (hw : Ahead t failures due offset w) (hpages : twoTo 64 ≤ offset + pages) :
    Rules.among.Yields (Provider.searchFrom pageSize t.id pages offset)
      (fun response w' => ∃ x ∈ w'.rail.transfers, x.id = t.id ∧
        response = x.response (x.direction .stablecoinToFiat))
      (Missed failures due) w := by
  induction pages generalizing w offset with
  | zero =>
      have hlt := List.length_pos_of_mem hw.ahead
      rw [List.length_drop, List.length_reverse] at hlt
      exact .inr (by omega)
  | succ pages ih =>
      refine Rules.Yields.next (list_among hw pageSize) ?_
      rintro page v (⟨x, hfound, hx, hid⟩ | ⟨hnone, hfull, hv⟩)
      · rw [hfound]
        exact Rules.Yields.pure ⟨x, hx, hid, rfl⟩
      · rw [hnone]
        dsimp only
        rw [if_neg (by omega), hfull]
        exact ih hv (by omega)

/-! ## The look-up -/

/-- The state of a conversion is looked up, with no executor around it. -/
def lookup (p : ProviderSettings) (transfer : String) :
    Program (Except Failure Conversion.Response) :=
  (Attempt.once (Provider.status p transfer)).run

theorem only_lookup {P : Request → Prop} (hlist : ∀ limit offset, P (.listTransfers limit offset))
    (hpause : ∀ ms, P (.pause ms)) (p : ProviderSettings) (transfer : String) :
    (lookup p transfer).Only P := by
  refine Program.Only.bind (only_search hlist hpause _ _ _ _) fun r => ?_
  rcases r with (_ | _) | _ <;> trivial

/-- What a search that has come to an end answers. -/
def answer (transfer : String) : Option Transfer → Except Failure Conversion.Response
  | some t => .ok (t.response (t.direction .stablecoinToFiat))
  | none => .error (.notFound .providerTransaction transfer)

/-- A transfer that is there when the look-up begins is found, whatever orders others place, unless
the rail fails or an abort cuts the look-up short. -/
theorem runAmong_lookup (p : ProviderSettings) (hpage : 0 < p.listPageSize)
    (others : World → List Order) (ht : t ∈ w.rail.transfers) {r : World.Outcome _}
    (hrun : w.runAmong others (lookup p t.id) = r)
    (hlength : r.2.rail.transfers.length ≤ twoTo 64)
    (honly : ∀ x ∈ r.2.rail.transfers, x.id = t.id → x = t) :
    r.1 = .ok (answer t.id (some t)) ∨
      (∃ e ∈ w.rail.listFailures, r.1 = .ok (.error (.ofApiError e))) ∨
      w.timer.abortAt ≠ none ∧ r.1 = .ok (.error .cancelled) := by
  have hahead : Ahead t w.rail.listFailures w.timer.abortAt 0 w :=
    ⟨by simpa using ht, fun _ he => he, rfl⟩
  have hkeeps : Rules.among.Keeps (lookup p t.id) (fun a w' =>
      w'.rail.transfers.length ≤ twoTo 64 →
        (∃ x ∈ w'.rail.transfers, x.id = t.id ∧ a = answer t.id (some x)) ∨
          (∃ e ∈ w.rail.listFailures, a = .error (.ofApiError e)) ∨
            w.timer.abortAt ≠ none ∧ a = .error .cancelled) w := by
    refine Rules.Keeps.bind (Rules.Keeps.mono
      (search_among hpage hahead (Nat.le_add_left ..)) fun a w' ha => ?_)
    rcases a with (_ | f) | response
    · exact fun _ => .inr (.inr ⟨ha, rfl⟩)
    · intro hlength
      rcases ha with ⟨e, he, rfl⟩ | hlong
      · exact .inr (.inl ⟨e, he, rfl⟩)
      · exact absurd hlong (Nat.not_lt.mpr hlength)
    · obtain ⟨x, hx, hid, rfl⟩ := ha
      exact fun _ => .inl ⟨x, hx, hid, rfl⟩
  obtain ⟨a, w', hrun', ha⟩ := World.runAmong_keeps
    (only_lookup (fun _ _ => rfl) (fun _ => rfl) p t.id) hkeeps others
  obtain rfl := hrun'.symm.trans hrun
  rcases ha hlength with ⟨x, hx, hid, rfl⟩ | ⟨e, he, rfl⟩ | ⟨hdue, rfl⟩
  · obtain rfl := honly x hx hid
    exact .inl rfl
  · exact .inr (.inl ⟨e, he, rfl⟩)
  · exact .inr (.inr ⟨hdue, rfl⟩)

/-! ## The look-up by itself -/

/-- The rail once it has been asked for a number of pages. -/
def askedTimes (rail : Sandbox) (n : Nat) : Sandbox := { rail with listCalls := rail.listCalls + n }

variable {transfer : String} {size pages : Nat}

theorem run_page (hfailures : w.rail.listFailures = []) (hdue : w.timer.abortAt = none)
    (limit offset : Nat) :
    ∃ w', w.run (Provider.listTransfers limit offset).run =
        (.ok (.ok (w.rail.page limit offset)), w') ∧
      w'.rail = askedTimes w.rail 1 ∧ w'.timer.abortAt = none := by
  obtain ⟨⟨x, ms⟩, hr, ⟨rfl, hrail⟩ | ⟨e, es, hes, -⟩⟩ := w.listTransfers_cases limit offset
  · have hperform : w.perform (.listTransfers limit offset) =
        (.ok ⟨.ok (w.rail.page limit offset), ms⟩,
          (w.perform (.listTransfers limit offset)).2) := Prod.ext hr rfl
    have htimer := w.perform_timer (r := .listTransfers limit offset) (by simp)
    generalize (w.perform (.listTransfers limit offset)).2 = v at hperform hrail htimer
    have hreceive : w.run (Provider.listTransfers limit offset).run =
        v.run (Attempt.receive Failure.ofApiError ⟨.ok (w.rail.page limit offset), ms⟩).run :=
      World.run_seq (World.run_lift ((World.run_request w _).trans hperform))
    rw [hreceive, Attempt.receive]
    dsimp only
    split
    · have hclear : v.timer.Clear ms := fun a ha => by
        rw [htimer, hdue] at ha
        cases ha
      rw [World.run_seq (World.run_lift (World.run_pause v ms)), Timer.pause_of_clear hclear]
      refine ⟨_, rfl, hrail, ?_⟩
      rw [Timer.abortAt_advance, htimer]
      exact hdue
    · exact ⟨v, rfl, hrail, by rw [htimer]; exact hdue⟩
  · rw [hfailures] at hes
    cases hes

/-- The search through what is left of the history, one page after the other. -/
theorem run_search (hsize : 0 < size) (hfailures : w.rail.listFailures = [])
    (hdue : w.timer.abortAt = none) {rest : List Transfer}
    (hrest : w.rail.transfers.reverse.drop offset = rest)
    (hpages : rest.findIdx (·.id = transfer) < pages) :
    ∃ w', w.run (Provider.searchFrom size transfer pages offset).run =
        (.ok ((answer transfer (rest.find? (·.id = transfer))).mapError .failure), w') ∧
      w'.rail = askedTimes w.rail (rest.findIdx (·.id = transfer) / size + 1) := by
  induction pages generalizing w offset rest with
  | zero => exact absurd hpages (Nat.not_lt_zero _)
  | succ pages ih =>
      obtain ⟨v, hpage, hv, hdue'⟩ := run_page hfailures hdue size offset
      have htake : w.rail.page size offset = rest.take size := by rw [← hrest]; rfl
      rw [htake] at hpage
      rw [Provider.searchFrom, World.run_seq hpage]
      have hfind : (rest.take size ++ rest.drop size).find? (·.id = transfer) = _ :=
        List.find?_append
      have hidx : (rest.take size ++ rest.drop size).findIdx (·.id = transfer) = _ :=
        List.findIdx_append
      rw [List.take_append_drop] at hfind hidx
      cases hon : (rest.take size).find? (·.id = transfer) with
      | some t =>
          have hlt : (rest.take size).findIdx (·.id = transfer) < (rest.take size).length :=
            List.findIdx_lt_length_of_exists
              ⟨t, List.mem_of_find?_eq_some hon, by simpa using List.find?_some hon⟩
          rw [if_pos hlt] at hidx
          rw [hon, Option.some_or] at hfind
          rw [hfind, hidx, Nat.div_eq_of_lt (hlt.trans_le (List.length_take_le ..))]
          exact ⟨v, rfl, hv⟩
      | none =>
          have hend : (rest.take size).findIdx (·.id = transfer) = (rest.take size).length :=
            List.findIdx_eq_length.mpr fun x hx => by simpa using List.find?_eq_none.mp hon x hx
          rw [if_neg (by omega)] at hidx
          rw [hon, Option.none_or] at hfind
          rw [hfind, hidx]
          dsimp only
          split
          · rename_i hshort
            rw [List.length_take] at hshort
            have hnil : rest.drop size = [] := List.drop_eq_nil_iff.mpr (by omega)
            have hdiv : (rest.take size).length / size = 0 :=
              Nat.div_eq_of_lt (by rw [List.length_take]; exact hshort)
            rw [hnil, List.findIdx_nil, Nat.zero_add, hdiv]
            exact ⟨v, rfl, hv⟩
          · rename_i hfull
            have hlength : (rest.take size).length = size :=
              Nat.le_antisymm (List.length_take_le ..) (Nat.not_lt.mp hfull)
            rw [hlength] at hidx ⊢
            have hopen : v.rail.listFailures = [] := by rw [hv]; exact hfailures
            have hleft : v.rail.transfers.reverse.drop (offset + size) = rest.drop size := by
              rw [hv, ← hrest, List.drop_drop]
              rfl
            obtain ⟨w', hrun, hw'⟩ := ih hopen hdue' hleft (by omega)
            refine ⟨w', hrun, hw'.trans ?_⟩
            rw [hv, Nat.add_div_right _ hsize]
            simp only [askedTimes, Nat.add_assoc, Nat.add_comm]

theorem run_lookup (p : ProviderSettings) (hsize : 0 < p.listPageSize)
    (hfailures : w.rail.listFailures = []) (hdue : w.timer.abortAt = none)
    (hlength : w.rail.transfers.length < twoTo 64) (transfer : String) :
    ∃ w', w.run (lookup p transfer) =
        (.ok (answer transfer (w.rail.transfers.reverse.find? (·.id = transfer))), w') ∧
      w'.rail = askedTimes w.rail
        (w.rail.transfers.reverse.findIdx (·.id = transfer) / p.listPageSize + 1) := by
  have hpages : w.rail.transfers.reverse.findIdx (·.id = transfer) < twoTo 64 := by
    refine Nat.lt_of_le_of_lt List.findIdx_le_length ?_
    rwa [List.length_reverse]
  obtain ⟨w', hrun, hw'⟩ := run_search hsize hfailures hdue List.drop_zero hpages
  refine ⟨w', (World.run_bind_of hrun).trans ?_, hw'⟩
  cases w.rail.transfers.reverse.find? (·.id = transfer) with
  | some t => rfl
  | none => rfl

/-- Where no two transfers have the same id, it does not matter from which end they are read. -/
theorem find?_reverse_of_nodup {ts : List Transfer} (h : (ts.map (·.id)).Nodup)
    (transfer : String) :
    ts.reverse.find? (·.id = transfer) = ts.find? (·.id = transfer) := by
  cases hfind : ts.find? (·.id = transfer) with
  | none =>
      rw [List.find?_eq_none] at hfind ⊢
      exact fun x hx => hfind x (List.mem_reverse.mp hx)
  | some t =>
      obtain rfl : t.id = transfer := by simpa using List.find?_some hfind
      refine Sandbox.find?_of_nodup (f := (·.id)) ?_
        (List.mem_reverse.mpr (List.mem_of_find?_eq_some hfind))
      rw [List.map_reverse]
      exact List.nodup_reverse.mpr h

theorem findIdx_of_nodup {ts : List Transfer} (h : (ts.map (·.id)).Nodup) {i : Nat}
    (hi : ts[i]? = some t) : ts.findIdx (·.id = t.id) = i := by
  obtain ⟨hlt, rfl⟩ := List.getElem?_eq_some_iff.mp hi
  refine (List.findIdx_eq hlt).mpr ⟨by simp, fun j hj => ?_⟩
  have hne := List.nodup_iff_getElem?_ne_getElem?.mp h j i hj (by simpa using hlt)
  simpa [hlt, hj.trans hlt] using hne

/-- A transfer that was made before a look-up of its id began is found, however many others are made
between the pages. If none are made, the answer is that of a direct search, after one page for each
page of newer transfers and one more. -/
theorem lookup_misses_nothing (p : ProviderSettings) (hsize : 0 < p.listPageSize) (w : World) :
    (∀ others t r w', t ∈ w.rail.transfers → w.runAmong others (lookup p t.id) = (r, w') →
      w'.rail.transfers.length ≤ twoTo 64 → (∀ x ∈ w'.rail.transfers, x.id = t.id → x = t) →
      r = .ok (.ok (t.response (t.direction .stablecoinToFiat))) ∨
        (∃ e ∈ w.rail.listFailures, r = .ok (.error (.ofApiError e))) ∨
        w.timer.abortAt ≠ none ∧ r = .ok (.error .cancelled)) ∧
    (w.rail.listFailures = [] → w.timer.abortAt = none → w.rail.transfers.length < twoTo 64 →
      (w.rail.transfers.map (·.id)).Nodup →
      (∀ transfer, (w.run (lookup p transfer)).1 = .ok (answer transfer (w.rail.find? transfer))) ∧
      (∀ i t, w.rail.transfers.reverse[i]? = some t →
        (w.run (lookup p t.id)).2.rail.listCalls = w.rail.listCalls + (i / p.listPageSize + 1)) ∧
      ∀ transfer, w.rail.find? transfer = none → (w.run (lookup p transfer)).2.rail.listCalls =
        w.rail.listCalls + (w.rail.transfers.length / p.listPageSize + 1)) := by
  refine ⟨?found, fun hfailures hdue hlength hids => ?alone⟩
  case found =>
    intro others t r w' ht hrun hlength honly
    exact runAmong_lookup p hsize others ht hrun hlength honly
  case alone =>
    have hrun := run_lookup p hsize hfailures hdue hlength
    refine ⟨fun transfer => ?_, fun i t hi => ?_, fun transfer hnone => ?_⟩
    · obtain ⟨w', hw', -⟩ := hrun transfer
      rw [hw', find?_reverse_of_nodup hids]
      rfl
    · obtain ⟨w', hw', hrail⟩ := hrun t.id
      have hnodup : (w.rail.transfers.reverse.map (·.id)).Nodup := by
        rw [List.map_reverse]
        exact List.nodup_reverse.mpr hids
      rw [hw', hrail, findIdx_of_nodup hnodup hi]
      rfl
    · obtain ⟨w', hw', hrail⟩ := hrun transfer
      have hend : w.rail.transfers.reverse.findIdx (·.id = transfer) =
          w.rail.transfers.length := by
        rw [← List.length_reverse, List.findIdx_eq_length]
        exact fun x hx => by simpa using List.find?_eq_none.mp hnone x (List.mem_reverse.mp hx)
      rw [hw', hrail, hend]
      rfl

/-! ## A look-up while the history grows -/

namespace Sample

def order (n : Nat) : Order :=
  ⟨"sender", "recipient", amount.value, "USDC", "USD", String.ofList (List.replicate n 'r')⟩

/-- Three transfers have been made. -/
def shelf : World :=
  { world .epoch with
    rail := { transfers := [0, 1, 2].map fun n => Sandbox.opened (order n) (.ofNat n) } }

def oldest : Transfer := Sandbox.opened (order 0) (.ofNat 0)

/-- Others make a transfer before every request. -/
def busy (w : World) : List Order := [order (3 + w.drawn)]

def paged : ProviderSettings := { Settings.standard.provider with listPageSize := 2 }

/-- The oldest transfer moves from the second page to the third while the first two are read. -/
theorem oldest_is_found :
    (shelf.runAmong busy (lookup paged oldest.id)).1 =
        .ok (.ok (oldest.response (oldest.direction .stablecoinToFiat))) ∧
      (shelf.run (lookup paged oldest.id)).1 =
        .ok (.ok (oldest.response (oldest.direction .stablecoinToFiat))) ∧
      (shelf.run (lookup paged oldest.id)).2.rail.listCalls = 2 ∧
      (shelf.run (lookup paged "missing")).2.rail.listCalls = 2 := by
  obtain ⟨hfound, halone⟩ := lookup_misses_nothing paged (by decide) shelf
  obtain ⟨hdirect, hplace, habsent⟩ := halone rfl rfl (by decide) (by decide)
  refine ⟨?_, hdirect oldest.id, hplace 2 oldest (by decide), habsent "missing" (by decide)⟩
  rcases hfound busy oldest _ _ (by decide) rfl (by decide) (by decide) with h | ⟨e, he, -⟩ | ⟨h, -⟩
  · exact h
  · cases he
  · exact absurd rfl h

end Sample

end Crossing

end Causeway
