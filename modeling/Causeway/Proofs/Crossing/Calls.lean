import Causeway.Proofs.Crossing.Reached
import Causeway.Proofs.Retry.Attempts

/-!
# Calls in a calm world

In a calm world the first attempt of a call gets its answer. An order is answered with the transfer
under its reference (`order_calm`), and the search through the rail's history, page by page, comes
to the transfer that it looks for (`search_calm`).
-/

namespace Causeway

open World (Unmoved Untouched)

variable {K : World → Prop} {P : Request → Prop} {ε α : Type} {w w' : World}
  {Q : α → World → Prop} {E : Stop → World → Prop} {F : Failure → World → Prop}

/-- An answer is given when it is in, if no abort is due before. -/
theorem Rules.receive_clear {failure : ε → Failure} {a : α} {ms : Nat} (hP : ∀ ms, P (.pause ms))
    (hw : w.timer.Clear ms) (hQ : Q a { w with timer := w.timer.advance ms }) :
    (Rules.alone K P).Yields (Attempt.receive failure ⟨.ok a, ms⟩) Q E w := by
  unfold Attempt.receive
  dsimp only
  split
  · have hpause : w.perform (.pause ms) = (.ok true, { w with timer := w.timer.advance ms }) := by
      simp only [World.perform, Retry.Timer.pause_of_clear hw]
    exact Rules.Yields.bind (Rules.Yields.lift (Rules.Keeps.answered (hP ms) (fun _ => hpause)
      fun _ => hQ))
  · rename_i hms
    obtain rfl : ms = 0 := by omega
    exact hQ

theorem Rules.receive_calm {failure : ε → Failure} {a : α} {ms : Nat} (hP : ∀ ms, P (.pause ms))
    (hw : w.Calm ms) (hQ : ∀ w', w'.Calm 0 → Unmoved w w' → Q a w') :
    (Rules.alone K P).Yields (Attempt.receive failure ⟨.ok a, ms⟩) Q E w :=
  Rules.receive_clear hP hw.clear_self (hQ _ hw.wait { Unmoved.refl w with })

/-- An attempt that cannot fail is made once. -/
theorem Rules.retrying_calm {p : Retry.Policy} {a : Attempt α} (hP : P .isAborted)
    (hw : w.timer.aborted = false) (h : (Rules.alone K P).Yields a Q (fun _ _ => False) w) :
    (Rules.alone K P).Yields (Action.retrying p a) Q F w := by
  unfold Action.retrying
  obtain ⟨next, hnext⟩ := Retry.exists_attempts_eq Program.host p.delayFor Failure.isRetryable
    .cancelled (fun _ => a.ending) p.retries 0 none
  rw [hnext]
  refine Rules.Keeps.bind (Rules.Keeps.answered hP (fun _ => by rw [World.perform, hw]) fun _ => ?_)
  have hstops : ∀ (e : Stop) (w : World), False →
      Rules.stops (fun _ => False) (fun _ => True) e w := fun _ _ h => h.elim
  refine Rules.Keeps.bind (Rules.Keeps.mono
    (Rules.Keeps.ending (Rules.Yields.mono h (fun _ _ h => h) hstops)) fun r w hr => ?_)
  cases r with
  | value a => exact hr
  | error e => exact hr.1.elim
  | interrupted => exact hr.elim

namespace Crossing

variable {s : Settings} {d : Deposit} {t : Rail.Transfer} {transfer : String}

/-! ## Orders -/

theorem order_calm (hask : P .isAborted) (hpause : ∀ ms, P (.pause ms))
    (horder : ∀ o, P (.createTransfer o)) (hw : w.Calm 0)
    (hv : s.provider.validate (request s d) = .ok ()) :
    (Rules.alone K P).Yields
      (Action.retrying (policy s) (Provider.convert s.provider (request s d)))
      (fun response w' => w'.Calm 0 ∧ Untouched w w' ∧
        ∃ t, w'.rail.findReference? d.reference = some t ∧ response.transfer = t.id) F w := by
  refine Rules.retrying_calm hask hw.not_aborted ?_
  unfold Provider.convert
  rw [hv]
  obtain ⟨t, ms, v, hp, hv, huntouched, hfind⟩ :=
    World.createTransfer_of_calm hw (o := s.provider.order (request s d))
      (Decimal.not_le_zero d.amount)
  refine Rules.Yields.bind (Rules.Yields.pure (Rules.Yields.bind (Rules.Yields.bind
    (Rules.Yields.lift (Rules.Keeps.answered (horder _) (fun _ => hp) fun _ => ?_)))))
  refine Rules.receive_calm hpause hv fun w' hw' hmoved =>
    Rules.Yields.pure ⟨hw', huntouched.trans hmoved.untouched, t, ?_, rfl⟩
  unfold Rail.Sandbox.findReference? at hfind ⊢
  rw [hmoved.transfers]
  exact hfind

/-! ## The search -/

/-- The transfer is on a page exactly if it is found there by its id. -/
theorem find?_page (hids : (w.rail.transfers.map (·.id)).Nodup) (ht : t ∈ w.rail.transfers)
    (limit offset : Nat) : (w.rail.page limit offset).find? (·.id = t.id) =
      if t ∈ w.rail.page limit offset then some t else none := by
  have hsub : (w.rail.page limit offset).Sublist w.rail.transfers.reverse :=
    (List.take_sublist ..).trans (List.drop_sublist ..)
  have hmem : ∀ x ∈ w.rail.page limit offset, x ∈ w.rail.transfers := fun x hx =>
    List.mem_reverse.mp (hsub.subset hx)
  split
  · rename_i hpage
    have hnodup : (w.rail.transfers.reverse.map (·.id)).Nodup := by
      rw [List.map_reverse]
      exact List.nodup_reverse.mpr hids
    exact Rail.Sandbox.find?_of_nodup (f := (·.id)) (hnodup.sublist (hsub.map _)) hpage
  · rename_i hpage
    refine List.find?_eq_none.mpr fun x hx hid => hpage ?_
    rwa [← List.inj_on_of_nodup_map hids (hmem x hx) ht (by simpa using hid)]

/-- What is not on a page that starts before it lies behind that page, which is full therefore. -/
theorem page_of_behind {limit offset : Nat} (hahead : t ∈ w.rail.transfers.reverse.drop offset)
    (hpage : t ∉ w.rail.page limit offset) : (w.rail.page limit offset).length = limit ∧
      t ∈ w.rail.transfers.reverse.drop (offset + limit) := by
  have hbehind : t ∈ (w.rail.transfers.reverse.drop offset).drop limit := by
    rw [← List.take_append_drop limit (w.rail.transfers.reverse.drop offset)] at hahead
    exact (List.mem_append.mp hahead).resolve_left hpage
  refine ⟨?_, by rwa [List.drop_drop] at hbehind⟩
  have hlt := List.length_pos_of_mem hbehind
  rw [List.length_drop] at hlt
  exact List.length_take_of_le (by omega)

theorem search_calm (hlist : ∀ limit offset, P (.listTransfers limit offset))
    (hpause : ∀ ms, P (.pause ms)) {pageSize pages offset : Nat} (hpage : 0 < pageSize)
    (hw : w.Calm 0) (hids : (w.rail.transfers.map (·.id)).Nodup) (ht : t ∈ w.rail.transfers)
    (hahead : t ∈ w.rail.transfers.reverse.drop offset)
    (hpages : w.rail.transfers.length ≤ offset + pages) :
    (Rules.alone K P).Yields (Provider.searchFrom pageSize t.id pages offset)
      (fun response w' => response = t.response (t.direction .stablecoinToFiat) ∧ w'.Calm 0 ∧
        Unmoved w w') E w := by
  induction pages generalizing w offset with
  | zero =>
      have hempty : w.rail.transfers.reverse.drop offset = [] := by
        rw [List.drop_eq_nil_iff, List.length_reverse]
        exact hpages
      rw [hempty] at hahead
      cases hahead
  | succ pages ih =>
      obtain ⟨ms, v, hp, hv, hmoved⟩ := World.listTransfers_of_calm hw pageSize offset
      refine Rules.Yields.bind (Rules.Yields.bind (Rules.Yields.lift
        (Rules.Keeps.answered (hlist _ _) (fun _ => hp) fun _ => ?_)))
      refine Rules.receive_calm hpause hv fun w' hw' hmoved' => ?_
      replace hmoved' := hmoved.trans hmoved'
      rw [find?_page hids ht]
      by_cases hon : t ∈ w.rail.page pageSize offset
      · rw [if_pos hon]
        exact Rules.Yields.pure ⟨rfl, hw', hmoved'⟩
      · obtain ⟨hfull, hbehind⟩ := page_of_behind hahead hon
        rw [if_neg hon]
        dsimp only
        rw [if_neg (by omega), hfull]
        rw [← hmoved'.transfers] at hids ht hbehind hpages
        refine Rules.Yields.mono (ih (w := w') hw' hids ht hbehind (by omega)) ?_ fun _ _ h => h
        exact fun _ _ ⟨hresponse, hw', hmoved⟩ => ⟨hresponse, hw', hmoved'.trans hmoved⟩

theorem poll_calm (hask : P .isAborted) (hlist : ∀ limit offset, P (.listTransfers limit offset))
    (hpause : ∀ ms, P (.pause ms)) (hpage : 0 < s.provider.listPageSize) (hw : w.Calm 0)
    (hids : (w.rail.transfers.map (·.id)).Nodup) (ht : t ∈ w.rail.transfers)
    (hlength : w.rail.transfers.length ≤ twoTo 64) :
    (Rules.alone K P).Yields
      (Action.retrying (policy s) (Provider.status s.provider t.id))
      (fun response w' => response = t.response (t.direction .stablecoinToFiat) ∧ w'.Calm 0 ∧
        Unmoved w w') F w := by
  refine Rules.retrying_calm hask hw.not_aborted ?_
  exact search_calm hlist hpause hpage hw hids ht (by simpa using ht) (by rwa [Nat.zero_add])

end Crossing

end Causeway
