import Causeway.Proofs.Retry.Attempts
import Causeway.Proofs.World.Calm

/-!
# Worlds without scripts

In a plain world nothing is scripted, no failure waits and no abort is due, so what a request does
can be told in full. Every first attempt is the last one (`Plain.retrying_ok`,
`Plain.retrying_error`).
-/

namespace Causeway

/-- A funding under a new key that nothing stands in the way of moves money. -/
theorem Brokerage.Sandbox.fund_of_open {s : Sandbox} (h : s.failures = []) {key account : String}
    {amount : Decimal} (hnew : s.byKey.get? key = none) (ha : ¬ amount ≤ .zero) (fresh : Uuid) :
    s.fund key account amount fresh = (.ok (referenceOf fresh, true),
      { s with
        calls := s.calls + 1
        fundings := s.fundings ++ [⟨referenceOf fresh, account, amount⟩]
        byKey := s.byKey.insert key (referenceOf fresh) }) := by
  unfold fund
  dsimp only
  split
  · rename_i hfailures
    rw [h] at hfailures
    cases hfailures
  · rw [hnew]
    exact if_neg ha

namespace World

variable {w w' : World} {α β ε : Type}

structure Plain (w : World) : Prop where
  script : w.script = {}
  creates : w.rail.createFailures = []
  lists : w.rail.listFailures = []
  fundings : w.brokerage.failures = []
  unaborted : w.timer.aborted = false

theorem Plain.calm (h : w.Plain) : w.Calm 0 where
  faultless := by rw [h.script]; exact ⟨rfl, rfl⟩
  creates := h.creates
  lists := h.lists
  fundings := h.fundings
  clear := by
    rw [h.script]
    exact Retry.Timer.aborted_eq_false_iff.mp h.unaborted

theorem Plain.congr (h : w.Plain) (hscript : w'.script = w.script)
    (hcreates : w'.rail.createFailures = w.rail.createFailures)
    (hlists : w'.rail.listFailures = w.rail.listFailures)
    (hfundings : w'.brokerage.failures = w.brokerage.failures) (htimer : w'.timer = w.timer) :
    w'.Plain where
  script := hscript.trans h.script
  creates := hcreates.trans h.creates
  lists := hlists.trans h.lists
  fundings := hfundings.trans h.fundings
  unaborted := by rw [htimer]; exact h.unaborted

/-! ## Requests -/

theorem run_ask (w : World) {r : Request} {x : Outcome r.Answer} (h : w.perform r = x) :
    w.run (Program.request r) = x := by
  rw [run_request, h]

theorem Plain.update (h : w.Plain) {d : Deposit} {expected : Deposit.Status}
    {deposits : Store.Deposits} (hu : w.deposits.update d expected = .ok deposits) :
    w.run (Program.request (.updateDeposit d expected)) = (.ok (.ok ()), { w with deposits }) := by
  rw [run_request]
  exact updateDeposit_of_faultless h.calm.faultless (by rw [h.script]) hu

theorem Plain.create (h : w.Plain) (d : Deposit) :
    w.run (Program.request (.createDeposit d)) = w.createDeposit d := by
  rw [run_request]
  exact createDeposit_of_faultless h.calm.faultless

/-- Nothing is late in a plain world. -/
theorem Plain.delayed (h : w.Plain) (call : OutboundCall) (r : Except ε α) :
    w.delayed call r = (.ok ⟨r, 0⟩, w) := by
  have hdelay : w.script.delay call = (0, w.script) := by
    rw [h.script]
    rfl
  cases r with
  | ok a =>
      simp only [World.delayed, hdelay]
  | error e => rfl

/-- The world once the rail has made a transfer. -/
def ordered (w : World) (o : Rail.Order) : World :=
  { w.send (.create o) with
    drawn := w.drawn + 1
    rail := { w.rail with
      createCalls := w.rail.createCalls + 1
      transfers := w.rail.transfers ++ [Rail.Sandbox.opened o (w.ids w.drawn)] } }

theorem Plain.order (h : w.Plain) {o : Rail.Order} (ha : ¬ o.amount ≤ .zero)
    (hnew : w.rail.findReference? o.reference = none) :
    w.run (Program.request (.createTransfer o)) =
      (.ok ⟨.ok (Rail.Sandbox.opened o (w.ids w.drawn)), 0⟩, w.ordered o) := by
  have hplain : (w.ordered o).Plain := h.congr rfl rfl rfl rfl rfl
  rw [run_request]
  simp only [perform, createTransfer, send, freshId, Rail.Sandbox.create_of_open h.creates ha, hnew]
  exact hplain.delayed .railCreate _

/-- The world once the rail has been asked for a page of its history. -/
def listed (w : World) (limit offset : Nat) : World :=
  { w.send (.list limit offset) with rail := { w.rail with listCalls := w.rail.listCalls + 1 } }

theorem Plain.list (h : w.Plain) (limit offset : Nat) :
    w.run (Program.request (.listTransfers limit offset)) =
      (.ok ⟨.ok (w.rail.page limit offset), 0⟩, w.listed limit offset) := by
  have hplain : (w.listed limit offset).Plain := h.congr rfl rfl rfl rfl rfl
  rw [run_request]
  simp only [perform, listTransfers, send, Rail.Sandbox.list_of_open h.lists]
  exact hplain.delayed .railList _

/-- The world once the brokerage has paid an amount in. -/
def paidIn (w : World) (key account : String) (amount : Decimal) : World :=
  let reference := Brokerage.Sandbox.referenceOf (w.ids w.drawn)
  { w.send (.fund key account amount) with
    drawn := w.drawn + 1
    brokerage := { w.brokerage with
      calls := w.brokerage.calls + 1
      fundings := w.brokerage.fundings ++ [⟨reference, account, amount⟩]
      byKey := w.brokerage.byKey.insert key reference } }

theorem Plain.fund (h : w.Plain) {key account : String} {amount : Decimal}
    (ha : ¬ amount ≤ .zero) (hnew : w.brokerage.byKey.get? key = none) :
    w.run (Program.request (.fundAccount key account amount)) =
      (.ok ⟨.ok (Brokerage.Sandbox.referenceOf (w.ids w.drawn)), 0⟩,
        w.paidIn key account amount) := by
  have hplain : (w.paidIn key account amount).Plain := h.congr rfl rfl rfl rfl rfl
  rw [run_request]
  simp only [perform, fundAccount, send, freshId,
    Brokerage.Sandbox.fund_of_open h.fundings hnew ha]
  exact hplain.delayed .brokerageFund _

/-! ## Attempts -/

theorem Plain.retrying_ok (h : w.Plain) {p : Retry.Policy} {a : Attempt α} {v : α}
    (ha : w.run a.run = (.ok (.ok v), w')) :
    w.run (Action.retrying p a).run = (.ok (.ok v), w') := by
  have hending : w.run ((fun _ => a.ending) 0) = (.ok (.value v), w') := run_bind_of ha
  exact Retry.run_attempts_of_value h.unaborted hending

theorem Plain.retrying_error (h : w.Plain) {p : Retry.Policy} {a : Attempt α} {f : Failure}
    (ha : w.run a.run = (.ok (.error (.failure f)), w')) (hf : f.isRetryable = false) :
    w.run (Action.retrying p a).run = (.ok (.error f), w') := by
  have hending : w.run ((fun _ => a.ending) 0) = (.ok (.error f), w') := run_bind_of ha
  exact Retry.run_attempts_of_final h.unaborted hending (.inl hf)

end World

end Causeway
