import Causeway.Rail.Transfer
import Causeway.Uuid

/-!
# A rail in memory

The sandbox keeps transfers in the order of their making. One reference makes one transfer: asked
again, the sandbox answers with the first. Failures wait in a queue, and each is spent on one call.
-/

namespace Causeway.Rail

structure Sandbox where
  /-- Oldest first. -/
  transfers : List Transfer := []
  feeRate : Decimal := .zero
  createFailures : List ApiError := []
  listFailures : List ApiError := []
  createCalls : Nat := 0
  listCalls : Nat := 0
deriving DecidableEq

namespace Sandbox

def find? (s : Sandbox) (id : String) : Option Transfer := s.transfers.find? (·.id = id)

def findReference? (s : Sandbox) (reference : String) : Option Transfer :=
  s.transfers.find? (·.reference = reference)

def idOf (fresh : Uuid) : String := "tr_" ++ fresh.toCompact

/-- The transfer that an order makes, still waiting for its payment. -/
def opened (o : Order) (fresh : Uuid) : Transfer :=
  { id := idOf fresh
    state := .pending
    source := ⟨some o.amount, o.currency, none⟩
    destination := ⟨none, o.destinationCurrency, none⟩
    rate := none
    reference := o.reference }

/-- Answers an order, and says whether it made a transfer. -/
def create (s : Sandbox) (o : Order) (fresh : Uuid) : Except ApiError (Transfer × Bool) × Sandbox :=
  let s := { s with createCalls := s.createCalls + 1 }
  match s.createFailures with
  | e :: es => (.error e, { s with createFailures := es })
  | [] =>
    if o.amount ≤ .zero then (.error (.http 422 "amount must be positive"), s)
    else match s.findReference? o.reference with
      | some t => (.ok (t, false), s)
      | none =>
        let t := opened o fresh
        (.ok (t, true), { s with transfers := s.transfers ++ [t] })

/-- The newest transfers first, without the first `offset` of them. -/
def page (s : Sandbox) (limit offset : Nat) : List Transfer :=
  (s.transfers.reverse.drop offset).take limit

def list (s : Sandbox) (limit offset : Nat) : Except ApiError (List Transfer) × Sandbox :=
  let s := { s with listCalls := s.listCalls + 1 }
  match s.listFailures with
  | e :: es => (.error e, { s with listFailures := es })
  | [] => (.ok (s.page limit offset), s)

/-! ## Settlement -/

def replaceFirst (id : String) (t' : Transfer) : List Transfer → List Transfer
  | [] => []
  | t :: ts => if t.id = id then t' :: ts else t :: replaceFirst id t' ts

/-- The transfer once its payment has arrived: the destination receives what the fee leaves. -/
def settled (feeRate : Decimal) (t : Transfer) : Except Overflow Transfer := do
  let amount := t.source.amount.getD .zero
  let fee ← amount.mul feeRate
  let received ← amount.sub fee
  pure
    { t with
      state := .completed
      source := { t.source with fee := some fee }
      destination := { t.destination with amount := some received }
      rate := some .one }

/-- The transfer left by a settlement that overflows: whatever came before the overflow stays. -/
def interrupted (feeRate : Decimal) (t : Transfer) : Transfer :=
  match (t.source.amount.getD .zero).mul feeRate with
  | .error _ => t
  | .ok fee => { t with state := .completed, source := { t.source with fee := some fee } }

def complete? (s : Sandbox) (id : String) : Option (Except Overflow Transfer × Sandbox) :=
  (s.find? id).map fun t =>
    match settled s.feeRate t with
    | .ok t' => (.ok t', { s with transfers := replaceFirst id t' s.transfers })
    | .error o =>
      (.error o, { s with transfers := replaceFirst id (interrupted s.feeRate t) s.transfers })

def setState? (s : Sandbox) (id : String) (state : State) : Option (Transfer × Sandbox) :=
  (s.find? id).map fun t =>
    let t' := { t with state }
    (t', { s with transfers := replaceFirst id t' s.transfers })

end Sandbox

end Causeway.Rail
