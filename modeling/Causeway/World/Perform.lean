import Causeway.Program.Basic
import Causeway.World.Basic

/-!
# Answering requests

`World.perform` answers one request in one indivisible step. Where the script has a fault for the
call, the fault is the answer and the store is not reached.
-/

namespace Causeway.World

/-- What a request gives: its answer, unless it overflowed, and the world after it. -/
abbrev Outcome (α : Type) := Except Overflow α × World

/-- Acts unless the script has a fault for the call. -/
def guarded {α : Type} (w : World) (call : StoreCall)
    (act : World → Outcome (Except Failure α)) : Outcome (Except Failure α) :=
  match w.script.fault? call with
  | some (e, script) => (.ok (.error e), { w with script })
  | none => act w

/-- Looks something up unless the script has a fault for the call. -/
def look {α : Type} (w : World) (call : StoreCall) (answer : World → α) :
    Outcome (Except Failure α) :=
  w.guarded call fun w => (.ok (.ok (answer w)), w)

/-! ## Deposits -/

/-- What another writer does to bring a deposit to a stage. -/
def raceEvent : Deposit.Status → Deposit.Event
  | .railInitiated => .railInitiated "race-tx"
  | .railCompleted => .railCompleted none
  | .brokerFunded => .brokerFunded "race-fund"
  | .failed => .failed "race"
  | .created => .failed "race"

/-- One move of another writer; a move that is not allowed is skipped. -/
def raceStep (id : Uuid) (now : Instant) (s : Store.Deposits) (status : Deposit.Status) :
    Except Failure Store.Deposits :=
  match s.get? id with
  | none => .ok s
  | some d =>
    match d.apply (raceEvent status) now with
    | .error _ => .ok s
    | .ok d' => s.update d' d.status

/-- The moves of another writer, up to the first that the store refuses. -/
def raceSteps (id : Uuid) (now : Instant) :
    List Deposit.Status → Store.Deposits → Except Failure Unit × Store.Deposits
  | [], s => (.ok (), s)
  | status :: rest, s =>
    match raceStep id now s status with
    | .ok s => raceSteps id now rest s
    | .error e => (.error e, s)

/-- Lets another writer go first, if the script has one. -/
def race (w : World) (id : Uuid) : Except Failure Unit × World :=
  match w.script.race with
  | none => (.ok (), w)
  | some stages =>
    let (now, w) := w.readClock
    let (r, deposits) := raceSteps id now stages w.deposits
    (r, { w with deposits, script := { w.script with race := none } })

def createDeposit (w : World) (d : Deposit) : Outcome (Except Failure Unit) :=
  match w.deposits.create d with
  | .ok deposits => (.ok (.ok ()), { w with deposits })
  | .error e => (.ok (.error e), w)

def updateDeposit (w : World) (d : Deposit) (expected : Deposit.Status) :
    Outcome (Except Failure Unit) :=
  match w.deposits.update d expected with
  | .ok deposits => (.ok (.ok ()), { w with deposits })
  | .error e => (.ok (.error e), w)

/-- An update with the faults and the race that the script holds for it. Where the other writer is
refused, so is the update. -/
def contestedUpdate (w : World) (d : Deposit) (expected : Deposit.Status) :
    Outcome (Except Failure Unit) :=
  w.guarded .depositsUpdate fun w =>
    match w.script.updateFault? d.status with
    | some (e, script) => (.ok (.error e), { w with script })
    | none =>
      match w.race d.id with
      | (.ok (), w) => w.updateDeposit d expected
      | (.error e, w) => (.ok (.error e), w)

/-! ## Usage -/

def changeUsage {α : Type} (w : World) (change : Store.Usages → Instant → Store.Usages.Changed α) :
    Outcome (Except Failure α) :=
  let (now, w) := w.readClock
  let (r, usages) := change w.usages now
  (r, { w with usages })

def readUsage (w : World) (read : Store.Usages → Instant → Quota.Usage × Store.Usages) :
    Quota.Usage × World :=
  let (now, w) := w.readClock
  let (u, usages) := read w.usages now
  (u, { w with usages })

/-! ## The rail and the brokerage -/

def send (w : World) (o : Outbound) : World := { w with outbound := o :: w.outbound }

/-- Adds the delay of a successful call to its answer. -/
def delayed {ε α : Type} (w : World) (call : OutboundCall) (r : Except ε α) :
    Outcome (Reply (Except ε α)) :=
  match r with
  | .ok _ =>
    let (ms, script) := w.script.delay call
    (.ok ⟨r, ms⟩, { w with script })
  | .error _ => (.ok ⟨r, 0⟩, w)

/-- An identifier is drawn only for a transfer that is made. -/
def createTransfer (w : World) (o : Rail.Order) :
    Outcome (Reply (Except Rail.ApiError Rail.Transfer)) :=
  let w := w.send (.create o)
  let (id, drawn) := w.freshId
  match w.rail.create o id with
  | (.ok (t, true), rail) => { drawn with rail }.delayed .railCreate (.ok t)
  | (.ok (t, false), rail) => { w with rail }.delayed .railCreate (.ok t)
  | (.error e, rail) => { w with rail }.delayed .railCreate (.error e)

def listTransfers (w : World) (limit offset : Nat) :
    Outcome (Reply (Except Rail.ApiError (List Rail.Transfer))) :=
  let w := w.send (.list limit offset)
  let (r, rail) := w.rail.list limit offset
  { w with rail }.delayed .railList r

/-- An identifier is drawn only for a funding that moves money. -/
def fundAccount (w : World) (key account : String) (amount : Decimal) :
    Outcome (Reply (Except Failure String)) :=
  let w := w.send (.fund key account amount)
  let (id, drawn) := w.freshId
  match w.brokerage.fund key account amount id with
  | (.ok (reference, true), brokerage) =>
    { drawn with brokerage }.delayed .brokerageFund (.ok reference)
  | (.ok (reference, false), brokerage) =>
    { w with brokerage }.delayed .brokerageFund (.ok reference)
  | (.error e, brokerage) => { w with brokerage }.delayed .brokerageFund (.error e)

/-! ## Settlement on the rail -/

def completeTransfer (w : World) (id : String) : Outcome (Except Failure Rail.Transfer) :=
  match w.rail.complete? id with
  | none => (.ok (.error (.notFound .providerTransaction id)), w)
  | some (r, rail) => (r.map .ok, { w with rail })

def setTransferState (w : World) (id : String) (state : Rail.State) :
    Outcome (Except Failure Rail.Transfer) :=
  match w.rail.setState? id state with
  | none => (.ok (.error (.notFound .providerTransaction id)), w)
  | some (t, rail) => (.ok (.ok t), { w with rail })

/-! ## Requests -/

def perform : (r : Request) → World → Outcome r.Answer
  | .now, w => let (t, w) := w.readClock; (.ok t, w)
  | .freshId, w => let (id, w) := w.freshId; (.ok id, w)
  | .createDeposit d, w => w.guarded .depositsCreate (·.createDeposit d)
  | .updateDeposit d expected, w => w.contestedUpdate d expected
  | .depositById id, w => w.look .depositsById (·.deposits.get? id)
  | .depositByTransfer t, w => w.look .depositsByTransfer (·.deposits.getByTransfer? t)
  | .depositsIn status, w => w.look (.depositsIn status) (·.deposits.withStatus status)
  | .accountByRail a, w => w.look .accountsByRail (·.accountByRail? a)
  | .accountById id, w => w.look .accountsById (·.accounts.get? id)
  | .userById id, w => (.ok (w.users.get? id), w)
  | .incrementUsage user flow amount, w =>
    w.guarded .usageIncrement (·.changeUsage fun s now => s.increment user flow amount now)
  | .applyUsage user deposit amount, w =>
    w.guarded .usageApply (·.changeUsage fun s now => s.apply user deposit amount now)
  | .resetUsage user, w =>
    w.guarded .usageReset fun w =>
      let (u, w) := w.readUsage fun s now => s.reset user now
      (.ok (.ok u), w)
  | .createTransfer o, w => w.createTransfer o
  | .listTransfers limit offset, w => w.listTransfers limit offset
  | .fundAccount key account amount, w => w.fundAccount key account amount
  | .claim id, w =>
    if id ∈ w.claims then (.ok false, w) else (.ok true, { w with claims := id :: w.claims })
  | .release id, w => (.ok (), { w with claims := w.claims.erase id })
  | .isAborted, w => (.ok w.timer.aborted, w)
  | .isCancelled, w => (.ok w.timer.cancelled, w)
  | .pause ms, w => let (elapsed, timer) := w.timer.pause ms; (.ok elapsed, { w with timer })

end Causeway.World
