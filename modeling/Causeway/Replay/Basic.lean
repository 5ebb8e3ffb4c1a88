import Causeway.Crossing.Sweep
import Causeway.Json.Writer
import Causeway.Quota.Gate
import Causeway.Replay.Instruction
import Causeway.Replay.Report
import Causeway.Webhook.Delivery
import Causeway.World.Run

/-!
# Replays

A replay carries out instructions one after another: it registers the user and the account, checks
the limits, starts the deposit, settles its transfer as told and delivers the rail's webhook. A last
sweep takes up what was left.
-/

namespace Causeway.Replay

/-- Work on a world that a failure or an overflow can end. -/
abbrev Play := ExceptT Failure (ExceptT Overflow (StateM World))

def act {α : Type} (f : World → World.Outcome (Except Failure α)) : Play α :=
  ExceptT.mk (ExceptT.mk f)

def play {α : Type} (t : Action α) : Play α := act (World.run t.run)

def register (row : Instruction) : Play Unit := do
  modify (·.addUser ⟨row.user, row.status⟩)
  if ((← get).accountByRail? row.railAccount).isNone then
    let id ← modifyGet World.freshId
    let now ← modifyGet World.readClock
    modify (·.addAccount ⟨id, row.user, row.railAccount, row.brokerageAccount, now⟩)

/-- Settles a transfer on the rail; gives the type of the event that tells of it. -/
def settle (transfer : String) : Settlement → Play (Option (String × Rail.Transfer))
  | .pending => pure none
  | .completed => do
    pure (some ("transfer.completed", ← act (·.completeTransfer transfer)))
  | .failed => do
    pure (some ("transfer.failed", ← act (·.setTransferState transfer .failed)))

/-- The body of the webhook that tells of a transfer. -/
def webhookBody (type : String) (t : Rail.Transfer) (now : Instant) : Bytes :=
  let e : Webhook.TransferEvent :=
    { id := t.id
      status := some t.state.name
      sourceAmount := t.source.amount
      destinationAmount := t.destination.amount
      rate := t.rate }
  let envelope : Webhook.Envelope := ⟨type, some now.toText, e.toJson⟩
  Text.toBytes envelope.toJson.render

def carryOut (s : Settings) (row : Instruction) : Play Unit := do
  register row
  let _ ← play (Quota.validate .deposit row.user row.amount.value)
  let d ← play (Crossing.initiate s row.user row.railAccount row.amount row.reference)
  match d.transfer with
  | none => pure ()
  | some transfer =>
    match ← settle transfer row.settlement with
    | none => pure ()
    | some (type, t) =>
      let now ← modifyGet World.readClock
      let body := webhookBody type t now
      let _ ← play (Webhook.deliver s body (Webhook.sign s.webhookSecret body))

/-! ## Warnings -/

inductive Warning where
  | notPersistent
  | rejected (reference : String) (failure : Failure)
  | failed (reference : String) (failure : Failure)
  | unreadable

def Warning.message : Warning → String
  | .notPersistent =>
    "persistent storage requested via --db-path, but the 'storage-rocksdb' feature is not enabled; "
      ++ "falling back to in-memory storage"
  | .rejected reference failure =>
    "instruction rejected reference=" ++ reference ++ " error=" ++ failure.message
  | .failed reference failure =>
    "error processing instruction reference=" ++ reference ++ " error=" ++ failure.message
  | .unreadable => "error reading instruction"

/-- The message up to its first line break, as a log that is read line by line keeps it. -/
def Warning.headline (w : Warning) : String :=
  let line := w.message.toList.takeWhile (· ≠ '\n')
  String.ofList
    (if line.length < w.message.length ∧ line.getLast? = some '\r' then line.dropLast else line)

/-- Limits and references that are taken are grounds to reject; all else went wrong. -/
def Warning.ofFailure (reference : String) : Failure → Warning
  | .overLimit d => .rejected reference (.overLimit d)
  | .duplicateReference r => .rejected reference (.duplicateReference r)
  | e => .failed reference e

/-! ## Whole replays -/

structure State where
  world : World
  /-- In the order of their first rows. -/
  users : List Uuid := []
  /-- Latest first. -/
  warnings : List Warning := []

/-- Takes one row up; an overflow ends the replay. -/
def step (s : Settings) (st : State) (row : Except Instruction.RowFault Instruction) :
    Except (Overflow × State) State :=
  match row with
  | .error _ => .ok { st with warnings := .unreadable :: st.warnings }
  | .ok row =>
    let users := if row.user ∈ st.users then st.users else st.users ++ [row.user]
    match (carryOut s row).run.run.run st.world with
    | (.ok (.ok ()), world) => .ok { st with world, users }
    | (.ok (.error e), world) =>
      .ok { st with world, users, warnings := Warning.ofFailure row.reference e :: st.warnings }
    | (.error o, world) => .error (o, { st with world, users })

/-- The deposits of the users seen, in the order of their creation. -/
def State.deposits (st : State) : List Deposit :=
  Store.Deposits.byCreation (st.users.flatMap st.world.deposits.ofUser)

inductive Ending where
  | report (text : String)
  | failed (e : Failure)
  | overflow (o : Overflow)

def run (s : Settings) (rows : List (Except Instruction.RowFault Instruction)) (w : World) :
    Ending × State :=
  match rows.foldlM (step s) { world := w } with
  | .error (o, st) => (.overflow o, st)
  | .ok st =>
    let (now, world) := st.world.readClock
    match World.run (Crossing.sweep s now).run world with
    | (.ok (.ok _), world) =>
      let st := { st with world }
      (.report (Report.render st.deposits), st)
    | (.ok (.error e), world) => (.failed e, { st with world })
    | (.error o, world) => (.overflow o, { st with world })

end Causeway.Replay
