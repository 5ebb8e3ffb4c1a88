import Causeway.Deposit.Basic
import Causeway.Table

/-!
# The deposit store

Deposits are kept by id, with an index of their references and one of their transfers. A reference
belongs to one deposit for good, and a change is accepted only while the stored status is the
expected one.
-/

namespace Causeway.Store

structure Deposits where
  byId : Table Uuid Deposit := .empty
  byReference : Table String Uuid := .empty
  byTransfer : Table String Uuid := .empty
deriving DecidableEq

namespace Deposits

def get? (s : Deposits) (id : Uuid) : Option Deposit := s.byId.get? id

def getByTransfer? (s : Deposits) (transfer : String) : Option Deposit :=
  (s.byTransfer.get? transfer).bind s.byId.get?

def linked (s : Deposits) (d : Deposit) : Table String Uuid :=
  match d.transfer with
  | some transfer => s.byTransfer.insert transfer d.id
  | none => s.byTransfer

def create (s : Deposits) (d : Deposit) : Except Failure Deposits :=
  if s.byReference.contains d.reference then .error (.duplicateReference d.reference)
  else if s.byId.contains d.id then .error (.storage (.depositExists d.id))
  else .ok ⟨s.byId.insert d.id d, s.byReference.insert d.reference d.id, s.linked d⟩

/-- The owner of the deposit's transfer, if it is another deposit. -/
def otherOwner? (s : Deposits) (d : Deposit) : Option (String × Uuid) := do
  let transfer ← d.transfer
  let owner ← s.byTransfer.get? transfer
  if owner = d.id then none else some (transfer, owner)

def update (s : Deposits) (d : Deposit) (expected : Deposit.Status) : Except Failure Deposits :=
  match s.byId.get? d.id with
  | none => .error (.notFound .deposit d.id.toText)
  | some stored =>
    if stored.status ≠ expected then .error (.stale d.id.toText)
    else if stored.reference ≠ d.reference then .error (.storage (.referenceChanged d.id))
    else match s.otherOwner? d with
      | some (transfer, owner) => .error (.storage (.transferTaken transfer owner))
      | none => .ok { s with byId := s.byId.insert d.id d, byTransfer := s.linked d }

/-- Puts a deposit before the first that was not created earlier. -/
def insertByCreation (d : Deposit) : List Deposit → List Deposit
  | [] => [d]
  | e :: es => if d.createdAt ≤ e.createdAt then d :: e :: es else e :: insertByCreation d es

/-- By creation, earlier first; deposits created at once stay in the order of their storing. -/
def byCreation : List Deposit → List Deposit
  | [] => []
  | d :: ds => insertByCreation d (byCreation ds)

def ofUser (s : Deposits) (user : Uuid) : List Deposit :=
  byCreation (s.byId.values.filter (·.user = user))

def withStatus (s : Deposits) (status : Deposit.Status) : List Deposit :=
  byCreation (s.byId.values.filter (·.status = status))

end Deposits

end Causeway.Store
