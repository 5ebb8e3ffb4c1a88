import Causeway.Account
import Causeway.Deposit.Basic

/-!
# Programs

A program does its work by requests to the stores, the rail, the brokerage, the clock and the timer,
and goes on with the answers. It holds no state of its own, so programs may take turns between any
two requests. An arithmetic overflow ends it on the spot.
-/

namespace Causeway

/-- An answer of the rail or the brokerage, and the milliseconds that still pass until it is in. -/
structure Reply (α : Type) where
  answer : α
  latency : Nat

inductive Request where
  | now
  | freshId
  | createDeposit (d : Deposit)
  | updateDeposit (d : Deposit) (expected : Deposit.Status)
  | depositById (id : Uuid)
  | depositByTransfer (transfer : String)
  | depositsIn (status : Deposit.Status)
  | accountByRail (railAccount : String)
  | accountById (id : Uuid)
  | userById (id : Uuid)
  | incrementUsage (user : Uuid) (flow : Quota.Flow) (amount : Decimal)
  | applyUsage (user deposit : Uuid) (amount : Decimal)
  | resetUsage (user : Uuid)
  | createTransfer (order : Rail.Order)
  | listTransfers (limit offset : Nat)
  | fundAccount (key account : String) (amount : Decimal)
  | claim (id : Uuid)
  | release (id : Uuid)
  | isAborted
  | isCancelled
  | pause (ms : Nat)

abbrev Request.Answer : Request → Type
  | now => Instant
  | freshId => Uuid
  | createDeposit _ => Except Failure Unit
  | updateDeposit _ _ => Except Failure Unit
  | depositById _ => Except Failure (Option Deposit)
  | depositByTransfer _ => Except Failure (Option Deposit)
  | depositsIn _ => Except Failure (List Deposit)
  | accountByRail _ => Except Failure (Option VirtualAccount)
  | accountById _ => Except Failure (Option VirtualAccount)
  | userById _ => Option User
  | incrementUsage _ _ _ => Except Failure Unit
  | applyUsage _ _ _ => Except Failure Bool
  | resetUsage _ => Except Failure Quota.Usage
  | createTransfer _ => Reply (Except Rail.ApiError Rail.Transfer)
  | listTransfers _ _ => Reply (Except Rail.ApiError (List Rail.Transfer))
  | fundAccount _ _ _ => Reply (Except Failure String)
  | claim _ => Bool
  | release _ => Unit
  | isAborted => Bool
  | isCancelled => Bool
  | pause _ => Bool

inductive Program (α : Type) where
  | done (a : α)
  | call (r : Request) (k : r.Answer → Program α)
  | crash (o : Overflow)

namespace Program

def bind {α β : Type} : Program α → (α → Program β) → Program β
  | done a, f => f a
  | call r k, f => call r fun a => bind (k a) f
  | crash o, _ => crash o

instance : Monad Program where
  pure := done
  bind := bind

theorem bind_done {α : Type} (p : Program α) : bind p done = p := by
  induction p with
  | done a => rfl
  | call r k ih => simp [bind, ih]
  | crash o => rfl

theorem bind_assoc {α β γ : Type} (p : Program α) (f : α → Program β) (g : β → Program γ) :
    bind (bind p f) g = bind p fun a => bind (f a) g := by
  induction p with
  | done a => rfl
  | call r k ih => simp [bind, ih]
  | crash o => rfl

def request (r : Request) : Program r.Answer := call r done

def ofOverflow {α : Type} : Except Overflow α → Program α
  | .ok a => done a
  | .error o => crash o

end Program

/-- A program that may fail. -/
abbrev Action := ExceptT Failure Program

namespace Action

/-- A request whose answer tells of failure. -/
def ask {α : Type} (p : Program (Except Failure α)) : Action α := ExceptT.mk p

def ofExcept {α : Type} (e : Except Failure α) : Action α := ExceptT.mk (pure e)

/-- The result of an action, failed or not. -/
def result {α : Type} (t : Action α) : Action (Except Failure α) := ExceptT.lift t.run

/-- An overflow is no failure: nothing takes it up. -/
def ofOverflow {α : Type} (e : Except Overflow α) : Action α := ExceptT.lift (Program.ofOverflow e)

def orNotFound {α : Type} (entity : Entity) (id : String) : Option α → Action α
  | some a => pure a
  | none => throw (.notFound entity id)

end Action

end Causeway
