import Causeway.Json.Value

/-!
# Taking JSON trees apart

The readings here take from a tree what a type needs and fail on anything else. A record may stand
as an object, whose unknown members are skipped but whose known ones may not be repeated, or as an
array of its members in their order.
-/

namespace Causeway.Json.Tree

def text? : Tree → Option String
  | .string s => s
  | _ => none

def bool? : Tree → Option Bool
  | .bool b => some b
  | _ => none

def natBelow? (bound : Nat) : Tree → Option Nat
  | .number (some (.whole n)) => if 0 ≤ n ∧ n < bound then some n.toNat else none
  | _ => none

def real? : Tree → Option Float
  | .number (some (.real x)) => some x
  | .number (some (.whole n)) =>
    let x := Binary64.ofWhole n.natAbs
    some (if n < 0 then -x else x)
  | _ => none

def nullable? {α : Type} (read : Tree → Option α) : Tree → Option (Option α)
  | .null => some none
  | t => (read t).map some

/-- A name stands alone or as the only member of an object, with null. -/
def name? : Tree → Option String
  | .string s => s
  | .object [(k, .null)] => k
  | _ => none

def choice? {α : Type} (choices : List (String × α)) (t : Tree) : Option α := do
  choices.lookup (← t.name?)

/-! ## Records -/

/-- What a record has for one of its members: a tree, nothing, or less than that when the record
is an array that ends before. -/
inductive Slot where
  | given (t : Tree)
  | absent
  | beyond

/-- Looks a member up among those named. -/
def members? (names : List String) : Tree → Option (String → Slot)
  | .array ts =>
    if ts.length ≤ names.length then
      some fun name => match ts[names.idxOf name]? with
        | some t => .given t
        | none => .beyond
    else none
  | .object ms =>
    if ms.all (·.1.isSome) && names.all (fun name => ms.countP (·.1 == some name) ≤ 1) then
      some fun name => match ms.lookup (some name) with
        | some t => .given t
        | none => .absent
    else none
  | _ => none

namespace Slot

def required {α : Type} (read : Tree → Option α) : Slot → Option α
  | .given t => read t
  | _ => none

/-- A member that may be null or absent. -/
def optional {α : Type} (read : Tree → Option α) : Slot → Option (Option α)
  | .given t => nullable? read t
  | .absent => some none
  | .beyond => none

def orElse {α : Type} (default : α) (read : Tree → Option α) : Slot → Option α
  | .given t => read t
  | _ => some default

end Slot

end Causeway.Json.Tree
