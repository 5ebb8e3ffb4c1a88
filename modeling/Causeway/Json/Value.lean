import Causeway.Json.Number

/-!
# JSON values and trees

`Json` is a value to be written or kept. `Json.Tree` is what a JSON text says before it is known
which of its parts matter: a string that is no text and a number out of range are kept as holes, and
an object keeps every member it writes.
-/

namespace Causeway

inductive Json where
  | null
  | bool (b : Bool)
  | number (n : Number)
  | string (s : String)
  | array (elements : List Json)
  | object (members : List (String × Json))

namespace Json

instance : Inhabited Json := ⟨.null⟩

inductive Tree where
  | null
  | bool (b : Bool)
  | number (n : Option Number)
  | string (s : Option String)
  | array (elements : List Tree)
  | object (members : List (Option String × Tree))

instance : Inhabited Tree := ⟨.null⟩

def nat (n : Nat) : Json := .number (.whole n)

def ofOption {α : Type} (f : α → Json) : Option α → Json
  | none => .null
  | some a => f a

/-! ## Values as trees -/

mutual

def toTree : Json → Tree
  | .null => .null
  | .bool b => .bool b
  | .number n => .number (some n)
  | .string s => .string (some s)
  | .array js => .array (listToTree js)
  | .object ms => .object (membersToTree ms)

def listToTree : List Json → List Tree
  | [] => []
  | j :: js => toTree j :: listToTree js

def membersToTree : List (String × Json) → List (Option String × Tree)
  | [] => []
  | (k, j) :: ms => (some k, toTree j) :: membersToTree ms

end

/-! ## Trees as values -/

/-- Puts a member at the end; an earlier one of the same name goes. -/
def putMember (k : String) (j : Json) (ms : List (String × Json)) : List (String × Json) :=
  ms.filter (fun m => m.1 ≠ k) ++ [(k, j)]

/-- The value of a tree without holes that nests at most `room` deep. Of members of one name the
last one counts. -/
def Tree.value? : (room : Nat) → Tree → Option Json
  | _, .null => some .null
  | _, .bool b => some (.bool b)
  | _, .number n => n.map .number
  | _, .string s => s.map .string
  | 0, .array _ => none
  | room + 1, .array ts => (ts.mapM (value? room)).map .array
  | 0, .object _ => none
  | room + 1, .object ms => do
    let ms ← ms.mapM fun m => do pure (← m.1, ← value? room m.2)
    pure (.object (ms.foldl (fun acc m => putMember m.1 m.2 acc) []))

end Json

end Causeway
