import Causeway.Binary64.Text
import Causeway.Csv.Reader
import Causeway.Failure

/-!
# Deposit instructions

An instruction is a row of seven columns, which are found by their names wherever they stand. A row
that cannot be read is reported with its place, and the rows after it are read as if it were not
there.
-/

namespace Causeway

/-- How the rail settles the transfer of an instruction. -/
inductive Settlement where
  | completed
  | failed
  | pending
deriving DecidableEq

def Settlement.name : Settlement → String
  | .completed => "completed"
  | .failed => "failed"
  | .pending => "pending"

def Settlement.ofName? (s : String) : Option Settlement :=
  [("completed", .completed), ("failed", .failed), ("pending", .pending)].lookup s

structure Instruction where
  user : Uuid
  status : String
  railAccount : String
  brokerageAccount : String
  reference : String
  amount : Amount
  settlement : Settlement
deriving DecidableEq

namespace Instruction

def columns : List String :=
  ["user", "kyc_status", "rail_account", "brokerage_account", "reference", "amount", "outcome"]

/-! ## Amounts -/

open Text (readAll)

def digits (cs : List Char) : Nat × Nat × List Char :=
  match readAll cs with
  | some (n, rest) => (n, cs.length - rest.length, rest)
  | none => (0, 0, cs)

def signed : List Char → Bool × List Char
  | '-' :: cs => (true, cs)
  | '+' :: cs => (false, cs)
  | cs => (false, cs)

/-- The exponent at the end of a number. -/
def exponent? : List Char → Option Int
  | [] => some 0
  | c :: cs =>
    if c = 'e' ∨ c = 'E' then
      let (negative, cs) := signed cs
      match readAll cs with
      | some (n, []) => some (if negative then -n else n)
      | _ => none
    else none

/-- A number with a point or an exponent, which stands for the nearest double, or for an infinite
one. -/
structure Real where
  negative : Bool
  magnitude : Option Binary64.Magnitude

def real? (cs : List Char) : Option Real := do
  let (negative, cs) := signed cs
  let (whole, wholeCount, cs) := digits cs
  let (fraction, places, cs) := match cs with
    | '.' :: cs => digits cs
    | cs => (0, 0, cs)
  let e ← exponent? cs
  if wholeCount + places = 0 then none
  else some ⟨negative, Binary64.nearest? (whole * tenTo places + fraction) (e - places)⟩

/-- The decimal that the double is written as. -/
def Real.decimal? (x : Real) : Option Decimal := do
  Decimal.ofPlain? ((← x.magnitude).positional x.negative)

def whole? (cs : List Char) : Option Int :=
  let (negative, ds) := signed cs
  match readAll ds with
  | some (n, []) => some (if negative then -n else n)
  | _ => none

/-- A cell is taken for a whole number of 64 bits if it is one, else for a double, and only else for
the text of a decimal. Whole numbers of more bits are refused up to 128. -/
def amount? (cell : String) : Option Decimal :=
  let cs := cell.toList
  match whole? cs with
  | some n =>
    if -twoTo 63 ≤ n ∧ n < twoTo 64 then Decimal.ofInt? n
    else if -twoTo 127 ≤ n ∧ n < twoTo 128 then none
    else (real? cs).bind Real.decimal?
  | none =>
    if cell = "true" ∨ cell = "false" then none
    else match real? cs with
      | some x => x.decimal?
      | none => Decimal.ofText? cell

/-! ## Rows -/

inductive Fault where
  | notText
  | wrongLength
  | unreadable
deriving DecidableEq

structure RowFault where
  fault : Fault
  index : Nat
  line : Nat
deriving DecidableEq

/-- The column of a name: there has to be exactly one. -/
def cell? (header : List String) (cells : List String) (name : String) : Option String :=
  match (header.zip cells).filter (·.1 = name) with
  | [(_, cell)] => some cell
  | _ => none

def ofCells? (header : List String) (cells : List String) : Option Instruction := do
  let cell := cell? header cells
  pure
    { user := ← Uuid.ofText? (← cell "user")
      status := ← cell "kyc_status"
      railAccount := ← cell "rail_account"
      brokerageAccount := ← cell "brokerage_account"
      reference := ← cell "reference"
      amount := ← Amount.ofDecimal? (← amount? (← cell "amount"))
      settlement := ← Settlement.ofName? (← cell "outcome") }

def texts? (r : Csv.Record) : Option (List String) :=
  r.fields.mapM fun f => (Text.ofBytes? f).map Text.trim

/-- Reads a row below a header of `width` fields. -/
def ofRecord (header : List String) (width : Nat) (r : Csv.Record) : Except RowFault Instruction :=
  let refuse := fun fault => .error ⟨fault, r.index, r.line⟩
  if r.fields.length ≠ width then refuse .wrongLength
  else match texts? r with
    | none => refuse .notText
    | some cells =>
      match ofCells? header cells with
      | some i => .ok i
      | none => refuse .unreadable

/-- Reads all rows. Under a header that is no text the columns are taken to stand in their order. -/
def ofCsv (bs : Bytes) : List (Except RowFault Instruction) :=
  match Csv.records bs with
  | [] => []
  | h :: rs => rs.map (ofRecord ((texts? h).getD columns) h.fields.length)

end Instruction

end Causeway
