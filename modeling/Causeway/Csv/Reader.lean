import Causeway.Text.Bytes

/-!
# Reading CSV

Records end at a line feed or a carriage return, and empty lines are skipped. A field that starts
with a quote may hold commas, line ends and doubled quotes; what stands behind its closing quote is
added to it as it is.
-/

namespace Causeway.Csv

/-- A record with its number, counted from zero, and the line at which the reading of it began. -/
structure Record where
  fields : List Bytes
  index : Nat
  line : Nat
deriving DecidableEq

inductive Mode where
  | betweenRecords
  | fieldStart
  | plain
  | quoted
  | afterQuote
deriving DecidableEq

/-- The state of a reading; fields and bytes are kept latest first. -/
structure Scan where
  mode : Mode := .betweenRecords
  field : Bytes := []
  fields : List Bytes := []
  index : Nat := 0
  start : Nat := 1
  line : Nat := 1
deriving DecidableEq

def isLineEnd (b : UInt8) : Bool := b == 0x0A || b == 0x0D

namespace Scan

def endField (s : Scan) : Scan :=
  { s with mode := .fieldStart, field := [], fields := s.field.reverse :: s.fields }

def record (s : Scan) : Record := ⟨(s.endField.fields).reverse, s.index, s.start⟩

def nextRecord (s : Scan) : Scan :=
  { mode := .betweenRecords, field := [], fields := [], index := s.index + 1, start := s.line
    line := s.line }

/-- Reads one byte of a field that is not quoted, and the record if the byte ends it. -/
def stepPlain (s : Scan) (b : UInt8) : Scan × Option Record :=
  if b = 0x2C then (s.endField, none)
  else if isLineEnd b then (s.nextRecord, some s.record)
  else ({ s with mode := .plain, field := b :: s.field }, none)

def stepStart (s : Scan) (b : UInt8) : Scan × Option Record :=
  if b = 0x22 then ({ s with mode := .quoted }, none) else s.stepPlain b

def step (s : Scan) (b : UInt8) : Scan × Option Record :=
  let s := if b = 0x0A then { s with line := s.line + 1 } else s
  match s.mode with
  | .betweenRecords => if isLineEnd b then (s, none) else s.stepStart b
  | .fieldStart => s.stepStart b
  | .plain => s.stepPlain b
  | .quoted =>
    if b = 0x22 then ({ s with mode := .afterQuote }, none)
    else ({ s with field := b :: s.field }, none)
  | .afterQuote =>
    if b = 0x22 then ({ s with mode := .quoted, field := b :: s.field }, none) else s.stepPlain b

/-- The records that follow, the last one ended by the end of the bytes if need be. -/
def records (s : Scan) : Bytes → List Record
  | [] => if s.mode = .betweenRecords then [] else [s.record]
  | b :: bs =>
    match s.step b with
    | (s, some r) => r :: s.records bs
    | (s, none) => s.records bs

end Scan

/-- A mark of the byte order at the start is no part of the first field. -/
def skipMark : Bytes → Bytes
  | 0xEF :: 0xBB :: 0xBF :: bs => bs
  | bs => bs

def records (bs : Bytes) : List Record := ({} : Scan).records (skipMark bs)

end Causeway.Csv
