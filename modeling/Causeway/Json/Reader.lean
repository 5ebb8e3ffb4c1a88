import Causeway.Json.Value
import Causeway.Text.Bytes
import Causeway.Text.Hex

/-!
# Reading JSON

`Json.Tree.ofBytes?` reads one JSON text, blanks around it allowed. It judges the grammar alone:
a string of bytes that are no text, an escaped half of a surrogate pair and a number out of range
stay in the tree as holes.
-/

namespace Causeway.Json

/-! ## Blanks and digits -/

def isBlank (b : UInt8) : Bool := b == 0x20 || b == 0x0A || b == 0x0D || b == 0x09

def skipBlanks : Bytes → Bytes
  | [] => []
  | b :: bs => if isBlank b then skipBlanks bs else b :: bs

def digit? (b : UInt8) : Option Nat :=
  if 0x30 ≤ b ∧ b ≤ 0x39 then some (b.toNat - 0x30) else none

/-- The digits that `bs` starts with, in front of those in `acc` and in reading order. -/
def takeDigits (acc : List Nat) : Bytes → List Nat × Bytes
  | [] => (acc.reverse, [])
  | b :: bs =>
    match digit? b with
    | some d => takeDigits (d :: acc) bs
    | none => (acc.reverse, b :: bs)

/-- Digits of which there has to be one. -/
def someDigits (bs : Bytes) : Option (List Nat × Bytes) :=
  match takeDigits [] bs with
  | ([], _) => none
  | r => some r

/-! ## Numbers -/

def readFraction : Bytes → Option (List Nat × Bytes)
  | 0x2E :: bs => someDigits bs
  | bs => some ([], bs)

def readExponent : Bytes → Option (Option (Bool × List Nat) × Bytes)
  | b :: bs =>
    if b = 0x65 ∨ b = 0x45 then do
      let (negative, bs) := match bs with
        | 0x2B :: bs => (false, bs)
        | 0x2D :: bs => (true, bs)
        | bs => (false, bs)
      let (ds, bs) ← someDigits bs
      pure (some (negative, ds), bs)
    else some (none, b :: bs)
  | [] => some (none, [])

/-- A zero that starts a number is its whole part. -/
def readNumeral (negative : Bool) (bs : Bytes) : Option (Numeral × Bytes) := do
  let (whole, bs) ← someDigits bs
  if whole.head? = some 0 ∧ whole ≠ [0] then none
  else
    let (fraction, bs) ← readFraction bs
    let (exponent, bs) ← readExponent bs
    pure (⟨negative, whole, fraction, exponent⟩, bs)

/-! ## Strings -/

/-- A byte of a string as written, or a UTF-16 unit that it writes by its number. -/
inductive Piece where
  | byte (b : UInt8)
  | unit (n : Nat)
deriving DecidableEq

def simpleEscape? (b : UInt8) : Option UInt8 :=
  if b = 0x22 ∨ b = 0x5C ∨ b = 0x2F then some b
  else if b = 0x62 then some 0x08
  else if b = 0x66 then some 0x0C
  else if b = 0x6E then some 0x0A
  else if b = 0x72 then some 0x0D
  else if b = 0x74 then some 0x09
  else none

def hexUnit? (a b c d : UInt8) : Option Nat :=
  Hex.ofDigits? ([a, b, c, d].map fun x => Char.ofNat x.toNat)

/-- The pieces up to the closing quote, behind those in `acc`, and what follows the quote. -/
def readString (acc : List Piece) : Bytes → Option (List Piece × Bytes)
  | [] => none
  | 0x22 :: bs => some (acc.reverse, bs)
  | 0x5C :: 0x75 :: a :: b :: c :: d :: bs =>
    match hexUnit? a b c d with
    | some n => readString (.unit n :: acc) bs
    | none => none
  | 0x5C :: b :: bs =>
    match simpleEscape? b with
    | some b => readString (.byte b :: acc) bs
    | none => none
  | b :: bs => if b < 0x20 then none else readString (.byte b :: acc) bs

def bytesOfUnit (n : Nat) : Bytes := Text.toBytes (String.singleton (Char.ofNat n))

/-- The bytes of a string; a high and a low surrogate make one character, alone they make none. -/
def bytesOfPieces? : List Piece → Option Bytes
  | [] => some []
  | .byte b :: ps => (bytesOfPieces? ps).map (b :: ·)
  | .unit n :: ps =>
    if n < 0xD800 ∨ 0xDFFF < n then (bytesOfPieces? ps).map (bytesOfUnit n ++ ·)
    else match ps with
      | .unit m :: ps =>
        if n < 0xDC00 ∧ 0xDC00 ≤ m ∧ m ≤ 0xDFFF then
          (bytesOfPieces? ps).map (bytesOfUnit (0x10000 + (n - 0xD800) * 0x400 + (m - 0xDC00)) ++ ·)
        else none
      | _ => none

def textOfPieces? (ps : List Piece) : Option String := (bytesOfPieces? ps).bind Text.ofBytes?

/-! ## Values -/

def isAt (word : String) (bs : Bytes) : Option Bytes :=
  let w := Text.toBytes word
  if bs.take w.length = w then some (bs.drop w.length) else none

mutual

/-- Reads a value that starts at the first byte; `fuel` bounds the steps of the reading. -/
def readValue : (fuel : Nat) → Bytes → Option (Tree × Bytes)
  | 0, _ => none
  | _, [] => none
  | fuel + 1, b :: bs =>
    if b = 0x22 then do
      let (ps, bs) ← readString [] bs
      pure (.string (textOfPieces? ps), bs)
    else if b = 0x5B then
      match skipBlanks bs with
      | 0x5D :: bs => some (.array [], bs)
      | bs => do
        let (ts, bs) ← readElements fuel bs
        pure (.array ts, bs)
    else if b = 0x7B then
      match skipBlanks bs with
      | 0x7D :: bs => some (.object [], bs)
      | bs => do
        let (ms, bs) ← readMembers fuel bs
        pure (.object ms, bs)
    else if b = 0x2D then (readNumeral true bs).map fun (n, bs) => (.number n.number?, bs)
    else if (digit? b).isSome then
      (readNumeral false (b :: bs)).map fun (n, bs) => (.number n.number?, bs)
    else if b = 0x6E then (isAt "ull" bs).map ((.null, ·))
    else if b = 0x74 then (isAt "rue" bs).map ((.bool true, ·))
    else if b = 0x66 then (isAt "alse" bs).map ((.bool false, ·))
    else none

/-- Reads values up to the closing bracket. -/
def readElements : (fuel : Nat) → Bytes → Option (List Tree × Bytes)
  | 0, _ => none
  | fuel + 1, bs => do
    let (t, bs) ← readValue fuel (skipBlanks bs)
    match skipBlanks bs with
    | 0x2C :: bs =>
      let (ts, bs) ← readElements fuel bs
      pure (t :: ts, bs)
    | 0x5D :: bs => pure ([t], bs)
    | _ => none

/-- Reads members up to the closing brace. -/
def readMembers : (fuel : Nat) → Bytes → Option (List (Option String × Tree) × Bytes)
  | 0, _ => none
  | fuel + 1, bs => do
    let (k, bs) ← match skipBlanks bs with
      | 0x22 :: bs => readString [] bs
      | _ => none
    let bs ← match skipBlanks bs with
      | 0x3A :: bs => some bs
      | _ => none
    let (t, bs) ← readValue fuel (skipBlanks bs)
    match skipBlanks bs with
    | 0x2C :: bs =>
      let (ms, bs) ← readMembers fuel bs
      pure ((textOfPieces? k, t) :: ms, bs)
    | 0x7D :: bs => pure ([(textOfPieces? k, t)], bs)
    | _ => none

end

/-- Every step of the reading takes a byte, so the length of the text is fuel enough. -/
def Tree.ofBytes? (bs : Bytes) : Option Tree := do
  let (t, rest) ← readValue (bs.length + 1) (skipBlanks bs)
  if skipBlanks rest = [] then pure t else none

end Causeway.Json
