/-!
# Decimal digits in a text

`readUpTo` takes the digits a text starts with, as many as it is allowed, and their number;
`padded` writes a number in a least width.
-/

namespace Causeway.Text

def digit? (c : Char) : Option Nat :=
  if '0' ≤ c ∧ c ≤ '9' then some (c.toNat - 48) else none

def isDigit (c : Char) : Bool := (digit? c).isSome

def numberOf (cs : List Char) : Nat := (cs.filterMap digit?).foldl (10 * · + ·) 0

/-- The number of the digits that `cs` starts with, at most `most` of them, and what follows;
there has to be a digit. -/
def readUpTo (most : Nat) (cs : List Char) : Option (Nat × List Char) :=
  match (cs.take most).takeWhile isDigit with
  | [] => none
  | ds => some (numberOf ds, cs.drop ds.length)

/-- All digits that `cs` starts with, and what follows; there has to be a digit. -/
def readAll (cs : List Char) : Option (Nat × List Char) := readUpTo cs.length cs

def padded (width n : Nat) : List Char :=
  let ds := Nat.toDigits 10 n
  List.replicate (width - ds.length) '0' ++ ds

end Causeway.Text
