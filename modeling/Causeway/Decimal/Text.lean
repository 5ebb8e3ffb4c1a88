import Causeway.Decimal.Basic
import Causeway.Text.Digits

/-!
# Decimals as text

`toText` writes a decimal with all its places and no exponent. `ofText?` reads that form and more:
a sign, underscores after the first digit, places beyond what fits (rounded half up), and, when the
text is not of that form, a decimal with an exponent. Without an exponent a zero is read unsigned,
and with one a negative decimal may be rounded to a zero that keeps the sign.
-/

namespace Causeway.Decimal

open Text (digit? isDigit padded)

/-! ## Writing -/

def toChars (x : Decimal) : List Char :=
  let ds := padded (x.places + 1) x.magnitude
  let whole := ds.take (ds.length - x.places)
  let fraction := ds.drop (ds.length - x.places)
  (if x.negative then ['-'] else []) ++ whole
    ++ (if x.places = 0 then [] else '.' :: fraction)

def toText (x : Decimal) : String := String.ofList x.toChars

/-! ## Reading without an exponent -/

/-- The number read so far, when the digit `d` after it has no room: `d` rounds it half up. -/
def roundHalfUp? (n places d : Nat) : Option (Nat × Nat) :=
  if d < 5 then some (n, places)
  else if n + 1 < twoTo 96 then some (n + 1, places)
  else if places = 0 then none
  else some ((n + 5) / 10, places - 1)

/-- What may follow a digit that has no room. -/
def isTail (cs : List Char) : Bool := cs.all fun c => isDigit c || c = '_'

/-- One more byte leaves a number below this one within 64 bits. -/
def wordBound : Nat := (twoTo 64 - 1) / 10 - 255

/-- Reads on from the number `n` with `places` digits behind the point, if a point was seen. Behind
a point, the first digit without room rounds the number and those after it count for nothing. So
does an underscore behind the last place of a short number, as a zero would. -/
def readDigits :
    (n places : Nat) → (pointSeen digitSeen : Bool) → List Char → Option (Nat × Nat)
  | n, places, _, digitSeen, [] => if digitSeen then some (n, places) else none
  | n, places, pointSeen, digitSeen, c :: cs =>
    match digit? c with
    | some d =>
      if pointSeen && (places = 28 || decide (twoTo 96 ≤ 10 * n + d)) then
        if isTail cs then roundHalfUp? n places d else none
      else if twoTo 96 ≤ 10 * n + d then none
      else readDigits (10 * n + d) (if pointSeen then places + 1 else 0) pointSeen true cs
    | none =>
      if c = '.' ∧ !pointSeen then readDigits n places true digitSeen cs
      else if c = '_' ∧ places = 28 ∧ n / 10 < wordBound then
        if isTail cs then some (n, places) else none
      else if c = '_' ∧ digitSeen then readDigits n places pointSeen digitSeen cs
      else none

def ofPlain? (cs : List Char) : Option Decimal := do
  let (negative, cs) := match cs with
    | '-' :: cs => (true, cs)
    | '+' :: cs => (false, cs)
    | cs => (false, cs)
  let (n, places) ← readDigits 0 0 false false cs
  (ofParts? negative n places).map unsignZero

/-! ## Reading with an exponent -/

/-- Reads a whole number below `bound`, digits after an optional plus. -/
def wholeBelow? (bound : Nat) (cs : List Char) : Option Nat :=
  let ds := match cs with
    | '+' :: rest => rest
    | _ => cs
  if ds = [] then none
  else do
    let n ← ds.foldlM (fun n c => (digit? c).map (10 * n + ·)) 0
    if n < bound then some n else none

/-- Multiplies by `10 ^ e` in factors of at most `10 ^ 19`. -/
def scaleUp? (x : Decimal) (e : Nat) : Option Decimal :=
  if e < 19 then do product? x (← ofParts? false (tenTo e) 0)
  else do
    let y ← product? x (← ofParts? false (tenTo 19) 0)
    if e = 19 then some y else product? y (← ofParts? false (tenTo (e - 19)) 0)

def scaleDown? (x : Decimal) (e : Nat) : Option Decimal :=
  let d := tenTo (x.places + e - 28)
  ofParts? x.negative ((x.magnitude + d / 2) / d) (min (x.places + e) 28)

/-- Reads a decimal, the letter `e` or `E`, and an exponent of at most 28 in size. -/
def ofScientific? (cs : List Char) : Option Decimal :=
  let isMark := fun c => c == 'e' || c == 'E'
  match cs.dropWhile (!isMark ·) with
  | [] => none
  | _ :: exponent => do
    let x ← ofPlain? (cs.takeWhile (!isMark ·))
    match exponent with
    | '-' :: ds =>
      let e ← wholeBelow? (twoTo 32) ds
      if e ≤ 28 then scaleDown? x e else none
    | ds =>
      let e ← wholeBelow? (twoTo 32) ds
      if e ≤ x.places then ofParts? x.negative x.magnitude (x.places - e)
      else if e ≤ 28 then (scaleUp? x e).map normalize
      else none

def ofText? (s : String) : Option Decimal :=
  match ofPlain? s.toList with
  | some x => some x
  | none => ofScientific? s.toList

end Causeway.Decimal
