import Causeway.Binary64.Text

/-!
# JSON numbers

A numeral is the digits of a number as written. Read, it is a whole number of 64 bits if it is
written as one that fits, and a double otherwise. The digits go into a 64-bit significand as long
as they fit, and one power of ten scales it, so the double need not be the nearest one.
-/

namespace Causeway

inductive Number where
  | whole (n : Int)
  | real (x : Float)

/-- The parts of a numeral, digits as numbers below ten. -/
structure Numeral where
  negative : Bool
  whole : List Nat
  fraction : List Nat
  exponent : Option (Bool × List Nat)

namespace Numeral

/-- Takes digits into `n` while it stays below 2^64, and counts them; the rest is left. -/
def takeFitting : (n count : Nat) → List Nat → Nat × Nat × List Nat
  | n, count, [] => (n, count, [])
  | n, count, d :: ds =>
    if 10 * n + d < twoTo 64 then takeFitting (10 * n + d) (count + 1) ds else (n, count, d :: ds)

/-- Divides by 1e308 until the exponent that remains is at most 308. -/
def divide (x : Float) (e : Nat) : Float :=
  if e ≤ 308 then x / Float.ofScientific 1 false e
  else if x == 0 then x
  else divide (x / 1e308) (e - 308)
termination_by e

/-- The double for `significand * 10 ^ exponent`, unless that is beyond every double. -/
def scale? (negative : Bool) (significand : Nat) (exponent : Int) : Option Float :=
  let x := Binary64.ofWhole significand
  let signed := fun (x : Float) => if negative then -x else x
  if exponent < 0 then some (signed (divide x exponent.natAbs))
  else if 308 < exponent then if significand = 0 then some (signed x) else none
  else
    let y := x * Float.ofScientific 1 false exponent.natAbs
    if Binary64.isFinite y then some (signed y) else none

def value (ds : List Nat) : Nat := ds.foldl (10 * · + ·) 0

def real? (n : Numeral) : Option Float :=
  let (s, _, left) := takeFitting 0 0 n.whole
  let (s, places, _) := takeFitting s 0 n.fraction
  let start : Int := left.length - places
  match n.exponent with
  | none => scale? n.negative s start
  | some (negative, ds) =>
    let e := value ds
    if e < twoTo 31 then scale? n.negative s (if negative then start - e else start + e)
    else if s = 0 ∨ negative then some (if n.negative then -0.0 else 0.0)
    else none

/-- A zero with a minus sign is a double. -/
def number? (n : Numeral) : Option Number :=
  let w := value n.whole
  let whole := n.fraction = [] ∧ n.exponent = none
  if whole ∧ !n.negative ∧ w < twoTo 64 then some (.whole w)
  else if whole ∧ n.negative ∧ 0 < w ∧ w ≤ twoTo 63 then some (.whole (-w))
  else n.real?.map .real

end Numeral

end Causeway
