import Causeway.Binary64.Shortest
import Causeway.Decimal.Basic

/-!
# Doubles as text

`positional` writes the shortest decimal of a double without an exponent. `pretty` always shows a
point or an exponent: positional from 1e-5 up to 1e16, with an exponent outside.
`nearest?` goes the other way and rounds a decimal to a double.
-/

namespace Causeway.Binary64

/-! ## Writing -/

def zeros (n : Nat) : List Char := List.replicate n '0'

def sign (negative : Bool) : List Char := if negative then ['-'] else []

/-- Whole numbers have no point. -/
def Digits.positional (v : Digits) : List Char :=
  let ds := Nat.toDigits 10 v.digits
  let k := v.exponent
  if 0 ≤ k then ds ++ (if v.digits = 0 then [] else zeros k.toNat)
  else
    let p := (-k).toNat
    let whole := ds.take (ds.length - p)
    (if whole = [] then ['0'] else whole) ++ '.' :: zeros (p - ds.length)
      ++ ds.drop (ds.length - p)

/-- A half-way decimal is rounded up. -/
def Magnitude.positional (negative : Bool) (x : Magnitude) : List Char :=
  sign negative ++ (x.shortest .up).positional

def positional (x : Float) : List Char := (magnitude x).positional (isNegative x)

/-- A half-way decimal goes to the even digit. -/
def pretty (x : Float) : String :=
  let v := (magnitude x).shortest .even
  let ds := Nat.toDigits 10 v.digits
  let point := (ds.length : Int) + v.exponent
  String.ofList <| sign (isNegative x) ++
    if v.digits = 0 then ['0', '.', '0']
    else if 0 ≤ v.exponent ∧ point ≤ 16 then ds ++ zeros v.exponent.toNat ++ ['.', '0']
    else if 0 < point ∧ point ≤ 16 then ds.take point.toNat ++ '.' :: ds.drop point.toNat
    else if -5 < point ∧ point ≤ 0 then '0' :: '.' :: zeros (-point).toNat ++ ds
    else
      let e := point - 1
      ds.take 1 ++ (if ds.length = 1 then [] else '.' :: ds.drop 1) ++ 'e'
        :: (if e < 0 then ['-'] else []) ++ Nat.toDigits 10 e.natAbs

def isFinite (x : Float) : Bool := x.toBits.toNat % twoTo 63 < 2047 * twoTo 52

/-! ## Reading -/

/-- The exponent `p` with `2 ^ p ≤ n / d < 2 ^ (p + 1)`, for a positive quotient. -/
def binaryExponent (n d : Nat) : Int :=
  let p := (n.log2 : Int) - d.log2
  if d * twoTo p.toNat ≤ n * twoTo (-p).toNat then p else p - 1

/-- The double nearest to `n / d`, of two equally near the even one. -/
def ofRatio? (n d : Nat) : Option Magnitude :=
  if n = 0 then Magnitude.ofParts? 0 (-1074)
  else
    let q := max (binaryExponent n d - 52) (-1074)
    let m := Decimal.roundHalfEven (n * twoTo (-q).toNat) (d * twoTo q.toNat)
    if m = twoTo 53 then Magnitude.ofParts? (twoTo 52) (q + 1) else Magnitude.ofParts? m q

/-- The double nearest to `digits * 10 ^ exponent`, if that is not beyond the greatest. -/
def nearest? (digits : Nat) (exponent : Int) : Option Magnitude :=
  let magnitude : Int := digitCount digits + exponent
  if digits = 0 ∨ magnitude < -400 then Magnitude.ofParts? 0 (-1074)
  else if 400 < magnitude then none
  else ofRatio? (digits * tenTo exponent.toNat) (tenTo (-exponent).toNat)

end Causeway.Binary64
