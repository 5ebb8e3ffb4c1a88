import Causeway.Power

/-!
# The shortest decimal of a double

A finite double without its sign is `m * 2 ^ q`. Among the decimals that round to it, `shortest`
takes one with the fewest digits, of those the nearest, and of two equally near the one its tie rule
names. All comparisons are between whole numbers.
-/

namespace Causeway.Binary64

/-- The double nearest to a whole number below 2^64. -/
def ofWhole (n : Nat) : Float := n.toUInt64.toFloat

/-- The value `m * 2 ^ q`. All 53 bits of `m` are in use unless the exponent is the least one. -/
structure Magnitude where
  m : Nat
  q : Int
  m_lt : m < twoTo 53
  q_ge : -1074 ≤ q
  q_le : q ≤ 971
  full : twoTo 52 ≤ m ∨ q = -1074
deriving DecidableEq

/-- There is none beyond the greatest double. -/
def Magnitude.ofParts? (m : Nat) (q : Int) : Option Magnitude :=
  if h : m < twoTo 53 ∧ (-1074 ≤ q ∧ q ≤ 971) ∧ (twoTo 52 ≤ m ∨ q = -1074) then
    some ⟨m, q, h.1, h.2.1.1, h.2.1.2, h.2.2⟩
  else none

/-- A power of two, whose lower neighbour is half as far as the upper. -/
def Magnitude.narrow (x : Magnitude) : Bool := x.m = twoTo 52 ∧ -1074 < x.q

def Magnitude.greatest : Magnitude :=
  ⟨twoTo 53 - 1, 971, by decide, by decide, by decide, .inl (by decide)⟩

/-- An infinite double counts as the greatest. -/
def magnitude (x : Float) : Magnitude :=
  let bits := x.toBits.toNat % twoTo 63
  let e := bits / twoTo 52
  let f := bits % twoTo 52
  let finite :=
    if e = 0 then Magnitude.ofParts? f (-1074) else Magnitude.ofParts? (twoTo 52 + f) (e - 1075)
  finite.getD .greatest

def isNegative (x : Float) : Bool := twoTo 63 ≤ x.toBits.toNat

/-- The value `digits * 10 ^ exponent`. -/
structure Digits where
  digits : Nat
  exponent : Int
deriving DecidableEq, Repr

/-- The decimal `d * 10 ^ k`; ten has a digit less on the next grid. -/
def Digits.ofGrid (d : Nat) (k : Int) : Digits := if d = 10 then ⟨1, k + 1⟩ else ⟨d, k⟩

inductive Tie where
  | up
  | even
deriving DecidableEq

/-- The ends of the interval that rounds to a double and the double itself, over one divisor;
the ends belong to the interval when `closed`. -/
structure Target where
  low : Nat
  value : Nat
  high : Nat
  divisor : Nat
  closed : Bool

def Magnitude.target (x : Magnitude) : Target :=
  let up := twoTo (x.q - 2).toNat
  { low := (4 * x.m - if x.narrow then 1 else 2) * up
    value := 4 * x.m * up
    high := (4 * x.m + 2) * up
    divisor := twoTo (2 - x.q).toNat
    closed := x.m % 2 = 0 }

def digitCount (n : Nat) : Nat := (Nat.toDigits 10 n).length

/-- The exponent `p` with `10 ^ (p - 1) ≤ value < 10 ^ p`, for a positive value. -/
def Target.leading (t : Target) : Int :=
  if t.divisor ≤ t.value then digitCount (t.value / t.divisor)
  else
    let j := digitCount t.divisor - digitCount t.value
    if t.divisor ≤ t.value * tenTo j then 1 - (j : Int) else -(j : Int)

/-- Whether `n * 10 ^ k` lies in the interval. -/
def Target.holds (t : Target) (k : Int) (n : Nat) : Bool :=
  let up := tenTo (-k).toNat
  let unit := tenTo k.toNat * t.divisor
  if t.closed then t.low * up ≤ n * unit && n * unit ≤ t.high * up
  else t.low * up < n * unit && n * unit < t.high * up

/-- The decimal `d * 10 ^ k` of the grid `10 ^ k` to be taken for the target, if the grid has one
in the interval. -/
def Target.onGrid (t : Target) (tie : Tie) (k : Int) : Option Nat :=
  let unit := tenTo k.toNat * t.divisor
  let value := t.value * tenTo (-k).toNat
  let d := value / unit
  let below := 2 * (value % unit)
  match t.holds k d, t.holds k (d + 1) with
  | false, false => none
  | true, false => some d
  | false, true => some (d + 1)
  | true, true =>
    if below < unit then some d
    else if unit < below then some (d + 1)
    else match tie with
      | .up => some (d + 1)
      | .even => some (if d % 2 = 0 then d else d + 1)

/-- Tries `n`, `n + 1`, … digits. -/
def Target.search (t : Target) (tie : Tie) (p : Int) (n : Nat) : (tries : Nat) → Digits
  | 0 => ⟨0, 0⟩
  | tries + 1 =>
    match t.onGrid tie (p - n) with
    | some d => .ofGrid d (p - n)
    | none => t.search tie p (n + 1) tries

/-- Zero has the digit zero; seventeen digits tell any two doubles apart. -/
def Magnitude.shortest (x : Magnitude) (tie : Tie) : Digits :=
  if x.m = 0 then ⟨0, 0⟩ else x.target.search tie x.target.leading 1 17

end Causeway.Binary64
