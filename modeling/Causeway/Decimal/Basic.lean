import Causeway.Power

/-!
# Decimals

A decimal is a sign and a magnitude below 2^96 over a power of ten of at most 28 places. Decimals of
one value may differ in their places and zeros in their signs. Places are kept as far as they fit: a
result too long for its magnitude loses its last places, rounded half to even, and overflows only
when its whole part does not fit.
-/

namespace Causeway

structure Decimal where
  magnitude : Nat
  places : Nat
  negative : Bool := false
  magnitude_lt : magnitude < twoTo 96 := by decide
  places_le : places ≤ 28 := by decide
deriving DecidableEq

/-- The operations that can leave the range of decimals. -/
inductive Overflow where
  | addition
  | subtraction
  | multiplication
deriving DecidableEq

def Overflow.message : Overflow → String
  | .addition => "Addition overflowed"
  | .subtraction => "Subtraction overflowed"
  | .multiplication => "Multiplication overflowed"

namespace Decimal

def zero : Decimal := { magnitude := 0, places := 0 }

def one : Decimal := { magnitude := 1, places := 0 }

instance : Inhabited Decimal := ⟨zero⟩

def signed (negative : Bool) (n : Nat) : Int := if negative then -n else n

/-- The value of a decimal is its coefficient over `10 ^ places`. -/
def coefficient (x : Decimal) : Int := signed x.negative x.magnitude

theorem natAbs_coefficient (x : Decimal) : x.coefficient.natAbs = x.magnitude := by
  cases h : x.negative <;> simp [coefficient, signed, h]

/-! ## Order -/

/-- Decimals are compared by value, whatever their places and the signs of zeros. -/
instance : LE Decimal :=
  ⟨fun x y => x.coefficient * tenTo y.places ≤ y.coefficient * tenTo x.places⟩

instance : LT Decimal :=
  ⟨fun x y => x.coefficient * tenTo y.places < y.coefficient * tenTo x.places⟩

instance (x y : Decimal) : Decidable (x ≤ y) :=
  inferInstanceAs (Decidable (x.coefficient * tenTo y.places ≤ y.coefficient * tenTo x.places))

instance (x y : Decimal) : Decidable (x < y) :=
  inferInstanceAs (Decidable (x.coefficient * tenTo y.places < y.coefficient * tenTo x.places))

/-- A negative decimal becomes zero; any other keeps its places. -/
def clampNegative (x : Decimal) : Decimal := if x < zero then zero else x

/-! ## Rounding -/

/-- The whole number nearest to `n / d`, the even one of two. -/
def roundHalfEven (n d : Nat) : Nat :=
  if d < 2 * (n % d) ∨ (2 * (n % d) = d ∧ n / d % 2 = 1) then n / d + 1 else n / d

def ofParts? (negative : Bool) (n places : Nat) : Option Decimal :=
  if h : n < twoTo 96 ∧ places ≤ 28 then some ⟨n, places, negative, h.1, h.2⟩ else none

def ofInt? (n : Int) : Option Decimal := ofParts? (n < 0) n.natAbs 0

/-- The value `n / 10 ^ p` rounded to `places` places, if it fits then. -/
def rounded? (negative : Bool) (n p places : Nat) : Option Decimal :=
  ofParts? negative (roundHalfEven n (tenTo (p - places))) places

/-- The value `n / 10 ^ p` with the most places, `most` or fewer, whose magnitude fits. -/
def fit? (negative : Bool) (n p : Nat) : (most : Nat) → Option Decimal
  | 0 => rounded? negative n p 0
  | most + 1 =>
    match rounded? negative n p (most + 1) with
    | some x => some x
    | none => fit? negative n p most

/-- A zero loses its sign; any other decimal keeps it. -/
def unsignZero (x : Decimal) : Decimal :=
  if x.magnitude = 0 then { x with negative := false } else x

theorem coefficient_unsignZero (x : Decimal) : x.unsignZero.coefficient = x.coefficient := by
  unfold unsignZero
  split
  · simp_all [coefficient, signed]
  · rfl

/-! ## Arithmetic -/

/-- A zero keeps its sign. -/
def neg (x : Decimal) : Decimal := if x.magnitude = 0 then x else { x with negative := !x.negative }

theorem coefficient_neg (x : Decimal) : x.neg.coefficient = -x.coefficient := by
  unfold neg
  split
  · simp_all [coefficient, signed]
  · cases h : x.negative <;> simp [coefficient, signed, h]

/-- A zero on either side gives the other side with its own places and sign. -/
def sum? (x y : Decimal) : Option Decimal :=
  if x.magnitude = 0 then some y
  else if y.magnitude = 0 then some x
  else
    let p := max x.places y.places
    let c := x.coefficient * tenTo (p - x.places) + y.coefficient * tenTo (p - y.places)
    fit? (c < 0) c.natAbs p p

def isShort (x : Decimal) : Bool := x.magnitude < twoTo 32

/-- A zero factor gives zero without places, and so do two short factors with more than 47 places
between them. What else is rounded to zero keeps the sign, unless both factors are short. -/
def product? (x y : Decimal) : Option Decimal :=
  let p := x.places + y.places
  let product := fit? (x.negative != y.negative) (x.magnitude * y.magnitude) p (min p 28)
  if x.magnitude = 0 ∨ y.magnitude = 0 then some zero
  else if x.isShort && y.isShort then if 47 < p then some zero else product.map unsignZero
  else product

def orOverflow (o : Overflow) : Option Decimal → Except Overflow Decimal
  | some x => .ok x
  | none => .error o

def add (x y : Decimal) : Except Overflow Decimal := orOverflow .addition (sum? x y)

def sub (x y : Decimal) : Except Overflow Decimal := orOverflow .subtraction (sum? x y.neg)

def mul (x y : Decimal) : Except Overflow Decimal := orOverflow .multiplication (product? x y)

def normalize (x : Decimal) : Decimal :=
  go x.negative x.magnitude x.places x.magnitude_lt x.places_le
where
  go (negative : Bool) (n : Nat) : (p : Nat) → n < twoTo 96 → p ≤ 28 → Decimal
    | 0, h, _ => ⟨n, 0, negative, h, by decide⟩
    | p + 1, h, hp =>
      if n % 10 = 0 then go negative (n / 10) p (by omega) (by omega)
      else ⟨n, p + 1, negative, h, hp⟩

end Decimal

end Causeway
