/-!
# Binary64 numbers in exact arithmetic

A finite double is kept as `± mantissa * 2 ^ exponent` with a natural mantissa, so that equality
is decidable and every operation is a computation on natural numbers. `Magnitude.nearest` rounds a
quotient of natural numbers to the nearest double, a tie going to the even mantissa; product,
quotient and sum are the exact result rounded once.
-/

namespace SchemaCompiler

/-- The natural number nearest to `n / d`, a half going to the even neighbour. -/
def roundHalfEven (n d : Nat) : Nat :=
  let q := n / d
  let twice := 2 * (n % d)
  if twice < d then q else if d < twice then q + 1 else q + q % 2

/-- The double `mantissa * 2 ^ exponent`, without a sign. -/
structure Magnitude where
  mantissa : Nat
  exponent : Int
  deriving DecidableEq, Repr

namespace Magnitude

def leastExponent : Int := -1074

def greatestExponent : Int := 971

def zero : Magnitude := ⟨0, leastExponent⟩

def isZero (x : Magnitude) : Bool := x.mantissa == 0

/-! ## Fractions -/

/-- The numerator of `n / d * 2 ^ e` as a fraction of natural numbers. -/
def scaledNumerator (n : Nat) (e : Int) : Nat := n * Nat.pow 2 e.toNat

/-- The denominator of `n / d * 2 ^ e` as a fraction of natural numbers. -/
def scaledDenominator (d : Nat) (e : Int) : Nat := d * Nat.pow 2 (-e).toNat

def numerator (x : Magnitude) : Nat := scaledNumerator x.mantissa x.exponent

def denominator (x : Magnitude) : Nat := scaledDenominator 1 x.exponent

/-! ## Rounding -/

/-- The exponent `e` with `2 ^ 52 ≤ n / d / 2 ^ e < 2 ^ 53`, if it is not below the least one. -/
def exponentFor (n d : Nat) : Int :=
  let estimate : Int := (n.log2 : Int) - d.log2
  let log := if scaledDenominator 1 estimate * n < scaledNumerator d estimate
    then estimate - 1 else estimate
  max (log - 52) leastExponent

/-- The double nearest to `n / d`, or none if that is past the greatest one. -/
def nearest (n d : Nat) : Option Magnitude :=
  if n = 0 then some zero else
    let e := exponentFor n d
    let m := roundHalfEven (scaledNumerator n (-e)) (scaledDenominator d (-e))
    let x : Magnitude :=
      if m = Nat.pow 2 53 then ⟨Nat.pow 2 52, e + 1⟩ else if m = 0 then zero else ⟨m, e⟩
    if greatestExponent < x.exponent then none else some x

def nearestScaled (n d : Nat) (e : Int) : Option Magnitude :=
  nearest (scaledNumerator n e) (scaledDenominator d e)

def nearestDecimal (n : Nat) (e : Int) : Option Magnitude :=
  nearest (n * Nat.pow 10 e.toNat) (Nat.pow 10 (-e).toNat)

def mul (x y : Magnitude) : Option Magnitude :=
  nearestScaled (x.mantissa * y.mantissa) 1 (x.exponent + y.exponent)

def div (x y : Magnitude) : Option Magnitude :=
  nearestScaled x.mantissa y.mantissa (x.exponent - y.exponent)

end Magnitude

/-- A finite double: a sign and a magnitude, so that zero has two forms. -/
structure Binary64 where
  negative : Bool
  magnitude : Magnitude
  deriving DecidableEq, Repr

namespace Binary64

/-- Whether two doubles are the same number; the two zeros are. -/
def sameNumber (x y : Binary64) : Bool :=
  x.magnitude == y.magnitude && (x.negative == y.negative || x.magnitude.isZero)

/-- The integer `± mantissa`, to be read at the exponent `e`, which is at most that of `x`. -/
def mantissaAt (x : Binary64) (e : Int) : Int :=
  let m : Int := Int.ofNat (x.magnitude.mantissa * Nat.pow 2 (x.magnitude.exponent - e).toNat)
  if x.negative then -m else m

/-- The exact sum rounded once, or none past the greatest double. -/
def add (x y : Binary64) : Option Binary64 :=
  let e := min x.magnitude.exponent y.magnitude.exponent
  let sum := x.mantissaAt e + y.mantissaAt e
  let negative := if sum = 0 then x.negative && y.negative else sum < 0
  (Magnitude.nearestScaled sum.natAbs 1 e).map fun m => ⟨negative, m⟩

/-- The double nearest to an integer of at most 64 bits. -/
def ofInt (i : Int) : Binary64 :=
  ⟨i < 0, (Magnitude.nearest i.natAbs 1).getD Magnitude.zero⟩

end Binary64

end SchemaCompiler
