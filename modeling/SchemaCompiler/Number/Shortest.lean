import SchemaCompiler.Number.Binary64

/-!
# The shortest decimal that reads back

`Magnitude.shortest` gives the decimal with the fewest significant digits whose nearest double is
the given one, and of several such decimals the one closest to it. For each number of digits only
the two neighbours of the value on that decimal grid are tried: if any point of the grid reads
back, one of these does.
-/

namespace SchemaCompiler

/-- The number `digits * 10 ^ exponent`; trailing zeros among the digits are not significant. -/
structure Decimal where
  digits : Nat
  exponent : Int
  deriving DecidableEq, Repr

namespace Magnitude

/-- Whether `10 ^ k` is at most the value. -/
def atLeastPowerOfTen (x : Magnitude) (k : Int) : Bool :=
  Nat.pow 10 k.toNat * x.denominator ≤ x.numerator * Nat.pow 10 (-k).toNat

/-- The position of the leading decimal digit: the greatest `k` with `10 ^ k ≤ x`. The binary
logarithm gives it up to one, as `log 2 = 0.30103` to five places. -/
def leadingPosition (x : Magnitude) : Int :=
  let log : Int := x.mantissa.log2 + x.exponent
  let estimate := log * 30103 / 100000
  if x.atLeastPowerOfTen (estimate + 1) then estimate + 1
  else if x.atLeastPowerOfTen estimate then estimate
  else estimate - 1

/-- Whether the nearest double of `digits * 10 ^ exponent` is `x`. -/
def readsBack (x : Magnitude) (d : Decimal) : Bool :=
  nearestDecimal d.digits d.exponent == some x

/-- The decimals with `count` digits next below and next above the value, nearer one first, of two
equally near the even one. -/
def neighbours (x : Magnitude) (count : Nat) : List Decimal :=
  let e := x.leadingPosition - count + 1
  let n := x.numerator * Nat.pow 10 (-e).toNat
  let d := x.denominator * Nat.pow 10 e.toNat
  let lower := n / d
  let nearer := roundHalfEven n d
  [⟨nearer, e⟩, ⟨if nearer = lower then lower + 1 else lower, e⟩]

/-- The value itself as a decimal: a fraction with denominator `2 ^ k` has `k` decimal places. -/
def exactDecimal (x : Magnitude) : Decimal :=
  let places := (-x.exponent).toNat
  ⟨x.numerator * Nat.pow 5 places, -places⟩

/-- The first neighbour that reads back, trying `count` digits and then up to `more` digits on
top. Seventeen digits suffice for every double; the exact value stands in past them. -/
def shortestFrom (x : Magnitude) : (count more : Nat) → Decimal
  | _, 0 => x.exactDecimal
  | count, more + 1 =>
    match (x.neighbours count).find? x.readsBack with
    | some d => d
    | none => shortestFrom x (count + 1) more

/-- The shortest decimal that reads back as `x`, and the closest of these. -/
def shortest (x : Magnitude) : Decimal := x.shortestFrom 1 17

end Magnitude

end SchemaCompiler
