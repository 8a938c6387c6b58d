import SchemaCompiler.Json.Number
import SchemaCompiler.Json.SyntaxError

/-!
# The value of a numeral

A numeral without fraction and exponent is an integer if it fits 64 bits. Any other one is a
double, which is computed in two steps: the digits are gathered into a 64-bit significand, and this
is multiplied or divided once by a power of ten that is itself a double. Digits that the
significand cannot take count in the exponent if they are whole and not at all if they are not.
-/

namespace SchemaCompiler

/-- The exponent of a numeral, and the place where its digits start. -/
structure NumeralExponent where
  negative : Bool
  digits : List Nat
  start : Position
  deriving DecidableEq, Repr

/-- A numeral as written, its digits as numbers. -/
structure Numeral where
  negative : Bool
  whole : List Nat
  fraction : Option (List Nat)
  exponent : Option NumeralExponent
  deriving DecidableEq, Repr

namespace Numeral

/-- The significand `s` with the digits `ds` at its end, and how many of them it cannot take. -/
def gatherWhole (s : Nat) : List Nat → Nat × Nat
  | [] => (s, 0)
  | d :: ds =>
    if s * 10 + d < Nat.pow 2 64 then gatherWhole (s * 10 + d) ds else (s, ds.length + 1)

/-- The significand `s` with the digits `ds` at its end, and how many of them it has taken. -/
def gatherFraction (s : Nat) : List Nat → Nat × Nat
  | [] => (s, 0)
  | d :: ds =>
    if s * 10 + d < Nat.pow 2 64 then
      let (s, taken) := gatherFraction (s * 10 + d) ds
      (s, taken + 1)
    else (s, 0)

/-- The value of exponent digits below `2 ^ 31`, or else how many digits it takes to get there. -/
def gatherExponent (e count : Nat) : List Nat → Except Nat Nat
  | [] => .ok e
  | d :: ds =>
    if e * 10 + d < Nat.pow 2 31 then gatherExponent (e * 10 + d) (count + 1) ds
    else .error (count + 1)

/-! ## Scaling -/

/-- The double nearest to `10 ^ k`, for `k` up to 308. -/
def powerOfTen (k : Nat) : Magnitude := (Magnitude.nearest (Nat.pow 10 k) 1).getD Magnitude.zero

/-- `x` divided `n` times by `1e308`, stopping at zero. -/
def divideOften : (n : Nat) → (x : Magnitude) → Option Magnitude
  | 0, x => some x
  | n + 1, x => if x.isZero then some x else (x.div (powerOfTen 308)).bind (divideOften n)

/-- The double for `significand * 10 ^ exponent`, or none past the greatest double. -/
def scale (significand : Nat) (exponent : Int) : Option Magnitude := do
  let x ← Magnitude.nearest significand 1
  let k := exponent.natAbs
  if 0 ≤ exponent then
    if k ≤ 308 then x.mul (powerOfTen k) else if x.isZero then some x else none
  else
    let often := (k - 1) / 308
    let y ← divideOften often x
    y.div (powerOfTen (k - 308 * often))

/-! ## Value -/

/-- The double with the given significand and exponent, for a numeral that ends at `place`. -/
def double (negative : Bool) (significand : Nat) (exponent : Int) (place : Position) :
    Except (Fault Position) Number :=
  match scale significand exponent with
  | some x => .ok (.double ⟨negative, x⟩)
  | none => .error ⟨.numberOutOfRange, place⟩

/-- The integer `± n` if it fits 64 bits, or else the double nearest to it; `-0` is a double. -/
def integer (negative : Bool) (n : Nat) : Number :=
  if !negative then .integer n
  else if n = 0 ∨ Nat.pow 2 63 < n then .double (Binary64.ofInt n |> fun x => ⟨true, x.magnitude⟩)
  else .integer (-n)

/-- The number that a numeral ending at `place` stands for, or that it is out of range. -/
def value (n : Numeral) (place : Position) : Except (Fault Position) Number :=
  let (whole, dropped) := gatherWhole 0 n.whole
  let (significand, taken) := gatherFraction whole (n.fraction.getD [])
  let shift : Int := (dropped : Int) - taken
  match n.exponent with
  | none =>
    if n.fraction.isNone ∧ dropped = 0 then .ok (integer n.negative significand)
    else double n.negative significand shift place
  | some e =>
    match gatherExponent 0 0 e.digits with
    | .ok k => double n.negative significand (if e.negative then shift - k else shift + k) place
    | .error count =>
      if significand ≠ 0 ∧ !e.negative then
        .error ⟨.numberOutOfRange, ⟨e.start.line, e.start.column + count⟩⟩
      else .ok (.double ⟨n.negative, Magnitude.zero⟩)

end Numeral

end SchemaCompiler
