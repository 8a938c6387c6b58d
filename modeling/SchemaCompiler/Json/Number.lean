import SchemaCompiler.Number.Shortest

/-!
# Numbers of JSON texts

A number is an integer of at most 64 bits or a finite double, and keeps which of the two it is: `1`
and `1.0` are different texts. `Number.text` writes a double with the fewest digits that read back,
positionally from `1e-5` up to `1e16` and with an exponent outside that range.
-/

namespace SchemaCompiler

inductive Number where
  /-- An integer from `-2 ^ 63` to `2 ^ 64 - 1`. -/
  | integer (value : Int)
  | double (value : Binary64)
  deriving DecidableEq, Repr

namespace Decimal

/-- The digits up to the last one that is not zero. -/
def significant (d : Decimal) : List Char :=
  ((Nat.toDigits 10 d.digits).reverse.dropWhile (· == '0')).reverse

/-- The position of the leading digit: `0` for units, `-1` for tenths. -/
def position (d : Decimal) : Int := d.exponent + (Nat.toDigits 10 d.digits).length - 1

/-- The decimal written without an exponent, always with a fractional part. -/
def positional (d : Decimal) : List Char :=
  let digits := d.significant
  if d.position < 0 then
    '0' :: '.' :: List.replicate (-d.position - 1).toNat '0' ++ digits
  else
    let units := d.position.toNat + 1
    let whole := digits.take units ++ List.replicate (units - digits.length) '0'
    let fraction := digits.drop units
    whole ++ '.' :: (if fraction.isEmpty then ['0'] else fraction)

/-- The decimal written with one digit before the point and a signed exponent. -/
def scientific (d : Decimal) : List Char :=
  let mantissa := match d.significant with
    | first :: second :: rest => first :: '.' :: second :: rest
    | digits => digits
  let sign := if d.position < 0 then '-' else '+'
  mantissa ++ 'e' :: sign :: Nat.toDigits 10 d.position.natAbs

/-- Positional from `1e-5` up to `1e16`, with an exponent outside that range. -/
def text (d : Decimal) : List Char :=
  if -5 ≤ d.position ∧ d.position < 16 then d.positional else d.scientific

end Decimal

/-- The text of a double: the shortest decimal that reads back, under its sign. -/
def Binary64.text (x : Binary64) : String :=
  let digits := if x.magnitude.isZero then ['0', '.', '0'] else x.magnitude.shortest.text
  String.ofList (if x.negative then '-' :: digits else digits)

namespace Number

def text : Number → String
  | .integer i => toString i
  | .double x => x.text

/-- The number as a double, rounded if it is an integer of more than 53 bits. -/
def toDouble : Number → Binary64
  | .integer i => Binary64.ofInt i
  | .double x => x

end Number

end SchemaCompiler
