/-!
# Decimal numerals

Natural numbers written in decimal digits.
-/

namespace SchemaCompiler

/-- The number that one digit or more write; leading zeros are allowed. -/
def decimal? (digits : List Char) : Option Nat :=
  if digits.isEmpty || !digits.all Char.isDigit then none
  else some (digits.foldl (fun n c => n * 10 + (c.toNat - '0'.toNat)) 0)

end SchemaCompiler
