import SchemaCompiler.Schema.Basic
import SchemaCompiler.Validator.Basic
import SchemaCompiler.Validator.Pattern

/-!
# Validators of strings and numbers

The keywords for strings and for numbers each become actions on `v.string()` or `v.number()`.
-/

namespace SchemaCompiler

def formatSymbol? : String → Option String
  | "email" => some "email"
  | "uri" => some "url"
  | "url" => some "url"
  | "uuid" => some "uuid"
  | "date" => some "isoDate"
  | "date-time" => some "isoDateTime"
  | "time" => some "isoTime"
  | "ipv4" => some "ipv4"
  | "ipv6" => some "ipv6"
  | _ => none

/-- The action of a keyword that is present. -/
def actionFor {α : Type} (symbol : String) (argument : α → String) (keyword : Option α) :
    List Action :=
  (keyword.map fun a => ⟨symbol, argument a⟩).toList

namespace Keywords

variable {S : Type}

/-- The actions of the string keywords. An empty pattern constrains nothing and is left out. -/
def stringActions (k : Keywords S) : List Action :=
  actionFor "minLength" toString k.minLength ++
  actionFor "maxLength" toString k.maxLength ++
  actionFor "regex" regexLiteral (k.pattern.filter (· ≠ "")) ++
  ((k.format.bind formatSymbol?).map fun symbol => ⟨symbol, ""⟩).toList

/-- The actions of a bound: the inclusive one, which a flag makes exclusive, and the exclusive one
with a value of its own. -/
def boundActions (inclusive exclusive : String) (bound : Option Number)
    (exclusiveBound : Option ExclusiveBound) : List Action :=
  let flagged := exclusiveBound = some (.flag true)
  let own := match exclusiveBound with
    | some (.bound n) => some n
    | _ => none
  actionFor (if flagged then exclusive else inclusive) Number.text bound ++
  actionFor exclusive Number.text own

def numberActions (k : Keywords S) (integer : Bool) : List Action :=
  (if integer then [⟨"integer", ""⟩] else []) ++
  boundActions "minValue" "gtValue" k.minimum k.exclusiveMinimum ++
  boundActions "maxValue" "ltValue" k.maximum k.exclusiveMaximum ++
  actionFor "multipleOf" Number.text k.multipleOf

end Keywords

namespace Validator

variable {S : Type}

def string (k : Keywords S) : Validator := (ofCall "string" "" "string").pipe k.stringActions

def number (k : Keywords S) (integer : Bool) : Validator :=
  (ofCall "number" "" "number").pipe (k.numberActions integer)

def boolean : Validator := ofCall "boolean" "" "boolean"

def null : Validator := ofCall "null_" "" "null"

end Validator

end SchemaCompiler
