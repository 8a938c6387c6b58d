import SchemaCompiler.Filter.Grammar
import SchemaCompiler.Filter.Run

/-!
# Filter programs

A program is read, its names are looked up, and then it is run; `FilterError` says which of these
has failed.
-/

namespace SchemaCompiler

inductive FilterError where
  | unreadable
  | undefined (names : List UndefinedName)
  /-- A filter was given a value that it does not apply to. -/
  | misuse (cause : Misuse)
  /-- One document is wanted. -/
  | notOne (count : Nat)
  deriving DecidableEq, Repr

def FilterError.message : FilterError → String
  | .unreadable => "cannot parse jq program"
  | .undefined names =>
    "jq program uses undefined names: " ++ ", ".intercalate (names.map (·.text))
  | .misuse _ => "jq runtime error"
  | .notOne count => s!"expected exactly one output document, got {count}"

def Filter.compile (program : String) : Except FilterError Filter :=
  match Filter.ofProgram? program with
  | none => .error .unreadable
  | some f => if f.undefinedNames.isEmpty then .ok f else .error (.undefined f.undefinedNames)

end SchemaCompiler
