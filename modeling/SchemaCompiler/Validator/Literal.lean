import SchemaCompiler.Validator.Basic

/-!
# Validators of given values

`Validator.const` accepts one value and `Validator.enum` the values of a list: a pick list if they
are all strings and numbers, else a union.
-/

namespace SchemaCompiler

namespace Validator

mutual

def const : Json → Validator
  | .null => ofCall "null_" "" "null"
  | .array elements =>
    let members := consts elements
    ⟨callWithList "strictTuple" (members.map (·.code)),
      (mergedImports members).insert "strictTuple", some (literalType (.array elements))⟩
  | .object members =>
    let entries := constEntries members
    ⟨call "strictObject" (objectLiteral (entries.map fun (name, r) => (quote name, r.code))),
      (mergedImports (entries.map (·.2))).insert "strictObject",
      some (literalType (.object members))⟩
  | scalar => ofCall "literal" scalar.text scalar.text

def consts : List Json → List Validator
  | [] => []
  | x :: rest => const x :: consts rest

def constEntries : List (String × Json) → List (String × Validator)
  | [] => []
  | (name, x) :: rest => (name, const x) :: constEntries rest

end

/-- Accepts the given values only; no values give no constraint. -/
def enum : List Json → Validator
  | [] => any
  | [only] => const only
  | values =>
    if values.all fun x => x.isString || x.isNumber then
      ⟨callWithList "picklist" (values.map Json.text), .ofList ["picklist"],
        some (unionType (values.map literalType))⟩
    else union (values.map const)

end Validator

end SchemaCompiler
