import SchemaCompiler.Validator.Leaf

/-!
# Validators made from those of sub-schemas

How arrays, objects, `allOf`, `anyOf` and `not` are put together once the sub-schemas have been
compiled.
-/

namespace SchemaCompiler

/-- The check that the elements of an array are distinct. -/
def uniqueCheck : Action :=
  ⟨"check", "(input) => new Set(input).size === input.length, \"Items must be unique\""⟩

/-- The actions of the array keywords. -/
def Keywords.arrayActions {S : Type} (k : Keywords S) : List Action :=
  actionFor "minLength" toString k.minItems ++
  actionFor "maxLength" toString k.maxItems ++
  (if k.uniqueItems = some true then [uniqueCheck] else [])

namespace Validator

/-- Accepts the arrays of what `element` accepts that satisfy the array keywords. -/
def array {S : Type} (k : Keywords S) (element : Validator) : Validator :=
  Validator.pipe
    ⟨call "array" element.code, element.imports.insert "array",
      some (arrayType element.typeOrAny)⟩
    k.arrayActions

/-! ## Objects -/

/-- What an object may hold besides its declared properties. -/
inductive Rest where
  /-- Anything; the flag tells whether its type says so. -/
  | free (declared : Bool)
  /-- Nothing. -/
  | closed
  /-- What a validator accepts. -/
  | constrained (extra : Validator)
  deriving DecidableEq, Repr

/-- A declared property: its name, whether it has to be there, and what it accepts. -/
structure Property where
  name : String
  required : Bool
  value : Validator
  deriving DecidableEq, Repr

namespace Property

/-- The value code, in `v.optional` unless the property has to be there. -/
def code (p : Property) : String :=
  if p.required then p.value.code else call "optional" p.value.code

def imports (p : Property) : SymbolSet :=
  if p.required then p.value.imports else p.value.imports.insert "optional"

def field (p : Property) : Field := ⟨p.name, p.value.typeOrAny, !p.required⟩

end Property

/-- Accepts the objects with the given properties and rest. -/
def object (properties : List Property) (rest : Rest) : Validator :=
  let literal := objectLiteral (properties.map fun p => (quote p.name, p.code))
  let imports := properties.foldr (fun p s => p.imports ∪ s) ∅
  let type := fun index => some (recordType (properties.map Property.field) index)
  match rest with
  | .free declared =>
    ⟨call "object" literal, imports.insert "object", type (if declared then some "any" else none)⟩
  | .closed => ⟨call "strictObject" literal, imports.insert "strictObject", type none⟩
  | .constrained extra =>
    let imports := imports ∪ extra.imports
    if properties.isEmpty then
      ⟨call "record" ("v.string(), " ++ extra.code), (imports.insert "record").insert "string",
        type (some extra.typeOrAny)⟩
    else
      ⟨call "objectWithRest" (literal ++ ", " ++ extra.code), imports.insert "objectWithRest",
        type (some extra.typeOrAny)⟩

/-! ## Compositions -/

/-- Accepts what all of two or more members accept, if they are all object-shaped. Otherwise the
first member that constrains anything stands for all; the others only add to imports and type. -/
def allOf (objectShaped : Bool) (members : List Validator) : Validator :=
  if objectShaped then ofMembers "intersect" intersectionType members
  else if members.any isNever then never
  else match members.find? (!·.isAny) with
    | none => any
    | some first =>
      ⟨first.code, mergedImports members, (knownTypes members).map intersectKnown⟩

/-- Accepts what some of two or more members accept; members that accept nothing are left out. -/
def anyOf (members : List Validator) : Validator :=
  let survivors := members.filter (!·.isNever)
  if survivors.isEmpty then never else union survivors

/-- Accepts what `inner` does not. -/
def not (inner : Validator) : Validator :=
  ⟨call "custom" ("(input) => !" ++ call "is" (inner.code ++ ", input") ++
      ", \"Value must not match the specified schema\""),
    (inner.imports.insert "custom").insert "is", some "unknown"⟩

end Validator

end SchemaCompiler
