import SchemaCompiler.Json.Basic

/-!
# Schemas

A schema is `true`, `false` or an object of keywords, each of which may be absent. `Keywords.shape`
is the one place that decides by which keyword a schema is understood: only the first one present
in the order `$ref`, `allOf`, `anyOf`, `oneOf`, `not`, `const`, `enum`, `nullable`, `type` counts.
-/

namespace SchemaCompiler

inductive TypeTag where
  | null
  | boolean
  | object
  | array
  | number
  | integer
  | string
  /-- Any other name; no type is known by it. -/
  | unknown (name : String)
  deriving DecidableEq, Repr

def TypeTag.ofName : String → TypeTag
  | "null" => .null
  | "boolean" => .boolean
  | "object" => .object
  | "array" => .array
  | "number" => .number
  | "integer" => .integer
  | "string" => .string
  | name => .unknown name

/-- A `type` keyword: one name or a list of names. -/
inductive TypeSet where
  | one (tag : TypeTag)
  | many (tags : List TypeTag)
  deriving DecidableEq, Repr

/-- An `exclusiveMinimum` or `exclusiveMaximum`: a bound of its own, or a flag that makes the
inclusive bound beside it exclusive. -/
inductive ExclusiveBound where
  | flag (set : Bool)
  | bound (value : Number)
  deriving DecidableEq, Repr

/-- An `items` keyword: one schema for all elements, or one for each position. -/
inductive Items (S : Type) where
  | all (schema : S)
  | each (schemas : List S)
  deriving Repr

/-- The keywords of a schema object, over a type `S` of sub-schemas. -/
structure Keywords (S : Type) where
  reference : Option String := none
  id : Option String := none
  metaSchema : Option String := none
  title : Option String := none
  description : Option String := none
  type : Option TypeSet := none
  minLength : Option Nat := none
  maxLength : Option Nat := none
  pattern : Option String := none
  format : Option String := none
  minimum : Option Number := none
  maximum : Option Number := none
  exclusiveMinimum : Option ExclusiveBound := none
  exclusiveMaximum : Option ExclusiveBound := none
  multipleOf : Option Number := none
  items : Option (Items S) := none
  minItems : Option Nat := none
  maxItems : Option Nat := none
  uniqueItems : Option Bool := none
  properties : Option (List (String × S)) := none
  required : Option (List String) := none
  additionalProperties : Option S := none
  allOf : Option (List S) := none
  anyOf : Option (List S) := none
  oneOf : Option (List S) := none
  not : Option S := none
  /-- The value of a `const`, which may be `null`. -/
  const : Option Json := none
  enum : Option (List Json) := none
  definitions : Option (List (String × S)) := none
  defs : Option (List (String × S)) := none
  nullable : Option Bool := none
  deriving Repr

inductive Schema where
  | bool (accepts : Bool)
  | object (keywords : Keywords Schema)
  deriving Repr, Inhabited

/-! ## Shapes -/

/-- How a `type` keyword is understood. -/
inductive TypeShape where
  | one (tag : TypeTag)
  | many (tags : List TypeTag)
  | untyped
  deriving DecidableEq, Repr

/-- The keyword by which a schema is understood. -/
inductive Shape where
  | bool (accepts : Bool)
  | reference (pointer : String)
  | allOf (members : List Schema)
  | anyOf (members : List Schema)
  | oneOf (members : List Schema)
  | not (negated : Schema)
  | const (value : Json)
  | enum (values : List Json)
  | nullable (keywords : Keywords Schema)
  | typed (keywords : Keywords Schema)
  deriving Repr

namespace Keywords

/-- The type of a schema object. Without a `type`, one with `properties` or `additionalProperties`
is an object. -/
def typeShape (k : Keywords Schema) : TypeShape :=
  match k.type with
  | some (.one tag) => .one tag
  | some (.many tags) => .many tags
  | none =>
    if k.properties.isSome || k.additionalProperties.isSome then .one .object else .untyped

/-- The shape of a schema object: its first keyword in order of precedence. -/
def shape (k : Keywords Schema) : Shape :=
  (k.reference.map Shape.reference <|> k.allOf.map Shape.allOf <|> k.anyOf.map Shape.anyOf <|>
    k.oneOf.map Shape.oneOf <|> k.not.map Shape.not <|> k.const.map Shape.const <|>
    k.enum.map Shape.enum).getD
  (if k.nullable = some true then .nullable k else .typed k)

def fields (k : Keywords Schema) : List (String × Schema) := k.properties.getD []

def requires (k : Keywords Schema) (name : String) : Bool := (k.required.getD []).contains name

/-- The schema of the elements of an array: that of all, or that of the first position. -/
def elementSchema? (k : Keywords Schema) : Option Schema :=
  match k.items with
  | some (.all schema) => some schema
  | some (.each schemas) => schemas.head?
  | none => none

end Keywords

namespace Schema

def shape : Schema → Shape
  | .bool b => .bool b
  | .object k => k.shape

def description? : Schema → Option String
  | .bool _ => none
  | .object k => k.description

def isObjectShaped : Schema → Bool
  | .bool _ => false
  | .object k => k.type = some (.one .object) || k.properties.isSome

end Schema

end SchemaCompiler
