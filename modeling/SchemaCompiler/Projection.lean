import SchemaCompiler.Definitions.Table

/-!
# Projecting schemas to types

`project` derives the type of the values that a schema accepts from the schema alone, without code.
A reference to a recursive definition is the name of its type; any other definition is inlined,
with the whole room for nested schemas again. Definitions are inlined in one another no deeper than
there are definitions, since one that would contain itself is recursive.
-/

namespace SchemaCompiler

section Node

variable (follow : String → String) (project : Schema → String)

def projectTag (k : Keywords Schema) : TypeTag → String
  | .string => "string"
  | .number => "number"
  | .integer => "number"
  | .boolean => "boolean"
  | .null => "null"
  | .array => arrayType ((k.elementSchema?.map project).getD "any")
  | .object =>
    recordType (k.fields.map fun (name, x) => ⟨name, project x, !k.requires name⟩)
      (match k.additionalProperties with
        | none => none
        | some (.bool true) => some "any"
        | some (.bool false) => none
        | some extra => some (project extra))
  | .unknown _ => "any"

def projectTyped (k : Keywords Schema) : String :=
  match k.typeShape with
  | .one tag => projectTag project k tag
  | .many [] => "any"
  | .many tags => unionType (tags.map (projectTag project k))
  | .untyped => "any"

def projectAllOf (members : List Schema) : String :=
  match members with
  | [] => "any"
  | [only] => project only
  | _ =>
    let types := members.map project
    if members.all Schema.isObjectShaped then intersectionType types
    else if types.contains "never" then "never"
    else intersectKnown types

def projectAnyOf (members : List Schema) : String :=
  match members with
  | [] => "any"
  | [only] => project only
  | _ =>
    let types := (members.map project).filter (· != "never")
    if types.isEmpty then "never" else unionType types

/-- The type of a schema whose sub-schemas are projected by `project` and references by `follow`. -/
def projectNode (schema : Schema) : String :=
  match schema.shape with
  | .bool true => "any"
  | .bool false => "never"
  | .reference pointer => follow pointer
  | .allOf members => projectAllOf project members
  | .anyOf members => projectAnyOf project members
  | .oneOf members => projectAnyOf project members
  | .not _ => "unknown"
  | .const value => literalType value
  | .enum [] => "any"
  | .enum values => unionType (values.map literalType)
  | .nullable k => projectTyped project k ++ " | null"
  | .typed k => projectTyped project k

end Node

/-- The type of a schema in which `room` schemas may be nested, itself included. -/
def projectWithin (follow : String → String) : (room : Nat) → Schema → String
  | 0, _ => "any"
  | room + 1, schema => projectNode follow (projectWithin follow room) schema

variable {defs : List Definition}

/-- The type of a reference, with at most `fuel` definitions inlined in one another. `room` is that
of a definition. -/
def followWithin (table : Table defs) (room : Nat) : (fuel : Nat) → String → String
  | fuel, pointer =>
    match lookup? defs pointer with
    | none => "any"
    | some i =>
      if table.isRecursive i then (defs.get i).name
      else
        match fuel with
        | 0 => "any"
        | fuel + 1 => projectWithin (followWithin table room fuel) room (defs.get i).schema

/-- The type of a schema at a depth. -/
def project (table : Table defs) (maxDepth : Nat) (schema : Schema) (depth : Nat) : String :=
  projectWithin (followWithin table (maxDepth + 1) defs.length) (maxDepth + 1 - depth) schema

end SchemaCompiler
