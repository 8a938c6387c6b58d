import SchemaCompiler.Schema.Basic
import SchemaCompiler.Site
import SchemaCompiler.Validator.Compound
import SchemaCompiler.Validator.Literal

/-!
# Compiling schemas

`compileWithin` compiles a schema to a validator. It knows nothing of definitions: what a reference
compiles to, and what is done about an unknown type name, is left to `Handlers`, which may keep a
state. `room` is the number of schemas that may still be nested; where it runs out the validator
accepts every value.
-/

namespace SchemaCompiler

/-- What to do at a reference and at an unknown type name. -/
structure Handlers (σ : Type) where
  reference : String → Site → StateM σ Validator
  unknownType : String → Site → StateM σ Validator

section Node

variable {σ : Type} (h : Handlers σ) (compile : Schema → Site → StateM σ Validator)

/-- Compile the members of a composition from position `i` on. -/
def compileMembers (keyword : String) (site : Site) :
    (i : Nat) → List Schema → StateM σ (List Validator)
  | _, [] => pure []
  | i, x :: xs => do
    let r ← compile x (site.item keyword i)
    let rs ← compileMembers keyword site (i + 1) xs
    return r :: rs

def compileProperties (k : Keywords Schema) (site : Site) :
    List (String × Schema) → StateM σ (List Validator.Property)
  | [] => pure []
  | (name, x) :: xs => do
    let r ← compile x (site.member "properties" name)
    let ps ← compileProperties k site xs
    return ⟨name, k.requires name, r⟩ :: ps

def compileRest (k : Keywords Schema) (site : Site) : StateM σ Validator.Rest :=
  match k.additionalProperties with
  | none => pure (.free false)
  | some (.bool true) => pure (.free true)
  | some (.bool false) => pure .closed
  | some extra => .constrained <$> compile extra (site.under "additionalProperties")

/-- Compile the schema of the elements of an array; of a list of schemas only the first counts. -/
def compileElement (k : Keywords Schema) (site : Site) : StateM σ Validator :=
  match k.items with
  | some (.all schema) => compile schema (site.under "items")
  | some (.each (first :: _)) => compile first (site.item "items" 0)
  | _ => pure .any

def compileTag (k : Keywords Schema) (site : Site) : TypeTag → StateM σ Validator
  | .string => pure (.string k)
  | .number => pure (.number k false)
  | .integer => pure (.number k true)
  | .boolean => pure .boolean
  | .null => pure .null
  | .array => .array k <$> compileElement compile k site
  | .object => do
    let properties ← compileProperties compile k site k.fields
    let rest ← compileRest compile k site
    return .object properties rest
  | .unknown name => h.unknownType name site

def compileTags (k : Keywords Schema) (site : Site) : List TypeTag → StateM σ (List Validator)
  | [] => pure []
  | tag :: tags => do
    let r ← compileTag h compile k site tag
    let rs ← compileTags k site tags
    return r :: rs

def compileTyped (k : Keywords Schema) (site : Site) : StateM σ Validator :=
  match k.typeShape with
  | .one tag => compileTag h compile k site tag
  | .many tags => .union <$> compileTags h compile k site tags
  | .untyped => pure .any

/-- Compile an `allOf`; a single member stands for itself. -/
def compileAllOf (members : List Schema) (site : Site) : StateM σ Validator :=
  match members with
  | [] => pure .any
  | [only] => compile only (site.item "allOf" 0)
  | _ =>
    .allOf (members.all Schema.isObjectShaped) <$> compileMembers compile "allOf" site 0 members

/-- Compile an `anyOf` or a `oneOf`; a single member stands for itself. -/
def compileAnyOf (keyword : String) (members : List Schema) (site : Site) : StateM σ Validator :=
  match members with
  | [] => pure .any
  | [only] => compile only (site.item keyword 0)
  | _ => .anyOf <$> compileMembers compile keyword site 0 members

def compileNode (schema : Schema) (site : Site) : StateM σ Validator :=
  match schema.shape with
  | .bool true => pure .any
  | .bool false => pure .never
  | .reference pointer => h.reference pointer site
  | .allOf members => compileAllOf compile members site
  | .anyOf members => compileAnyOf compile "anyOf" members site
  | .oneOf members => compileAnyOf compile "oneOf" members site
  | .not negated => .not <$> compile negated (site.under "not")
  | .const value => pure (.const value)
  | .enum values => pure (.enum values)
  | .nullable k => .nullable <$> compileTyped h compile k site
  | .typed k => compileTyped h compile k site

end Node

/-- Compile a schema in which `room` schemas may be nested, itself included. -/
def compileWithin {σ : Type} (h : Handlers σ) : (room : Nat) → Schema → Site → StateM σ Validator
  | 0, _, _ => pure .any
  | room + 1, schema, site => compileNode h (compileWithin h room) schema site

/-- The room at a depth: schemas nested deeper than `maxDepth` are not compiled. -/
def roomAt (maxDepth depth : Nat) : Nat := maxDepth + 1 - depth

end SchemaCompiler
