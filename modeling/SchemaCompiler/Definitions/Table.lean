import SchemaCompiler.Diagnostic
import SchemaCompiler.NameSupply
import SchemaCompiler.Schema.References
import SchemaCompiler.Validator.Basic

/-!
# The table of definitions

The definitions of a document are the schemas under `definitions` and `$defs` of its root, each
under the pointer by which references name it and with an identifier of its own
(`Schema.definitions`). They do not change; what changes while they are compiled is kept beside
them in a `Table`: which ones are recursive, and so have a binding apart from their type name,
which ones are being generated, and the validators of those that have been.
-/

namespace SchemaCompiler

/-- A schema that references can name. -/
structure Definition where
  pointer : String
  /-- The identifier for it: its binding, or its type if it is recursive. -/
  name : String
  schema : Schema
  deriving Repr

/-! ## Collecting definitions -/

namespace Schema

/-- The definitions of a root schema in order: keyword, key and schema. -/
def definitionSites : Schema → List (String × String × Schema)
  | .bool _ => []
  | .object k =>
    (k.definitions.getD []).map (fun (key, schema) => ("definitions", key, schema)) ++
    (k.defs.getD []).map (fun (key, schema) => ("$defs", key, schema))

/-- The definitions of a root schema, given identifiers that differ from each other and from the
reserved names, and the names that are taken then. -/
def definitions (root : Schema) (reserved : List String) : List Definition × NameSupply :=
  let sites := root.definitionSites
  let (names, supply) :=
    NameSupply.allocateAll ⟨reserved⟩ (sites.map fun (_, key, _) => sanitize key)
  (List.zipWith (fun (keyword, key, schema) name => ⟨pointerText [keyword, key], name, schema⟩)
    sites names, supply)

end Schema

/-! ## Tables -/

/-- How far a definition has got. -/
structure Progress where
  /-- The binding of its own that a recursive definition has. -/
  ownBinding : Option String := none
  processing : Bool := false
  generated : Option Validator := none
  deriving DecidableEq, Repr

structure Table (defs : List Definition) where
  progress : Vector Progress defs.length
  names : NameSupply
  /-- The definitions that are generated, in the order in which they were finished. -/
  completed : List (Fin defs.length)
  deriving DecidableEq, Repr

/-- The position of the definition that a reference names. -/
def lookup? (defs : List Definition) (pointer : String) : Option (Fin defs.length) :=
  defs.findFinIdx? (·.pointer == pointer)

namespace Table

variable {defs : List Definition}

def fresh (defs : List Definition) (names : NameSupply) : Table defs :=
  ⟨.replicate _ {}, names, []⟩

def isRecursive (t : Table defs) (i : Fin defs.length) : Bool :=
  (t.progress.get i).ownBinding.isSome

def isProcessing (t : Table defs) (i : Fin defs.length) : Bool := (t.progress.get i).processing

def generated? (t : Table defs) (i : Fin defs.length) : Option Validator :=
  (t.progress.get i).generated

/-- The name by which code refers to the validator of a definition. -/
def binding (t : Table defs) (i : Fin defs.length) : String :=
  (t.progress.get i).ownBinding.getD (defs.get i).name

/-- The type of a definition: its name if it is recursive, else that of its validator. -/
def type? (t : Table defs) (i : Fin defs.length) : Option String :=
  if t.isRecursive i then some (defs.get i).name else (t.generated? i).bind (·.type)

def modify (t : Table defs) (i : Fin defs.length) (f : Progress → Progress) : Table defs :=
  { t with progress := t.progress.set i (f (t.progress.get i)) }

/-- Make a definition recursive, with a binding of its own. -/
def markRecursive (t : Table defs) (i : Fin defs.length) : Table defs :=
  if t.isRecursive i then t
  else
    let (binding, names) := t.names.allocate ((defs.get i).name ++ "Schema")
    { t.modify i fun p => { p with ownBinding := some binding } with names }

def start (t : Table defs) (i : Fin defs.length) : Table defs :=
  t.modify i fun p => { p with processing := true }

def finish (t : Table defs) (i : Fin defs.length) (result : Validator) : Table defs :=
  { t.modify i fun p => { p with processing := false, generated := some result } with
    completed := t.completed ++ [i] }

end Table

end SchemaCompiler
