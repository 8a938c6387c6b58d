import SchemaCompiler.Generate
import SchemaCompiler.Module
import SchemaCompiler.Projection
import SchemaCompiler.Schema.Read

/-!
# Conversions

`convert` compiles a root schema with its definitions and lays out the module: first the
definitions in the order in which they were finished, then the root schema. A recursive definition
is declared with its projected type under its own name, and its binding with that type, which lets
the binding refer to itself.
-/

namespace SchemaCompiler

structure Conversion where
  code : String
  imports : SymbolSet
  diagnostics : List Diagnostic
  deriving DecidableEq, Repr

structure Compilation (defs : List Definition) where
  root : Validator
  run : Run defs
  deriving DecidableEq, Repr

namespace Options

def rootName (o : Options) : String := sanitize o.name

def rootTypeName (o : Options) : String := o.rootName ++ "Type"

/-- The names that definitions may not take. -/
def reserved (o : Options) : List String := ["v", o.rootName, o.rootTypeName]

/-- The description of a schema, if descriptions are emitted. -/
def comment (o : Options) (schema : Schema) : Option String :=
  if o.withComments then schema.description? else none

end Options

/-- Compile all definitions and then the root schema. -/
def compileRoot (defs : List Definition) (names : NameSupply) (maxDepth : Nat) (schema : Schema) :
    Compilation defs :=
  let steps : StateM (Run defs) Validator := do
    generateAll maxDepth
    compile maxDepth schema .root
  let (root, run) := steps.run (.start defs names)
  ⟨root, run⟩

section

variable {defs : List Definition}

def definitionBlock (o : Options) (t : Table defs) (i : Fin defs.length) (generated : Validator) :
    Block :=
  let name := (defs.get i).name
  ⟨o.comment (defs.get i).schema, o.style = .esm && o.exportDefinitions,
    if t.isRecursive i then
      [.typeAlias name (project t o.maxDepth (defs.get i).schema 0),
        .binding (t.binding i) (some ("v.GenericSchema<" ++ name ++ ">")) generated.code]
    else [.binding (t.binding i) none generated.code]⟩

def Table.finished (t : Table defs) : List (Fin defs.length × Validator) :=
  t.completed.filterMap fun i => (t.generated? i).map fun r => (i, r)

def Compilation.module (c : Compilation defs) (o : Options) (schema : Schema) : Module :=
  let t := c.run.table
  { style := o.style
    definitions := t.finished.map fun (i, r) => definitionBlock o t i r
    root := ⟨o.comment schema, o.style = .esm, [.binding o.rootName none c.root.code]⟩
    rootType :=
      if o.withTypes then
        some ⟨none, o.style = .esm, [.typeAlias o.rootTypeName (project t o.maxDepth schema 0)]⟩
      else none
    exports :=
      (if o.exportDefinitions then t.finished.map fun (i, _) => t.binding i else []) ++
        [o.rootName] }

/-- The library symbols that a compiled schema and its definitions use. -/
def Compilation.imports (c : Compilation defs) : SymbolSet :=
  c.run.table.finished.foldr (fun (_, r) s => r.imports ∪ s) c.root.imports

end

def convert (schema : Schema) (o : Options) : Conversion :=
  let (defs, names) := schema.definitions o.reserved
  let c := compileRoot defs names o.maxDepth schema
  ⟨(c.module o schema).text, c.imports, c.run.diagnostics⟩

end SchemaCompiler
