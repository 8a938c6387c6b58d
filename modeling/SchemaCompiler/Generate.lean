import SchemaCompiler.Compile
import SchemaCompiler.Definitions.Cycles

/-!
# Generating definitions

A reference compiles to the binding of its definition, which is generated on the spot if it has not
been; a reference to a definition that is being generated compiles to a lazy one. So definitions
are finished in an order in which each comes after all that it refers to, other than lazily.

Definitions are generated inside one another no deeper than there are definitions, which bounds the
fuel of `generateWithin`.
-/

namespace SchemaCompiler

/-- The state of a compilation: the table of definitions and what has been found. -/
structure Run (defs : List Definition) where
  table : Table defs
  diagnostics : List Diagnostic
  deriving DecidableEq, Repr

namespace Run

variable {defs : List Definition}

/-- The state before anything is compiled: cycles have been found, nothing is generated. -/
def start (defs : List Definition) (names : NameSupply) : Run defs :=
  ⟨(Table.fresh defs names).detectCycles, []⟩

end Run

section

variable {defs : List Definition}

def updateTable (f : Table defs → Table defs) : StateM (Run defs) Unit :=
  modify fun r => { r with table := f r.table }

def report (d : Diagnostic) : StateM (Run defs) Unit :=
  modify fun r => { r with diagnostics := r.diagnostics ++ [d] }

/-- Report an unknown type name; it accepts every value. -/
def compileUnknownType (name : String) (site : Site) : StateM (Run defs) Validator := do
  report (.unknownType name site)
  return .any

/-- The validator of a definition as others refer to it. -/
def Table.referenceTo (t : Table defs) (i : Fin defs.length) : Validator :=
  ⟨t.binding i, ∅, t.type? i⟩

/-- The validator of a definition as it refers to itself, which is evaluated only when needed. -/
def Table.lazyReferenceTo (t : Table defs) (i : Fin defs.length) : Validator :=
  ⟨call "lazy" ("() => " ++ t.binding i), .ofList ["lazy"], some (defs.get i).name⟩

/-- Compile a reference, generating a definition that is not there yet by `generate`. -/
def resolveWith (generate : Fin defs.length → StateM (Run defs) Unit) (pointer : String)
    (site : Site) : StateM (Run defs) Validator :=
  match lookup? defs pointer with
  | none => do
    report (.danglingReference pointer site)
    return .any
  | some i => do
    if (← get).table.isProcessing i then
      updateTable (·.markRecursive i)
      return (← get).table.lazyReferenceTo i
    else
      if ((← get).table.generated? i).isNone then generate i
      return (← get).table.referenceTo i

def handlers (generate : Fin defs.length → StateM (Run defs) Unit) : Handlers (Run defs) :=
  ⟨resolveWith generate, compileUnknownType⟩

/-- Generate a definition, with at most `fuel` definitions generated inside one another. -/
def generateWithin (maxDepth : Nat) : (fuel : Nat) → Fin defs.length → StateM (Run defs) Unit
  | 0, _ => pure ()
  | fuel + 1, i => do
    let site := Site.ofDefinition (defs.get i).pointer
    if (← get).table.isProcessing i then report (.reentrantDefinition (defs.get i).pointer site)
    else
      updateTable (·.start i)
      let result ← compileWithin (handlers (generateWithin maxDepth fuel)) (roomAt maxDepth 0)
        (defs.get i).schema site
      updateTable (·.finish i result)

/-- Generate a definition and all that it needs. -/
def generate (maxDepth : Nat) (i : Fin defs.length) : StateM (Run defs) Unit :=
  generateWithin maxDepth defs.length i

def resolve (maxDepth : Nat) (pointer : String) (site : Site) : StateM (Run defs) Validator :=
  resolveWith (generate maxDepth) pointer site

def compile (maxDepth : Nat) (schema : Schema) (site : Site) : StateM (Run defs) Validator :=
  compileWithin (handlers (generate maxDepth)) (roomAt maxDepth site.depth) schema site

/-- Generate those of some definitions that have not been generated. -/
def generateEach (maxDepth : Nat) : List (Fin defs.length) → StateM (Run defs) Unit
  | [] => pure ()
  | i :: rest => do
    if ((← get).table.generated? i).isNone then generate maxDepth i
    generateEach maxDepth rest

def generateAll (maxDepth : Nat) : StateM (Run defs) Unit :=
  generateEach maxDepth (List.finRange defs.length)

end

end SchemaCompiler
