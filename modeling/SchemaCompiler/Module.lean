import SchemaCompiler.Options
import SchemaCompiler.SymbolSet
import SchemaCompiler.Text.Comment

/-!
# Modules

The emitted module as data: a block of statements for each definition and one for the root schema,
and its text in each of the module styles.
-/

namespace SchemaCompiler

inductive Statement where
  | typeAlias (name type : String)
  /-- A binding; `declaredType` is the type that it is declared to have, if any. -/
  | binding (name : String) (declaredType : Option String) (code : String)
  deriving DecidableEq, Repr

namespace Statement

def name : Statement → String
  | .typeAlias name _ => name
  | .binding name _ _ => name

def text (exported : Bool) (s : Statement) : String :=
  (if exported then "export " else "") ++
  match s with
  | .typeAlias name type => s!"type {name} = {type};\n"
  | .binding name none code => s!"const {name} = {code};\n"
  | .binding name (some declaredType) code => s!"const {name}: {declaredType} = {code};\n"

end Statement

/-- Declarations that belong together, under a comment if there is a description. -/
structure Block where
  description : Option String
  exported : Bool
  statements : List Statement
  deriving DecidableEq, Repr

def Block.text (b : Block) : String :=
  ((b.description.map commentBlock).getD "") ++
  String.join (b.statements.map (Statement.text b.exported))

structure Module where
  style : ModuleStyle
  definitions : List Block
  root : Block
  /-- The type of the root schema, if it is emitted. -/
  rootType : Option Block
  exports : List String
  deriving DecidableEq, Repr

namespace Module

/-- The statement that brings in the library. -/
def header : ModuleStyle → String
  | .esm => "import * as v from 'valibot';\n\n"
  | .cjs => "const v = require('valibot');\n\n"
  | .none => ""

/-- The statement that exports bindings where they cannot be exported one by one. -/
def footer (style : ModuleStyle) (exports : List String) : String :=
  match style with
  | .cjs => "\nmodule.exports = \x7b " ++ ", ".intercalate exports ++ " \x7d;\n"
  | _ => ""

def blocks (m : Module) : List Block := m.definitions ++ m.root :: m.rootType.toList

def declared (m : Module) : List String :=
  m.blocks.flatMap fun b => b.statements.map Statement.name

def text (m : Module) : String :=
  header m.style ++
  String.join (m.definitions.map fun b => b.text ++ "\n") ++
  m.root.text ++
  ((m.rootType.map fun b => "\n" ++ b.text).getD "") ++
  footer m.style m.exports

end Module

end SchemaCompiler
