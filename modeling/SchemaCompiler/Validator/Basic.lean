import SchemaCompiler.SymbolSet
import SchemaCompiler.TypeText

/-!
# Validators

A validator is a piece of emitted code with the library symbols it uses and, where one is known,
the type of the values it accepts. Code refers to the library as `v`: `call` writes the call of a
library function. `Validator.union` joins alternatives, of which equal code counts once.
-/

namespace SchemaCompiler

def call (symbol argument : String) : String := "v." ++ symbol ++ "(" ++ argument ++ ")"

def callWithList (symbol : String) (elements : List String) : String :=
  call symbol ("[" ++ ", ".intercalate elements ++ "]")

/-- Code that validates a value, the library symbols in it, and the type it stands for. -/
structure Validator where
  code : String
  imports : SymbolSet
  type : Option String
  deriving DecidableEq, Repr

namespace Validator

/-- The call of one library function, of a known type. -/
def ofCall (symbol argument type : String) : Validator :=
  ⟨call symbol argument, .ofList [symbol], some type⟩

def any : Validator := ofCall "any" "" "any"

def never : Validator := ofCall "never" "" "never"

instance : Inhabited Validator := ⟨any⟩

def isAny (r : Validator) : Bool := r.code == "v.any()"

def isNever (r : Validator) : Bool := r.code == "v.never()"

def withImport (r : Validator) (symbol : String) : Validator :=
  { r with imports := r.imports.insert symbol }

/-- The type, where `any` stands for an unknown one. -/
def typeOrAny (r : Validator) : String := r.type.getD "any"

/-- Accepts `null` besides what `base` accepts. -/
def nullable (base : Validator) : Validator :=
  ⟨call "nullable" base.code, base.imports.insert "nullable", base.type.map (· ++ " | null")⟩

/-! ## Several validators -/

def mergedImports (members : List Validator) : SymbolSet :=
  members.foldr (fun r s => r.imports ∪ s) ∅

/-- The types of all members, if all have one. -/
def knownTypes : List Validator → Option (List String)
  | [] => some []
  | r :: rest => do
    let t ← r.type
    let ts ← knownTypes rest
    return t :: ts

/-- A call with the list of all members, of the type made from theirs. -/
def ofMembers (symbol : String) (type : List String → String) (members : List Validator) :
    Validator :=
  ⟨callWithList symbol (members.map (·.code)), (mergedImports members).insert symbol,
    (knownTypes members).map type⟩

/-- The members without those whose code has occurred before. -/
def distinctByCode (members : List Validator) : List Validator :=
  members.foldl
    (fun kept r => if kept.any (·.code == r.code) then kept else kept ++ [r]) []

/-- Accepts what some member accepts; a member that is left alone stands for itself. -/
def union (members : List Validator) : Validator :=
  match distinctByCode members with
  | [] => any
  | [only] => only
  | distinct => ofMembers "union" unionType distinct

end Validator

/-! ## Pipes -/

structure Action where
  symbol : String
  argument : String
  deriving DecidableEq, Repr

def Action.code (a : Action) : String := call a.symbol a.argument

/-- `base` followed by actions, if there are any. -/
def Validator.pipe (base : Validator) (actions : List Action) : Validator :=
  if actions.isEmpty then base
  else
    ⟨call "pipe" (", ".intercalate (base.code :: actions.map Action.code)),
      (base.imports ∪ .ofList (actions.map (·.symbol))).insert "pipe", base.type⟩

/-! ## Object literals -/

/-- Code shifted by two spaces, but for its first line. -/
def shifted (code : String) : String :=
  String.ofList (code.toList.flatMap fun c => if c = '\n' then ['\n', ' ', ' '] else [c])

/-- An entry of an object literal on a line of its own. -/
def entryText (entry : String × String) : String := "  " ++ entry.1 ++ ": " ++ shifted entry.2

/-- An object literal of keys as written and code, one entry a line. -/
def objectLiteral (entries : List (String × String)) : String :=
  if entries.isEmpty then "\x7b\x7d"
  else "\x7b\n" ++ ",\n".intercalate (entries.map entryText) ++ "\n\x7d"

end SchemaCompiler
