import SchemaCompiler.Identifier
import SchemaCompiler.Json.Basic

/-!
# Type texts

The TypeScript types that stand for schemas, as texts: arrays, unions, intersections, records and
the types of literal values. A type is put in parentheses where the operator around it binds more
tightly than one at its top level, which `hasTopLevel` looks for.
-/

namespace SchemaCompiler

/-- Where a scan of a type text is: outside string literals, in one, or in one after a
backslash. -/
inductive QuoteState where
  | outside
  | inside
  | escaped
  deriving DecidableEq, Repr

/-- Whether `op` occurs in the rest of a type text outside of brackets and string literals, where
`depth` brackets are open. -/
def occursAtTop (op : Char) : QuoteState → (depth : Int) → List Char → Bool
  | _, _, [] => false
  | .escaped, depth, _ :: cs => occursAtTop op .inside depth cs
  | .inside, depth, c :: cs =>
    if c = '\\' then occursAtTop op .escaped depth cs
    else if c = '"' then occursAtTop op .outside depth cs
    else occursAtTop op .inside depth cs
  | .outside, depth, c :: cs =>
    if c = '"' then occursAtTop op .inside depth cs
    else if c = '(' ∨ c = '[' ∨ c = '\x7b' ∨ c = '<' then occursAtTop op .outside (depth + 1) cs
    else if c = ')' ∨ c = ']' ∨ c = '\x7d' ∨ c = '>' then occursAtTop op .outside (depth - 1) cs
    else if c = op ∧ depth = 0 then true
    else occursAtTop op .outside depth cs

/-- Whether `op` occurs in a type text outside of brackets and string literals. -/
def hasTopLevel (op : Char) (type : String) : Bool := occursAtTop op .outside 0 type.toList

/-- `T[]`, with `T` in parentheses if it is a union or an intersection. -/
def arrayType (element : String) : String :=
  if hasTopLevel '|' element || hasTopLevel '&' element then "(" ++ element ++ ")[]"
  else element ++ "[]"

/-- The list without the elements that have occurred before. -/
def firstOccurrences (xs : List String) : List String :=
  xs.foldl (fun kept x => if kept.contains x then kept else kept ++ [x]) []

/-- `A | B`, each member once. -/
def unionType (members : List String) : String := " | ".intercalate (firstOccurrences members)

/-- `A & B`, unions in parentheses. -/
def intersectionType (members : List String) : String :=
  " & ".intercalate (members.map fun t => if hasTopLevel '|' t then "(" ++ t ++ ")" else t)

/-- The intersection of the members that are not `any`, and `any` if there are none. -/
def intersectKnown (members : List String) : String :=
  let known := members.filter (· != "any")
  if known.isEmpty then "any" else intersectionType known

structure Field where
  name : String
  type : String
  optional : Bool
  deriving DecidableEq, Repr

def Field.text (f : Field) : String :=
  recordKey f.name ++ (if f.optional then "?" else "") ++ ": " ++ f.type

/-- `{ a: T; b?: U; [key: string]: X }`, or `Record<string, X>` if there is only the type of
further keys, or `{}` if there is nothing. -/
def recordType (fields : List Field) (index : Option String) : String :=
  if fields.isEmpty then
    match index with
    | some t => "Record<string, " ++ t ++ ">"
    | none => "\x7b\x7d"
  else
    let rest := match index with
      | some t => ["[key: string]: " ++ t]
      | none => []
    "\x7b " ++ "; ".intercalate (fields.map Field.text ++ rest) ++ " \x7d"

mutual

/-- The type of a literal value: its own text for a scalar, a tuple or a record otherwise. -/
def literalType : Json → String
  | .array elements => "[" ++ ", ".intercalate (literalTypes elements) ++ "]"
  | .object members => recordType (literalFields members) none
  | scalar => scalar.text

def literalTypes : List Json → List String
  | [] => []
  | x :: rest => literalType x :: literalTypes rest

def literalFields : List (String × Json) → List Field
  | [] => []
  | (name, x) :: rest => ⟨name, literalType x, false⟩ :: literalFields rest

end

end SchemaCompiler
