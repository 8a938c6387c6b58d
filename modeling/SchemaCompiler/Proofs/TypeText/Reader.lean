import SchemaCompiler.Proofs.Text.Tokens
import SchemaCompiler.Proofs.TypeText.Tree

/-!
# Reading type texts

`readType?` reads a type text as a tree. It reads tokens by recursive descent: a postfix `[]` binds
more tightly than `&`, which binds more tightly than `|`, and brackets enclose a type of their own.
String literals are single tokens. Words are names throughout, so operators that are words are not
among what is read.
-/

namespace SchemaCompiler.TypeText

/-- What reads something off the front of a list of tokens. -/
abbrev Reader (α : Type) := List TextToken → Option (α × List TextToken)

/-! ## Parts -/

/-- The tokens after a mark. -/
def expect (c : Char) : List TextToken → Option (List TextToken)
  | .mark d :: rest => if d = c then some rest else none
  | _ => none

/-- The tokens after a word. -/
def expectWord (w : String) : List TextToken → Option (List TextToken)
  | .word v :: rest => if v = w then some rest else none
  | _ => none

section Lists

variable {α : Type} (item : Reader α)

/-- Items with a mark between each two of them, one at least and no more than `bound`. -/
def readSeparated (c : Char) : (bound : Nat) → Reader (List α)
  | 0, _ => none
  | bound + 1, ts => do
    let (x, rest) ← item ts
    match expect c rest with
    | none => return ([x], rest)
    | some rest =>
      let (xs, rest) ← readSeparated c bound rest
      return (x :: xs, rest)

/-- Items with a mark between each two of them, or none, and the closing bracket. -/
def readList (c close : Char) : Reader (List α) := fun ts =>
  match readSeparated item c (ts.length + 1) ts with
  | some (xs, rest) => do return (xs, ← expect close rest)
  | none => do return ([], ← expect close ts)

end Lists

/-! ## Types -/

/-- A field of a record type or, where it has no name, the type of further keys. -/
inductive RecordEntry where
  | field (f : String × Bool × TypeTree)
  | index (type : TypeTree)

/-- The fields and the type of further keys, which may stand behind a field at the end. -/
def RecordEntry.collect? : List RecordEntry →
    Option (List (String × Bool × TypeTree) × Option TypeTree)
  | [] => some ([], none)
  | [.field f, .index t] => some ([f], some t)
  | .field f :: rest => do
    let (fields, extra) ← collect? rest
    return (f :: fields, extra)
  | .index _ :: _ => none

section Inner

variable (inner : Reader TypeTree)

/-- The rest of an entry after its name. -/
def readField (name : String) (ts : List TextToken) : Option (RecordEntry × List TextToken) := do
  let afterMark := expect '?' ts
  let (t, rest) ← inner (← expect ':' (afterMark.getD ts))
  return (.field (name, afterMark.isSome, t), rest)

/-- An entry of a record type. -/
def readEntry : Reader RecordEntry
  | .word name :: ts => readField inner name ts
  | .literal .string body :: ts => do
    readField inner (String.ofList (← unquoted? body.toList)) ts
  | .mark '[' :: ts => do
    let ts ← expectWord "string" (← expect ':' (← expectWord "key" ts))
    let (t, rest) ← inner (← expect ':' (← expect ']' ts))
    return (.index t, rest)
  | _ => none

/-- What stands between the operators of a type, without a postfix. -/
def readPrimary : Reader TypeTree
  | .word w :: ts =>
    match expect '<' ts with
    | none => do return (.word (← TypeWord.ofString? w), ts)
    | some ts => do
      if w = "Record" then
        let (t, rest) ← inner (← expect ',' (← expectWord "string" ts))
        return (.record [] (some t), ← expect '>' rest)
      else none
  | .literal .string body :: ts => do
    return (.string (String.ofList (← unquoted? body.toList)), ts)
  | .mark '(' :: ts => do
    let (t, rest) ← inner ts
    return (t, ← expect ')' rest)
  | .mark '[' :: ts => do
    let (elements, rest) ← readList inner ',' ']' ts
    return (.tuple elements, rest)
  | .mark '\x7b' :: ts => do
    let (entries, rest) ← readList (readEntry inner) ';' '\x7d' ts
    let (fields, index) ← RecordEntry.collect? entries
    return (.record fields index, rest)
  | _ => none

/-- The arrays of a type, as many as there are `[]` after it. -/
def readSuffix (t : TypeTree) : List TextToken → TypeTree × List TextToken
  | .mark '[' :: .mark ']' :: rest => readSuffix (.array t) rest
  | rest => (t, rest)

def readOperand : Reader TypeTree := fun ts => do
  let (t, rest) ← readPrimary inner ts
  return readSuffix t rest

def readIntersection : Reader TypeTree := fun ts => do
  let (factors, rest) ← readSeparated (readOperand inner) '&' (ts.length + 1) ts
  return (.intersectionOf factors, rest)

def readUnion : Reader TypeTree := fun ts => do
  let (alternatives, rest) ← readSeparated (readIntersection inner) '|' (ts.length + 1) ts
  return (.unionOf alternatives, rest)

end Inner

/-- A type, in brackets no deeper than `fuel`. -/
def readTypeWithin : (fuel : Nat) → Reader TypeTree
  | 0, _ => none
  | fuel + 1, ts => readUnion (readTypeWithin fuel) ts

/-- The tree that a type text stands for. Brackets in it cannot be deeper than it is long. -/
def readType? (text : String) : Option TypeTree :=
  let ts := tokens isTypeChar text.toList
  match readTypeWithin (ts.length + 1) ts with
  | some (t, []) => some t
  | _ => none

end SchemaCompiler.TypeText
