import SchemaCompiler.Text.Quoted

/-!
# Identifiers

Names that the emitted code may declare: a letter, `_` or `$` followed by letters, digits, `_` and
`$`, all of them ASCII, and none of the reserved words. `sanitize` turns any text into such a name.
-/

namespace SchemaCompiler

def isIdentifierStart (c : Char) : Bool := c.isAlpha || c == '_' || c == '$'

def isIdentifierChar (c : Char) : Bool := isIdentifierStart c || c.isDigit

def isIdentifier (s : String) : Bool :=
  match s.toList with
  | [] => false
  | c :: cs => isIdentifierStart c && cs.all isIdentifierChar

/-- Words that cannot name a binding of a module, and type names that an alias cannot take. -/
def reservedWords : List String := [
  "await", "break", "case", "catch", "class", "const", "continue", "debugger", "default", "delete",
  "do", "else", "enum", "export", "extends", "false", "finally", "for", "function", "if", "import",
  "in", "instanceof", "new", "null", "return", "super", "switch", "this", "throw", "true", "try",
  "typeof", "var", "void", "while", "with", "yield", "let", "static", "implements", "interface",
  "package", "private", "protected", "public", "arguments", "eval", "any", "unknown", "never",
  "string", "number", "boolean", "symbol", "object", "bigint", "undefined"]

/-- The identifier made from a text: every character that cannot stand in one becomes `_`, and a
`_` goes in front of a leading digit, a reserved word and the empty text. -/
def sanitize (s : String) : String :=
  let cs := s.toList.map fun c => if isIdentifierChar c then c else '_'
  let startsBadly := match cs with
    | [] => true
    | c :: _ => c.isDigit
  if startsBadly || reservedWords.contains (String.ofList cs) then String.ofList ('_' :: cs)
  else String.ofList cs

/-- A key of a record type: bare if it is an identifier, quoted if not. -/
def recordKey (name : String) : String := if isIdentifier name then name else quote name

end SchemaCompiler
