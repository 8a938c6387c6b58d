/-!
# Regular expression literals

A pattern is embedded between slashes as it is written, but for what would end the literal early: a
bare slash, the four line ends, with or without a backslash before them, and a lone backslash at
the end.
-/

namespace SchemaCompiler

/-- The escape of a character that ends a line. -/
def lineEndEscape? (c : Char) : Option (List Char) :=
  if c = '\n' then some ['\\', 'n']
  else if c = '\r' then some ['\\', 'r']
  else if c = '\u2028' then some ['\\', 'u', '2', '0', '2', '8']
  else if c = '\u2029' then some ['\\', 'u', '2', '0', '2', '9']
  else none

def patternBody : List Char → List Char
  | [] => []
  | '\\' :: [] => ['\\', '\\']
  | '\\' :: c :: rest => (lineEndEscape? c).getD ['\\', c] ++ patternBody rest
  | '/' :: rest => '\\' :: '/' :: patternBody rest
  | c :: rest => (lineEndEscape? c).getD [c] ++ patternBody rest

def regexLiteral (pattern : String) : String :=
  String.ofList ('/' :: patternBody pattern.toList ++ ['/'])

end SchemaCompiler
