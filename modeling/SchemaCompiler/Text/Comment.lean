import SchemaCompiler.Text.Split

/-!
# Comment blocks

A description as a comment, a line for each of its lines. A backslash keeps what would end a
comment from doing so.
-/

namespace SchemaCompiler

/-- A line with a backslash inside everything that ends a comment. -/
def escapeCommentEnd : List Char → List Char
  | [] => []
  | '*' :: '/' :: cs => '*' :: '\\' :: '/' :: escapeCommentEnd cs
  | c :: cs => c :: escapeCommentEnd cs

def commentLine (line : List Char) : List Char :=
  if line.isEmpty then [' ', '*', '\n']
  else ' ' :: '*' :: ' ' :: escapeCommentEnd line ++ ['\n']

def commentBlock (description : String) : String :=
  "/**\n" ++ String.ofList ((textLines description.toList).flatMap commentLine) ++ " */\n"

end SchemaCompiler
