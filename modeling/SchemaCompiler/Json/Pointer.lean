import SchemaCompiler.Json.Basic
import SchemaCompiler.Text.Decimal
import SchemaCompiler.Text.Split

/-!
# JSON pointers

A pointer is a list of tokens, each after a slash; in a token `~` is written `~0` and `/` is
written `~1`. `Json.atPointer?` is the value that a pointer selects.
-/

namespace SchemaCompiler

/-- The written form of a token. -/
def escapeToken : List Char → List Char
  | [] => []
  | '~' :: cs => '~' :: '0' :: escapeToken cs
  | '/' :: cs => '~' :: '1' :: escapeToken cs
  | c :: cs => c :: escapeToken cs

/-- The token of a written form; a `~` that escapes nothing stands for itself. -/
def unescapeToken : List Char → List Char
  | [] => []
  | '~' :: '0' :: cs => '~' :: unescapeToken cs
  | '~' :: '1' :: cs => '/' :: unescapeToken cs
  | c :: cs => c :: unescapeToken cs

/-- The written form of a path: a number sign, and every token after a slash. -/
def pointerText (path : List String) : String :=
  String.ofList ('#' :: path.flatMap fun token => '/' :: escapeToken token.toList)

/-- The tokens of a written path that are not empty. -/
def pointerTokens (pointer : String) : List String :=
  let parts := splitAt '/' (pointer.toList.dropWhile (· == '#'))
  (parts.filter (!·.isEmpty)).map fun part => String.ofList (unescapeToken part)

/-- A position in a list: a numeral without sign and without leading zeros. -/
def listIndex? : List Char → Option Nat
  | ['0'] => some 0
  | '0' :: _ => none
  | digits => decimal? digits

namespace Json

def select? (token : List Char) : Json → Option Json
  | .object members => member? (String.ofList token) members
  | .array elements => (listIndex? token).bind fun i => elements[i]?
  | _ => none

/-- The value that a pointer selects: the value itself by the empty pointer. -/
def atPointer? (value : Json) (pointer : String) : Option Json :=
  match pointer.toList with
  | [] => some value
  | '/' :: tokens =>
    (splitAt '/' tokens).foldlM (fun target token => target.select? (unescapeToken token)) value
  | _ => none

end Json

end SchemaCompiler
