/-!
# Splitting texts

`splitAt` cuts a text at every occurrence of a character; `textLines` cuts it into lines, whose
ends are a line feed with or without a carriage return before it.
-/

namespace SchemaCompiler

/-- Put a character in front of the first part. -/
def onFirst (c : Char) : List (List Char) → List (List Char)
  | [] => [[c]]
  | part :: parts => (c :: part) :: parts

/-- The parts of a text between the occurrences of `separator`; one more than there are of these. -/
def splitAt (separator : Char) : List Char → List (List Char)
  | [] => [[]]
  | c :: cs =>
    if c = separator then [] :: splitAt separator cs else onFirst c (splitAt separator cs)

/-- The lines of a text without their ends; the end of the last line may be missing. -/
def textLines : List Char → List (List Char)
  | [] => []
  | '\n' :: cs => [] :: textLines cs
  | '\r' :: '\n' :: cs => [] :: textLines cs
  | c :: cs => onFirst c (textLines cs)

end SchemaCompiler
