import SchemaCompiler.Text.Split

/-!
# File paths

A path is a text of names between slashes. Empty names and names `.` count for nothing, except at
the start of a path.
-/

namespace SchemaCompiler

/-- The names of a path, with those that count for nothing. -/
def pathNames (path : String) : List String := (splitAt '/' path.toList).map String.ofList

/-- A path without its last names if these count for nothing, and without the last that does. -/
def parentPath? (path : String) : Option String :=
  let idle (name : String) : Bool := name == "" || name == "."
  match pathNames path with
  | [] => none
  | first :: rest =>
    match rest.reverse.dropWhile idle with
    | [] => none
    | _ :: before =>
      match first, before.dropWhile idle with
      | "", [] => some "/"
      | first, kept => some ("/".intercalate (first :: kept.reverse))

end SchemaCompiler
