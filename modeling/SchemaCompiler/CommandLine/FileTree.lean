import SchemaCompiler.CommandLine.Path
import SchemaCompiler.Json.Basic

/-!
# File trees

What can go wrong with files, and a tree of files held in memory, in which the command can be run.
A location is the list of names that lead there from the working directory; it starts with `..`
outside of that, and with `/` if the path does.
-/

namespace SchemaCompiler

inductive FileFault where
  | missing
  | exists
  | notDirectory
  | isDirectory
  | nameTooLong
  | notText
  /-- Another fault, in the words of the system. -/
  | other (description : String)
  deriving DecidableEq, Repr

def FileFault.message : FileFault → String
  | .missing => "No such file or directory (os error 2)"
  | .exists => "File exists (os error 17)"
  | .notDirectory => "Not a directory (os error 20)"
  | .isDirectory => "Is a directory (os error 21)"
  | .nameTooLong => "File name too long (os error 36)"
  | .notText => "stream did not contain valid UTF-8"
  | .other description => description

abbrev Location := List String

/-- A tree of files; the working directory and those above it are always there. -/
structure FileTree where
  files : List (Location × String) := []
  directories : List Location := []
  deriving DecidableEq, Repr

namespace FileTree

def file? (t : FileTree) (l : Location) : Option String :=
  (t.files.find? (·.1 == l)).map (·.2)

def isDirectory (t : FileTree) (l : Location) : Bool :=
  l.all (· == "..") || l == ["/"] || t.directories.contains l

def above (l : Location) : Location :=
  if l == ["/"] then l
  else if l.all (· == "..") then ".." :: l
  else l.dropLast

/-- The location that names lead to from `l`; all on the way but the last are directories. -/
def walk (t : FileTree) : Location → List String → Except FileFault Location
  | l, [] => .ok l
  | l, name :: rest =>
    if !t.isDirectory l then
      .error (if (t.file? l).isSome then .notDirectory else .missing)
    else if name == "" || name == "." then t.walk l rest
    else if name == ".." then t.walk (above l) rest
    else if 255 < name.utf8ByteSize then .error .nameTooLong
    else t.walk (l ++ [name]) rest

/-- The location that the names of a path lead to. -/
def locateNames (t : FileTree) (path : String) (names : List String) :
    Except FileFault Location :=
  if path.isEmpty then .error .missing
  else if 4096 ≤ path.utf8ByteSize then .error .nameTooLong
  else t.walk (if path.startsWith "/" then ["/"] else []) names

def locate (t : FileTree) (path : String) : Except FileFault Location :=
  t.locateNames path (pathNames path)

def textAt (t : FileTree) (path : String) : Except FileFault String := do
  let l ← t.locate path
  match t.file? l with
  | some text => return text
  | none => .error (if t.isDirectory l then .isDirectory else .missing)

/-- The tree with a file put in place of the one at `l`, if there is one. -/
def put (t : FileTree) (l : Location) (text : String) : FileTree :=
  { t with files := (l, text) :: t.files.filter (·.1 != l) }

/-- Write a file; a path with a slash at its end leads to none. -/
def writeFile (t : FileTree) (path text : String) : Except FileFault FileTree := do
  let l ← t.locateNames path ((pathNames path).reverse.dropWhile (·.isEmpty)).reverse
  if t.isDirectory l || path.endsWith "/" then .error .isDirectory else return t.put l text

def createDirectory (t : FileTree) (path : String) : Except FileFault FileTree := do
  let l ← t.locate path
  if t.isDirectory l || (t.file? l).isSome then .error .exists
  else return { t with directories := l :: t.directories }

def hasDirectory (t : FileTree) (path : String) : Bool :=
  match t.locate path with
  | .ok l => t.isDirectory l
  | .error _ => false

end FileTree

end SchemaCompiler
