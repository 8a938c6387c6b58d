import SchemaCompiler.Json.Document
import SchemaCompiler.Text.Visible

/-!
# Reading documents as data

What the readers of schemas and options have in common: the readers of scalars, and the error that
says what was found where something else was expected, with the path to it. A reader that only
looks at the first byte reports a bracket at the place before it (`Found.ahead`); a reader that
would take any value opens the bracket first and reports the place settled on after it, if the
nesting limit allows that (`Found.within`).
-/

namespace SchemaCompiler

/-- A value as far as a report of it goes. -/
inductive Found where
  | null
  | bool (value : Bool)
  | number (value : Number)
  | string (value : String)
  | list
  | object
  deriving DecidableEq, Repr

def Found.message : Found → String
  | .null => "null"
  | .bool b => if b then "boolean `true`" else "boolean `false`"
  | .number (.integer i) => s!"integer `{i}`"
  | .number (.double x) => s!"floating point `{x.text}`"
  | .string s => "string " ++ shown s
  | .list => "sequence"
  | .object => "map"

inductive Expected where
  | schema
  | items
  | string
  | word
  | size
  | flag
  | number
  | list
  | object
  | options
  | unit
  | stringOrObject
  | singleMember
  deriving DecidableEq, Repr

def Expected.message : Expected → String
  | .schema => "a JSON Schema (boolean or object)"
  | .items => "a schema or an array of schemas"
  | .string => "a string"
  | .word => "u64"
  | .size => "usize"
  | .flag => "a boolean"
  | .number => "a JSON number"
  | .list => "a sequence"
  | .object => "a map"
  | .options => "struct Options"
  | .unit => "unit"
  | .stringOrObject => "string or map"
  | .singleMember => "map with a single key"

/-- Why a value is not what a reader expects. -/
inductive Mismatch where
  /-- It is of another kind. -/
  | kind (found : Found) (expected : Expected)
  /-- It is of the right kind and still does not fit. -/
  | range (found : Found) (expected : Expected)
  | noTypeSet
  | noExclusiveBound
  /-- Its name has occurred in the object before. -/
  | repeated (name : String)
  | noModuleStyle (name : String)
  | tooLong (length : Nat)
  deriving DecidableEq, Repr

def Mismatch.message : Mismatch → String
  | .kind found expected => s!"invalid type: {found.message}, expected {expected.message}"
  | .range found expected => s!"invalid value: {found.message}, expected {expected.message}"
  | .noTypeSet => "data did not match any variant of untagged enum TypeSet"
  | .noExclusiveBound => "data did not match any variant of untagged enum Exclusive"
  | .repeated name => s!"duplicate field `{name}`"
  | .noModuleStyle name => s!"unknown variant `{name}`, expected one of `esm`, `cjs`, `none`"
  | .tooLong length => s!"invalid length {length}, expected fewer elements in array"

/-- A step from a value to one in it. -/
inductive Step where
  | key (name : String)
  | index (i : Nat)
  deriving DecidableEq, Repr

namespace Step

/-- The steps after the first, names under a dot and positions in brackets. -/
def tail : List Step → String
  | [] => ""
  | .key name :: rest => "." ++ name ++ tail rest
  | .index i :: rest => s!"[{i}]" ++ tail rest

/-- A path as reports show it: `properties.a.items[1]`, and `.` for the value itself. -/
def pathText : List Step → String
  | [] => "."
  | .key name :: rest => name ++ tail rest
  | .index i :: rest => s!"[{i}]" ++ tail rest

end Step

inductive ReadError (P : Type) where
  | syntactic (fault : Fault P)
  | mismatch (path : List Step) (cause : Mismatch) (place : P)
  deriving DecidableEq, Repr

def ReadError.under {P : Type} (step : Step) : ReadError P → ReadError P
  | .syntactic fault => .syntactic fault
  | .mismatch path cause place => .mismatch (step :: path) cause place

/-- What a reader makes of a document over places in `P`. -/
abbrev Reading (P α : Type) := Except (ReadError P) α

variable {P α : Type}

def Reading.under (step : Step) (r : Reading P α) : Reading P α := r.mapError (ReadError.under step)

/-- A value read in full or not at all. -/
def Reading.ofFault (r : Except (Fault P) α) : Reading P α := r.mapError .syntactic

namespace Document

/-- The error of a reader that expects something else than a scalar or a bracket found here. -/
def refuse (expected : Expected) (bracket : Found → Bracket P → ReadError P) :
    Document P → ReadError P
  | .null token => .mismatch [] (.kind .null expected) token.after
  | .bool b token => .mismatch [] (.kind (.bool b) expected) token.after
  | .number (.ok n) token => .mismatch [] (.kind (.number n) expected) token.after
  | .number (.error f) _ => .syntactic f
  | .string (.ok s) token => .mismatch [] (.kind (.string s) expected) token.after
  | .string (.error f) _ => .syntactic f
  | .array b _ => bracket .list b
  | .object b _ => bracket .object b
  | .broken _ reading _ => .syntactic reading

/-- The error of a reader that looks at the first byte only. -/
def refuseAhead (expected : Expected) : Document P → ReadError P :=
  refuse expected fun found b => .mismatch [] (.kind found expected) b.before

/-- The error of a reader that would take any value. -/
def refuseWithin (expected : Expected) : Document P → ReadError P :=
  refuse expected fun found b =>
    if b.tooDeep then .syntactic ⟨.nestedTooDeep, b.after⟩
    else .mismatch [] (.kind found expected) b.settled

/-- What `read` makes of the document, or nothing for a `null`. -/
def optional (read : Document P → Reading P α) : Document P → Reading P (Option α)
  | .null _ => .ok none
  | d => (read d).map some

def isNull : Document P → Bool
  | .null _ => true
  | _ => false

def readString : Document P → Reading P String
  | .string (.ok s) _ => .ok s
  | d => .error (d.refuseAhead .string)

def readFlag : Document P → Reading P Bool
  | .bool b _ => .ok b
  | d => .error (d.refuseAhead .flag)

/-- An unsigned integer, which a number of the text is if it is an integer and not negative. -/
def readCount (expected : Expected) : Document P → Reading P Nat
  | .number (.ok (.integer i)) token =>
    if 0 ≤ i then .ok i.toNat
    else .error (.mismatch [] (.range (.number (.integer i)) expected) token.after)
  | d => .error (d.refuseAhead expected)

def readNumber : Document P → Reading P Number
  | .number (.ok n) _ => .ok n
  | d => .error (d.refuseWithin .number)

def readJson (d : Document P) : Reading P Json := .ofFault d.toJson

end Document

/-! ## Lists of plain data -/

/-- The elements of a list from position `i` on, each by `read`. -/
def Elements.readEach (read : Document P → Reading P α) :
    (i : Nat) → Elements P → Reading P (List α)
  | _, .close => .ok []
  | _, .broken reading _ => .error (.syntactic reading)
  | i, .cons first rest => do
    let a ← (read first).under (.index i)
    let as ← rest.readEach read (i + 1)
    return a :: as

def Document.readList (read : Document P → Reading P α) : Document P → Reading P (List α)
  | .array b elements =>
    if b.tooDeep then .error (.syntactic ⟨.nestedTooDeep, b.after⟩) else elements.readEach read 0
  | d => .error (d.refuseAhead .list)

end SchemaCompiler
