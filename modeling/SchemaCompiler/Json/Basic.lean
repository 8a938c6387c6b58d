import SchemaCompiler.Json.Number
import SchemaCompiler.Text.Quoted

/-!
# JSON values

`Json` is a JSON value with the members of an object in their order. `Json.ofMembers` builds an
object from members as written: of a repeated name the first place and the last value count, so
that the names of the object are distinct. `Json.text` is the compact text of a value.
-/

namespace SchemaCompiler

inductive Json where
  | null
  | bool (value : Bool)
  | number (value : Number)
  | string (value : String)
  | array (elements : List Json)
  | object (members : List (String × Json))
  deriving Repr, Inhabited

/-! ## Members -/

/-- Give `name` the value `v`: in its place if it is there, else at the end. -/
def setMember {α : Type} (name : String) (v : α) : List (String × α) → List (String × α)
  | [] => [(name, v)]
  | (k, w) :: rest => if k = name then (k, v) :: rest else (k, w) :: setMember name v rest

def member? {α : Type} (name : String) : List (String × α) → Option α
  | [] => none
  | (k, v) :: rest => if k = name then some v else member? name rest

/-- Members in the order of their first occurrence, each with its last value. -/
def distinctMembers {α : Type} (members : List (String × α)) : List (String × α) :=
  members.foldl (fun kept (k, v) => setMember k v kept) []

namespace Json

/-- The object with the given members, of which names may repeat. -/
def ofMembers (members : List (String × Json)) : Json := .object (distinctMembers members)

def isString : Json → Bool
  | .string _ => true
  | _ => false

def isNumber : Json → Bool
  | .number _ => true
  | _ => false

/-! ## Compact text -/

mutual

def text : Json → String
  | .null => "null"
  | .bool b => if b then "true" else "false"
  | .number n => n.text
  | .string s => quote s
  | .array elements => "[" ++ ",".intercalate (elementTexts elements) ++ "]"
  | .object members => "\x7b" ++ ",".intercalate (memberTexts members) ++ "\x7d"

def elementTexts : List Json → List String
  | [] => []
  | x :: rest => x.text :: elementTexts rest

def memberTexts : List (String × Json) → List String
  | [] => []
  | (name, x) :: rest => (quote name ++ ":" ++ x.text) :: memberTexts rest

end

end Json

end SchemaCompiler
