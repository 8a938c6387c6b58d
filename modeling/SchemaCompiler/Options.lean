import SchemaCompiler.Json.Reader
import SchemaCompiler.Json.Scan

/-!
# Options

The settings of a conversion. They may be given as an object, in which each may be missing, or as a
list in the order of the fields, which may end early. A module style is a string or an object
`{"cjs": null}` with the style as its one name. Texts and values are read alike but for how a
module style of another kind and a list that is too long are reported.
-/

namespace SchemaCompiler

/-- How the emitted module imports and exports. -/
inductive ModuleStyle where
  /-- `import` and `export`. -/
  | esm
  /-- `require` and `module.exports`. -/
  | cjs
  /-- Neither. -/
  | none
  deriving DecidableEq, Repr

namespace ModuleStyle

def name : ModuleStyle → String
  | .esm => "esm"
  | .cjs => "cjs"
  | .none => "none"

def ofName? : String → Option ModuleStyle
  | "esm" => some .esm
  | "cjs" => some .cjs
  | "none" => some .none
  | _ => Option.none

end ModuleStyle

structure Options where
  /-- The binding of the root schema, before it is made an identifier. -/
  name : String := "schema"
  style : ModuleStyle := .esm
  withTypes : Bool := false
  withComments : Bool := false
  /-- Schemas nested deeper than this accept every value. -/
  maxDepth : Nat := 10
  exportDefinitions : Bool := true
  deriving DecidableEq, Repr

namespace Options

variable {P : Type}

/-- Where texts and values differ. -/
structure Source (P : Type) where
  style : Document P → Reading P ModuleStyle
  /-- Refuse what is left of a list whose first elements are all that is needed, if it is not the
  end. -/
  surplus : Elements P → Option (ReadError P)

def fieldNames : List String :=
  ["name", "module", "withTypes", "withJsDoc", "maxDepth", "exportDefinitions"]

def readField (source : Source P) (o : Options) (name : String) (d : Document P) :
    Reading P Options :=
  match name with
  | "name" => d.readString.map fun x => { o with name := x }
  | "module" => (source.style d).map fun x => { o with style := x }
  | "withTypes" => d.readFlag.map fun x => { o with withTypes := x }
  | "withJsDoc" => d.readFlag.map fun x => { o with withComments := x }
  | "maxDepth" => (d.readCount .size).map fun x => { o with maxDepth := x }
  | "exportDefinitions" => d.readFlag.map fun x => { o with exportDefinitions := x }
  | _ => .ok o

/-- Read the members of an object on top of `o`, where those in `seen` have occurred already. -/
def readMembers (source : Source P) (seen : List String) (o : Options) :
    Members P → Reading P Options
  | .close => .ok o
  | .broken reading _ => .error (.syntactic reading)
  | .cons name token value _ rest => do
    let name ← Reading.ofFault name
    if fieldNames.contains name then
      if seen.contains name then .error (.mismatch [] (.repeated name) token.settled)
      else
        let o ← readField source o name value
        readMembers source (name :: seen) o rest
    else
      match value.outlineFault? with
      | some f => .error (.syntactic f)
      | none => readMembers source seen o rest

/-- Read the elements of a list as the given settings in turn. -/
def readElements (source : Source P) (o : Options) : List String → Elements P → Reading P Options
  | [], rest =>
    match source.surplus rest with
    | some e => .error e
    | none => .ok o
  | _ :: _, .close => .ok o
  | _ :: _, .broken reading _ => .error (.syntactic reading)
  | name :: names, .cons first rest => do
    let o ← readField source o name first
    readElements source o names rest

def read (source : Source P) : Document P → Reading P Options
  | .object b members =>
    if b.tooDeep then .error (.syntactic ⟨.nestedTooDeep, b.after⟩)
    else readMembers source [] {} members
  | .array b elements =>
    if b.tooDeep then .error (.syntactic ⟨.nestedTooDeep, b.after⟩)
    else readElements source {} fieldNames elements
  | d => .error (d.refuseAhead .options)

/-- The style of a name, which is reported at `place` if there is none. -/
def styleNamed (name : String) (place : P) : Reading P ModuleStyle :=
  match ModuleStyle.ofName? name with
  | some style => .ok style
  | none => .error (.mismatch [] (.noModuleStyle name) place)

/-- Check for the `null` that goes with a style. -/
def readUnit : Document P → Reading P Unit
  | .null _ => .ok ()
  | d => .error (d.refuseAhead .unit)

/-! ## Texts -/

/-- The place one byte into a document. -/
def ahead : Document P → P
  | .null token => token.ahead
  | .bool _ token => token.ahead
  | .number _ token => token.ahead
  | .string _ token => token.ahead
  | .array b _ => b.after
  | .object b _ => b.after
  | .broken place _ _ => place

/-- What a reader reports that needs a string or a brace here and finds a broken value: the end of
the text and what breaks a string are reported as such. -/
def brokenStyle (place : P) (f : Fault P) : Fault P :=
  match f.cause with
  | .expectedLiteral => ⟨.expectedValue, place⟩
  | .invalidNumber => ⟨.expectedValue, place⟩
  | _ => f

/-- What a reader reports that needs a string after a brace and finds no member. -/
def brokenVariant (f : Fault P) : Fault P :=
  match f.cause with
  | .endInObject => ⟨.endInValue, f.place⟩
  | .keyNotString => ⟨.expectedValue, f.place⟩
  | _ => f

/-- Read the one member of a module style in a text. -/
def readVariant (b : Bracket P) : Members P → Reading P ModuleStyle
  | .close => .error (.syntactic ⟨.expectedValue, b.settled⟩)
  | .broken reading _ => .error (.syntactic (brokenVariant reading))
  | .cons name token value settled rest => do
    let name ← Reading.ofFault name
    let style ← styleNamed name token.after
    readUnit value
    match rest with
    | .close => return style
    | .broken ⟨.endInObject, place⟩ _ => .error (.syntactic ⟨.endInObject, place⟩)
    | _ => .error (.syntactic ⟨.expectedValue, settled⟩)

def readStyle : Document P → Reading P ModuleStyle
  | .string (.ok name) token => styleNamed name token.after
  | .string (.error f) _ => .error (.syntactic f)
  | .object b members =>
    if b.tooDeep then .error (.syntactic ⟨.nestedTooDeep, b.after⟩) else readVariant b members
  | .broken place reading _ => .error (.syntactic (brokenStyle place reading))
  | d => .error (.syntactic ⟨.expectedValue, ahead d⟩)

/-- Anything but the end of a list is left over; what would not go on the list is reported as
that, too. -/
def surplus : Elements P → Option (ReadError P)
  | .close => none
  | .broken f _ =>
    match f.cause with
    | .expectedCommaOrBracket => some (.syntactic ⟨.trailingCharacters, f.place⟩)
    | .endInValue => some (.syntactic ⟨.trailingCharacters, f.place⟩)
    | _ => some (.syntactic f)
  | .cons first _ => some (.syntactic ⟨.trailingCharacters, ahead first⟩)

def ofText (text : String) : Reading Position Options :=
  readWhole .syntactic (read ⟨readStyle, surplus⟩) text

/-! ## Values -/

def styleOfJson : Json → Reading Unit ModuleStyle
  | .string name => styleNamed name ()
  | .object [(name, value)] => do
    let style ← styleNamed name ()
    readUnit value.toDocument
    return style
  | .object _ => .error (.mismatch [] (.range .object .singleMember) ())
  | value => .error (value.toDocument.refuseAhead .stringOrObject)

/-- A list of `length` elements is too long unless it ends here. -/
def surplusOf (length : Nat) : Elements Unit → Option (ReadError Unit)
  | .close => none
  | _ => some (.mismatch [] (.tooLong length) ())

def ofJson (value : Json) : Reading Unit Options :=
  let length := match value with
    | .array elements => elements.length
    | _ => 0
  let style : Document Unit → Reading Unit ModuleStyle := fun d => do
    styleOfJson (← d.readJson)
  read ⟨style, surplusOf length⟩ value.toDocument

end Options

end SchemaCompiler
