import SchemaCompiler.Convert
import SchemaCompiler.Filter.Program

/-!
# Failed conversions

What makes a conversion fail altogether, and the text of each failure. A schema or options in a
text are reported with the place in it; those in a value have none.
-/

namespace SchemaCompiler

/-- Why a conversion has failed. -/
inductive ConversionError where
  | notJson (fault : Fault Position)
  | badOptions (cause : Mismatch) (place : Option Position)
  /-- The input is no schema, because of the value at the path. -/
  | badSchema (path : List Step) (cause : Mismatch) (place : Option Position)
  | noModuleStyle (name : String)
  | noSelection (pointer : String)
  /-- The filter does not give the document. -/
  | badFilter (cause : FilterError)
  deriving DecidableEq, Repr

namespace ConversionError

inductive Kind where
  | json
  | schema
  | moduleStyle
  | pointer
  | filter
  deriving DecidableEq, Repr

def kind : ConversionError → Kind
  | .notJson _ => .json
  | .badOptions _ _ => .json
  | .badSchema _ _ _ => .schema
  | .noModuleStyle _ => .moduleStyle
  | .noSelection _ => .pointer
  | .badFilter _ => .filter

/-- A mismatch with its place, if it has one. -/
def placed (cause : Mismatch) (place : Option Position) : String :=
  cause.message ++ ((place.map Position.message).getD "")

/-- The error that lies behind this one, if another is reported with it. -/
def cause? : ConversionError → Option String
  | .notJson fault => some fault.message
  | .badOptions cause place => some (placed cause place)
  | _ => none

def message : ConversionError → String
  | .notJson fault => "invalid JSON input: " ++ fault.message
  | .badOptions cause place => "invalid JSON input: " ++ placed cause place
  | .badSchema path cause place =>
    s!"invalid schema at {Step.pathText path}: {placed cause place}"
  | .noModuleStyle name => s!"module must be one of: esm, cjs, none (got `{name}`)"
  | .noSelection pointer => s!"JSON pointer `{pointer}` does not select a value in the input"
  | .badFilter cause => "jq pre-filter failed: " ++ cause.message

def ofSchemaText : ReadError Position → ConversionError
  | .syntactic fault => .notJson fault
  | .mismatch path cause place => .badSchema path cause (some place)

/-- The error of a value that is no schema. The document of a value has no faults. -/
def ofSchemaValue : ReadError Unit → ConversionError
  | .syntactic fault => .notJson ⟨fault.cause, .start⟩
  | .mismatch path cause _ => .badSchema path cause none

def ofOptionsText : ReadError Position → ConversionError
  | .syntactic fault => .notJson fault
  | .mismatch _ cause place => .badOptions cause (some place)

/-- The error of a value that is no options. The document of a value has no faults. -/
def ofOptionsValue : ReadError Unit → ConversionError
  | .syntactic fault => .notJson ⟨fault.cause, .start⟩
  | .mismatch _ cause _ => .badOptions cause none

end ConversionError

def readModuleStyle (name : String) : Except ConversionError ModuleStyle :=
  match ModuleStyle.ofName? name with
  | some style => .ok style
  | none => .error (.noModuleStyle name)

def readSchemaText (text : String) : Except ConversionError Schema :=
  (Schema.ofText text).mapError .ofSchemaText

def readSchemaValue (value : Json) : Except ConversionError Schema :=
  (Schema.ofJson value).mapError .ofSchemaValue

def readJsonText (text : String) : Except ConversionError Json :=
  (Json.ofText text).mapError .notJson

/-- The outputs of a filter program, each as its text is read back; the first failure counts. -/
def filterOutputs (program : String) (input : Json) : Except ConversionError (List Json) := do
  let f ← (Filter.compile program).mapError .badFilter
  (f.run input).mapM fun
    | .ok value => readJsonText value.text
    | .error cause => .error (.badFilter (.misuse cause))

def filterOutput (program : String) (input : Json) : Except ConversionError Json := do
  match ← filterOutputs program input with
  | [value] => return value
  | values => .error (.badFilter (.notOne values.length))

def selectValue (pointer : String) (input : Json) : Except ConversionError Json :=
  match input.atPointer? pointer with
  | some value => .ok value
  | none => .error (.noSelection pointer)

def convertText (text : String) (o : Options) : Except ConversionError Conversion :=
  (readSchemaText text).map (convert · o)

def convertValue (value : Json) (o : Options) : Except ConversionError Conversion :=
  (readSchemaValue value).map (convert · o)

end SchemaCompiler
