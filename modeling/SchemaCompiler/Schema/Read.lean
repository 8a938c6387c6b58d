import SchemaCompiler.Json.Reader
import SchemaCompiler.Json.Scan
import SchemaCompiler.Schema.Basic

/-!
# Reading schemas

`Document.readSchema` reads a schema from a document and reports the first value that has not the
form its keyword asks for, with the path to it. The table `Keyword.named` says which keywords there
are and which form each has; members with other names are skipped, and `null` stands for an absent
keyword everywhere but in `const`.
-/

namespace SchemaCompiler

/-- The form of a keyword, and how a value of that form is set. -/
inductive Keyword where
  | text (set : String → Keywords Schema → Keywords Schema)
  | count (set : Nat → Keywords Schema → Keywords Schema)
  | number (set : Number → Keywords Schema → Keywords Schema)
  | exclusiveBound (set : ExclusiveBound → Keywords Schema → Keywords Schema)
  | flag (set : Bool → Keywords Schema → Keywords Schema)
  | typeSet (set : TypeSet → Keywords Schema → Keywords Schema)
  | names (set : List String → Keywords Schema → Keywords Schema)
  | value (set : Json → Keywords Schema → Keywords Schema)
  | values (set : List Json → Keywords Schema → Keywords Schema)
  | schema (set : Schema → Keywords Schema → Keywords Schema)
  | schemas (set : List Schema → Keywords Schema → Keywords Schema)
  | items (set : Items Schema → Keywords Schema → Keywords Schema)
  | fields (set : List (String × Schema) → Keywords Schema → Keywords Schema)

def Keyword.named : String → Option Keyword
  | "$ref" => some (.text fun x k => { k with reference := some x })
  | "$id" => some (.text fun x k => { k with id := some x })
  | "$schema" => some (.text fun x k => { k with metaSchema := some x })
  | "title" => some (.text fun x k => { k with title := some x })
  | "description" => some (.text fun x k => { k with description := some x })
  | "type" => some (.typeSet fun x k => { k with type := some x })
  | "minLength" => some (.count fun x k => { k with minLength := some x })
  | "maxLength" => some (.count fun x k => { k with maxLength := some x })
  | "pattern" => some (.text fun x k => { k with pattern := some x })
  | "format" => some (.text fun x k => { k with format := some x })
  | "minimum" => some (.number fun x k => { k with minimum := some x })
  | "maximum" => some (.number fun x k => { k with maximum := some x })
  | "exclusiveMinimum" => some (.exclusiveBound fun x k => { k with exclusiveMinimum := some x })
  | "exclusiveMaximum" => some (.exclusiveBound fun x k => { k with exclusiveMaximum := some x })
  | "multipleOf" => some (.number fun x k => { k with multipleOf := some x })
  | "items" => some (.items fun x k => { k with items := some x })
  | "minItems" => some (.count fun x k => { k with minItems := some x })
  | "maxItems" => some (.count fun x k => { k with maxItems := some x })
  | "uniqueItems" => some (.flag fun x k => { k with uniqueItems := some x })
  | "properties" => some (.fields fun x k => { k with properties := some x })
  | "required" => some (.names fun x k => { k with required := some x })
  | "additionalProperties" => some (.schema fun x k => { k with additionalProperties := some x })
  | "allOf" => some (.schemas fun x k => { k with allOf := some x })
  | "anyOf" => some (.schemas fun x k => { k with anyOf := some x })
  | "oneOf" => some (.schemas fun x k => { k with oneOf := some x })
  | "not" => some (.schema fun x k => { k with not := some x })
  | "const" => some (.value fun x k => { k with const := some x })
  | "enum" => some (.values fun x k => { k with enum := some x })
  | "definitions" => some (.fields fun x k => { k with definitions := some x })
  | "$defs" => some (.fields fun x k => { k with defs := some x })
  | "nullable" => some (.flag fun x k => { k with nullable := some x })
  | _ => none

variable {P : Type}

/-! ## Forms that may be written in two ways -/

def typeTags : List Json → Option (List TypeTag)
  | [] => some []
  | .string name :: rest => (typeTags rest).map (TypeTag.ofName name :: ·)
  | _ :: _ => none

def TypeSet.ofJson? : Json → Option TypeSet
  | .string name => some (.one (.ofName name))
  | .array names => (typeTags names).map .many
  | _ => none

def ExclusiveBound.ofJson? : Json → Option ExclusiveBound
  | .bool b => some (.flag b)
  | .number n => some (.bound n)
  | _ => none

/-- A value read in full first and then recognised; a failure is reported at the place settled on
after it. -/
def Document.recognise {α : Type} (ofJson? : Json → Option α) (cause : Mismatch) (settled : P)
    (d : Document P) : Reading P α := do
  let x ← d.readJson
  match ofJson? x with
  | some a => return a
  | none => .error (.mismatch [] cause settled)

/-! ## Schemas -/

/-- The keywords after one has been read, absent or not. -/
def Keywords.update {α : Type} (k : Keywords Schema)
    (set : α → Keywords Schema → Keywords Schema) : Option α → Keywords Schema
  | some a => set a k
  | none => k

mutual

def Document.readSchema : Document P → Reading P Schema
  | .bool b _ => .ok (.bool b)
  | .object b members =>
    if b.tooDeep then .error (.syntactic ⟨.nestedTooDeep, b.after⟩)
    else (members.readKeywords [] {}).map .object
  | d => .error (d.refuseWithin .schema)

/-- The keywords of an object on top of `k`, where those in `seen` have occurred already. -/
def Members.readKeywords (seen : List String) (k : Keywords Schema) :
    Members P → Reading P (Keywords Schema)
  | .close => .ok k
  | .broken reading _ => .error (.syntactic reading)
  | .cons name token value settled rest => do
    let name ← Reading.ofFault name
    match Keyword.named name with
    | none =>
      match value.outlineFault? with
      | some f => .error (.syntactic f)
      | none => rest.readKeywords seen k
    | some keyword =>
      if seen.contains name then .error (.mismatch [] (.repeated name) token.settled)
      else
        let k : Keywords Schema ← Reading.under (.key name) <|
          match keyword with
          | .text set => (value.optional Document.readString).map (k.update set)
          | .count set => (value.optional (Document.readCount .word)).map (k.update set)
          | .number set => (value.optional Document.readNumber).map (k.update set)
          | .exclusiveBound set =>
            (value.optional (Document.recognise ExclusiveBound.ofJson? .noExclusiveBound
              settled)).map (k.update set)
          | .flag set => (value.optional Document.readFlag).map (k.update set)
          | .typeSet set =>
            (value.optional (Document.recognise TypeSet.ofJson? .noTypeSet settled)).map
              (k.update set)
          | .names set =>
            (value.optional (Document.readList Document.readString)).map (k.update set)
          | .value set => value.readJson.map fun x => set x k
          | .values set =>
            (value.optional (Document.readList Document.readJson)).map (k.update set)
          | .schema set => if value.isNull then .ok k else value.readSchema.map (set · k)
          | .schemas set => if value.isNull then .ok k else value.readSchemas.map (set · k)
          | .items set => if value.isNull then .ok k else value.readItems.map (set · k)
          | .fields set => if value.isNull then .ok k else value.readFields.map (set · k)
        rest.readKeywords (name :: seen) k

def Document.readSchemas : Document P → Reading P (List Schema)
  | .array b elements =>
    if b.tooDeep then .error (.syntactic ⟨.nestedTooDeep, b.after⟩) else elements.readSchemas 0
  | d => .error (d.refuseAhead .list)

/-- The schemas of a list from position `i` on. -/
def Elements.readSchemas : (i : Nat) → Elements P → Reading P (List Schema)
  | _, .close => .ok []
  | _, .broken reading _ => .error (.syntactic reading)
  | i, .cons first rest => do
    let schema ← Reading.under (.index i) first.readSchema
    let schemas ← rest.readSchemas (i + 1)
    return schema :: schemas

/-- The `items` of a document: a schema, or schemas for the positions. -/
def Document.readItems : Document P → Reading P (Items Schema)
  | .bool b _ => .ok (.all (.bool b))
  | .object b members =>
    if b.tooDeep then .error (.syntactic ⟨.nestedTooDeep, b.after⟩)
    else (members.readKeywords [] {}).map fun k => .all (.object k)
  | .array b elements =>
    if b.tooDeep then .error (.syntactic ⟨.nestedTooDeep, b.after⟩)
    else (elements.readSchemas 0).map .each
  | d => .error (d.refuseWithin .items)

def Document.readFields : Document P → Reading P (List (String × Schema))
  | .object b members =>
    if b.tooDeep then .error (.syntactic ⟨.nestedTooDeep, b.after⟩)
    else members.readFields.map distinctMembers
  | d => .error (d.refuseAhead .object)

def Members.readFields : Members P → Reading P (List (String × Schema))
  | .close => .ok []
  | .broken reading _ => .error (.syntactic reading)
  | .cons name _ value _ rest => do
    let name ← Reading.ofFault name
    let schema ← Reading.under (.key name) value.readSchema
    let fields ← rest.readFields
    return (name, schema) :: fields

end

/-- The schema that a text starts with; what follows it is left alone. -/
def Schema.ofText (text : String) : Reading Position Schema := (Document.ofText text).readSchema

def Schema.ofJson (value : Json) : Reading Unit Schema := value.toDocument.readSchema

end SchemaCompiler
