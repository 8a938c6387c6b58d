import SchemaCompiler.Error
import SchemaCompiler.Proofs.Json.Places

/-!
# Schemas in texts and schemas that are values

A text that is one JSON value is converted as that value is, if no object in it repeats a name:
either both give the same conversion, or both are refused as schemas, at the same path and for the
same reason, to which the place is added in the case of a text (`convertText_convertValue`).

A schema is read in one pass over the document, which skips what no keyword asks for; that the
reader of a text meets no other fault than that of a value is `Document.Alike.readSchema`, with one
statement for each of the readers that it is made of.
-/

namespace SchemaCompiler

variable {P Q : Type}

/-! ## Reading schemas -/

theorem Document.Alike.recognise {α : Type} {d : Document P} {d' : Document Q} (h : d.Alike d')
    (ofJson? : Json → Option α) (cause : Mismatch) (settled : P) (settled' : Q) :
    Reading.Agree (d.recognise ofJson? cause settled) (d'.recognise ofJson? cause settled') := by
  refine h.readJson.bind fun x => ?_
  cases ofJson? x with
  | some a => exact .ok a
  | none => exact .mismatch _ _ _ _

/-- A keyword that is `null` is absent in both documents or in none. -/
theorem Document.Alike.unlessNull {α : Type} {d : Document P} {d' : Document Q} (h : d.Alike d')
    (absent : α) {r : Reading P α} {r' : Reading Q α} (agree : Reading.Agree r r') :
    Reading.Agree (if d.isNull then .ok absent else r) (if d'.isNull then .ok absent else r') := by
  rw [h.isNull]
  split
  · exact .ok absent
  · exact agree

mutual

theorem Document.Alike.readSchema {d : Document P} {d' : Document Q} :
    d.Alike d' → Reading.Agree d.readSchema d'.readSchema
  | .bool b _ _ => .ok (Schema.bool b)
  | .object shallow shallow' members => by
    rw [Document.readSchema, Document.readSchema]
    simp only [shallow, shallow', Bool.false_eq_true, if_false]
    exact (members.readKeywords [] {}).map _
  | .null _ _ => .mismatch _ _ _ _
  | .number _ _ _ => .mismatch _ _ _ _
  | .string _ _ _ => .mismatch _ _ _ _
  | .array shallow shallow' elements => by
    have h := Document.Alike.array shallow shallow' elements
    exact h.refuseWithin .schema

theorem Members.Alike.readKeywords {ms : Members P} {ms' : Members Q} (seen : List String)
    (k : Keywords Schema) :
    ms.Alike ms' → Reading.Agree (ms.readKeywords seen k) (ms'.readKeywords seen k)
  | .close => .ok k
  | .cons name t t' settled settled' value rest => by
    obtain ⟨outline, outline'⟩ := value.outlineFault?
    simp only [Members.readKeywords, Reading.ofFault, Except.mapError]
    refine Reading.Agree.bind (.ok name) fun name => ?_
    cases Keyword.named name with
    | none =>
      simp only [outline, outline']
      exact rest.readKeywords seen k
    | some keyword =>
      simp only
      by_cases repeated : seen.contains name
      · simp only [repeated, if_true]
        exact .mismatch _ _ _ _
      · simp only [repeated, Bool.false_eq_true, if_false]
        refine Reading.Agree.bind (Reading.Agree.under ?_ _) fun k => rest.readKeywords _ k
        cases keyword with
        | text set => exact (value.optional value.readString).map _
        | count set => exact (value.optional (value.readCount .word)).map _
        | number set => exact (value.optional value.readNumber).map _
        | exclusiveBound set => exact (value.optional (value.recognise _ _ settled settled')).map _
        | flag set => exact (value.optional value.readFlag).map _
        | typeSet set => exact (value.optional (value.recognise _ _ settled settled')).map _
        | names set => exact (value.optional (value.readList fun h => h.readString)).map _
        | value set => exact value.readJson.map _
        | values set => exact (value.optional (value.readList fun h => h.readJson)).map _
        | schema set => exact value.unlessNull k (value.readSchema.map _)
        | schemas set => exact value.unlessNull k (value.readSchemas.map _)
        | items set => exact value.unlessNull k (value.readItems.map _)
        | fields set => exact value.unlessNull k (value.readFields.map _)

theorem Document.Alike.readSchemas {d : Document P} {d' : Document Q} :
    d.Alike d' → Reading.Agree d.readSchemas d'.readSchemas
  | .array shallow shallow' elements => by
    rw [Document.readSchemas, Document.readSchemas]
    simp only [shallow, shallow', Bool.false_eq_true, if_false]
    exact elements.readSchemas 0
  | .null _ _ => .mismatch _ _ _ _
  | .bool _ _ _ => .mismatch _ _ _ _
  | .number _ _ _ => .mismatch _ _ _ _
  | .string _ _ _ => .mismatch _ _ _ _
  | .object _ _ _ => .mismatch _ _ _ _

theorem Elements.Alike.readSchemas {es : Elements P} {es' : Elements Q} (i : Nat) :
    es.Alike es' → Reading.Agree (es.readSchemas i) (es'.readSchemas i)
  | .close => .ok []
  | .cons first rest => by
    rw [Elements.readSchemas, Elements.readSchemas]
    refine Reading.Agree.bind (first.readSchema.under _) fun schema => ?_
    exact Reading.Agree.bind (rest.readSchemas (i + 1)) fun schemas => .ok _

theorem Document.Alike.readItems {d : Document P} {d' : Document Q} :
    d.Alike d' → Reading.Agree d.readItems d'.readItems
  | .bool b _ _ => .ok (Items.all (Schema.bool b))
  | .object shallow shallow' members => by
    rw [Document.readItems, Document.readItems]
    simp only [shallow, shallow', Bool.false_eq_true, if_false]
    exact (members.readKeywords [] {}).map _
  | .array shallow shallow' elements => by
    rw [Document.readItems, Document.readItems]
    simp only [shallow, shallow', Bool.false_eq_true, if_false]
    exact (elements.readSchemas 0).map _
  | .null _ _ => .mismatch _ _ _ _
  | .number _ _ _ => .mismatch _ _ _ _
  | .string _ _ _ => .mismatch _ _ _ _

theorem Document.Alike.readFields {d : Document P} {d' : Document Q} :
    d.Alike d' → Reading.Agree d.readFields d'.readFields
  | .object shallow shallow' members => by
    rw [Document.readFields, Document.readFields]
    simp only [shallow, shallow', Bool.false_eq_true, if_false]
    exact members.readFields.map _
  | .null _ _ => .mismatch _ _ _ _
  | .bool _ _ _ => .mismatch _ _ _ _
  | .number _ _ _ => .mismatch _ _ _ _
  | .string _ _ _ => .mismatch _ _ _ _
  | .array _ _ _ => .mismatch _ _ _ _

theorem Members.Alike.readFields {ms : Members P} {ms' : Members Q} :
    ms.Alike ms' → Reading.Agree ms.readFields ms'.readFields
  | .close => .ok []
  | .cons name t t' settled settled' value rest => by
    rw [Members.readFields, Members.readFields]
    refine Reading.Agree.bind (.ok name) fun name => ?_
    refine Reading.Agree.bind (value.readSchema.under _) fun schema => ?_
    exact Reading.Agree.bind rest.readFields fun fields => .ok _

end

/-! ## Converting -/

theorem Document.toJson_ofText {text : String} {value : Json}
    (whole : Json.ofText text = .ok value) : (Document.ofText text).toJson = .ok value := by
  unfold Json.ofText readWhole at whole
  obtain ⟨x, read, rest⟩ := except_bind_eq_ok whole
  have read : (Document.ofText text).toJson = .ok x := read
  rw [read]
  split at rest
  · exact rest
  · nomatch rest

/-- A text that is one value, in which no object repeats a name, and that value have the same
conversion, or both are no schemas, for the same reason at the same path, and only the report about
the text names a place. -/
theorem convertText_convertValue {text : String} {value : Json}
    (whole : Json.ofText text = .ok value) (distinct : (Document.ofText text).namesDistinct)
    (o : Options) :
    (∃ c, convertText text o = .ok c ∧ convertValue value o = .ok c) ∨
    ∃ path cause place,
      convertText text o = .error (.badSchema path cause (some place)) ∧
      convertValue value o = .error (.badSchema path cause none) ∧
      ConversionError.placed cause (some place) = ConversionError.placed cause none ++
        " at line " ++ toString place.line ++ " column " ++ toString place.column := by
  have alike : (Document.ofText text).Alike value.toDocument :=
    Document.alike_toDocument _ (Document.toJson_ofText whole) distinct
  have agree := alike.readSchema
  unfold convertText convertValue readSchemaText readSchemaValue Schema.ofText Schema.ofJson
  generalize (Document.ofText text).readSchema = read at agree
  generalize value.toDocument.readSchema = read' at agree
  cases agree with
  | ok schema => exact .inl ⟨convert schema o, rfl, rfl⟩
  | mismatch path cause place =>
    refine .inr ⟨path, cause, place, rfl, rfl, ?_⟩
    have message : place.message =
        " at line " ++ toString place.line ++ " column " ++ toString place.column := rfl
    simp [ConversionError.placed, message, String.append_assoc]

/-- A text whose second line has a string where a number is asked for. -/
def misplacedString : String :=
  "\x7b\"properties\": \n\x7b\"a\": \x7b\"minLength\": \"x\"\x7d\x7d\x7d"

theorem convertText_convertValue_misplacedString :
    ∃ value, value.text = "\x7b\"properties\":\x7b\"a\":\x7b\"minLength\":\"x\"\x7d\x7d\x7d" ∧
      (Json.ofText misplacedString = .ok value ∧
        (Document.ofText misplacedString).namesDistinct) ∧
      ((∃ c, convertText misplacedString {} = .ok c ∧ convertValue value {} = .ok c) ∨
        ∃ path cause place,
          convertText misplacedString {} = .error (.badSchema path cause (some place)) ∧
          convertValue value {} = .error (.badSchema path cause none) ∧
          ConversionError.placed cause (some place) = ConversionError.placed cause none ++
            " at line " ++ toString place.line ++ " column " ++ toString place.column) ∧
      convertText misplacedString {} =
        .error (.badSchema [.key "properties", .key "a", .key "minLength"]
          (.kind (.string "x") .word) (some ⟨2, 23⟩)) := by
  have written : (Json.ofText misplacedString).map Json.text =
      .ok "\x7b\"properties\":\x7b\"a\":\x7b\"minLength\":\"x\"\x7d\x7d\x7d" := by decide +kernel
  have distinct : (Document.ofText misplacedString).namesDistinct := by decide +kernel
  obtain ⟨value, whole, text⟩ := except_map_eq_ok written
  exact ⟨value, text, ⟨whole, distinct⟩, convertText_convertValue whole distinct {},
    by decide +kernel⟩

end SchemaCompiler
