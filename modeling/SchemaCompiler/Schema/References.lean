import SchemaCompiler.Schema.Basic

/-!
# Sub-schemas and references

`Schema.children` lists the schemas that are compiled as part of a schema, in the order in which
they are compiled: those under the keyword that decides its shape, and no others. Each of them is
smaller than the schema (`Schema.sizeOf_lt_of_mem_children`), and `Schema.references` follows them
down to the references that compiling the schema meets.
-/

namespace SchemaCompiler

namespace Keywords

/-- The sub-schemas that matter for one type. -/
def tagSchemas (k : Keywords Schema) : TypeTag → List Schema
  | .array => k.elementSchema?.toList
  | .object => k.fields.map (·.2) ++ k.additionalProperties.toList
  | _ => []

/-- The sub-schemas that matter for the type; once for each name in a list of types. -/
def typeSchemas (k : Keywords Schema) : List Schema :=
  match k.typeShape with
  | .one tag => k.tagSchemas tag
  | .many tags => tags.flatMap k.tagSchemas
  | .untyped => []

end Keywords

namespace Shape

def children : Shape → List Schema
  | .allOf members => members
  | .anyOf members => members
  | .oneOf members => members
  | .not negated => [negated]
  | .nullable k => k.typeSchemas
  | .typed k => k.typeSchemas
  | _ => []

end Shape

/-! ## Sub-schemas are smaller -/

namespace Keywords

theorem sizeOf_lt_of_mem_tagSchemas {k : Keywords Schema} {tag : TypeTag} {c : Schema}
    (h : c ∈ k.tagSchemas tag) : sizeOf c < sizeOf k := by
  cases k with
  | mk reference id metaSchema title description type minLength maxLength pattern format minimum
      maximum exclusiveMinimum exclusiveMaximum multipleOf items minItems maxItems uniqueItems
      properties required additionalProperties allOf anyOf oneOf not const enum definitions defs
      nullable =>
    cases tag <;> simp only [tagSchemas, List.not_mem_nil] at h
    · simp only [fields, List.mem_append, List.mem_map, Option.mem_toList] at h
      rcases h with ⟨⟨name, c⟩, mem, rfl⟩ | rfl
      · cases properties with
        | none => simp at mem
        | some fields =>
          have := List.sizeOf_lt_of_mem mem
          simp only [Option.getD_some, Prod.mk.sizeOf_spec] at this
          simp
          omega
      · simp
        omega
    · simp only [elementSchema?, Option.mem_toList] at h
      cases items with
      | none => simp at h
      | some items =>
        cases items with
        | all schema =>
          simp only [Option.some.injEq] at h
          subst h
          simp
          omega
        | each schemas =>
          have := List.sizeOf_lt_of_mem (List.mem_of_head? h)
          simp
          omega

theorem sizeOf_lt_of_mem_typeSchemas {k : Keywords Schema} {c : Schema} (h : c ∈ k.typeSchemas) :
    sizeOf c < sizeOf k := by
  unfold typeSchemas at h
  split at h
  · exact sizeOf_lt_of_mem_tagSchemas h
  · obtain ⟨tag, _, h⟩ := List.mem_flatMap.1 h
    exact sizeOf_lt_of_mem_tagSchemas h
  · simp at h

theorem sizeOf_lt_of_mem_shape {k : Keywords Schema} {c : Schema} (h : c ∈ k.shape.children) :
    sizeOf c < sizeOf k := by
  have inList : ∀ {field : Keywords Schema → Option (List Schema)} {members : List Schema},
      field k = some members → sizeOf (field k) < sizeOf k → c ∈ members →
        sizeOf c < sizeOf k := fun eq lt mem => by
    have := List.sizeOf_lt_of_mem mem
    rw [eq] at lt
    simp at lt
    omega
  have inAllOf : sizeOf k.allOf < sizeOf k := by cases k; simp; omega
  have inAnyOf : sizeOf k.anyOf < sizeOf k := by cases k; simp; omega
  have inOneOf : sizeOf k.oneOf < sizeOf k := by cases k; simp; omega
  have inNot : sizeOf k.not < sizeOf k := by cases k; simp; omega
  unfold shape at h
  cases reference : k.reference with
  | some pointer => simp [reference, Shape.children] at h
  | none =>
  cases allOf : k.allOf with
  | some members =>
    exact inList allOf inAllOf (by simpa [reference, allOf, Shape.children] using h)
  | none =>
  cases anyOf : k.anyOf with
  | some members =>
    exact inList anyOf inAnyOf (by simpa [reference, allOf, anyOf, Shape.children] using h)
  | none =>
  cases oneOf : k.oneOf with
  | some members =>
    exact inList oneOf inOneOf
      (by simpa [reference, allOf, anyOf, oneOf, Shape.children] using h)
  | none =>
  cases not : k.not with
  | some negated =>
    have eq : c = negated := by
      simpa [reference, allOf, anyOf, oneOf, not, Shape.children] using h
    rw [not] at inNot
    simp at inNot
    rw [eq]
    omega
  | none =>
  cases const : k.const with
  | some value => simp [reference, allOf, anyOf, oneOf, not, const, Shape.children] at h
  | none =>
  cases enum : k.enum with
  | some values => simp [reference, allOf, anyOf, oneOf, not, const, enum, Shape.children] at h
  | none =>
    simp only [reference, allOf, anyOf, oneOf, not, const, enum, Option.map_none] at h
    by_cases nullable : k.nullable = some true
    · exact sizeOf_lt_of_mem_typeSchemas (by simpa [nullable, Shape.children] using h)
    · exact sizeOf_lt_of_mem_typeSchemas (by simpa [nullable, Shape.children] using h)

end Keywords

namespace Schema

/-- The schemas that are compiled as part of a schema, in order. -/
def children (s : Schema) : List Schema := s.shape.children

theorem sizeOf_lt_of_mem_children {s c : Schema} (h : c ∈ s.children) : sizeOf c < sizeOf s := by
  cases s with
  | bool b => simp [children, shape, Shape.children] at h
  | object k =>
    have := Keywords.sizeOf_lt_of_mem_shape (k := k) h
    simp
    omega

/-- The references that compiling a schema meets, in order and with repeats. -/
def references (s : Schema) : List String :=
  match s.shape with
  | .reference pointer => [pointer]
  | _ => s.children.attach.flatMap fun c => c.1.references
termination_by sizeOf s
decreasing_by exact sizeOf_lt_of_mem_children c.2

theorem references_of_shape {s : Schema} {pointer : String} (h : s.shape = .reference pointer) :
    s.references = [pointer] := by
  rw [references, h]

theorem references_subset_of_mem_children {s c : Schema} (h : c ∈ s.children) :
    c.references ⊆ s.references := by
  intro pointer mem
  rw [references]
  split
  next p shape => simp [children, shape, Shape.children] at h
  next => exact List.mem_flatMap.2 ⟨⟨c, h⟩, List.mem_attach _ _, mem⟩

end Schema

end SchemaCompiler
