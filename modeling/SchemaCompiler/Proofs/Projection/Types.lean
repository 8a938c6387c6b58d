import SchemaCompiler.Proofs.Compile.Exact
import SchemaCompiler.Proofs.Projection.Terminates

/-!
# Compiled and projected types of one schema

A schema is compiled to a type and projected to a type keyword by keyword, and alike unless it is a
composition: of the members of an `anyOf` the compiler looks at the code, where the projection looks
at the types, to see which of them accept nothing and which are repeated, and likewise for an
`allOf`. So a compiled type is the one by code (`type_assembleNode`). `Coherent` says that the
members of a composition are selected alike, and `typeByCode_eq_iff` that this is all it takes for
the type to be the projected one.
-/

namespace SchemaCompiler

namespace Validator

variable {rs : List Validator}

/-! ## Compositions -/

/-- The union of the types of members, of which those that accept nothing and those that are
repeated are left out by their code. -/
def unionTypeByCode (rs : List Validator) : String :=
  let kept := rs.filter (!·.isNever)
  if kept.isEmpty then "never" else unionType ((distinctByCode kept).map typeOrAny)

/-- The union of the types of members, of which those that accept nothing and those that are
repeated are left out by their type. -/
def unionTypeByType (rs : List Validator) : String :=
  let types := (rs.map typeOrAny).filter (· != "never")
  if types.isEmpty then "never" else unionType types

/-- It makes no difference to the type of an `anyOf` whether its members are told apart by their
code or by their types. -/
def AnyOfCoherent (rs : List Validator) : Prop := unionTypeByCode rs = unionTypeByType rs

/-- If the type of some member of an `allOf` is `never`, the code of some member says so, or the
intersection of the types comes to the same. -/
def AllOfCoherent (rs : List Validator) : Prop :=
  "never" ∈ rs.map typeOrAny →
    (∃ r ∈ rs, r.isNever) ∨ intersectKnown (rs.map typeOrAny) = "never"

theorem type_anyOf (exact : ∀ r ∈ rs, r.Exact) : (anyOf rs).type = some (unionTypeByCode rs) := by
  unfold anyOf unionTypeByCode
  simp only
  split
  · rfl
  next nonempty =>
    have typed : ∀ r ∈ rs.filter (!·.isNever), r.type.isSome := fun r hr =>
      (exact r (List.mem_filter.1 hr).1).typed
    exact type_union typed (by simpa using nonempty)

theorem Exact.typeOrAny_of_isNever {r : Validator} (h : r.Exact) (never : r.isNever) :
    r.typeOrAny = "never" := by
  rw [h.never never]
  rfl

theorem Exact.typeOrAny_of_isAny {r : Validator} (h : r.Exact) (any : r.isAny) :
    r.typeOrAny = "any" := by
  rw [h.any any]
  rfl

theorem type_allOf_mixed (exact : ∀ r ∈ rs, r.Exact) :
    (allOf false rs).type =
      some (if rs.any isNever then "never" else intersectKnown (rs.map typeOrAny)) := by
  have typed := knownTypes_eq fun r hr => (exact r hr).typed
  unfold allOf
  simp only [Bool.false_eq_true, if_false]
  split
  · rfl
  split
  next none =>
    have all : ∀ type ∈ rs.map typeOrAny, type = "any" := by
      intro type mem
      obtain ⟨r, hr, rfl⟩ := List.mem_map.1 mem
      have any : r.isAny := by simpa using List.find?_eq_none.1 none r hr
      exact (exact r hr).typeOrAny_of_isAny any
    have known : (rs.map typeOrAny).filter (· != "any") = [] :=
      List.filter_eq_nil_iff.2 fun type mem => by simp [all type mem]
    simp [intersectKnown, known]
    rfl
  next => simp [typed]

/-- Members whose code determines their types, and which accept nothing only by their code, are
told apart alike. -/
theorem anyOfCoherent_of_same (exact : ∀ r ∈ rs, r.Exact)
    (never : ∀ r ∈ rs, r.typeOrAny = "never" → r.isNever)
    (same : ∀ r ∈ rs, ∀ s ∈ rs, r.code = s.code → r.typeOrAny = s.typeOrAny) :
    AnyOfCoherent rs := by
  have kept : (rs.map typeOrAny).filter (· != "never") =
      (rs.filter (!·.isNever)).map typeOrAny := by
    rw [List.filter_map]
    refine congrArg _ (List.filter_congr fun r hr => ?_)
    have : r.typeOrAny = "never" ↔ r.isNever = true :=
      ⟨never r hr, (exact r hr).typeOrAny_of_isNever⟩
    cases isNever : r.isNever <;> simp_all
  unfold AnyOfCoherent unionTypeByCode unionTypeByType
  simp only [kept, List.isEmpty_map]
  rw [unionType_distinctByCode fun r hr s hs =>
    same r (List.mem_filter.1 hr).1 s (List.mem_filter.1 hs).1]

/-- The intersection is selected alike if members accept nothing only by their code. -/
theorem allOfCoherent_of_same (never : ∀ r ∈ rs, r.typeOrAny = "never" → r.isNever) :
    AllOfCoherent rs := by
  intro mem
  obtain ⟨r, hr, type⟩ := List.mem_map.1 mem
  exact .inl ⟨r, hr, never r hr type⟩

end Validator

/-! ## Types of one kind -/

section Node

variable {reference : String → Validator} {follow : String → String} {f : Schema → Validator}
  {project : Schema → String} {k : Keywords Schema}

/-- The library function that checks for a type. -/
def tagSymbol (f : Schema → Validator) (k : Keywords Schema) : TypeTag → String
  | .string => "string"
  | .number => "number"
  | .integer => "number"
  | .boolean => "boolean"
  | .null => "null_"
  | .array => "array"
  | .object =>
    Validator.objectSymbol (k.fields.map fun (name, x) => ⟨name, k.requires name, f x⟩)
      (assembleRest f k)
  | .unknown _ => "any"

/-- The type that a library function checks for, as far as it shows in the projected type. -/
def tagOfSymbol : String → TypeTag
  | "string" => .string
  | "number" => .number
  | "boolean" => .boolean
  | "null_" => .null
  | "array" => .array
  | "any" => .unknown ""
  | _ => .object

theorem calls_assembleTag (f : Schema → Validator) (k : Keywords Schema) (tag : TypeTag) :
    (assembleTag f k tag).Calls (tagSymbol f k tag) := by
  cases tag with
  | string => exact Validator.calls_string k
  | number => exact Validator.calls_number k false
  | integer => exact Validator.calls_number k true
  | array => exact Validator.calls_array k _
  | object => exact Validator.calls_object _ _
  | boolean | null | unknown => exact Validator.calls_of_code_eq rfl

theorem isSymbol_tagSymbol (f : Schema → Validator) (k : Keywords Schema) (tag : TypeTag) :
    IsSymbol (tagSymbol f k tag) := by
  have objects : ∀ s ∈ ["object", "strictObject", "record", "objectWithRest"], IsSymbol s := by
    decide
  have others : ∀ s ∈ ["string", "number", "boolean", "null_", "array", "any"], IsSymbol s := by
    decide
  cases tag with
  | object => exact objects _ (Validator.objectSymbol_mem _ _)
  | string | number | integer | boolean | null | array | unknown =>
    exact others _ (by simp [tagSymbol])

/-- The function that is called determines the projected type. -/
theorem projectTag_tagOfSymbol (project : Schema → String) (tag : TypeTag) :
    projectTag project k (tagOfSymbol (tagSymbol f k tag)) = projectTag project k tag := by
  have objects : ∀ s ∈ ["object", "strictObject", "record", "objectWithRest"],
      tagOfSymbol s = .object := by decide
  cases tag with
  | object => rw [tagSymbol, objects _ (Validator.objectSymbol_mem _ _)]
  | string | number | integer | boolean | null | array | unknown => rfl

theorem projectTag_eq_of_code_eq (project : Schema → String) {tag tag' : TypeTag}
    (h : (assembleTag f k tag).code = (assembleTag f k tag').code) :
    projectTag project k tag = projectTag project k tag' := by
  have symbol := (calls_assembleTag f k tag).unique (calls_assembleTag f k tag')
    (isSymbol_tagSymbol f k tag) (isSymbol_tagSymbol f k tag') h
  rw [← projectTag_tagOfSymbol (f := f), symbol, projectTag_tagOfSymbol]

theorem typeOrAny_eq {r : Validator} {type : String} (h : r.type = some type) :
    r.typeOrAny = type := by simp [Validator.typeOrAny, h]

theorem map_typeOrAny_eq {xs : List Schema} (h : ∀ x ∈ xs, (f x).typeOrAny = project x) :
    (xs.map f).map Validator.typeOrAny = xs.map project := by
  rw [List.map_map]
  exact List.map_congr_left h

theorem type_assembleTag {tag : TypeTag}
    (h : ∀ x ∈ k.projectedByTag tag, (f x).type = some (project x)) :
    (assembleTag f k tag).type = some (projectTag project k tag) := by
  cases tag with
  | string => rw [assembleTag, Validator.string, Validator.type_pipe]; rfl
  | number => rw [assembleTag, Validator.number, Validator.type_pipe]; rfl
  | integer => rw [assembleTag, Validator.number, Validator.type_pipe]; rfl
  | boolean | null | unknown => rfl
  | array =>
    rw [assembleTag, Validator.array, Validator.type_pipe]
    cases element : k.elementSchema? with
    | none => simp [projectTag, element]; rfl
    | some x =>
      have := typeOrAny_eq (h x (by simp [Keywords.projectedByTag, element]))
      simp [projectTag, element, this]
  | object =>
    have fields : (k.fields.map fun p => Validator.Property.mk p.1 (k.requires p.1) (f p.2)).map
        Validator.Property.field =
          k.fields.map fun p => Field.mk p.1 (project p.2) !k.requires p.1 := by
      rw [List.map_map]
      refine List.map_congr_left fun p hp => ?_
      have := typeOrAny_eq (h p.2 (List.mem_append_left _ (List.mem_map_of_mem hp)))
      simp [Validator.Property.field, this]
    rw [assembleTag, Validator.type_object, fields, projectTag]
    unfold assembleRest
    rcases extra : k.additionalProperties with _ | (_ | _) | keywords
    · rfl
    · rfl
    · rfl
    · have := typeOrAny_eq (h (.object keywords)
        (List.mem_append_right _ (by simp [extra])))
      simp [this]

theorem type_assembleTyped (h : ∀ x ∈ k.projected, (f x).type = some (project x)) :
    (assembleTyped f k).type = some (projectTyped project k) := by
  unfold Keywords.projected at h
  unfold assembleTyped projectTyped
  cases shape : k.typeShape <;> rw [shape] at h
  case one tag => exact type_assembleTag h
  case untyped => rfl
  case many tags =>
    have types : ∀ tag ∈ tags, (assembleTag f k tag).typeOrAny = projectTag project k tag :=
      fun tag mem => typeOrAny_eq
        (type_assembleTag fun x hx => h x (List.mem_flatMap.2 ⟨tag, mem, hx⟩))
    have same : ∀ r ∈ tags.map (assembleTag f k), ∀ s ∈ tags.map (assembleTag f k),
        r.code = s.code → r.typeOrAny = s.typeOrAny := by
      simp only [List.forall_mem_map]
      intro tag mem tag' mem' code
      rw [types tag mem, types tag' mem', projectTag_eq_of_code_eq project code]
    have typed : ∀ r ∈ tags.map (assembleTag f k), r.type.isSome := by
      simp only [List.forall_mem_map]
      exact fun tag _ => (exact_assembleTag k tag).typed
    cases tags with
    | nil => rfl
    | cons tag tags =>
      rw [Validator.type_union typed (by simp), Validator.unionType_distinctByCode same,
        List.map_map]
      exact congrArg (some <| unionType ·) (List.map_congr_left types)

theorem type_enum (values : List Json) :
    (Validator.enum values).type =
      some (match values with
        | [] => "any"
        | values => unionType (values.map literalType)) := by
  have types : ∀ values : List Json, (values.map Validator.const).map Validator.typeOrAny =
      values.map literalType := fun values => by
    rw [List.map_map]
    exact List.map_congr_left fun v _ => typeOrAny_eq (Validator.type_const v)
  rcases values with _ | ⟨v, _ | ⟨w, values⟩⟩
  · rfl
  · rw [Validator.enum, Validator.type_const, ← unionType_singleton (literalType v)]
    rfl
  · unfold Validator.enum
    simp only
    split
    · rfl
    · have same : ∀ r ∈ (v :: w :: values).map Validator.const,
          ∀ s ∈ (v :: w :: values).map Validator.const, r.code = s.code →
            r.typeOrAny = s.typeOrAny := by
        intro r hr s hs code
        obtain ⟨a, _, rfl⟩ := List.mem_map.1 hr
        obtain ⟨b, _, rfl⟩ := List.mem_map.1 hs
        rw [typeOrAny_eq (Validator.type_const a), typeOrAny_eq (Validator.type_const b),
          Validator.literalType_eq_of_code_eq code]
      have typed : ∀ r ∈ (v :: w :: values).map Validator.const, r.type.isSome := by
        intro r hr
        obtain ⟨a, _, rfl⟩ := List.mem_map.1 hr
        exact (Validator.exact_const a).typed
      rw [Validator.type_union typed (by simp), Validator.unionType_distinctByCode same, types]

/-! ## Types by code -/

/-- The type of an `allOf` whose members are selected by their code. -/
def allOfTypeByCode (f : Schema → Validator) (members : List Schema) : String :=
  match members with
  | [] => "any"
  | [only] => (f only).typeOrAny
  | _ =>
    let rs := members.map f
    if members.all Schema.isObjectShaped then intersectionType (rs.map Validator.typeOrAny)
    else if rs.any Validator.isNever then "never"
    else intersectKnown (rs.map Validator.typeOrAny)

/-- The type of an `anyOf` or `oneOf` whose members are selected by their code. -/
def anyOfTypeByCode (f : Schema → Validator) (members : List Schema) : String :=
  match members with
  | [] => "any"
  | [only] => (f only).typeOrAny
  | _ => Validator.unionTypeByCode (members.map f)

/-- The type of a schema, put together from those of its sub-schemas as in a projection, but for the
members of a composition, which are selected by their code. -/
def typeByCode (reference : String → Validator) (f : Schema → Validator) (schema : Schema) :
    String :=
  match schema.shape with
  | .allOf members => allOfTypeByCode f members
  | .anyOf members => anyOfTypeByCode f members
  | .oneOf members => anyOfTypeByCode f members
  | _ =>
    projectNode (fun pointer => (reference pointer).typeOrAny) (fun x => (f x).typeOrAny) schema

theorem type_assembleAllOf {members : List Schema} (exact : ∀ x, (f x).Exact) :
    (assembleAllOf f members).type = some (allOfTypeByCode f members) := by
  rcases members with _ | ⟨x, _ | ⟨y, rest⟩⟩
  · rfl
  · exact Validator.type_eq_some_typeOrAny (exact x).typed
  · have exact : ∀ r ∈ (x :: y :: rest).map f, r.Exact := exact_map fun x _ => exact x
    unfold assembleAllOf allOfTypeByCode
    simp only
    generalize x :: y :: rest = members at exact
    cases objectShaped : members.all Schema.isObjectShaped with
    | true => simp [Validator.allOf, Validator.ofMembers,
        Validator.knownTypes_eq fun r hr => (exact r hr).typed]
    | false => simpa using Validator.type_allOf_mixed exact

theorem type_assembleAnyOf {members : List Schema} (exact : ∀ x, (f x).Exact) :
    (assembleAnyOf f members).type = some (anyOfTypeByCode f members) := by
  rcases members with _ | ⟨x, _ | ⟨y, rest⟩⟩
  · rfl
  · exact Validator.type_eq_some_typeOrAny (exact x).typed
  · exact Validator.type_anyOf (exact_map fun x _ => exact x)

/-- The type that a schema is compiled to is the one by code. -/
theorem type_assembleNode {schema : Schema} (exact : ∀ x, (f x).Exact)
    (typed : ∀ pointer, schema.shape = .reference pointer → (reference pointer).type.isSome) :
    (assembleNode reference f schema).type = some (typeByCode reference f schema) := by
  have types : ∀ x, (f x).type = some (f x).typeOrAny := fun x =>
    Validator.type_eq_some_typeOrAny (exact x).typed
  unfold assembleNode typeByCode projectNode
  cases shape : schema.shape
  case bool accepts => cases accepts <;> rfl
  case reference pointer => exact Validator.type_eq_some_typeOrAny (typed pointer shape)
  case allOf => exact type_assembleAllOf exact
  case anyOf => exact type_assembleAnyOf exact
  case oneOf => exact type_assembleAnyOf exact
  case not => rfl
  case const v => exact Validator.type_const v
  case enum values =>
    rw [type_enum]
    cases values <;> rfl
  case nullable k => simp [Validator.nullable, type_assembleTyped fun x _ => types x]
  case typed k => exact type_assembleTyped fun x _ => types x

/-! ## Coherence -/

/-- Compiling a schema and projecting it select the same types from its members, if it is a
composition of schemas that `f` compiles. -/
def Coherent (f : Schema → Validator) (schema : Schema) : Prop :=
  match schema.shape with
  | .allOf members => 2 ≤ members.length → members.all Schema.isObjectShaped = false →
    Validator.AllOfCoherent (members.map f)
  | .anyOf members => 2 ≤ members.length → Validator.AnyOfCoherent (members.map f)
  | .oneOf members => 2 ≤ members.length → Validator.AnyOfCoherent (members.map f)
  | _ => True

/-- The members of a composition. -/
def Schema.members (schema : Schema) : List Schema :=
  match schema.shape with
  | .allOf members => members
  | .anyOf members => members
  | .oneOf members => members
  | _ => []

/-- The code of the members of a composition shows which of them accept nothing, and determines
their types. -/
structure CodeDecides (f : Schema → Validator) (schema : Schema) : Prop where
  never : ∀ x ∈ schema.members, (f x).typeOrAny = "never" → (f x).isNever
  same : ∀ x ∈ schema.members, ∀ y ∈ schema.members,
    (f x).code = (f y).code → (f x).typeOrAny = (f y).typeOrAny

theorem coherent_of_codeDecides {schema : Schema} (exact : ∀ x, (f x).Exact)
    (h : CodeDecides f schema) : Coherent f schema := by
  obtain ⟨never, same⟩ := h
  have allOf : Validator.AllOfCoherent (schema.members.map f) :=
    Validator.allOfCoherent_of_same (by simpa using never)
  have anyOf : Validator.AnyOfCoherent (schema.members.map f) :=
    Validator.anyOfCoherent_of_same (exact_map fun x _ => exact x) (by simpa using never)
      (by simpa using same)
  unfold Schema.members at allOf anyOf
  unfold Coherent
  split <;> rename_i shape <;> simp only [shape] at allOf anyOf
  · exact fun _ _ => allOf
  · exact fun _ => anyOf
  · exact fun _ => anyOf
  · trivial

theorem anyOfTypeByCode_eq_iff {members : List Schema}
    (agree : ∀ x ∈ members, (f x).typeOrAny = project x) :
    anyOfTypeByCode f members = projectAnyOf project members ↔
      (2 ≤ members.length → Validator.AnyOfCoherent (members.map f)) := by
  rcases members with _ | ⟨x, _ | ⟨y, rest⟩⟩
  · exact iff_of_true rfl (by simp)
  · exact iff_of_true (agree x (by simp)) (by simp)
  · have byType : projectAnyOf project (x :: y :: rest) =
        Validator.unionTypeByType ((x :: y :: rest).map f) := by
      rw [Validator.unionTypeByType, map_typeOrAny_eq agree]
      rfl
    rw [byType]
    exact ⟨fun h _ => h, fun h => h (by simp)⟩

theorem allOfTypeByCode_eq_iff {members : List Schema} (exact : ∀ x, (f x).Exact)
    (agree : ∀ x ∈ members, (f x).typeOrAny = project x) :
    allOfTypeByCode f members = projectAllOf project members ↔
      (2 ≤ members.length → members.all Schema.isObjectShaped = false →
        Validator.AllOfCoherent (members.map f)) := by
  rcases members with _ | ⟨x, _ | ⟨y, rest⟩⟩
  · exact iff_of_true rfl (by simp)
  · exact iff_of_true (agree x (by simp)) (by simp)
  · have types := map_typeOrAny_eq agree
    have exact : ∀ r ∈ (x :: y :: rest).map f, r.Exact := exact_map fun x _ => exact x
    have long : 2 ≤ (x :: y :: rest).length := by simp
    unfold allOfTypeByCode projectAllOf
    simp only
    generalize x :: y :: rest = members at types exact long
    cases objectShaped : members.all Schema.isObjectShaped with
    | true => exact iff_of_true (by simp [types]) (by simp)
    | false =>
      simp only [Bool.false_eq_true, if_false, long, true_implies]
      unfold Validator.AllOfCoherent
      rw [types]
      by_cases never : ∃ r ∈ members.map f, r.isNever
      · obtain ⟨r, hr, isNever⟩ := never
        have mem : "never" ∈ members.map project := by
          rw [← types, ← (exact r hr).typeOrAny_of_isNever isNever]
          exact List.mem_map_of_mem hr
        rw [if_pos (List.any_eq_true.2 ⟨r, hr, isNever⟩), if_pos (by simpa using mem)]
        exact iff_of_true rfl fun _ => .inl ⟨r, hr, isNever⟩
      · rw [if_neg fun h => never (List.any_eq_true.1 h)]
        by_cases mem : "never" ∈ members.map project
        · rw [if_pos (by simpa using mem)]
          exact ⟨fun h _ => .inr h, fun h => (h mem).resolve_left never⟩
        · rw [if_neg (by simpa using mem)]
          exact iff_of_true rfl fun h => absurd h mem

/-- If a reference and the sub-schemas of a schema have the projected types, its type by code is the
projected one if and only if it is coherent. -/
theorem typeByCode_eq_iff {schema : Schema} (exact : ∀ x, (f x).Exact)
    (references : ∀ pointer, schema.shape = .reference pointer →
      (reference pointer).typeOrAny = follow pointer)
    (agree : ∀ x ∈ schema.projected, (f x).typeOrAny = project x) :
    typeByCode reference f schema = projectNode follow project schema ↔ Coherent f schema := by
  have same := projectNode_congr references agree
  unfold Schema.projected at agree
  unfold typeByCode Coherent
  cases shape : schema.shape <;> rw [shape] at agree
  case allOf members =>
    have projected : projectNode follow project schema = projectAllOf project members := by
      rw [projectNode, shape]
    rw [projected]
    exact allOfTypeByCode_eq_iff exact agree
  case anyOf members =>
    have projected : projectNode follow project schema = projectAnyOf project members := by
      rw [projectNode, shape]
    rw [projected]
    exact anyOfTypeByCode_eq_iff agree
  case oneOf members =>
    have projected : projectNode follow project schema = projectAnyOf project members := by
      rw [projectNode, shape]
    rw [projected]
    exact anyOfTypeByCode_eq_iff agree
  all_goals exact iff_of_true same trivial

/-- If a reference and the sub-schemas of a schema get the same types when they are compiled and
when they are projected, the schema does if and only if it is coherent. -/
theorem type_assembleNode_iff {schema : Schema} (exact : ∀ x, (f x).Exact)
    (references : ∀ pointer, schema.shape = .reference pointer →
      (reference pointer).type = some (follow pointer))
    (agree : ∀ x ∈ schema.projected, (f x).type = some (project x)) :
    (assembleNode reference f schema).type = some (projectNode follow project schema) ↔
      Coherent f schema := by
  have typed : ∀ pointer, schema.shape = .reference pointer → (reference pointer).type.isSome :=
    fun pointer shape => by simp [references pointer shape]
  rw [type_assembleNode exact typed, Option.some.injEq]
  exact typeByCode_eq_iff exact (fun pointer shape => typeOrAny_eq (references pointer shape))
    fun x hx => typeOrAny_eq (agree x hx)

end Node

end SchemaCompiler
