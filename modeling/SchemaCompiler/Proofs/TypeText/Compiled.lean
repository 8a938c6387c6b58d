import SchemaCompiler.Projection
import SchemaCompiler.Proofs.Compile.Exact
import SchemaCompiler.Proofs.Definitions.Operations
import SchemaCompiler.Proofs.Generate.Sustained
import SchemaCompiler.Proofs.TypeText.ReadBack

/-!
# Compiled and projected types are texts of trees

Whatever is compiled or projected, its type is put together by the ways of writing types from names
and literals, so it is the text of a tree (`IsTypeText`): the rules for that follow the ways of making
validators on the one hand and the keywords of a projected schema on the other. Hence each type that
comes out can be read back (`types_read_back`).
-/

namespace SchemaCompiler

/-- The text of a tree. -/
def IsTypeText (type : String) : Prop := ∃ t : TypeTree, t.text = type

namespace IsTypeText

variable {type : String} {types : List String}

/-! ## Ways of writing types -/

theorem name (h : isIdentifier type) : IsTypeText type := ⟨.word (.ofIdentifier type h), rfl⟩

theorem any : IsTypeText "any" := name (by decide)

theorem never : IsTypeText "never" := name (by decide)

theorem literal (v : Json) : IsTypeText (literalType v) := ⟨.ofValue v, TypeTree.text_ofValue v⟩

theorem array (h : IsTypeText type) : IsTypeText (arrayType type) := by
  obtain ⟨t, rfl⟩ := h
  exact ⟨.array t, rfl⟩

theorem orNull (h : IsTypeText type) : IsTypeText (type ++ " | null") := by
  obtain ⟨t, rfl⟩ := h
  exact ⟨.orNull t, rfl⟩

theorem exists_trees (h : ∀ type ∈ types, IsTypeText type) :
    ∃ ts : List TypeTree, ts.map TypeTree.text = types := by
  induction types with
  | nil => exact ⟨[], rfl⟩
  | cons type types ih =>
    obtain ⟨⟨t, first⟩, rest⟩ := List.forall_mem_cons.1 h
    obtain ⟨ts, rfl⟩ := ih rest
    exact ⟨t :: ts, by rw [List.map_cons, first]⟩

theorem union (nonempty : types ≠ []) (h : ∀ type ∈ types, IsTypeText type) :
    IsTypeText (unionType types) := by
  obtain ⟨ts, rfl⟩ := exists_trees h
  cases ts with
  | nil => exact absurd rfl nonempty
  | cons t ts => exact ⟨.union t ts, by rw [TypeTree.text, TypeTree.texts_eq_map]; rfl⟩

theorem intersection (nonempty : types ≠ []) (h : ∀ type ∈ types, IsTypeText type) :
    IsTypeText (intersectionType types) := by
  obtain ⟨ts, rfl⟩ := exists_trees h
  cases ts with
  | nil => exact absurd rfl nonempty
  | cons t ts => exact ⟨.intersection t ts, by rw [TypeTree.text, TypeTree.texts_eq_map]; rfl⟩

theorem intersectKnown (h : ∀ type ∈ types, IsTypeText type) :
    IsTypeText (intersectKnown types) := by
  unfold SchemaCompiler.intersectKnown
  simp only
  split
  · exact any
  next known =>
    exact intersection (by simpa using known) fun type mem => h type (List.mem_filter.1 mem).1

theorem exists_record {fields : List Field} {index : Option String}
    (hf : ∀ f ∈ fields, IsTypeText f.type) (hi : ∀ type ∈ index, IsTypeText type) :
    ∃ fs : List (String × Bool × TypeTree),
      fs.map (fun f => Field.mk f.1 f.2.2.text f.2.1) = fields ∧
      ∃ t : Option TypeTree, t.map TypeTree.text = index := by
  have trees : ∃ fs : List (String × Bool × TypeTree),
      fs.map (fun f => Field.mk f.1 f.2.2.text f.2.1) = fields := by
    induction fields with
    | nil => exact ⟨[], rfl⟩
    | cons f fields ih =>
      obtain ⟨⟨t, first⟩, rest⟩ := List.forall_mem_cons.1 hf
      obtain ⟨fs, rfl⟩ := ih rest
      exact ⟨(f.name, f.optional, t) :: fs, by rw [List.map_cons, first]⟩
  obtain ⟨fs, fields⟩ := trees
  refine ⟨fs, fields, ?_⟩
  cases index with
  | none => exact ⟨none, rfl⟩
  | some type =>
    obtain ⟨t, text⟩ := hi type rfl
    exact ⟨some t, congrArg some text⟩

theorem record {fields : List Field} {index : Option String} (hf : ∀ f ∈ fields, IsTypeText f.type)
    (hi : ∀ type ∈ index, IsTypeText type) : IsTypeText (recordType fields index) := by
  obtain ⟨fs, rfl, t, rfl⟩ := exists_record hf hi
  exact ⟨.record fs t, TypeTree.text_record fs t⟩

end IsTypeText

/-! ## Compiled types -/

namespace Validator

/-- The type, if there is one, is the text of a tree. -/
def Typed (r : Validator) : Prop := ∀ type ∈ r.type, IsTypeText type

theorem Typed.typeOrAny {r : Validator} (h : r.Typed) : IsTypeText r.typeOrAny := by
  unfold Validator.typeOrAny
  cases type : r.type with
  | none => exact .any
  | some t => exact h t type

theorem typed_of_type {r : Validator} {type : String} (eq : r.type = some type)
    (h : IsTypeText type) : r.Typed := by
  intro type' mem
  obtain rfl := Option.some.inj (eq.symm.trans mem)
  exact h

theorem Typed.knownTypes {rs : List Validator} (h : ∀ r ∈ rs, r.Typed) {types : List String}
    (known : knownTypes rs = some types) :
    types.length = rs.length ∧ ∀ type ∈ types, IsTypeText type := by
  induction rs generalizing types with
  | nil =>
    obtain rfl := Option.some.inj known
    exact ⟨rfl, by simp⟩
  | cons r rs ih =>
    obtain ⟨first, rest⟩ := List.forall_mem_cons.1 h
    simp only [Validator.knownTypes, Option.bind_eq_bind, Option.bind_eq_some_iff,
      Option.pure_def, Option.some.injEq] at known
    obtain ⟨type, hr, others, hrs, rfl⟩ := known
    obtain ⟨length, texts⟩ := ih rest hrs
    exact ⟨congrArg (· + 1) length, List.forall_mem_cons.2 ⟨first type hr, texts⟩⟩

theorem Typed.ofMembers {rs : List Validator} (h : ∀ r ∈ rs, r.Typed) (nonempty : rs ≠ [])
    {join : List String → String} (symbol : String)
    (joins : ∀ types : List String, types ≠ [] → (∀ type ∈ types, IsTypeText type) →
      IsTypeText (join types)) : (Validator.ofMembers symbol join rs).Typed := by
  intro type mem
  obtain ⟨types, known, rfl⟩ := Option.map_eq_some_iff.1 mem
  obtain ⟨length, texts⟩ := Typed.knownTypes h known
  refine joins types ?_ texts
  rintro rfl
  exact nonempty (List.length_eq_zero_iff.1 length.symm)

theorem Typed.pipe {r : Validator} (h : r.Typed) (actions : List Action) :
    (r.pipe actions).Typed := by
  intro type mem
  rw [type_pipe] at mem
  exact h type mem

theorem typed_ofCall (symbol argument : String) {type : String} (h : IsTypeText type) :
    (ofCall symbol argument type).Typed := typed_of_type rfl h

theorem typed_any : Typed .any := typed_ofCall _ _ .any

theorem typed_never : Typed .never := typed_ofCall _ _ .never

theorem typed_union {rs : List Validator} (h : ∀ r ∈ rs, r.Typed) : (union rs).Typed := by
  have kept : ∀ r ∈ distinctByCode rs, r.Typed := fun r hr => h r (distinctByCode_subset rs hr)
  unfold union
  split
  · exact typed_any
  next only eq => exact kept only (eq ▸ List.mem_cons_self ..)
  next => exact .ofMembers kept (by simp_all) _ fun _ => .union

theorem typed_const (v : Json) : (const v).Typed := typed_of_type (type_const v) (.literal v)

theorem typed_anyOf {rs : List Validator} (h : ∀ r ∈ rs, r.Typed) : (anyOf rs).Typed := by
  unfold anyOf
  simp only
  split
  · exact typed_never
  · exact typed_union fun r hr => h r (List.mem_filter.1 hr).1

theorem typed_allOf (objectShaped : Bool) {rs : List Validator} (nonempty : rs ≠ [])
    (h : ∀ r ∈ rs, r.Typed) : (allOf objectShaped rs).Typed := by
  unfold allOf
  split
  · exact .ofMembers h nonempty _ fun _ => .intersection
  split
  · exact typed_never
  split
  · exact typed_any
  · intro type mem
    obtain ⟨types, known, rfl⟩ := Option.map_eq_some_iff.1 mem
    exact .intersectKnown (Typed.knownTypes h known).2

theorem typed_object {properties : List Property} {rest : Rest}
    (h : ∀ p ∈ properties, p.value.Typed) (hr : ∀ extra, rest = .constrained extra → extra.Typed) :
    (object properties rest).Typed := by
  refine typed_of_type (type_object properties rest) (.record ?_ ?_)
  · exact List.forall_mem_map.2 fun p hp => (h p hp).typeOrAny
  · intro type mem
    split at mem
    · exact Option.some.inj mem ▸ .any
    · simp at mem
    · simp at mem
    next extra => exact Option.some.inj mem ▸ (hr extra rfl).typeOrAny

theorem typed_enum (values : List Json) : (enum values).Typed := by
  rcases values with _ | ⟨v, _ | ⟨w, values⟩⟩
  · exact typed_any
  · exact typed_const v
  · unfold enum
    simp only
    split
    · exact typed_of_type rfl (.union (by simp) (List.forall_mem_map.2 fun v _ => .literal v))
    · exact typed_union (List.forall_mem_map.2 fun v _ => typed_const v)

theorem preserved_typed : Preserved Typed where
  any := typed_any
  never := typed_never
  string k := (typed_ofCall _ _ (.name (by decide))).pipe _
  number k integer := (typed_ofCall _ _ (.name (by decide))).pipe _
  boolean := typed_ofCall _ _ (.name (by decide))
  null := typed_ofCall _ _ (.name (by decide))
  array k _ h := Typed.pipe (typed_of_type rfl h.typeOrAny.array) _
  object h hr := typed_object h hr
  union h := typed_union h
  anyOf h := typed_anyOf h
  not _ := typed_of_type rfl (.name (by decide))
  nullable h := by
    intro type mem
    obtain ⟨base, hb, rfl⟩ := Option.map_eq_some_iff.1 mem
    exact (h base hb).orNull
  const v := typed_const v
  enum values := typed_enum values

end Validator

/-! ## Compilations -/

section Compilations

variable {defs : List Definition} (names : ∀ d ∈ defs, isIdentifier d.name)

include names

theorem Table.isTypeText_type? {t : Table defs}
    (generated : ∀ i, ∀ v ∈ t.generated? i, v.Typed) (i : Fin defs.length) :
    ∀ type ∈ t.type? i, IsTypeText type := by
  intro type mem
  unfold Table.type? at mem
  split at mem
  · obtain rfl := Option.some.inj mem
    exact .name (names _ (List.get_mem defs i))
  · obtain ⟨v, hv, typed⟩ := Option.bind_eq_some_iff.1 mem
    exact generated i v hv type typed

/-- The results of finished definitions stay texts of trees. -/
theorem sustains_typed :
    Sustains (fun r : Run defs => ∀ i, ∀ v ∈ r.table.generated? i, v.Typed) Validator.Typed where
  report _ h := h
  markRecursive i h j := by
    rw [Table.generated?_markRecursive]
    exact h j
  enter i h j v mem := h j v (by simpa [Run.enter] using mem)
  leave i v h typed j w mem := by
    simp only [Run.leave, Table.generated?_finish] at mem
    split at mem
    · obtain rfl := Option.some.inj mem
      exact typed
    · exact h j w mem
  plain i h := Table.isTypeText_type? names h i
  lazy i h := Validator.typed_of_type rfl (.name (names _ (List.get_mem defs i)))

end Compilations

/-! ## Projections -/

section Projections

variable {follow : String → String} {project : Schema → String}
  (sub : ∀ x, IsTypeText (project x))

include sub

theorem isTypeText_projectTag (k : Keywords Schema) (tag : TypeTag) :
    IsTypeText (projectTag project k tag) := by
  cases tag with
  | string => exact .name (by decide : isIdentifier "string")
  | number | integer => exact .name (by decide : isIdentifier "number")
  | boolean => exact .name (by decide : isIdentifier "boolean")
  | null => exact .name (by decide : isIdentifier "null")
  | unknown => exact .any
  | array =>
    rw [projectTag]
    cases k.elementSchema? with
    | none => exact IsTypeText.any.array
    | some x => exact (sub x).array
  | object =>
    refine .record (List.forall_mem_map.2 fun p _ => sub p.2) fun type mem => ?_
    split at mem
    · simp at mem
    · exact Option.some.inj mem ▸ .any
    · simp at mem
    next extra _ _ _ => exact Option.some.inj mem ▸ sub extra

theorem isTypeText_projectTyped (k : Keywords Schema) : IsTypeText (projectTyped project k) := by
  unfold projectTyped
  split
  · exact isTypeText_projectTag sub k _
  · exact .any
  · exact .union (by simp_all) (List.forall_mem_map.2 fun tag _ => isTypeText_projectTag sub k tag)
  · exact .any

theorem isTypeText_projectAllOf (members : List Schema) :
    IsTypeText (projectAllOf project members) := by
  have types : ∀ type ∈ members.map project, IsTypeText type :=
    List.forall_mem_map.2 fun x _ => sub x
  rcases members with _ | ⟨x, _ | ⟨y, rest⟩⟩
  · exact .any
  · exact sub x
  · unfold projectAllOf
    simp only
    split
    · exact .intersection (by simp) types
    split
    · exact .never
    · exact .intersectKnown types

theorem isTypeText_projectAnyOf (members : List Schema) :
    IsTypeText (projectAnyOf project members) := by
  rcases members with _ | ⟨x, _ | ⟨y, rest⟩⟩
  · exact .any
  · exact sub x
  · unfold projectAnyOf
    simp only
    split
    · exact .never
    next some =>
      refine .union (by simpa using some) fun type mem => ?_
      obtain ⟨x, _, rfl⟩ := List.mem_map.1 (List.mem_filter.1 mem).1
      exact sub x

theorem isTypeText_projectNode (references : ∀ pointer, IsTypeText (follow pointer))
    (schema : Schema) : IsTypeText (projectNode follow project schema) := by
  unfold projectNode
  split
  · exact .any
  · exact .never
  · exact references _
  · exact isTypeText_projectAllOf sub _
  · exact isTypeText_projectAnyOf sub _
  · exact isTypeText_projectAnyOf sub _
  · exact .name (by decide)
  · exact .literal _
  · exact .any
  · exact .union (by simp_all) (List.forall_mem_map.2 fun v _ => .literal v)
  · exact (isTypeText_projectTyped sub _).orNull
  · exact isTypeText_projectTyped sub _

omit sub

theorem isTypeText_projectWithin (references : ∀ pointer, IsTypeText (follow pointer)) (room : Nat)
    (schema : Schema) : IsTypeText (projectWithin follow room schema) := by
  induction room generalizing schema with
  | zero => exact .any
  | succ room ih => exact isTypeText_projectNode ih references schema

variable {defs : List Definition}

theorem isTypeText_project (names : ∀ d ∈ defs, isIdentifier d.name) (t : Table defs)
    (maxDepth : Nat) (schema : Schema) (depth : Nat) :
    IsTypeText (SchemaCompiler.project t maxDepth schema depth) := by
  have references : ∀ room fuel pointer, IsTypeText (followWithin t room fuel pointer) := by
    intro room fuel
    induction fuel with
    | zero =>
      intro pointer
      unfold followWithin
      split
      · exact .any
      · split
        · exact .name (names _ (List.get_mem defs _))
        · exact .any
    | succ fuel ih =>
      intro pointer
      unfold followWithin
      split
      · exact .any
      · split
        · exact .name (names _ (List.get_mem defs _))
        · exact isTypeText_projectWithin ih _ _
  exact isTypeText_projectWithin (references _ _) _ schema

end Projections

/-! ## Reading back -/

/-- Whatever tree is written, its text is read as an alike tree. The type of a value is the text of
the value's own tree and is read as just this tree, and a validator that is made nullable gets the
type of the tree with `| null`. For any root schema, whatever calls have been made before, texts of
trees are the types that schemas and references compile to, those in the table of definitions, and
projected types. -/
theorem types_read_back (root : Schema) (reserved : List String) (maxDepth limit : Nat)
    (calls : List Call) :
    let r := (Run.initial root reserved).after maxDepth calls
    (∀ t : TypeTree, ∃ u, TypeText.readType? t.text = some u ∧ u.Alike t) ∧
    (∀ v, (TypeTree.ofValue v).text = literalType v ∧
      TypeText.readType? (literalType v) = some (.ofValue v)) ∧
    (∀ (v : Validator) (t : TypeTree), v.type = some t.text →
      v.nullable.type = some (TypeTree.orNull t).text) ∧
    (∀ schema site, ∀ type ∈ ((compile maxDepth schema site).run r).1.type, IsTypeText type) ∧
    (∀ pointer site, ∀ type ∈ ((resolve maxDepth pointer site).run r).1.type, IsTypeText type) ∧
    (∀ i, ∀ type ∈ r.table.type? i, IsTypeText type) ∧
    ∀ schema depth, IsTypeText (project r.table limit schema depth) := by
  intro r
  have names : ∀ d ∈ (root.definitions reserved).1, isIdentifier d.name :=
    fun d hd => (declarable_name hd).identifier
  have sustains := sustains_typed names
  have allOf : Sustains.KeepsAllOf Validator.Typed :=
    fun objectShaped rs nonempty => Validator.typed_allOf objectShaped nonempty
  have start : ∀ i, ∀ v ∈ (Run.initial root reserved).table.generated? i, v.Typed := by
    intro i v mem
    simp [Run.initial, Run.start, Table.generated?_detectCycles_fresh] at mem
  have reached : ∀ i, ∀ v ∈ r.table.generated? i, v.Typed :=
    sustains.after Validator.preserved_typed allOf calls start
  refine ⟨TypeText.readType?_text,
    fun v => ⟨TypeTree.text_ofValue v, TypeText.readType?_literalType v⟩, fun v t typed => ?_,
    fun schema site => ?_, fun pointer site => ?_,
    Table.isTypeText_type? names reached, isTypeText_project names r.table limit⟩
  · show v.type.map (· ++ " | null") = _
    rw [typed]
    rfl
  · have compiled : Yields _ _ (compile maxDepth schema site) :=
      sustains.yields_compile Validator.preserved_typed allOf schema site
    exact (compiled r reached).2
  · have resolved : Yields _ _ (resolve maxDepth pointer site) :=
      sustains.yields_resolveWith Validator.typed_any
        (sustains.generateWithin Validator.preserved_typed allOf _) pointer site
    exact (resolved r reached).2

namespace unionInArray

/-- An object in which operators and brackets stand in strings and in a key. -/
def value : Json :=
  .object [("a|b", .array [.string "] & x", .null]),
    ("k", .object [("deep", .number (.integer (-1))), ("none", .object [])])]

/-- An array of given values, one of which looks like a union, or `null`. -/
def schema : Schema :=
  .object { anyOf := some [
    .object {
      type := some (.one .array)
      items := some (.all (.object { enum := some [.string "a | b", value] })) },
    .object { type := some (.one .null) }] }

/-- The members of the inner union are in parentheses, and each string is one token. -/
theorem types_read_back_unionInArray :
    let r := (Run.initial schema []).after 10 []
    let record :=
      "\x7b \"a|b\": [\"] & x\", null]; k: \x7b deep: -1; none: \x7b\x7d \x7d \x7d"
    let type := "(\"a | b\" | " ++ record ++ ")[] | null"
    let tree : TypeTree := .record
      [("a|b", false, .tuple [.string "] & x", .null]),
        ("k", false, .record [("deep", false, .word (.ofNumber (.integer (-1)))),
          ("none", false, .record [] none)] none)] none
    ((compile 10 schema .root).run r).1.type = some type ∧ project r.table 10 schema 0 = type ∧
      IsTypeText type ∧ TypeText.readType? record = some tree ∧
      (Validator.const value).type = some tree.text ∧
      (Validator.const value).nullable.type = some (record ++ " | null") ∧
      ∃ u, TypeText.readType? type = some u ∧
        u.Alike (.union (.array (.union (.string "a | b") [tree])) [.null]) := by
  intro r record type tree
  have compiled : ((compile 10 schema .root).run r).1.type = some type := by decide +kernel
  have projected : project r.table 10 schema 0 = type := by decide +kernel
  obtain ⟨trees, values, nullables, types, -, -, -⟩ := types_read_back schema [] 10 10 []
  have written : literalType value = record := by decide +kernel
  have read : TypeText.readType? record = some tree := written ▸ (values value).2
  have typed : (Validator.const value).type = some tree.text := by
    rw [Validator.type_const, ← (values value).1]
    rfl
  have nullable : (Validator.const value).nullable.type = some (record ++ " | null") := by
    rw [nullables _ tree typed, ← written, ← (values value).1]
    rfl
  refine ⟨compiled, projected, types schema .root type compiled, read, typed, nullable, ?_⟩
  obtain ⟨u, read, alike⟩ := trees (.union (.array (.union (.string "a | b") [tree])) [.null])
  have text : (TypeTree.union (.array (.union (.string "a | b") [tree])) [.null]).text = type := by
    decide +kernel
  exact ⟨u, text ▸ read, alike⟩

end unionInArray

end SchemaCompiler
