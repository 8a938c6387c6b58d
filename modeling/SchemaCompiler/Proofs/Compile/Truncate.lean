import SchemaCompiler.Proofs.Generate.Calls

/-!
# The depth limit cuts schemas off

Schemas that are nested deeper than the limit are not compiled and accept everything, as the empty
schema does. `Schema.truncate` puts the empty schema in their place, so that compiling with a lower
limit is compiling what is cut off there with a higher one (`compile_truncate`): the same validator
and the same findings, in whatever state.

This holds of schemas without references and without `allOf` (`Schema.Plain`). What a reference
leads to is compiled from depth zero, with the limit that is really there; and whether the members
of an `allOf` are intersected depends on what they look like, also where they are cut off.
-/

namespace SchemaCompiler

/-! ## Truncated schemas -/

/-- Replace the schemas of elements. -/
def Items.replace (f : Schema → Schema) : Items Schema → Items Schema
  | .all x => .all (f x)
  | .each xs => .each (xs.map f)

/-- Replace what further properties are, if that is a schema object: `true` and `false` are policies
and no schemas of their own. -/
def replaceRest (f : Schema → Schema) : Schema → Schema
  | .bool accepts => .bool accepts
  | .object k => f (.object k)

/-- Replace the schemas that are nested in a schema object, other than in an `allOf`. -/
def Keywords.replaceNested (f : Schema → Schema) (k : Keywords Schema) : Keywords Schema :=
  { k with
    properties := k.properties.map (List.map fun (name, x) => (name, f x))
    items := k.items.map (Items.replace f)
    additionalProperties := k.additionalProperties.map (replaceRest f)
    anyOf := k.anyOf.map (List.map f)
    oneOf := k.oneOf.map (List.map f)
    not := k.not.map f }

namespace Schema

/-- Put the empty schema where there is no room left. -/
def truncateWithin : (room : Nat) → Schema → Schema
  | 0, _ => .object {}
  | _ + 1, .bool accepts => .bool accepts
  | room + 1, .object k => .object (k.replaceNested (truncateWithin room))

/-- Put the empty schema in the place of all that are nested deeper than a limit. -/
def truncate (limit : Nat) (s : Schema) : Schema := s.truncateWithin (roomAt limit 0)

/-- Neither a schema nor those that are compiled as part of it have a `$ref` or an `allOf`. -/
inductive Plain : Schema → Prop where
  | bool (accepts : Bool) : Plain (.bool accepts)
  | object (k : Keywords Schema) (reference : k.reference = none) (allOf : k.allOf = none)
    (children : ∀ x ∈ k.shape.children, Plain x) : Plain (.object k)

theorem truncateWithin_object (room : Nat) (k : Keywords Schema) :
    ∃ k', truncateWithin room (.object k) = .object k' := by
  cases room with
  | zero => exact ⟨{}, rfl⟩
  | succ room => exact ⟨k.replaceNested (truncateWithin room), rfl⟩

/-- Truncating a root schema leaves its definitions alone. -/
theorem definitions_truncate (s : Schema) (limit : Nat) (reserved : List String) :
    (s.truncate limit).definitions reserved = s.definitions reserved := by
  cases s <;> rfl

end Schema

/-! ## Keywords of replaced schemas -/

/-- A shape with other schemas nested in it. -/
def Shape.replaceNested (f : Schema → Schema) : Shape → Shape
  | .anyOf members => .anyOf (members.map f)
  | .oneOf members => .oneOf (members.map f)
  | .not negated => .not (f negated)
  | .nullable k => .nullable (k.replaceNested f)
  | .typed k => .typed (k.replaceNested f)
  | shape => shape

namespace Keywords

variable {f : Schema → Schema} {k : Keywords Schema}

theorem shape_replaceNested (f : Schema → Schema) (k : Keywords Schema) :
    (k.replaceNested f).shape = k.shape.replaceNested f := by
  unfold shape
  show ((k.reference.map Shape.reference <|> k.allOf.map Shape.allOf <|>
      (k.anyOf.map (List.map f)).map Shape.anyOf <|> (k.oneOf.map (List.map f)).map Shape.oneOf <|>
      (k.not.map f).map Shape.not <|> k.const.map Shape.const <|> k.enum.map Shape.enum).getD
    (if k.nullable = some true then .nullable (k.replaceNested f)
      else .typed (k.replaceNested f))) = _
  rcases k.reference with _ | pointer
  · rcases k.allOf with _ | members
    · rcases k.anyOf with _ | members
      · rcases k.oneOf with _ | members
        · rcases k.not with _ | negated
          · rcases k.const with _ | value
            · rcases k.enum with _ | values
              · show (if _ then _ else _) = Shape.replaceNested f (if _ then _ else _)
                split <;> rfl
              · rfl
            · rfl
          · rfl
        · rfl
      · rfl
    · rfl
  · rfl

theorem shape_ne (reference : k.reference = none) (allOf : k.allOf = none) :
    (∀ pointer, k.shape ≠ .reference pointer) ∧ ∀ members, k.shape ≠ .allOf members := by
  unfold shape
  rw [reference, allOf]
  rcases k.anyOf with _ | members
  · rcases k.oneOf with _ | members
    · rcases k.not with _ | negated
      · rcases k.const with _ | value
        · rcases k.enum with _ | values
          · by_cases nullable : k.nullable = some true
            · rw [if_pos nullable]
              exact ⟨nofun, nofun⟩
            · rw [if_neg nullable]
              exact ⟨nofun, nofun⟩
          · exact ⟨nofun, nofun⟩
        · exact ⟨nofun, nofun⟩
      · exact ⟨nofun, nofun⟩
    · exact ⟨nofun, nofun⟩
  · exact ⟨nofun, nofun⟩

theorem typeShape_replaceNested (f : Schema → Schema) (k : Keywords Schema) :
    (k.replaceNested f).typeShape = k.typeShape := by
  unfold typeShape replaceNested
  simp only [Option.isSome_map]

theorem fields_replaceNested (f : Schema → Schema) (k : Keywords Schema) :
    (k.replaceNested f).fields = k.fields.map fun (name, x) => (name, f x) := by
  unfold fields replaceNested
  cases k.properties <;> rfl

end Keywords

/-! ## Compiling replaced schemas -/

section Node

variable {σ : Type} {h₁ h₂ : Handlers σ} {f : Schema → Schema}
  {compile₁ compile₂ : Schema → Site → StateM σ Validator} {k : Keywords Schema} {site : Site}

theorem compileMembers_map (keyword : String) {members : List Schema}
    (same : ∀ x ∈ members, ∀ site, compile₁ x site = compile₂ (f x) site) (i : Nat) :
    compileMembers compile₂ keyword site i (members.map f) =
      compileMembers compile₁ keyword site i members := by
  induction members generalizing i with
  | nil => rfl
  | cons x xs ih =>
    obtain ⟨first, rest⟩ := List.forall_mem_cons.1 same
    rw [List.map_cons, compileMembers, compileMembers, ← first, ih rest]

theorem compileProperties_map {fields : List (String × Schema)}
    (same : ∀ p ∈ fields, ∀ site, compile₁ p.2 site = compile₂ (f p.2) site) :
    compileProperties compile₂ (k.replaceNested f) site (fields.map fun (name, x) => (name, f x)) =
      compileProperties compile₁ k site fields := by
  induction fields with
  | nil => rfl
  | cons p ps ih =>
    obtain ⟨first, rest⟩ := List.forall_mem_cons.1 same
    rw [List.map_cons, compileProperties, compileProperties, ← first, ih rest]
    rfl

theorem compileRest_replaceNested (objects : ∀ k, ∃ k', f (.object k) = .object k')
    (same : ∀ x ∈ k.additionalProperties, ∀ site, compile₁ x site = compile₂ (f x) site) :
    compileRest compile₂ (k.replaceNested f) site = compileRest compile₁ k site := by
  unfold compileRest Keywords.replaceNested
  simp only
  rcases rest : k.additionalProperties with _ | (_ | _) | extra
  · rfl
  · rfl
  · rfl
  · obtain ⟨k', object⟩ := objects extra
    have compiled := same (.object extra) rest
    rw [object] at compiled
    simp only [Option.map_some, replaceRest, object, compiled]

theorem compileElement_replaceNested
    (same : ∀ x ∈ k.elementSchema?, ∀ site, compile₁ x site = compile₂ (f x) site) :
    compileElement compile₂ (k.replaceNested f) site = compileElement compile₁ k site := by
  unfold Keywords.elementSchema? at same
  unfold compileElement Keywords.replaceNested
  rcases items : k.items with _ | x | (_ | ⟨x, xs⟩) <;> rw [items] at same
  · rfl
  · exact (same x rfl _).symm
  · rfl
  · exact (same x rfl _).symm

theorem compileTag_replaceNested (types : h₁.unknownType = h₂.unknownType)
    (objects : ∀ k, ∃ k', f (.object k) = .object k') {tag : TypeTag}
    (same : ∀ x ∈ k.tagSchemas tag, ∀ site, compile₁ x site = compile₂ (f x) site) :
    compileTag h₂ compile₂ (k.replaceNested f) site tag = compileTag h₁ compile₁ k site tag := by
  cases tag with
  | null | boolean | number | integer | string => rfl
  | unknown name => exact congrFun (congrFun types.symm name) site
  | array =>
    have element : compileElement compile₂ (k.replaceNested f) site =
        compileElement compile₁ k site :=
      compileElement_replaceNested fun x hx => same x (Option.mem_toList.2 hx)
    rw [compileTag, compileTag, element]
    rfl
  | object =>
    have fields : compileProperties compile₂ (k.replaceNested f) site
        (k.fields.map fun (name, x) => (name, f x)) = compileProperties compile₁ k site k.fields :=
      compileProperties_map fun p hp =>
        same p.2 (List.mem_append_left _ (List.mem_map_of_mem hp))
    have rest : compileRest compile₂ (k.replaceNested f) site = compileRest compile₁ k site :=
      compileRest_replaceNested objects fun x hx =>
        same x (List.mem_append_right _ (Option.mem_toList.2 hx))
    rw [compileTag, compileTag, Keywords.fields_replaceNested, fields, rest]

theorem compileTags_replaceNested (types : h₁.unknownType = h₂.unknownType)
    (objects : ∀ k, ∃ k', f (.object k) = .object k') {tags : List TypeTag}
    (same : ∀ x ∈ tags.flatMap k.tagSchemas, ∀ site, compile₁ x site = compile₂ (f x) site) :
    compileTags h₂ compile₂ (k.replaceNested f) site tags =
      compileTags h₁ compile₁ k site tags := by
  induction tags with
  | nil => rfl
  | cons tag tags ih =>
    rw [List.flatMap_cons] at same
    have first : compileTag h₂ compile₂ (k.replaceNested f) site tag =
        compileTag h₁ compile₁ k site tag :=
      compileTag_replaceNested types objects fun x hx => same x (List.mem_append_left _ hx)
    rw [compileTags, compileTags, first, ih fun x hx => same x (List.mem_append_right _ hx)]

theorem compileTyped_replaceNested (types : h₁.unknownType = h₂.unknownType)
    (objects : ∀ k, ∃ k', f (.object k) = .object k')
    (same : ∀ x ∈ k.typeSchemas, ∀ site, compile₁ x site = compile₂ (f x) site) :
    compileTyped h₂ compile₂ (k.replaceNested f) site = compileTyped h₁ compile₁ k site := by
  unfold Keywords.typeSchemas at same
  unfold compileTyped
  rw [Keywords.typeShape_replaceNested]
  cases shape : k.typeShape <;> rw [shape] at same
  case one tag => exact compileTag_replaceNested types objects same
  case many tags =>
    exact congrArg (Validator.union <$> ·) (compileTags_replaceNested types objects same)

theorem compileAnyOf_map (keyword : String) {members : List Schema}
    (same : ∀ x ∈ members, ∀ site, compile₁ x site = compile₂ (f x) site) :
    compileAnyOf compile₂ keyword (members.map f) site =
      compileAnyOf compile₁ keyword members site := by
  rcases members with _ | ⟨x, _ | ⟨y, rest⟩⟩
  · rfl
  · exact (same x (List.mem_cons_self ..) _).symm
  · exact congrArg (Validator.anyOf <$> ·) (compileMembers_map keyword same 0)

/-- Compiling a schema object with other schemas nested in it. -/
theorem compileNode_replaceNested (types : h₁.unknownType = h₂.unknownType)
    (objects : ∀ k, ∃ k', f (.object k) = .object k') (reference : k.reference = none)
    (allOf : k.allOf = none)
    (same : ∀ x ∈ k.shape.children, ∀ site, compile₁ x site = compile₂ (f x) site) :
    compileNode h₂ compile₂ (.object (k.replaceNested f)) site =
      compileNode h₁ compile₁ (.object k) site := by
  unfold compileNode Schema.shape
  simp only [Keywords.shape_replaceNested]
  cases shape : k.shape <;> rw [shape] at same
  case reference pointer => exact absurd shape ((Keywords.shape_ne reference allOf).1 pointer)
  case allOf members => exact absurd shape ((Keywords.shape_ne reference allOf).2 members)
  case bool accepts => cases accepts <;> rfl
  case anyOf members => exact compileAnyOf_map "anyOf" same
  case oneOf members => exact compileAnyOf_map "oneOf" same
  case not negated =>
    exact congrArg (Validator.not <$> ·) (same negated (List.mem_singleton.2 rfl) _).symm
  case const value => rfl
  case enum values => rfl
  case nullable k =>
    exact congrArg (Validator.nullable <$> ·) (compileTyped_replaceNested types objects same)
  case typed k => exact compileTyped_replaceNested types objects same

end Node

/-! ## Compiling truncated schemas -/

/-- Where there is no room left the empty schema stands for what is not compiled. -/
theorem compileWithin_empty {σ : Type} (h : Handlers σ) (room : Nat) (site : Site) :
    compileWithin h room (.object {}) site = pure .any := by
  cases room with
  | zero => rfl
  | succ room => rfl

/-- Handlers matter only in what they do about unknown type names, since there are no references. -/
theorem compileWithin_truncateWithin {σ : Type} {h₁ h₂ : Handlers σ}
    (types : h₁.unknownType = h₂.unknownType) (room extra : Nat) {schema : Schema}
    (plain : schema.Plain) (site : Site) :
    compileWithin h₁ room schema site =
      compileWithin h₂ (room + extra) (schema.truncateWithin room) site := by
  induction room generalizing schema site with
  | zero => exact (compileWithin_empty h₂ (0 + extra) site).symm
  | succ room ih =>
    rw [Nat.add_right_comm, compileWithin, compileWithin]
    cases plain with
    | bool accepts => cases accepts <;> rfl
    | object k reference allOf children =>
      exact (compileNode_replaceNested types (Schema.truncateWithin_object room) reference allOf
        fun x hx site => ih (children x hx) site).symm

theorem unknownType_handlers {defs : List Definition}
    (generate generate' : Fin defs.length → StateM (Run defs) Unit) :
    (handlers generate).unknownType = (handlers generate').unknownType := rfl

theorem compile_eq_compile_truncate {defs : List Definition} {schema : Schema}
    (plain : schema.Plain) (limit extra : Nat) :
    (compile limit schema .root : StateM (Run defs) Validator) =
      compile (limit + extra) (schema.truncate limit) .root := by
  have room : roomAt (limit + extra) 0 = roomAt limit 0 + extra := by
    show limit + extra + 1 - 0 = limit + 1 - 0 + extra
    omega
  show compileWithin _ (roomAt limit 0) schema .root =
    compileWithin _ (roomAt (limit + extra) 0) (schema.truncateWithin (roomAt limit 0)) .root
  rw [room]
  exact compileWithin_truncateWithin (unknownType_handlers _ _) _ extra plain .root

/-- The validator of a root schema, compiled before anything else, and what is found then. -/
def parseRoot (root : Schema) (reserved : List String) (maxDepth : Nat) :
    Validator × List Diagnostic :=
  let compiled := (compile maxDepth root .root).run (.initial root reserved)
  (compiled.1, compiled.2.diagnostics)

/-- The depth limit is truncation: a schema without references and `allOf` is compiled with a limit
to the same validator, with the same findings, as with a higher limit what is left of it if all that
is nested deeper than the first one is replaced by the empty schema. So it is to start with, where
both have the same definitions, and in every state of a compilation. -/
theorem compile_truncate {schema : Schema} (plain : schema.Plain) {limit higher : Nat}
    (le : limit ≤ higher) :
    (∀ reserved,
      parseRoot schema reserved limit = parseRoot (schema.truncate limit) reserved higher) ∧
    ∀ (defs : List Definition) (r : Run defs),
      (compile limit schema .root).run r = (compile higher (schema.truncate limit) .root).run r := by
  obtain ⟨extra, rfl⟩ := Nat.exists_eq_add_of_le le
  refine ⟨fun reserved => ?_, fun defs r => by rw [compile_eq_compile_truncate plain]⟩
  unfold parseRoot Run.initial
  rw [Schema.definitions_truncate, compile_eq_compile_truncate plain]

/-- A schema with alternatives that differ only below their negations. -/
def nestedAlternatives : Schema :=
  .object
    { type := some (.one .array)
      items := some (.all (.object
        { anyOf := some [
            .object { not := some (.object { type := some (.one .string) }) },
            .object { not := some (.object { type := some (.one (.unknown "date")) }) }] })) }

theorem plain_nestedAlternatives : nestedAlternatives.Plain := by
  have ofType : ∀ tag, tag ≠ .object → tag ≠ .array →
      (Schema.object { type := some (.one tag) }).Plain := by
    intro tag notObject notArray
    refine .object _ rfl rfl fun x hx => ?_
    cases tag with
    | object => exact absurd rfl notObject
    | array => exact absurd rfl notArray
    | null | boolean | number | integer | string | unknown => exact absurd hx List.not_mem_nil
  have negation : ∀ x : Schema, x.Plain → (Schema.object { not := some x }).Plain := by
    intro x hx
    exact .object _ rfl rfl fun y hy => List.mem_singleton.1 hy ▸ hx
  have string := negation _ (ofType .string (by decide) (by decide))
  have date := negation _ (ofType (.unknown "date") (by decide) (by decide))
  refine .object _ rfl rfl fun x hx => ?_
  obtain rfl := List.mem_singleton.1 hx
  refine .object _ rfl rfl fun y hy => ?_
  rcases List.mem_pair.1 hy with rfl | rfl
  · exact string
  · exact date

/-- Both alternatives are cut off to the negation of the empty schema, before the unknown type name
is met. -/
theorem compile_truncate_nestedAlternatives :
    nestedAlternatives.Plain ∧ 2 ≤ 5 ∧
      parseRoot nestedAlternatives [] 2 = parseRoot (nestedAlternatives.truncate 2) [] 5 ∧
      (parseRoot nestedAlternatives [] 2).2 = [] ∧ (parseRoot nestedAlternatives [] 5).2 ≠ [] := by
  have le : 2 ≤ 5 := by decide
  refine ⟨plain_nestedAlternatives, le, (compile_truncate plain_nestedAlternatives le).1 [], ?_⟩
  decide +kernel

end SchemaCompiler
