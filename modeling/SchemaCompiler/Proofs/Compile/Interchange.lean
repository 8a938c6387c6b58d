import SchemaCompiler.Projection
import SchemaCompiler.Proofs.Compile.Whole
import SchemaCompiler.Proofs.Schema.Replace

/-!
# Interchangeable schemas

Two schemas are `Interchangeable` if neither the code nor the types nor the references tell one from
the other. A schema object can be taken for another one whose sub-schemas are interchangeable with
its own, if either both or none of the two have their members put in an intersection
(`Interchangeable.images`): that is decided by looks that the code of a member does not tell.
Along a path, only the schema right above what is replaced has to be looked at, since those further
up look the same as before (`Interchangeable.replaceAt`).
-/

namespace SchemaCompiler

/-- Whether a schema is an `allOf` whose members are put in an intersection. -/
def Shape.intersects : Shape → Bool
  | .allOf (x :: y :: rest) => (x :: y :: rest).all Schema.isObjectShaped
  | _ => false

namespace Schema

def intersects (s : Schema) : Bool := s.shape.intersects

/-- Nothing that is made of a schema tells it from the other one. -/
structure Interchangeable (s t : Schema) : Prop where
  /-- `true` and `false` are policies where they say what further properties are. -/
  bool : ∀ accepts, s = .bool accepts ↔ t = .bool accepts
  compiled : ∀ {σ : Type} (h : Handlers σ) (room : Nat) (site : Site),
    compileWithin h room s site = compileWithin h room t site
  projected : ∀ (follow : String → String) (room : Nat),
    projectWithin follow room s = projectWithin follow room t
  references : s.references = t.references
  description : s.description? = t.description?

theorem exists_bool_or_object {s t : Schema}
    (bool : ∀ accepts, s = .bool accepts ↔ t = .bool accepts) :
    (∃ accepts, s = .bool accepts ∧ t = .bool accepts) ∨
      ∃ k k', s = .object k ∧ t = .object k' := by
  cases s with
  | bool accepts => exact .inl ⟨accepts, rfl, (bool accepts).1 rfl⟩
  | object k =>
    cases t with
    | bool accepts => exact nomatch (bool accepts).2 rfl
    | object k' => exact .inr ⟨k, k', rfl, rfl⟩

theorem references_congr {s t : Schema}
    (reference : ∀ pointer, s.shape = .reference pointer ↔ t.shape = .reference pointer)
    (children : s.children.flatMap references = t.children.flatMap references) :
    s.references = t.references := by
  by_cases h : ∃ pointer, s.shape = .reference pointer
  · obtain ⟨pointer, shape⟩ := h
    rw [references_of_shape shape, references_of_shape ((reference pointer).1 shape)]
  · have ne := not_exists.1 h
    have ne' := fun pointer shape => ne pointer ((reference pointer).2 shape)
    rw [references_of_shape_ne ne, references_of_shape_ne ne', children]

theorem Interchangeable.refl (s : Schema) : s.Interchangeable s :=
  ⟨fun _ => .rfl, fun _ _ _ => rfl, fun _ _ => rfl, rfl, rfl⟩

end Schema

/-! ## Images of the same keywords -/

section Images

variable {S : Type} {f g : S → Schema}

/-- Two shapes that are the same but for the schemas in them, which are images of the same. -/
inductive Shape.Images (f g : S → Schema) : Shape → Shape → Prop where
  | reference (pointer : String) : Images f g (.reference pointer) (.reference pointer)
  | allOf (members : List S) : Images f g (.allOf (members.map f)) (.allOf (members.map g))
  | anyOf (members : List S) : Images f g (.anyOf (members.map f)) (.anyOf (members.map g))
  | oneOf (members : List S) : Images f g (.oneOf (members.map f)) (.oneOf (members.map g))
  | not (negated : S) : Images f g (.not (f negated)) (.not (g negated))
  | const (value : Json) : Images f g (.const value) (.const value)
  | enum (values : List Json) : Images f g (.enum values) (.enum values)
  | nullable (k : Keywords S) : Images f g (.nullable (k.map f)) (.nullable (k.map g))
  | typed (k : Keywords S) : Images f g (.typed (k.map f)) (.typed (k.map g))

theorem Shape.Images.reference_iff {s t : Shape} (h : Shape.Images f g s t) (pointer : String) :
    s = .reference pointer ↔ t = .reference pointer := by
  cases h with
  | reference => exact .rfl
  | allOf | anyOf | oneOf | not | const | enum | nullable | typed => exact ⟨nofun, nofun⟩

/-- Only the looks of the members matter for whether they are put in an intersection. -/
theorem Shape.Images.intersects_eq {s t : Shape} (h : Shape.Images f g s t)
    (looks : ∀ x, (f x).isObjectShaped = (g x).isObjectShaped) : s.intersects = t.intersects := by
  cases h with
  | reference | anyOf | oneOf | not | const | enum | nullable | typed => rfl
  | allOf members =>
    have all : (members.map f).all Schema.isObjectShaped =
        (members.map g).all Schema.isObjectShaped := by
      rw [List.all_map, List.all_map]
      exact congrArg (members.all ·) (funext looks)
    rcases members with _ | ⟨x, _ | ⟨y, rest⟩⟩
    · rfl
    · rfl
    · exact all

/-- An intersection on one side is a list of two or more members on both. -/
theorem Shape.Images.exists_members {s t : Shape} (h : Shape.Images f g s t) (hs : s.intersects) :
    ∃ members : List S, 2 ≤ members.length ∧ s = .allOf (members.map f) ∧
      t = .allOf (members.map g) := by
  cases h with
  | reference | anyOf | oneOf | not | const | enum | nullable | typed => nomatch hs
  | allOf members =>
    rcases members with _ | ⟨x, _ | ⟨y, rest⟩⟩
    · nomatch hs
    · nomatch hs
    · exact ⟨x :: y :: rest, by simp, rfl, rfl⟩

namespace Keywords

theorem images_shape (f g : S → Schema) (k : Keywords S) :
    Shape.Images f g (k.map f).shape (k.map g).shape := by
  have shape : ∀ f : S → Schema, (k.map f).shape =
      (k.reference.map Shape.reference <|> (k.allOf.map (List.map f)).map Shape.allOf <|>
        (k.anyOf.map (List.map f)).map Shape.anyOf <|>
        (k.oneOf.map (List.map f)).map Shape.oneOf <|> (k.not.map f).map Shape.not <|>
        k.const.map Shape.const <|> k.enum.map Shape.enum).getD
      (if k.nullable = some true then .nullable (k.map f) else .typed (k.map f)) := fun _ => rfl
  rw [shape f, shape g]
  rcases k.reference with _ | pointer
  · rcases k.allOf with _ | members
    · rcases k.anyOf with _ | members
      · rcases k.oneOf with _ | members
        · rcases k.not with _ | negated
          · rcases k.const with _ | value
            · rcases k.enum with _ | values
              · by_cases nullable : k.nullable = some true
                · simp only [nullable]
                  exact .nullable k
                · simp only [nullable]
                  exact .typed k
              · exact .enum values
            · exact .const value
          · exact .not negated
        · exact .oneOf members
      · exact .anyOf members
    · exact .allOf members
  · exact .reference pointer

theorem typeShape_map (f g : S → Schema) (k : Keywords S) :
    (k.map f).typeShape = (k.map g).typeShape := by
  unfold typeShape map
  simp only [Option.isSome_map]

theorem fields_map (f : S → Schema) (k : Keywords S) :
    (k.map f).fields = (k.properties.getD []).map (mapValue f) := by
  unfold fields map
  cases k.properties <;> rfl

/-- The schema of the elements, over any type of schemas. -/
def element? (k : Keywords S) : Option S :=
  match k.items with
  | some (.all x) => some x
  | some (.each xs) => xs.head?
  | none => none

theorem elementSchema?_map (f : S → Schema) (k : Keywords S) :
    (k.map f).elementSchema? = k.element?.map f := by
  unfold elementSchema? element? map
  rcases k.items with _ | x | (_ | ⟨x, xs⟩) <;> rfl

theorem exists_tagSchemas (k : Keywords S) (tag : TypeTag) :
    ∃ xs : List S, ∀ f : S → Schema, (k.map f).tagSchemas tag = xs.map f := by
  cases tag with
  | array =>
    refine ⟨k.element?.toList, fun f => ?_⟩
    rw [tagSchemas, elementSchema?_map]
    cases k.element? <;> rfl
  | object =>
    refine ⟨(k.properties.getD []).map (·.2) ++ k.additionalProperties.toList, fun f => ?_⟩
    have rest : (k.map f).additionalProperties.toList = k.additionalProperties.toList.map f := by
      unfold map
      cases k.additionalProperties <;> rfl
    rw [tagSchemas, fields_map, rest]
    simp [mapValue]
  | null | boolean | number | integer | string | unknown => exact ⟨[], fun _ => rfl⟩

theorem exists_typeSchemas (f g : S → Schema) (k : Keywords S) :
    ∃ xs : List S, (k.map f).typeSchemas = xs.map f ∧ (k.map g).typeSchemas = xs.map g := by
  choose xs of_tag using k.exists_tagSchemas
  unfold typeSchemas
  rw [typeShape_map g f]
  cases (k.map f).typeShape with
  | one tag => exact ⟨xs tag, of_tag tag f, of_tag tag g⟩
  | many tags =>
    refine ⟨tags.flatMap xs, ?_, ?_⟩ <;> rw [List.map_flatMap]
    · exact List.flatMap_congr fun tag _ => of_tag tag f
    · exact List.flatMap_congr fun tag _ => of_tag tag g
  | untyped => exact ⟨[], rfl, rfl⟩

end Keywords

/-! ## Compiling and projecting images -/

variable {σ : Type} {h : Handlers σ} {compile : Schema → Site → StateM σ Validator}
  {project : Schema → String} {follow : String → String} {k : Keywords S} {site : Site}

section Compile

variable (same : ∀ x site, compile (f x) site = compile (g x) site)

include same

theorem compileMembers_images (keyword : String) (members : List S) (i : Nat) :
    compileMembers compile keyword site i (members.map f) =
      compileMembers compile keyword site i (members.map g) := by
  induction members generalizing i with
  | nil => rfl
  | cons x xs ih => rw [List.map_cons, List.map_cons, compileMembers, compileMembers, same, ih]

theorem compileProperties_images (fields : List (String × S)) :
    compileProperties compile (k.map f) site (fields.map (mapValue f)) =
      compileProperties compile (k.map g) site (fields.map (mapValue g)) := by
  induction fields with
  | nil => rfl
  | cons p ps ih =>
    rw [List.map_cons, List.map_cons, mapValue, mapValue, compileProperties, compileProperties,
      same, ih]
    rfl

theorem compileElement_images :
    compileElement compile (k.map f) site = compileElement compile (k.map g) site := by
  unfold compileElement Keywords.map
  rcases k.items with _ | x | (_ | ⟨x, xs⟩)
  · rfl
  · exact same x _
  · rfl
  · exact same x _

theorem compileAnyOf_images (keyword : String) (members : List S) :
    compileAnyOf compile keyword (members.map f) site =
      compileAnyOf compile keyword (members.map g) site := by
  rcases members with _ | ⟨x, _ | ⟨y, rest⟩⟩
  · rfl
  · exact same x _
  · exact congrArg (Validator.anyOf <$> ·) (compileMembers_images same keyword _ 0)

theorem compileAllOf_images {members : List S}
    (intersects : (Shape.allOf (members.map f)).intersects =
      (Shape.allOf (members.map g)).intersects) :
    compileAllOf compile (members.map f) site = compileAllOf compile (members.map g) site := by
  rcases members with _ | ⟨x, _ | ⟨y, rest⟩⟩
  · rfl
  · exact same x _
  · have compiled : compileMembers compile "allOf" site 0 ((x :: y :: rest).map f) =
        compileMembers compile "allOf" site 0 ((x :: y :: rest).map g) :=
      compileMembers_images same "allOf" _ 0
    exact congrArg₂ (fun b rs => Validator.allOf b <$> rs) intersects compiled

variable (bool : ∀ x accepts, f x = .bool accepts ↔ g x = .bool accepts)

include bool

theorem compileRest_images :
    compileRest compile (k.map f) site = compileRest compile (k.map g) site := by
  unfold compileRest Keywords.map
  rcases k.additionalProperties with _ | x
  · rfl
  · have compiled := same x (site.under "additionalProperties")
    simp only [Option.map_some]
    obtain ⟨accepts, hf, hg⟩ | ⟨k₁, k₂, hf, hg⟩ := Schema.exists_bool_or_object (bool x)
    · rw [hf, hg]
    · rw [hf, hg] at compiled ⊢
      exact congrArg (Validator.Rest.constrained <$> ·) compiled

theorem compileTag_images (tag : TypeTag) :
    compileTag h compile (k.map f) site tag = compileTag h compile (k.map g) site tag := by
  cases tag with
  | null | boolean | number | integer | string | unknown => rfl
  | array => exact congrArg (Validator.array (k.map f) <$> ·) (compileElement_images same)
  | object =>
    rw [compileTag, compileTag, Keywords.fields_map, Keywords.fields_map,
      compileProperties_images same, compileRest_images same bool]

theorem compileTags_images (tags : List TypeTag) :
    compileTags h compile (k.map f) site tags = compileTags h compile (k.map g) site tags := by
  induction tags with
  | nil => rfl
  | cons tag tags ih => rw [compileTags, compileTags, compileTag_images same bool, ih]

theorem compileTyped_images :
    compileTyped h compile (k.map f) site = compileTyped h compile (k.map g) site := by
  unfold compileTyped
  rw [Keywords.typeShape_map g f]
  cases (k.map f).typeShape with
  | one tag => exact compileTag_images same bool tag
  | many tags => exact congrArg (Validator.union <$> ·) (compileTags_images same bool tags)
  | untyped => rfl

theorem compileNode_images
    (intersects : (k.map f).shape.intersects = (k.map g).shape.intersects) :
    compileNode h compile (.object (k.map f)) site =
      compileNode h compile (.object (k.map g)) site := by
  unfold compileNode Schema.shape
  simp only
  have images := k.images_shape f g
  generalize (k.map f).shape = s at images intersects ⊢
  generalize (k.map g).shape = t at images intersects ⊢
  cases images with
  | reference | const | enum => rfl
  | allOf members => exact compileAllOf_images same intersects
  | anyOf members => exact compileAnyOf_images same "anyOf" members
  | oneOf members => exact compileAnyOf_images same "oneOf" members
  | not negated => exact congrArg (Validator.not <$> ·) (same negated _)
  | nullable k => exact congrArg (Validator.nullable <$> ·) (compileTyped_images same bool)
  | typed k => exact compileTyped_images same bool

end Compile

section Project

variable (same : ∀ x, project (f x) = project (g x))

include same

theorem map_project_images (members : List S) :
    (members.map f).map project = (members.map g).map project := by
  simp only [List.map_map]
  exact List.map_congr_left fun x _ => same x

theorem projectAnyOf_images (members : List S) :
    projectAnyOf project (members.map f) = projectAnyOf project (members.map g) := by
  rcases members with _ | ⟨x, _ | ⟨y, rest⟩⟩
  · rfl
  · exact same x
  · have types := map_project_images same (x :: y :: rest)
    simp only [List.map_cons] at types ⊢
    simp only [projectAnyOf, List.map_cons, types]

theorem projectAllOf_images {members : List S}
    (intersects : (Shape.allOf (members.map f)).intersects =
      (Shape.allOf (members.map g)).intersects) :
    projectAllOf project (members.map f) = projectAllOf project (members.map g) := by
  rcases members with _ | ⟨x, _ | ⟨y, rest⟩⟩
  · rfl
  · exact same x
  · have types := map_project_images same (x :: y :: rest)
    simp only [Shape.intersects, List.map_cons] at intersects types ⊢
    simp only [projectAllOf, List.map_cons, types, intersects]

variable (bool : ∀ x accepts, f x = .bool accepts ↔ g x = .bool accepts)

include bool

theorem projectTag_images (tag : TypeTag) :
    projectTag project (k.map f) tag = projectTag project (k.map g) tag := by
  cases tag with
  | null | boolean | number | integer | string | unknown => rfl
  | array =>
    rw [projectTag, projectTag, Keywords.elementSchema?_map, Keywords.elementSchema?_map]
    cases k.element? with
    | none => rfl
    | some x => exact congrArg arrayType (same x)
  | object =>
    have fields : ((k.map f).fields.map fun p =>
          (⟨p.1, project p.2, !(k.map f).requires p.1⟩ : Field)) =
        (k.map g).fields.map fun p => ⟨p.1, project p.2, !(k.map g).requires p.1⟩ := by
      rw [Keywords.fields_map, Keywords.fields_map, List.map_map, List.map_map]
      exact List.map_congr_left fun p _ =>
        congrArg (fun type => (⟨p.1, type, _⟩ : Field)) (same p.2)
    refine congrArg₂ recordType fields ?_
    unfold Keywords.map
    rcases k.additionalProperties with _ | x
    · rfl
    · have projected := same x
      simp only [Option.map_some]
      obtain ⟨accepts, hf, hg⟩ | ⟨k₁, k₂, hf, hg⟩ := Schema.exists_bool_or_object (bool x)
      · rw [hf, hg]
      · rw [hf, hg] at projected ⊢
        exact congrArg some projected

theorem projectTyped_images :
    projectTyped project (k.map f) = projectTyped project (k.map g) := by
  unfold projectTyped
  rw [Keywords.typeShape_map g f]
  have tags : projectTag project (k.map f) = projectTag project (k.map g) :=
    funext (projectTag_images same bool)
  rw [tags]

theorem projectNode_images
    (intersects : (k.map f).shape.intersects = (k.map g).shape.intersects) :
    projectNode follow project (.object (k.map f)) =
      projectNode follow project (.object (k.map g)) := by
  unfold projectNode Schema.shape
  simp only
  have images := k.images_shape f g
  generalize (k.map f).shape = s at images intersects ⊢
  generalize (k.map g).shape = t at images intersects ⊢
  cases images with
  | reference | const | enum | not => rfl
  | allOf members => exact projectAllOf_images same intersects
  | anyOf members | oneOf members => exact projectAnyOf_images same members
  | nullable k => exact congrArg (· ++ " | null") (projectTyped_images same bool)
  | typed k => exact projectTyped_images same bool

end Project

theorem exists_children (f g : S → Schema) (k : Keywords S) :
    ∃ xs : List S, (k.map f).shape.children = xs.map f ∧ (k.map g).shape.children = xs.map g := by
  have images := k.images_shape f g
  generalize (k.map f).shape = s at images ⊢
  generalize (k.map g).shape = t at images ⊢
  cases images with
  | reference | const | enum => exact ⟨[], rfl, rfl⟩
  | allOf members | anyOf members | oneOf members => exact ⟨members, rfl, rfl⟩
  | not negated => exact ⟨[negated], rfl, rfl⟩
  | nullable k | typed k => exact k.exists_typeSchemas f g

theorem references_images (same : ∀ x, (f x).references = (g x).references) :
    (Schema.object (k.map f)).references = (Schema.object (k.map g)).references := by
  refine Schema.references_congr (fun pointer => (k.images_shape f g).reference_iff pointer) ?_
  obtain ⟨xs, hf, hg⟩ := exists_children f g k
  show (k.map f).shape.children.flatMap _ = (k.map g).shape.children.flatMap _
  rw [hf, hg, List.flatMap_map, List.flatMap_map]
  exact List.flatMap_congr fun x _ => same x

end Images

/-! ## Interchangeable schemas -/

namespace Schema.Interchangeable

/-- Schema objects with interchangeable sub-schemas are interchangeable, unless the members of only
one are put in an intersection. -/
theorem images {S : Type} {f g : S → Schema} (k : Keywords S)
    (same : ∀ x, (f x).Interchangeable (g x))
    (intersects : (k.map f).shape.intersects = (k.map g).shape.intersects) :
    (Schema.object (k.map f)).Interchangeable (.object (k.map g)) where
  bool := fun accepts => ⟨nofun, nofun⟩
  compiled := by
    intro σ h room site
    cases room with
    | zero => rfl
    | succ room =>
      exact compileNode_images (fun x site => (same x).compiled h room site)
        (fun x => (same x).bool) intersects
  projected := by
    intro follow room
    cases room with
    | zero => rfl
    | succ room =>
      exact projectNode_images (fun x => (same x).projected follow room)
        (fun x => (same x).bool) intersects
  references := references_images fun x => (same x).references
  description := rfl

end Schema.Interchangeable

/-! ## Along a path -/

namespace Schema

theorem intersects_set {k : Keywords Schema} {b : Branch} {x y : Schema}
    (child : k.child? b = some x) (looks : x.isObjectShaped = y.isObjectShaped) :
    k.shape.intersects = (k.set b y).shape.intersects := by
  obtain ⟨pairs, first, second⟩ :=
    Keywords.exists_pairs (R := fun x y : Schema => x.isObjectShaped = y.isObjectShaped)
      (fun _ => rfl) child looks
  rw [← second, ← first]
  exact (pairs.images_shape _ _).intersects_eq fun p => p.2

/-- If another schema is put at the end of a path, the schema right above has its members put in an
intersection just if it had before. -/
def KeepsIntersection (root : Schema) (path : List Branch) (y : Schema) : Prop :=
  ∀ front last above, path = front ++ [last] → root.at? front = some above →
    (above.replaceAt [last] y).intersects = above.intersects

theorem KeepsIntersection.below {k : Keywords Schema} {b : Branch} {z y : Schema}
    {path : List Branch} (child : k.child? b = some z)
    (keeps : (Schema.object k).KeepsIntersection (b :: path) y) : z.KeepsIntersection path y := by
  intro front last above path at_front
  refine keeps (b :: front) last above (by rw [path]; rfl) ?_
  show (k.child? b).bind _ = _
  rw [child]
  exact at_front

theorem Interchangeable.replaceAt {root x y : Schema} {path : List Branch}
    (at_path : root.at? path = some x) (same : x.Interchangeable y)
    (keeps : root.KeepsIntersection path y) :
    root.Interchangeable (root.replaceAt path y) := by
  induction path generalizing root with
  | nil =>
    obtain rfl := Option.some.inj at_path
    rwa [Schema.replaceAt]
  | cons b rest ih =>
    obtain ⟨k, z, rfl, child, below⟩ := at?_cons_eq_some at_path
    have inner : z.Interchangeable (z.replaceAt rest y) := ih below (keeps.below child)
    have intersects : k.shape.intersects = (k.set b (z.replaceAt rest y)).shape.intersects := by
      cases rest with
      | nil =>
        have here := keeps [] b (.object k) rfl rfl
        rw [replaceAt_cons child] at here
        exact here.symm
      | cons c rest => exact intersects_set child (isObjectShaped_replaceAt z c rest y).symm
    obtain ⟨pairs, first, second⟩ := Keywords.exists_pairs Interchangeable.refl child inner
    have swap := images pairs (fun p => p.2) (by rwa [first, second])
    rwa [first, second, ← replaceAt_cons child] at swap

end Schema

end SchemaCompiler
