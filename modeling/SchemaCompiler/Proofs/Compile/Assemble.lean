import SchemaCompiler.Compile

/-!
# Compilation as a function

Where references compile to validators that are given beforehand, compiling is a function of the
schema: `assembleWithin` puts a validator together from those of the sub-schemas, keyword by
keyword, and has no state. `compileWithin_pure` says that this is what compiling with handlers does
that only look references up.
-/

namespace SchemaCompiler

section Node

variable (reference : String → Validator) (f : Schema → Validator)

/-- What an object may hold besides its declared properties. -/
def assembleRest (k : Keywords Schema) : Validator.Rest :=
  match k.additionalProperties with
  | none => .free false
  | some (.bool true) => .free true
  | some (.bool false) => .closed
  | some extra => .constrained (f extra)

/-- The validator of a schema object that is of one type. -/
def assembleTag (k : Keywords Schema) : TypeTag → Validator
  | .string => .string k
  | .number => .number k false
  | .integer => .number k true
  | .boolean => .boolean
  | .null => .null
  | .array => .array k ((k.elementSchema?.map f).getD .any)
  | .object =>
    .object (k.fields.map fun (name, x) => ⟨name, k.requires name, f x⟩) (assembleRest f k)
  | .unknown _ => .any

/-- The validator of a schema object by its type keyword. -/
def assembleTyped (k : Keywords Schema) : Validator :=
  match k.typeShape with
  | .one tag => assembleTag f k tag
  | .many tags => .union (tags.map (assembleTag f k))
  | .untyped => .any

/-- The validator of an `allOf`. -/
def assembleAllOf (members : List Schema) : Validator :=
  match members with
  | [] => .any
  | [only] => f only
  | _ => .allOf (members.all Schema.isObjectShaped) (members.map f)

/-- The validator of an `anyOf` or `oneOf`. -/
def assembleAnyOf (members : List Schema) : Validator :=
  match members with
  | [] => .any
  | [only] => f only
  | _ => .anyOf (members.map f)

/-- The validator of a schema whose sub-schemas have the validators given by `f` and references
those given by `reference`. -/
def assembleNode (schema : Schema) : Validator :=
  match schema.shape with
  | .bool true => .any
  | .bool false => .never
  | .reference pointer => reference pointer
  | .allOf members => assembleAllOf f members
  | .anyOf members => assembleAnyOf f members
  | .oneOf members => assembleAnyOf f members
  | .not negated => .not (f negated)
  | .const value => .const value
  | .enum values => .enum values
  | .nullable k => .nullable (assembleTyped f k)
  | .typed k => assembleTyped f k

end Node

/-- The validator of a schema in which `room` schemas may be nested, itself included. -/
def assembleWithin (reference : String → Validator) : (room : Nat) → Schema → Validator
  | 0, _ => .any
  | room + 1, schema => assembleNode reference (assembleWithin reference room) schema

/-! ## Handlers without a state -/

/-- Handlers that look references up. -/
def Handlers.pure (reference : String → Validator) : Handlers Unit :=
  ⟨fun pointer _ => Pure.pure (reference pointer), fun _ _ => Pure.pure .any⟩

section Pure

variable {reference : String → Validator} {f : Schema → Validator}

theorem compileMembers_pure (keyword : String) (site : Site) (i : Nat) (members : List Schema) :
    compileMembers (σ := Unit) (fun x _ => pure (f x)) keyword site i members =
      pure (members.map f) := by
  induction members generalizing i with
  | nil => rfl
  | cons x xs ih => simp [compileMembers, ih]

theorem compileProperties_pure (k : Keywords Schema) (site : Site)
    (fields : List (String × Schema)) :
    compileProperties (σ := Unit) (fun x _ => pure (f x)) k site fields =
      pure (fields.map fun (name, x) => ⟨name, k.requires name, f x⟩) := by
  induction fields with
  | nil => rfl
  | cons p ps ih => simp [compileProperties, ih]

theorem compileRest_pure (k : Keywords Schema) (site : Site) :
    compileRest (σ := Unit) (fun x _ => pure (f x)) k site = pure (assembleRest f k) := by
  unfold compileRest assembleRest
  rcases k.additionalProperties with _ | (_ | _) | _ <;> rfl

theorem compileElement_pure (k : Keywords Schema) (site : Site) :
    compileElement (σ := Unit) (fun x _ => pure (f x)) k site =
      pure ((k.elementSchema?.map f).getD .any) := by
  unfold compileElement Keywords.elementSchema?
  rcases k.items with _ | _ | (_ | _) <;> rfl

theorem compileTag_pure (k : Keywords Schema) (site : Site) (tag : TypeTag) :
    compileTag (.pure reference) (fun x _ => pure (f x)) k site tag =
      pure (assembleTag f k tag) := by
  cases tag <;> simp [compileTag, assembleTag, compileElement_pure, compileProperties_pure,
    compileRest_pure, Handlers.pure]

theorem compileTags_pure (k : Keywords Schema) (site : Site) (tags : List TypeTag) :
    compileTags (.pure reference) (fun x _ => pure (f x)) k site tags =
      pure (tags.map (assembleTag f k)) := by
  induction tags with
  | nil => rfl
  | cons tag tags ih => simp [compileTags, compileTag_pure, ih]

theorem compileTyped_pure (k : Keywords Schema) (site : Site) :
    compileTyped (.pure reference) (fun x _ => pure (f x)) k site = pure (assembleTyped f k) := by
  unfold compileTyped assembleTyped
  cases k.typeShape with
  | one tag => exact compileTag_pure k site tag
  | many tags => simp [compileTags_pure]
  | untyped => rfl

theorem compileAllOf_pure (members : List Schema) (site : Site) :
    compileAllOf (σ := Unit) (fun x _ => pure (f x)) members site =
      pure (assembleAllOf f members) := by
  rcases members with _ | ⟨x, _ | ⟨y, rest⟩⟩
  · rfl
  · rfl
  · simp [compileAllOf, assembleAllOf, compileMembers_pure]

theorem compileAnyOf_pure (keyword : String) (members : List Schema) (site : Site) :
    compileAnyOf (σ := Unit) (fun x _ => pure (f x)) keyword members site =
      pure (assembleAnyOf f members) := by
  rcases members with _ | ⟨x, _ | ⟨y, rest⟩⟩
  · rfl
  · rfl
  · simp [compileAnyOf, assembleAnyOf, compileMembers_pure]

theorem compileNode_pure (schema : Schema) (site : Site) :
    compileNode (.pure reference) (fun x _ => pure (f x)) schema site =
      pure (assembleNode reference f schema) := by
  unfold compileNode assembleNode
  cases schema.shape with
  | bool accepts => cases accepts <;> rfl
  | reference | const | enum | not => rfl
  | allOf members => exact compileAllOf_pure members site
  | anyOf members => exact compileAnyOf_pure "anyOf" members site
  | oneOf members => exact compileAnyOf_pure "oneOf" members site
  | nullable k => simp [compileTyped_pure]
  | typed k => exact compileTyped_pure k site

end Pure

/-- Compiling with handlers that only look references up is assembling. -/
theorem compileWithin_pure (reference : String → Validator) (room : Nat) (schema : Schema)
    (site : Site) :
    compileWithin (.pure reference) room schema site =
      pure (assembleWithin reference room schema) := by
  induction room generalizing schema site with
  | zero => rfl
  | succ room ih =>
    have sub : compileWithin (.pure reference) room =
        fun x _ => pure (assembleWithin reference room x) := by
      funext x site
      exact ih x site
    rw [compileWithin, sub]
    exact compileNode_pure schema site

end SchemaCompiler
