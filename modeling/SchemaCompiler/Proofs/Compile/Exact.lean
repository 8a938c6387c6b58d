import SchemaCompiler.Proofs.Compile.Assemble
import SchemaCompiler.Proofs.Compile.Comparison
import SchemaCompiler.Proofs.Compile.Preserved
import SchemaCompiler.Proofs.Definitions.Names
import SchemaCompiler.Proofs.Validator.Literal
import SchemaCompiler.Proofs.Validator.Union

/-!
# Compiled validators are exact

Every compiled validator has a type, and `v.any()` and `v.never()` are the code of one validator
each, so that looking at the code is enough to tell these two (`exact_assembleWithin`). Any other
code calls another function, or is the name of a definition.
-/

namespace SchemaCompiler

namespace Validator

/-- A validator has a type, and is the one that accepts everything, or nothing, if its code says
so. -/
structure Exact (r : Validator) : Prop where
  typed : r.type.isSome
  any : r.isAny → r = .any
  never : r.isNever → r = .never

variable {r : Validator} {rs : List Validator} {symbol : String}

theorem code_any : Validator.any.code = "v.any()" := by decide

theorem code_never : Validator.never.code = "v.never()" := by decide

theorem calls_any : Validator.any.Calls "any" := calls_of_code_eq rfl

theorem calls_never : Validator.never.Calls "never" := calls_of_code_eq rfl

theorem exact_any : Exact .any where
  typed := rfl
  any _ := rfl
  never h := absurd h (by decide)

theorem exact_never : Exact .never where
  typed := rfl
  any h := absurd h (by decide)
  never _ := rfl

theorem isAny_eq_false_of_calls (h : r.Calls symbol) (hs : IsSymbol symbol)
    (other : symbol ≠ "any") : r.isAny = false := by
  rw [← Bool.not_eq_true]
  intro code
  exact other (h.unique calls_any hs (by decide) ((beq_iff_eq.1 code).trans code_any.symm))

theorem isNever_eq_false_of_calls (h : r.Calls symbol) (hs : IsSymbol symbol)
    (other : symbol ≠ "never") : r.isNever = false := by
  rw [← Bool.not_eq_true]
  intro code
  exact other (h.unique calls_never hs (by decide) ((beq_iff_eq.1 code).trans code_never.symm))

/-- A validator that calls any other function is exact. -/
theorem exact_of_calls (h : r.Calls symbol) (typed : r.type.isSome)
    (hs : IsSymbol symbol ∧ symbol ≠ "any" ∧ symbol ≠ "never") : Exact r where
  typed := typed
  any code := by simp [isAny_eq_false_of_calls h hs.1 hs.2.1] at code
  never code := by simp [isNever_eq_false_of_calls h hs.1 hs.2.2] at code

/-- A validator whose code is a name is exact. -/
theorem exact_of_spelled (code : Spelled r.code) (typed : r.type.isSome) : Exact r where
  typed := typed
  any isAny := by
    have : Spelled "v.any()" := beq_iff_eq.1 isAny ▸ code
    exact absurd (this '(' (by decide)) (by decide)
  never isNever := by
    have : Spelled "v.never()" := beq_iff_eq.1 isNever ▸ code
    exact absurd (this '(' (by decide)) (by decide)

theorem type_pipe (base : Validator) (actions : List Action) :
    (base.pipe actions).type = base.type := by
  unfold pipe
  split <;> rfl

/-! ## Types of one kind -/

section Kinds

variable {S : Type} (k : Keywords S)

theorem calls_string : (Validator.string k).Calls "string" := calls_pipe rfl _

theorem calls_number (integer : Bool) : (Validator.number k integer).Calls "number" :=
  calls_pipe rfl _

theorem calls_array (element : Validator) : (Validator.array k element).Calls "array" :=
  calls_pipe rfl _

/-- The library function for objects. -/
def objectSymbol (properties : List Property) : Rest → String
  | .free _ => "object"
  | .closed => "strictObject"
  | .constrained _ => if properties.isEmpty then "record" else "objectWithRest"

theorem calls_object (properties : List Property) (rest : Rest) :
    (Validator.object properties rest).Calls (objectSymbol properties rest) := by
  cases rest with
  | free | closed => exact calls_of_code_eq rfl
  | constrained extra =>
    unfold object objectSymbol
    simp only
    split
    · exact calls_of_code_eq rfl
    · exact calls_of_code_eq rfl

theorem objectSymbol_mem (properties : List Property) (rest : Rest) :
    objectSymbol properties rest ∈ ["object", "strictObject", "record", "objectWithRest"] := by
  cases rest with
  | free | closed => simp [objectSymbol]
  | constrained =>
    unfold objectSymbol
    simp only
    split <;> simp

theorem type_object (properties : List Property) (rest : Rest) :
    (Validator.object properties rest).type =
      some (recordType (properties.map Property.field) (match rest with
        | .free true => some "any"
        | .free false => none
        | .closed => none
        | .constrained extra => some extra.typeOrAny)) := by
  unfold object
  rcases rest with (_ | _) | _ | extra
  · rfl
  · rfl
  · rfl
  · simp only
    split <;> rfl

theorem exact_string : Exact (Validator.string k) :=
  exact_of_calls (calls_string k) (by rw [Validator.string, type_pipe]; rfl) (by decide)

theorem exact_number (integer : Bool) : Exact (Validator.number k integer) :=
  exact_of_calls (calls_number k integer) (by rw [Validator.number, type_pipe]; rfl) (by decide)

theorem exact_array (element : Validator) : Exact (Validator.array k element) :=
  exact_of_calls (calls_array k element) (by rw [Validator.array, type_pipe]; rfl) (by decide)

theorem exact_object (properties : List Property) (rest : Rest) :
    Exact (Validator.object properties rest) := by
  have symbols : ∀ s ∈ ["object", "strictObject", "record", "objectWithRest"],
      IsSymbol s ∧ s ≠ "any" ∧ s ≠ "never" := by decide
  exact exact_of_calls (calls_object properties rest) (by rw [type_object]; rfl)
    (symbols _ (objectSymbol_mem properties rest))

end Kinds

theorem exact_boolean : Exact .boolean :=
  exact_of_calls (calls_of_code_eq rfl) rfl (by decide : IsSymbol "boolean" ∧ _)

theorem exact_null : Exact .null :=
  exact_of_calls (calls_of_code_eq rfl) rfl (by decide : IsSymbol "null_" ∧ _)

theorem exact_not (inner : Validator) : Exact (.not inner) :=
  exact_of_calls (calls_of_code_eq rfl) rfl (by decide : IsSymbol "custom" ∧ _)

theorem exact_nullable (h : Exact r) : Exact (nullable r) :=
  exact_of_calls (calls_of_code_eq rfl) (by simpa [nullable] using h.typed)
    (by decide : IsSymbol "nullable" ∧ _)

/-! ## Several validators -/

theorem exact_union (h : ∀ r ∈ rs, Exact r) : Exact (union rs) := by
  have kept : ∀ r ∈ distinctByCode rs, Exact r := fun r hr => h r (distinctByCode_subset rs hr)
  unfold union
  generalize distinctByCode rs = distinct at kept
  split
  · exact exact_any
  next only => exact kept only (by simp)
  · refine exact_of_calls (calls_of_code_eq rfl) ?_ (by decide : IsSymbol "union" ∧ _)
    rw [ofMembers, knownTypes_eq fun r hr => (kept r hr).typed]
    rfl

theorem exact_anyOf (h : ∀ r ∈ rs, Exact r) : Exact (anyOf rs) := by
  unfold anyOf
  simp only
  split
  · exact exact_never
  · exact exact_union fun r hr => h r (List.mem_filter.1 hr).1

theorem exact_allOf (objectShaped : Bool) (h : ∀ r ∈ rs, Exact r) :
    Exact (allOf objectShaped rs) := by
  have typed := knownTypes_eq fun r hr => (h r hr).typed
  unfold allOf
  split
  · refine exact_of_calls (calls_of_code_eq rfl) ?_ (by decide : IsSymbol "intersect" ∧ _)
    rw [ofMembers, typed]
    rfl
  split
  · exact exact_never
  next noNever =>
  split
  · exact exact_any
  next first found =>
    -- The code is that of a member which is neither of the two.
    have notAny : first.isAny = false := by simpa using List.find?_some found
    have notNever : first.isNever = false := by
      have := List.mem_of_find?_eq_some found
      simp only [List.any_eq_true, not_exists, not_and] at noNever
      simpa using noNever first this
    refine ⟨by simp [typed], fun code => ?_, fun code => ?_⟩
    · exact absurd (notAny.symm.trans code) (by decide)
    · exact absurd (notNever.symm.trans code) (by decide)

theorem exact_const (v : Json) : Exact (const v) := by
  refine exact_of_calls (calls_of_code_eq (code_const v)) (by rw [type_const]; rfl) ?_
  cases v <;> simp only [constSymbol] <;> decide

theorem exact_enum (values : List Json) : Exact (enum values) := by
  unfold enum
  split
  · exact exact_any
  · exact exact_const _
  split
  · exact exact_of_calls (calls_of_code_eq rfl) rfl (by decide : IsSymbol "picklist" ∧ _)
  · refine exact_union fun r hr => ?_
    obtain ⟨v, _, rfl⟩ := List.mem_map.1 hr
    exact exact_const v

/-- The ways of making validators make exact ones. -/
theorem preserved_exact : Preserved Exact where
  any := exact_any
  never := exact_never
  string k := exact_string k
  number k integer := exact_number k integer
  boolean := exact_boolean
  null := exact_null
  array k _ _ := exact_array k _
  object _ _ := exact_object _ _
  union h := exact_union h
  anyOf h := exact_anyOf h
  not _ := exact_not _
  nullable h := exact_nullable h
  const v := exact_const v
  enum values := exact_enum values

end Validator

/-! ## Schemas -/

section Node

variable {reference : String → Validator} {f : Schema → Validator}

theorem exact_assembleTag (k : Keywords Schema) (tag : TypeTag) : (assembleTag f k tag).Exact := by
  cases tag with
  | string => exact Validator.exact_string k
  | number => exact Validator.exact_number k false
  | integer => exact Validator.exact_number k true
  | boolean => exact Validator.exact_boolean
  | null => exact Validator.exact_null
  | array => exact Validator.exact_array k _
  | object => exact Validator.exact_object _ _
  | unknown => exact Validator.exact_any

theorem exact_assembleTyped (k : Keywords Schema) : (assembleTyped f k).Exact := by
  unfold assembleTyped
  cases k.typeShape with
  | one tag => exact exact_assembleTag k tag
  | many tags =>
    refine Validator.exact_union fun r hr => ?_
    obtain ⟨tag, _, rfl⟩ := List.mem_map.1 hr
    exact exact_assembleTag k tag
  | untyped => exact Validator.exact_any

theorem exact_map {members : List Schema} (h : ∀ x ∈ members, (f x).Exact) :
    ∀ r ∈ members.map f, r.Exact := by
  intro r hr
  obtain ⟨x, hx, rfl⟩ := List.mem_map.1 hr
  exact h x hx

theorem exact_assembleAllOf {members : List Schema} (h : ∀ x ∈ members, (f x).Exact) :
    (assembleAllOf f members).Exact := by
  unfold assembleAllOf
  split
  · exact Validator.exact_any
  next only => exact h only (by simp)
  · exact Validator.exact_allOf _ (exact_map h)

theorem exact_assembleAnyOf {members : List Schema} (h : ∀ x ∈ members, (f x).Exact) :
    (assembleAnyOf f members).Exact := by
  unfold assembleAnyOf
  split
  · exact Validator.exact_any
  next only => exact h only (by simp)
  · exact Validator.exact_anyOf (exact_map h)

theorem exact_assembleNode {schema : Schema}
    (references : ∀ pointer ∈ schema.references, (reference pointer).Exact)
    (h : ∀ x ∈ schema.children, (f x).Exact) : (assembleNode reference f schema).Exact := by
  unfold Schema.children at h
  unfold assembleNode
  cases shape : schema.shape <;> rw [shape] at h
  case bool accepts => cases accepts; exacts [Validator.exact_never, Validator.exact_any]
  case reference pointer => exact references pointer (by simp [Schema.references_of_shape shape])
  case allOf => exact exact_assembleAllOf h
  case anyOf => exact exact_assembleAnyOf h
  case oneOf => exact exact_assembleAnyOf h
  case not => exact Validator.exact_not _
  case const v => exact Validator.exact_const v
  case enum values => exact Validator.exact_enum values
  case nullable k => exact Validator.exact_nullable (exact_assembleTyped k)
  case typed k => exact exact_assembleTyped k

end Node

/-- What a schema compiles to is exact if its references are. -/
theorem exact_assembleWithin {reference : String → Validator} (room : Nat) {schema : Schema}
    (references : ∀ pointer ∈ schema.references, (reference pointer).Exact) :
    (assembleWithin reference room schema).Exact := by
  induction room generalizing schema with
  | zero => exact Validator.exact_any
  | succ room ih =>
    refine exact_assembleNode references fun x hx => ih fun pointer mem => ?_
    exact references pointer (Schema.references_subset_of_mem_children hx mem)

end SchemaCompiler
