import Mathlib.Data.List.Basic
import SchemaCompiler.Schema.Basic

/-!
# Schemas in their places

A schema object has other schemas in it, each on a `Branch`: under a keyword, and at a position if
the keyword holds several. A path of branches leads to a schema somewhere in another one
(`Schema.at?`), where a different schema can be put (`Schema.replaceAt`).

The keywords of a schema object are a functor in their schemas (`Keywords.map`). Two schema objects
that are the same but for the schema on one branch are images of one, over pairs of schemas
(`Keywords.exists_pairs`).
-/

namespace SchemaCompiler

/-! ## Branches -/

/-- Where a schema stands in a schema object. Properties and definitions count by position. -/
inductive Branch where
  | items
  | item (i : Nat)
  | property (i : Nat)
  | additionalProperties
  | allOf (i : Nat)
  | anyOf (i : Nat)
  | oneOf (i : Nat)
  | not
  | definition (i : Nat)
  | ownDefinition (i : Nat)
  deriving DecidableEq, Repr

section Lists

variable {S T : Type}

/-- A member with another value. -/
def mapValue (f : S → T) (member : String × S) : String × T := (member.1, f member.2)

/-- Replace the value of the member at a position. -/
def setValue (i : Nat) (y : S) (members : List (String × S)) : List (String × S) :=
  members.modify i (mapValue fun _ => y)

theorem map_setValue (f : S → T) (i : Nat) (y : S) (members : List (String × S)) :
    (setValue i y members).map (mapValue f) = setValue i (f y) (members.map (mapValue f)) := by
  unfold setValue
  induction members generalizing i with
  | nil => simp
  | cons m rest ih => cases i <;> simp [ih, mapValue]

theorem setValue_eq_self {i : Nat} {x : S} {members : List (String × S)}
    (h : members[i]?.map (·.2) = some x) : setValue i x members = members := by
  unfold setValue
  induction members generalizing i with
  | nil => simp at h
  | cons m rest ih =>
    cases i with
    | zero =>
      obtain rfl : m.2 = x := by simpa using h
      simp [mapValue]
    | succ i => simpa using ih (by simpa using h)

theorem set_eq_self {i : Nat} {x : S} {members : List S} (h : members[i]? = some x) :
    members.set i x = members := by
  obtain ⟨lt, rfl⟩ := List.getElem?_eq_some_iff.1 h
  exact List.set_getElem_self lt

end Lists

/-! ## Schemas of an object -/

def Items.map {S T : Type} (f : S → T) : Items S → Items T
  | .all x => .all (f x)
  | .each xs => .each (xs.map f)

namespace Keywords

variable {S T : Type}

/-- The same keywords with other schemas. -/
def map (f : S → T) (k : Keywords S) : Keywords T :=
  { reference := k.reference
    id := k.id
    metaSchema := k.metaSchema
    title := k.title
    description := k.description
    type := k.type
    minLength := k.minLength
    maxLength := k.maxLength
    pattern := k.pattern
    format := k.format
    minimum := k.minimum
    maximum := k.maximum
    exclusiveMinimum := k.exclusiveMinimum
    exclusiveMaximum := k.exclusiveMaximum
    multipleOf := k.multipleOf
    items := k.items.map (Items.map f)
    minItems := k.minItems
    maxItems := k.maxItems
    uniqueItems := k.uniqueItems
    properties := k.properties.map (List.map (mapValue f))
    required := k.required
    additionalProperties := k.additionalProperties.map f
    allOf := k.allOf.map (List.map f)
    anyOf := k.anyOf.map (List.map f)
    oneOf := k.oneOf.map (List.map f)
    not := k.not.map f
    const := k.const
    enum := k.enum
    definitions := k.definitions.map (List.map (mapValue f))
    defs := k.defs.map (List.map (mapValue f))
    nullable := k.nullable }

/-- The schema on a branch. -/
def child? (k : Keywords S) : Branch → Option S
  | .items =>
    match k.items with
    | some (.all x) => some x
    | _ => none
  | .item i =>
    match k.items with
    | some (.each xs) => xs[i]?
    | _ => none
  | .property i => k.properties.bind fun members => members[i]?.map (·.2)
  | .additionalProperties => k.additionalProperties
  | .allOf i => k.allOf.bind (·[i]?)
  | .anyOf i => k.anyOf.bind (·[i]?)
  | .oneOf i => k.oneOf.bind (·[i]?)
  | .not => k.not
  | .definition i => k.definitions.bind fun members => members[i]?.map (·.2)
  | .ownDefinition i => k.defs.bind fun members => members[i]?.map (·.2)

/-- Put a schema on a branch that is there. -/
def set (k : Keywords S) (b : Branch) (y : S) : Keywords S :=
  match b with
  | .items =>
    match k.items with
    | some (.all _) => { k with items := some (.all y) }
    | _ => k
  | .item i =>
    match k.items with
    | some (.each xs) => { k with items := some (.each (xs.set i y)) }
    | _ => k
  | .property i => { k with properties := k.properties.map (setValue i y) }
  | .additionalProperties =>
    { k with additionalProperties := k.additionalProperties.map fun _ => y }
  | .allOf i => { k with allOf := k.allOf.map (·.set i y) }
  | .anyOf i => { k with anyOf := k.anyOf.map (·.set i y) }
  | .oneOf i => { k with oneOf := k.oneOf.map (·.set i y) }
  | .not => { k with not := k.not.map fun _ => y }
  | .definition i => { k with definitions := k.definitions.map (setValue i y) }
  | .ownDefinition i => { k with defs := k.defs.map (setValue i y) }

theorem map_set (f : S → T) (k : Keywords S) (b : Branch) (y : S) :
    (k.set b y).map f = (k.map f).set b (f y) := by
  cases b with
  | items => rcases items : k.items with _ | _ | _ <;> simp [set, map, items, Items.map]
  | item i => rcases items : k.items with _ | _ | _ <;> simp [set, map, items, Items.map]
  | property | definition | ownDefinition =>
    simp [set, map, Function.comp_def, map_setValue]
  | additionalProperties | not => simp [set, map, Function.comp_def]
  | allOf | anyOf | oneOf => simp [set, map, Function.comp_def, List.map_set]

/-- Nothing changes if the schema that is there already is put on a branch. -/
theorem set_child? {k : Keywords S} {b : Branch} {x : S} (h : k.child? b = some x) :
    k.set b x = k := by
  have members : ∀ {i : Nat} {o : Option (List (String × S))},
      (o.bind fun members => members[i]?.map (·.2)) = some x → o.map (setValue i x) = o := by
    intro i o h
    obtain ⟨ms, rfl, h⟩ := Option.bind_eq_some_iff.1 h
    exact congrArg some (setValue_eq_self h)
  have elements : ∀ {i : Nat} {o : Option (List S)}, o.bind (·[i]?) = some x →
      o.map (·.set i x) = o := by
    intro i o h
    obtain ⟨xs, rfl, h⟩ := Option.bind_eq_some_iff.1 h
    exact congrArg some (set_eq_self h)
  cases b with
  | items =>
    rcases items : k.items with _ | z | zs <;> simp only [child?, items, reduceCtorEq] at h
    obtain rfl := Option.some.inj h
    simp only [set, items]
    rw [← items]
  | item i =>
    rcases items : k.items with _ | z | zs <;> simp only [child?, items, reduceCtorEq] at h
    simp only [set, items, set_eq_self h]
    rw [← items]
  | property | definition | ownDefinition => rw [set, members h]
  | allOf | anyOf | oneOf => rw [set, elements h]
  | additionalProperties =>
    have same : (k.additionalProperties.map fun _ => x) = k.additionalProperties := by
      rw [show k.additionalProperties = some x from h, Option.map_some]
    rw [set, same]
  | not =>
    have same : (k.not.map fun _ => x) = k.not := by
      rw [show k.not = some x from h, Option.map_some]
    rw [set, same]

theorem map_map_eq_self {f : T → S} {g : S → T} (h : ∀ x, f (g x) = x) (k : Keywords S) :
    (k.map g).map f = k := by
  have one : f ∘ g = fun x => x := funext h
  have list : List.map f ∘ List.map g = fun xs => xs := by
    funext xs
    simp [one]
  have members : List.map (mapValue f) ∘ List.map (mapValue g) = fun ms => ms := by
    funext ms
    simp [mapValue, Function.comp_def, h]
  have items : Items.map f ∘ Items.map g = fun i => i := by
    funext i
    cases i with
    | all x => exact congrArg Items.all (h x)
    | each xs => exact congrArg Items.each (congrFun list xs)
  unfold map
  simp only [Option.map_map, one, list, members, items, Option.map_id_fun']
  rfl

/-- Two schema objects that differ on one branch, as images of one over pairs of schemas. -/
theorem exists_pairs {R : S → S → Prop} (refl : ∀ x, R x x) {k : Keywords S} {b : Branch} {x y : S}
    (h : k.child? b = some x) (related : R x y) :
    ∃ pairs : Keywords { p : S × S // R p.1 p.2 },
      pairs.map (·.1.1) = k ∧ pairs.map (·.1.2) = k.set b y := by
  refine ⟨(k.map fun z => ⟨(z, z), refl z⟩).set b ⟨(x, y), related⟩, ?_, ?_⟩
  · rw [map_set, map_map_eq_self fun _ => rfl, set_child? h]
  · rw [map_set, map_map_eq_self fun _ => rfl]

end Keywords

/-! ## Paths -/

namespace Schema

def child? (b : Branch) : Schema → Option Schema
  | .bool _ => none
  | .object k => k.child? b

/-- The schema at the end of a path. -/
def at? : List Branch → Schema → Option Schema
  | [], s => some s
  | b :: path, s => (s.child? b).bind (at? path)

/-- Put another schema at the end of a path that is there. -/
def replaceAt : Schema → List Branch → Schema → Schema
  | _, [], y => y
  | .bool accepts, _ :: _, _ => .bool accepts
  | .object k, b :: path, y =>
    match k.child? b with
    | some x => .object (k.set b (replaceAt x path y))
    | none => .object k

/-- What is at the end of a path that starts with a branch. -/
theorem at?_cons_eq_some {root x : Schema} {b : Branch} {path : List Branch}
    (h : root.at? (b :: path) = some x) :
    ∃ k z, root = .object k ∧ k.child? b = some z ∧ z.at? path = some x := by
  obtain ⟨z, child, rest⟩ := Option.bind_eq_some_iff.1 h
  cases root with
  | bool accepts => nomatch child
  | object k => exact ⟨k, z, rfl, child, rest⟩

theorem replaceAt_cons {k : Keywords Schema} {b : Branch} {z : Schema} (h : k.child? b = some z)
    (path : List Branch) (y : Schema) :
    (Schema.object k).replaceAt (b :: path) y = .object (k.set b (z.replaceAt path y)) := by
  simp only [replaceAt, h]

theorem isObjectShaped_set (k : Keywords Schema) (b : Branch) (y : Schema) :
    (Schema.object (k.set b y)).isObjectShaped = (Schema.object k).isObjectShaped := by
  cases b with
  | items =>
    rcases items : k.items with _ | z | zs <;> simp only [Keywords.set, items]
    rfl
  | item i =>
    rcases items : k.items with _ | z | zs <;> simp only [Keywords.set, items]
    rfl
  | property i =>
    show (_ || (k.properties.map (setValue i y)).isSome) = (_ || k.properties.isSome)
    rw [Option.isSome_map]
    rfl
  | additionalProperties | allOf | anyOf | oneOf | not | definition | ownDefinition => rfl

/-- Whether a schema looks like one of objects does not depend on the schemas in it. -/
theorem isObjectShaped_replaceAt (s : Schema) (b : Branch) (path : List Branch) (y : Schema) :
    (s.replaceAt (b :: path) y).isObjectShaped = s.isObjectShaped := by
  cases s with
  | bool accepts => rfl
  | object k =>
    rcases child : k.child? b with _ | z
    · simp only [replaceAt, child]
    · rw [replaceAt_cons child]
      exact isObjectShaped_set k b _

end Schema

end SchemaCompiler
