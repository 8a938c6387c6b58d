import SchemaCompiler.Compile
import SchemaCompiler.Schema.References

/-!
# What all compiled validators have

Compiling a schema puts validators together in the ways that `Validator.Preserved` lists. A property
that these keep is one of every validator that a schema compiles to, in whatever state and however
that changes, as long as references compile to such validators
(`Validator.Preserved.yields_compileWithin`). An `allOf` is left to the property in question, which
may hold only for some of them.
-/

namespace SchemaCompiler

/-! ## Results of steps -/

/-- A step keeps a property of the state and returns what has another property. -/
def Yields {σ α : Type} (I : σ → Prop) (P : α → Prop) (m : StateM σ α) : Prop :=
  ∀ s, I s → I (m.run s).2 ∧ P (m.run s).1

section Yields

variable {σ α β γ : Type} {I : σ → Prop} {P : α → Prop} {Q : β → Prop} {R : γ → Prop}

theorem yields_pure {a : α} (h : P a) : Yields I P (pure a) := fun _ hs => ⟨hs, h⟩

theorem Yields.map {m : StateM σ α} (h : Yields I P m) {f : α → β} (hf : ∀ a, P a → Q (f a)) :
    Yields I Q (f <$> m) := by
  intro s hs
  obtain ⟨kept, result⟩ := h s hs
  exact ⟨kept, hf _ result⟩

/-- Two steps in a row of which the second does not look at the result of the first. -/
theorem Yields.map₂ {m : StateM σ α} {n : StateM σ β} (hm : Yields I P m) (hn : Yields I Q n)
    {f : α → β → γ} (hf : ∀ a b, P a → Q b → R (f a b)) :
    Yields I R (do let a ← m; let b ← n; return f a b) := by
  intro s hs
  obtain ⟨kept, first⟩ := hm s hs
  obtain ⟨kept, second⟩ := hn _ kept
  exact ⟨kept, hf _ _ first second⟩

end Yields

namespace Validator

/-! ## Properties of validators -/

/-- The ways of making validators, other than `allOf`, keep a property. -/
structure Preserved (P : Validator → Prop) : Prop where
  any : P .any
  never : P .never
  string (k : Keywords Schema) : P (.string k)
  number (k : Keywords Schema) (integer : Bool) : P (.number k integer)
  boolean : P .boolean
  null : P .null
  array (k : Keywords Schema) {element : Validator} (h : P element) : P (.array k element)
  object {properties : List Property} {rest : Rest} (h : ∀ p ∈ properties, P p.value)
    (hr : ∀ extra, rest = .constrained extra → P extra) : P (.object properties rest)
  union {members : List Validator} (h : ∀ r ∈ members, P r) : P (.union members)
  anyOf {members : List Validator} (h : ∀ r ∈ members, P r) : P (.anyOf members)
  not {inner : Validator} (h : P inner) : P (.not inner)
  nullable {base : Validator} (h : P base) : P (.nullable base)
  const (v : Json) : P (.const v)
  enum (values : List Json) : P (.enum values)

end Validator

/-! ## Nodes -/

namespace Validator.Preserved

variable {σ : Type} {I : σ → Prop} {P : Validator → Prop} {h : Handlers σ}
  {compile : Schema → Site → StateM σ Validator} {k : Keywords Schema} {site : Site}

theorem yields_compileMembers {keyword : String} {members : List Schema}
    (sub : ∀ x ∈ members, ∀ site, Yields I P (compile x site)) (i : Nat) :
    Yields I (fun rs => rs.length = members.length ∧ ∀ r ∈ rs, P r)
      (compileMembers compile keyword site i members) := by
  induction members generalizing i with
  | nil => exact yields_pure ⟨rfl, by simp⟩
  | cons x xs ih =>
    obtain ⟨first, rest⟩ := List.forall_mem_cons.1 sub
    refine (first _).map₂ (ih rest (i + 1)) fun r rs hr hrs => ⟨?_, ?_⟩
    · rw [List.length_cons, List.length_cons, hrs.1]
    · exact List.forall_mem_cons.2 ⟨hr, hrs.2⟩

theorem yields_compileProperties {fields : List (String × Schema)}
    (sub : ∀ p ∈ fields, ∀ site, Yields I P (compile p.2 site)) :
    Yields I (fun ps => ∀ p ∈ ps, P p.value) (compileProperties compile k site fields) := by
  induction fields with
  | nil => exact yields_pure (by simp)
  | cons p ps ih =>
    obtain ⟨first, rest⟩ := List.forall_mem_cons.1 sub
    exact (first _).map₂ (R := fun ps : List Validator.Property => ∀ p ∈ ps, P p.value) (ih rest)
      fun r ps hr hps => List.forall_mem_cons.2 ⟨hr, hps⟩

theorem yields_compileRest
    (sub : ∀ x ∈ k.additionalProperties, ∀ site, Yields I P (compile x site)) :
    Yields I (fun rest => ∀ extra, rest = .constrained extra → P extra)
      (compileRest compile k site) := by
  unfold compileRest
  split
  · exact yields_pure nofun
  · exact yields_pure nofun
  · exact yields_pure nofun
  next x _ _ hx =>
    refine (sub x hx _).map fun r hr extra eq => ?_
    obtain rfl := Validator.Rest.constrained.inj eq
    exact hr

variable (keeps : Preserved P)

include keeps

theorem yields_compileElement
    (sub : ∀ x ∈ k.elementSchema?, ∀ site, Yields I P (compile x site)) :
    Yields I P (compileElement compile k site) := by
  unfold compileElement
  split
  next x hx => exact sub x (by simp [Keywords.elementSchema?, hx]) _
  next x _ hx => exact sub x (by simp [Keywords.elementSchema?, hx]) _
  · exact yields_pure keeps.any

theorem yields_compileTag (types : ∀ name site, Yields I P (h.unknownType name site))
    {tag : TypeTag} (sub : ∀ x ∈ k.tagSchemas tag, ∀ site, Yields I P (compile x site)) :
    Yields I P (compileTag h compile k site tag) := by
  cases tag with
  | string => exact yields_pure (keeps.string k)
  | number => exact yields_pure (keeps.number k false)
  | integer => exact yields_pure (keeps.number k true)
  | boolean => exact yields_pure keeps.boolean
  | null => exact yields_pure keeps.null
  | unknown name => exact types name site
  | array =>
    have element : Yields I P (compileElement compile k site) :=
      yields_compileElement keeps fun x hx => sub x (Option.mem_toList.2 hx)
    exact element.map fun r hr => keeps.array k hr
  | object =>
    have properties : Yields I _ (compileProperties compile k site k.fields) :=
      yields_compileProperties fun p hp =>
        sub p.2 (List.mem_append_left _ (List.mem_map_of_mem hp))
    have rest : Yields I _ (compileRest compile k site) :=
      yields_compileRest fun x hx => sub x (List.mem_append_right _ (Option.mem_toList.2 hx))
    exact properties.map₂ rest fun ps rest hps hrest => keeps.object hps hrest

theorem yields_compileTags (types : ∀ name site, Yields I P (h.unknownType name site))
    {tags : List TypeTag} (sub : ∀ x ∈ tags.flatMap k.tagSchemas, ∀ site,
      Yields I P (compile x site)) :
    Yields I (fun rs => ∀ r ∈ rs, P r) (compileTags h compile k site tags) := by
  induction tags with
  | nil => exact yields_pure (by simp)
  | cons tag tags ih =>
    rw [List.flatMap_cons] at sub
    have first : Yields I P (compileTag h compile k site tag) :=
      yields_compileTag keeps types fun x hx => sub x (List.mem_append_left _ hx)
    exact first.map₂ (ih fun x hx => sub x (List.mem_append_right _ hx))
      fun r rs hr hrs => List.forall_mem_cons.2 ⟨hr, hrs⟩

theorem yields_compileTyped (types : ∀ name site, Yields I P (h.unknownType name site))
    (sub : ∀ x ∈ k.typeSchemas, ∀ site, Yields I P (compile x site)) :
    Yields I P (compileTyped h compile k site) := by
  unfold Keywords.typeSchemas at sub
  unfold compileTyped
  cases shape : k.typeShape <;> rw [shape] at sub
  case one tag => exact yields_compileTag keeps types sub
  case many tags => exact (yields_compileTags keeps types sub).map fun rs hrs => keeps.union hrs
  case untyped => exact yields_pure keeps.any

theorem yields_compileAllOf {members : List Schema}
    (allOf : 2 ≤ members.length → ∀ rs : List Validator, rs ≠ [] → (∀ r ∈ rs, P r) →
      P (.allOf (members.all Schema.isObjectShaped) rs))
    (sub : ∀ x ∈ members, ∀ site, Yields I P (compile x site)) :
    Yields I P (compileAllOf compile members site) := by
  rcases members with _ | ⟨x, _ | ⟨y, rest⟩⟩
  · exact yields_pure keeps.any
  · exact sub x (List.mem_singleton.2 rfl) _
  · refine (yields_compileMembers sub 0).map fun rs hrs => ?_
    exact allOf (by simp) rs (List.ne_nil_of_length_pos (by simp [hrs.1])) hrs.2

theorem yields_compileAnyOf {keyword : String} {members : List Schema}
    (sub : ∀ x ∈ members, ∀ site, Yields I P (compile x site)) :
    Yields I P (compileAnyOf compile keyword members site) := by
  rcases members with _ | ⟨x, _ | ⟨y, rest⟩⟩
  · exact yields_pure keeps.any
  · exact sub x (List.mem_singleton.2 rfl) _
  · exact (yields_compileMembers sub 0).map fun rs hrs => keeps.anyOf hrs.2

theorem yields_compileNode {schema : Schema}
    (references : ∀ pointer site, Yields I P (h.reference pointer site))
    (types : ∀ name site, Yields I P (h.unknownType name site))
    (allOf : ∀ members, schema.shape = .allOf members → 2 ≤ members.length →
      ∀ rs : List Validator, rs ≠ [] → (∀ r ∈ rs, P r) →
        P (.allOf (members.all Schema.isObjectShaped) rs))
    (sub : ∀ x ∈ schema.children, ∀ site, Yields I P (compile x site)) :
    Yields I P (compileNode h compile schema site) := by
  unfold Schema.children at sub
  unfold compileNode
  cases shape : schema.shape <;> rw [shape] at sub
  case bool accepts =>
    cases accepts
    · exact yields_pure keeps.never
    · exact yields_pure keeps.any
  case reference pointer => exact references pointer site
  case allOf members => exact yields_compileAllOf keeps (allOf members shape) sub
  case anyOf => exact yields_compileAnyOf keeps sub
  case oneOf => exact yields_compileAnyOf keeps sub
  case not x =>
    exact (sub x (List.mem_singleton.2 rfl) _).map fun r hr => keeps.not hr
  case const v => exact yields_pure (keeps.const v)
  case enum values => exact yields_pure (keeps.enum values)
  case nullable => exact (yields_compileTyped keeps types sub).map fun r hr => keeps.nullable hr
  case typed => exact yields_compileTyped keeps types sub

/-! ## Whole schemas -/

/-- If references and unknown type names compile to validators with a property that is kept, so do
schemas. `Met` tells which schemas are met with how much room, as far as that matters to `allOf`. -/
theorem yields_compileWithin (Met : Nat → Schema → Prop)
    (references : ∀ pointer site, Yields I P (h.reference pointer site))
    (types : ∀ name site, Yields I P (h.unknownType name site))
    (inner : ∀ room s, Met (room + 1) s → ∀ x ∈ s.children, Met room x)
    (allOf : ∀ room s, Met (room + 1) s → ∀ members, s.shape = .allOf members →
      2 ≤ members.length → ∀ rs : List Validator, rs ≠ [] → (∀ r ∈ rs, P r) →
        P (.allOf (members.all Schema.isObjectShaped) rs))
    {room : Nat} {schema : Schema} (met : Met room schema) (site : Site) :
    Yields I P (compileWithin h room schema site) := by
  induction room generalizing schema site with
  | zero => exact yields_pure keeps.any
  | succ room ih =>
    exact yields_compileNode keeps references types (allOf room schema met)
      fun x hx site => ih (inner room schema met x hx) site

end Validator.Preserved

end SchemaCompiler
