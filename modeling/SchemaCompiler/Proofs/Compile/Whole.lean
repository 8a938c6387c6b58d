import Mathlib.Data.List.Basic
import SchemaCompiler.Proofs.Compile.Visits
import SchemaCompiler.Schema.References

/-!
# Compiling whole schemas

The visits of a schema lead to smaller schemas, and from them down to all references that the schema
has (`Schema.references_eq`). `Schema.height` is how far down they lead.

What the handlers of a compilation keep, the compilation of a whole schema keeps
(`compileWithin_keeps`), and if there is room for the height of the schema, it meets the references
of the schema in their order and no others (`related_compileWithin`).
-/

namespace SchemaCompiler

variable {k : Keywords Schema}

/-! ## Sub-schemas -/

def Visit.schema? : Visit → Option Schema
  | .schema x _ => some x
  | _ => none

theorem mem_of_mem_memberVisits {keyword : String} {i : Nat} {members : List Schema} {v : Visit}
    {x : Schema} (h : v ∈ memberVisits keyword i members) (hx : v.schema? = some x) :
    x ∈ members := by
  induction members generalizing i with
  | nil => simp [memberVisits] at h
  | cons y ys ih =>
    rcases List.mem_cons.1 h with rfl | h
    · obtain rfl : y = x := Option.some.inj hx
      exact List.mem_cons_self ..
    · exact List.mem_cons_of_mem _ (ih h)

namespace Keywords

theorem mem_tagSchemas_of_mem_tagVisits {tag : TypeTag} {v : Visit} {x : Schema}
    (h : v ∈ k.tagVisits tag) (hx : v.schema? = some x) : x ∈ k.tagSchemas tag := by
  cases tag with
  | null | boolean | number | integer | string => simp [tagVisits] at h
  | unknown name =>
    obtain rfl := List.mem_singleton.1 h
    simp [Visit.schema?] at hx
  | array =>
    simp only [tagVisits, elementVisits] at h
    simp only [tagSchemas, elementSchema?, Option.mem_toList]
    split at h
    next y items =>
      obtain rfl := List.mem_singleton.1 h
      simpa [items, Visit.schema?] using hx
    next y ys items =>
      obtain rfl := List.mem_singleton.1 h
      simpa [items, Visit.schema?] using hx
    next => simp at h
  | object =>
    simp only [tagSchemas, List.mem_append, Option.mem_toList]
    rcases List.mem_append.1 h with h | h
    · obtain ⟨p, mem, rfl⟩ := List.mem_map.1 h
      obtain rfl : p.2 = x := Option.some.inj hx
      exact .inl (List.mem_map_of_mem mem)
    · unfold restVisits at h
      split at h
      · simp at h
      · simp at h
      next extra _ eq =>
        obtain rfl := List.mem_singleton.1 h
        obtain rfl : extra = x := Option.some.inj hx
        exact .inr eq

theorem mem_typeSchemas_of_mem_typeVisits {v : Visit} {x : Schema} (h : v ∈ k.typeVisits)
    (hx : v.schema? = some x) : x ∈ k.typeSchemas := by
  unfold typeVisits at h
  unfold typeSchemas
  cases shape : k.typeShape <;> rw [shape] at h
  case one tag => exact mem_tagSchemas_of_mem_tagVisits h hx
  case many tags =>
    obtain ⟨tag, mem, h⟩ := List.mem_flatMap.1 h
    exact List.mem_flatMap.2 ⟨tag, mem, mem_tagSchemas_of_mem_tagVisits h hx⟩
  case untyped => simp at h

end Keywords

namespace Schema

theorem mem_children_of_mem_visits {s x : Schema} {v : Visit} (h : v ∈ s.visits)
    (hx : v.schema? = some x) : x ∈ s.children := by
  unfold visits at h
  unfold children
  cases shape : s.shape <;> rw [shape] at h
  case allOf | anyOf | oneOf => exact mem_of_mem_memberVisits h hx
  case nullable | typed => exact Keywords.mem_typeSchemas_of_mem_typeVisits h hx
  case not negated =>
    obtain rfl := List.mem_singleton.1 h
    obtain rfl : negated = x := Option.some.inj hx
    exact List.mem_singleton.2 rfl
  case reference =>
    obtain rfl := List.mem_singleton.1 h
    simp [Visit.schema?] at hx
  case bool | const | enum => simp at h

theorem sizeOf_lt_of_mem_visits {s x : Schema} {path : List String}
    (h : .schema x path ∈ s.visits) : sizeOf x < sizeOf s :=
  sizeOf_lt_of_mem_children (mem_children_of_mem_visits h rfl)

/-- The sub-schemas that are compiled as schemas of their own. -/
def visited (s : Schema) : List Schema := s.visits.filterMap Visit.schema?

theorem mem_children_of_mem_visited {s x : Schema} (h : x ∈ s.visited) : x ∈ s.children := by
  obtain ⟨v, mem, hx⟩ := List.mem_filterMap.1 h
  exact mem_children_of_mem_visits mem hx

theorem mem_visited {s x : Schema} {path : List String} (h : .schema x path ∈ s.visits) :
    x ∈ s.visited := List.mem_filterMap.2 ⟨_, h, rfl⟩

/-- How many schemas are nested in a schema, counting only those that are compiled. -/
def height (s : Schema) : Nat :=
  (s.visited.attach.map fun x => x.1.height + 1).foldr max 0
termination_by sizeOf s
decreasing_by exact sizeOf_lt_of_mem_children (mem_children_of_mem_visited x.2)

end Schema

theorem foldr_max_le_iff {n : Nat} {ns : List Nat} : ns.foldr max 0 ≤ n ↔ ∀ m ∈ ns, m ≤ n := by
  induction ns with
  | nil => simp
  | cons m ns ih => rw [List.foldr_cons, Nat.max_le, ih, List.forall_mem_cons]

/-- A schema is higher than those that are compiled as part of it, and no higher than needed. -/
theorem Schema.height_le_iff {s : Schema} {n : Nat} :
    s.height ≤ n ↔ ∀ x ∈ s.visited, x.height < n := by
  rw [height, foldr_max_le_iff, List.forall_mem_map]
  constructor
  · exact fun h x hx => h ⟨x, hx⟩ (List.mem_attach _ _)
  · exact fun h x _ => h x.1 x.2

theorem Schema.height_lt_of_mem_visited {s x : Schema} (h : x ∈ s.visited) :
    x.height < s.height := height_le_iff.1 (Nat.le_refl _) x h

/-! ## References -/

/-- The references that are met during a visit. -/
def Visit.references : Visit → List String
  | .schema x _ => x.references
  | .reference pointer => [pointer]
  | .unknownType _ => []

theorem flatMap_references_memberVisits (keyword : String) (i : Nat) (members : List Schema) :
    (memberVisits keyword i members).flatMap Visit.references =
      members.flatMap Schema.references := by
  induction members generalizing i with
  | nil => rfl
  | cons x xs ih => rw [memberVisits, List.flatMap_cons, List.flatMap_cons, ih, Visit.references]

theorem Schema.references_bool (accepts : Bool) : (Schema.bool accepts).references = [] := by
  rw [references]
  simp [shape, children, Shape.children]

namespace Keywords

theorem flatMap_references_tagVisits (k : Keywords Schema) (tag : TypeTag) :
    (k.tagVisits tag).flatMap Visit.references = (k.tagSchemas tag).flatMap Schema.references := by
  cases tag with
  | null | boolean | number | integer | string | unknown => rfl
  | array =>
    unfold tagVisits tagSchemas elementVisits elementSchema?
    rcases k.items with _ | x | (_ | ⟨x, xs⟩) <;> rfl
  | object =>
    unfold tagVisits tagSchemas fieldVisits restVisits
    rw [List.flatMap_append, List.flatMap_append, List.flatMap_map, List.flatMap_map]
    rcases k.additionalProperties with _ | (_ | _) | keywords
    · rfl
    · simp [Visit.references, Schema.references_bool]
    · simp [Visit.references, Schema.references_bool]
    · rfl

theorem flatMap_references_typeVisits (k : Keywords Schema) :
    k.typeVisits.flatMap Visit.references = k.typeSchemas.flatMap Schema.references := by
  unfold typeVisits typeSchemas
  cases k.typeShape with
  | one tag => exact k.flatMap_references_tagVisits tag
  | many tags =>
    simp only [List.flatMap_assoc]
    exact List.flatMap_congr fun tag _ => k.flatMap_references_tagVisits tag
  | untyped => rfl

end Keywords

/-- The references of a schema that is none are those of its children, one after the other. -/
theorem Schema.references_of_shape_ne {s : Schema} (h : ∀ pointer, s.shape ≠ .reference pointer) :
    s.references = s.children.flatMap references := by
  rw [references]
  split
  next pointer shape => exact absurd shape (h pointer)
  next => simp

/-- The references of a schema are those of its visits, one after the other. -/
theorem Schema.references_eq (s : Schema) : s.references = s.visits.flatMap Visit.references := by
  have below := s.references_of_shape_ne
  unfold visits
  unfold children at below
  cases shape : s.shape <;> rw [shape] at below
  case reference pointer => exact references_of_shape shape
  case bool | const | enum => exact below (by simp)
  case allOf | anyOf | oneOf =>
    rw [flatMap_references_memberVisits]
    exact below (by simp)
  case not => exact below (by simp)
  case nullable k | typed k =>
    rw [k.flatMap_references_typeVisits]
    exact below (by simp)

/-! ## Whole schemas -/

section Whole

variable {σ τ : Type} {h : Handlers σ}

/-- What the handlers keep, a compilation keeps. -/
theorem compileWithin_keeps {P : σ → Prop}
    (reference : ∀ pointer site s, P s → P ((h.reference pointer site).run s).2)
    (unknownType : ∀ name site s, P s → P ((h.unknownType name site).run s).2) (room : Nat)
    (schema : Schema) (site : Site) {s : σ} (hs : P s) :
    P ((compileWithin h room schema site).run s).2 := by
  induction room generalizing schema site s with
  | zero => exact hs
  | succ room ih =>
    rw [compileWithin, state_compileNode]
    refine performAll_keeps (fun v _ s hs => ?_) hs
    cases v with
    | schema x path => exact ih x (site.down path) hs
    | reference pointer => exact reference pointer site s hs
    | unknownType name => exact unknownType name site s hs

/-- Compilations do the same if their handlers do, in the states that are reached. -/
theorem compileWithin_congr {P : σ → Prop} {h' : Handlers σ}
    (reference : ∀ pointer site s, P s →
      (h.reference pointer site).run s = (h'.reference pointer site).run s)
    (unknownType : ∀ name site s, P s →
      (h.unknownType name site).run s = (h'.unknownType name site).run s)
    (keeps : ∀ pointer site s, P s → P ((h.reference pointer site).run s).2)
    (keepsTypes : ∀ name site s, P s → P ((h.unknownType name site).run s).2) (room : Nat)
    (schema : Schema) (site : Site) {s : σ} (hs : P s) :
    (compileWithin h room schema site).run s = (compileWithin h' room schema site).run s := by
  induction room generalizing schema site s with
  | zero => rfl
  | succ room ih =>
    refine compileNode_congr (fun v _ s hs => ?_) (fun v _ s hs => ?_) hs
    · cases v with
      | schema x path => exact ih x (site.down path) hs
      | reference pointer => exact reference pointer site s hs
      | unknownType name => exact unknownType name site s hs
    · cases v with
      | schema x path => exact compileWithin_keeps keeps keepsTypes room x (site.down path) hs
      | reference pointer => exact keeps pointer site s hs
      | unknownType name => exact keepsTypes name site s hs

/-- If the handlers do to a view of a state what others do to the state, so do compilations. -/
theorem compileWithin_view (view : σ → τ) {h' : Handlers τ}
    (reference : ∀ pointer site s, (h'.reference pointer site).run (view s) =
      Prod.map id view ((h.reference pointer site).run s))
    (unknownType : ∀ name site s, (h'.unknownType name site).run (view s) =
      Prod.map id view ((h.unknownType name site).run s)) (room : Nat) (schema : Schema)
    (site : Site) (s : σ) :
    (compileWithin h' room schema site).run (view s) =
      Prod.map id view ((compileWithin h room schema site).run s) := by
  induction room generalizing schema site s with
  | zero => rfl
  | succ room ih =>
    obtain ⟨build, run⟩ := exists_run_compileNode schema site
    have visits : ∀ vs s, (performAll h' (compileWithin h' room) site vs).run (view s) =
        Prod.map id view ((performAll h (compileWithin h room) site vs).run s) := by
      intro vs
      induction vs with
      | nil => exact fun s => rfl
      | cons v vs ihVisits =>
        intro s
        have first : (v.perform h' (compileWithin h' room) site).run (view s) =
            Prod.map id view ((v.perform h (compileWithin h room) site).run s) := by
          cases v with
          | schema x path => exact ih x (site.down path) s
          | reference pointer => exact reference pointer site s
          | unknownType name => exact unknownType name site s
        rw [run_performAll_cons, run_performAll_cons, first]
        simp only [Prod.map_fst, Prod.map_snd, ihVisits]
        rfl
    rw [compileWithin, compileWithin, run, run, visits]
    rfl

/-- A compilation with room for the whole schema does what following the references one after the
other does, as far as its handlers do. -/
theorem related_compileWithin {R : σ → τ → Prop} {follow : τ → String → τ}
    (reference : ∀ pointer site s t, R s t →
      R ((h.reference pointer site).run s).2 (follow t pointer))
    (unknownType : ∀ name site s t, R s t → R ((h.unknownType name site).run s).2 t) {room : Nat}
    {schema : Schema} (enough : schema.height < room) (site : Site) {s : σ} {t : τ}
    (related : R s t) :
    R ((compileWithin h room schema site).run s).2 (schema.references.foldl follow t) := by
  induction room generalizing schema site s t with
  | zero => omega
  | succ room ih =>
    rw [compileWithin, state_compileNode, schema.references_eq]
    have inside : ∀ x path, .schema x path ∈ schema.visits → x.height < room := by
      intro x path mem
      have := Schema.height_lt_of_mem_visited (Schema.mem_visited mem)
      omega
    generalize schema.visits = vs at inside
    induction vs generalizing s t with
    | nil => exact related
    | cons v vs ihVisits =>
      rw [run_performAll_cons, List.flatMap_cons, List.foldl_append]
      refine ihVisits ?_ fun x path mem => inside x path (List.mem_cons_of_mem _ mem)
      cases v with
      | schema x path => exact ih (inside x path (List.mem_cons_self ..)) _ related
      | reference pointer => exact reference pointer site s t related
      | unknownType name => exact unknownType name site s t related

end Whole

end SchemaCompiler
