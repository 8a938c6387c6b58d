import SchemaCompiler.Projection
import SchemaCompiler.Proofs.CallTree
import SchemaCompiler.Proofs.Generate.Calls

/-!
# Projection terminates

Projecting a schema calls itself for the sub-schemas, one level further in, and for the definition
of a reference, at depth 0 again: `projectCalls` lists these calls. What bounds them is the search
for cycles, after which each definition that is not recursive has a rank above the ranks of those
that it refers to. So the schemas that are inlined in one another have smaller and smaller ranks,
and in between the schemas become smaller (`acc_projectCalls`).

Hence the bound on inlining that is built into `project` is never reached: it is the only function
that answers its calls by itself (`eq_project_iff`).
-/

namespace SchemaCompiler

open Relation

/-! ## Sub-schemas that are projected -/

namespace Keywords

/-- The sub-schemas that are projected for one type. -/
def projectedByTag (k : Keywords Schema) : TypeTag → List Schema
  | .array => k.elementSchema?.toList
  | .object =>
    k.fields.map (·.2) ++
      match k.additionalProperties with
      | none => []
      | some (.bool _) => []
      | some extra => [extra]
  | _ => []

/-- The sub-schemas that are projected for the type. -/
def projected (k : Keywords Schema) : List Schema :=
  match k.typeShape with
  | .one tag => k.projectedByTag tag
  | .many tags => tags.flatMap k.projectedByTag
  | .untyped => []

theorem projectedByTag_subset (k : Keywords Schema) (tag : TypeTag) :
    k.projectedByTag tag ⊆ k.tagSchemas tag := by
  cases tag <;> try exact List.Subset.refl _
  intro x hx
  rcases List.mem_append.1 hx with hx | hx
  · exact List.mem_append_left _ hx
  · refine List.mem_append_right _ ?_
    cases extra : k.additionalProperties with
    | none => simp [extra] at hx
    | some s => cases s <;> simp_all

theorem projected_subset (k : Keywords Schema) : k.projected ⊆ k.typeSchemas := by
  unfold projected typeSchemas
  cases k.typeShape with
  | one tag => exact k.projectedByTag_subset tag
  | many tags =>
    intro x hx
    obtain ⟨tag, mem, hx⟩ := List.mem_flatMap.1 hx
    exact List.mem_flatMap.2 ⟨tag, mem, k.projectedByTag_subset tag hx⟩
  | untyped => exact List.Subset.refl _

end Keywords

namespace Schema

/-- The sub-schemas that are projected as part of a schema; what is negated has no type. -/
def projected (s : Schema) : List Schema :=
  match s.shape with
  | .allOf members => members
  | .anyOf members => members
  | .oneOf members => members
  | .nullable k => k.projected
  | .typed k => k.projected
  | _ => []

theorem projected_subset (s : Schema) : s.projected ⊆ s.children := by
  unfold projected children
  cases s.shape with
  | allOf | anyOf | oneOf => exact List.Subset.refl _
  | nullable k => exact k.projected_subset
  | typed k => exact k.projected_subset
  | bool | reference | not | const | enum => exact List.nil_subset _

theorem references_subset_of_mem_projected {s x : Schema} (h : x ∈ s.projected) :
    x.references ⊆ s.references := references_subset_of_mem_children (s.projected_subset h)

end Schema

/-! ## What a projection depends on -/

section Congr

variable {follow follow' : String → String} {project project' : Schema → String}

theorem projectTag_congr {k : Keywords Schema} {tag : TypeTag}
    (h : ∀ x ∈ k.projectedByTag tag, project x = project' x) :
    projectTag project k tag = projectTag project' k tag := by
  cases tag with
  | array =>
    cases element : k.elementSchema? with
    | none => simp [projectTag, element]
    | some x => simp [projectTag, element, h x (by simp [Keywords.projectedByTag, element])]
  | object =>
    have fields : ∀ p ∈ k.fields, project p.2 = project' p.2 := fun p hp =>
      h p.2 (List.mem_append_left _ (List.mem_map_of_mem hp))
    have rest : ∀ x ∈ (match k.additionalProperties with
        | none => []
        | some (.bool _) => []
        | some extra => [extra]), project x = project' x := fun x hx =>
      h x (List.mem_append_right _ hx)
    have members : k.fields.map (fun p => Field.mk p.1 (project p.2) !k.requires p.1) =
        k.fields.map fun p => Field.mk p.1 (project' p.2) !k.requires p.1 :=
      List.map_congr_left fun p hp => by rw [fields p hp]
    simp only [projectTag]
    rw [members]
    rcases extra : k.additionalProperties with _ | (_ | _) | _ <;> simp_all
  | null | boolean | number | integer | string | unknown => rfl

theorem projectTyped_congr {k : Keywords Schema}
    (h : ∀ x ∈ k.projected, project x = project' x) :
    projectTyped project k = projectTyped project' k := by
  unfold Keywords.projected at h
  unfold projectTyped
  cases shape : k.typeShape <;> rw [shape] at h
  case one tag => exact projectTag_congr h
  case many tags =>
    have same : tags.map (projectTag project k) = tags.map (projectTag project' k) :=
      List.map_congr_left fun tag mem =>
        projectTag_congr fun x hx => h x (List.mem_flatMap.2 ⟨tag, mem, hx⟩)
    cases tags with
    | nil => rfl
    | cons tag tags => exact congrArg unionType same

theorem projectAllOf_congr {members : List Schema} (h : ∀ x ∈ members, project x = project' x) :
    projectAllOf project members = projectAllOf project' members := by
  have same := List.map_congr_left h
  unfold projectAllOf
  split
  · rfl
  next only => exact h only (by simp)
  · rw [same]

theorem projectAnyOf_congr {members : List Schema} (h : ∀ x ∈ members, project x = project' x) :
    projectAnyOf project members = projectAnyOf project' members := by
  have same := List.map_congr_left h
  unfold projectAnyOf
  split
  · rfl
  next only => exact h only (by simp)
  · rw [same]

/-- The type of a schema depends on those of the schemas that are projected as part of it only. -/
theorem projectNode_congr {schema : Schema}
    (references : ∀ pointer, schema.shape = .reference pointer → follow pointer = follow' pointer)
    (h : ∀ x ∈ schema.projected, project x = project' x) :
    projectNode follow project schema = projectNode follow' project' schema := by
  unfold Schema.projected at h
  unfold projectNode
  cases shape : schema.shape <;> rw [shape] at h
  case reference pointer => exact references pointer shape
  case allOf => exact projectAllOf_congr h
  case anyOf => exact projectAnyOf_congr h
  case oneOf => exact projectAnyOf_congr h
  case nullable => exact congrArg (· ++ " | null") (projectTyped_congr h)
  case typed => exact projectTyped_congr h
  case bool accepts => cases accepts <;> rfl
  case enum values => cases values <;> rfl

theorem projectWithin_congr (room : Nat) {schema : Schema}
    (references : ∀ pointer ∈ schema.references, follow pointer = follow' pointer) :
    projectWithin follow room schema = projectWithin follow' room schema := by
  induction room generalizing schema with
  | zero => rfl
  | succ room ih =>
    refine projectNode_congr (fun pointer shape => ?_) fun x hx => ih fun pointer mem => ?_
    · exact references pointer (by simp [Schema.references_of_shape shape])
    · exact references pointer (Schema.references_subset_of_mem_projected hx mem)

end Congr

/-! ## Ranks -/

variable {defs : List Definition} {t : Table defs} {limit bound : Nat} {schema : Schema}

namespace Table

/-- The definitions that the search puts on cycles are recursive. -/
def MarksCycles (t : Table defs) : Prop := ∀ i ∈ cyclic defs, t.isRecursive i

/-- The definitions that a schema refers to have ranks below a bound, unless they are recursive. -/
def RanksBelow (t : Table defs) (bound : Nat) (schema : Schema) : Prop :=
  ∀ pointer ∈ schema.references, ∀ i, lookup? defs pointer = some i → t.isRecursive i = false →
    Search.rank (referenced defs) i < bound

theorem MarksCycles.not_mem (marks : t.MarksCycles) {i : Fin defs.length}
    (hi : t.isRecursive i = false) : i ∉ cyclic defs := fun mem => by simp [marks i mem] at hi

theorem MarksCycles.rank_lt (marks : t.MarksCycles) {i : Fin defs.length}
    (hi : t.isRecursive i = false) : Search.rank (referenced defs) i < defs.length :=
  Search.rank_lt_of_not_mem_cyclic (marks.not_mem hi)

theorem MarksCycles.ranksBelow_definition (marks : t.MarksCycles) (i : Fin defs.length) :
    t.RanksBelow (Search.rank (referenced defs) i) (defs.get i).schema :=
  fun _ mem _ found hj => rank_lt_of_refers (refers_of_lookup? mem found) (marks.not_mem hj)

theorem MarksCycles.ranksBelow_length (marks : t.MarksCycles) (schema : Schema) :
    t.RanksBelow defs.length schema := fun _ _ _ _ hi => marks.rank_lt hi

theorem RanksBelow.of_mem_projected (h : t.RanksBelow bound schema) {x : Schema}
    (hx : x ∈ schema.projected) : t.RanksBelow bound x :=
  fun pointer mem => h pointer (Schema.references_subset_of_mem_projected hx mem)

theorem MarksCycles.extends {t' : Table defs} (marks : t.MarksCycles) (h : t.Extends t') :
    t'.MarksCycles := fun i mem => h.isRecursive (marks i mem)

end Table

theorem marksCycles_start (names : NameSupply) : (Run.start defs names).table.MarksCycles := by
  intro i mem
  simpa [Run.start, Table.isRecursive_detectCycles_fresh] using mem

theorem marksCycles_after (names : NameSupply) (maxDepth : Nat) (calls : List Call) :
    ((Run.start defs names).after maxDepth calls).table.MarksCycles :=
  (marksCycles_start names).extends (step_after (Run.sound_start names) calls).grows

/-! ## Calls -/

/-- The calls that the projection of a schema at a depth makes. -/
def projectCalls (t : Table defs) (limit : Nat) (call : Schema × Nat) : List (Schema × Nat) :=
  if limit < call.2 then []
  else
    match call.1.shape with
    | .reference pointer =>
      match lookup? defs pointer with
      | none => []
      | some i => if t.isRecursive i then [] else [((defs.get i).schema, 0)]
    | _ => call.1.projected.map fun x => (x, call.2 + 1)

/-- The type of a reference, where `definitionType` gives those of definitions that are not
recursive. -/
def referenceType (t : Table defs) (definitionType : Schema → String) (pointer : String) : String :=
  match lookup? defs pointer with
  | none => "any"
  | some i => if t.isRecursive i then (defs.get i).name else definitionType (defs.get i).schema

/-- The type that a projection returns where `f` answers its calls. -/
def projectStep (t : Table defs) (limit : Nat) (f : Schema × Nat → String) (call : Schema × Nat) :
    String :=
  if limit < call.2 then "any"
  else projectNode (referenceType t fun x => f (x, 0)) (fun x => f (x, call.2 + 1)) call.1

/-- A projection looks at the answers of its calls only. -/
theorem projectStep_congr {f g : Schema × Nat → String} {call : Schema × Nat}
    (h : ∀ next ∈ projectCalls t limit call, f next = g next) :
    projectStep t limit f call = projectStep t limit g call := by
  unfold projectStep
  unfold projectCalls at h
  split
  · rfl
  next within =>
    rw [if_neg within] at h
    refine projectNode_congr (fun pointer shape => ?_) fun x hx => ?_
    · simp only [shape] at h
      unfold referenceType
      cases found : lookup? defs pointer with
      | none => rfl
      | some i =>
        by_cases hi : t.isRecursive i
        · simp [hi]
        · simp only [hi, Bool.false_eq_true, if_false]
          exact h _ (by simp [found, hi])
    · refine h _ ?_
      cases shape : call.1.shape <;> simp [Schema.projected, shape] at hx ⊢ <;> exact hx

/-- A call is for the definition of a reference or for a sub-schema. -/
theorem mem_projectCalls {call next : Schema × Nat} (h : next ∈ projectCalls t limit call) :
    (∃ pointer ∈ call.1.references, ∃ i, lookup? defs pointer = some i ∧
      t.isRecursive i = false ∧ next = ((defs.get i).schema, 0)) ∨
    next.1 ∈ call.1.projected := by
  unfold projectCalls at h
  split at h
  · simp at h
  split at h
  next pointer shape =>
    left
    split at h
    · simp at h
    next i found =>
      split at h
      · simp at h
      next notRecursive =>
        exact ⟨pointer, by simp [Schema.references_of_shape shape], i, found,
          by simpa using notRecursive, by simpa using h⟩
  · right
    obtain ⟨x, hx, rfl⟩ := List.mem_map.1 h
    exact hx

/-- Calls end, since a call for a definition has a smaller bound on the ranks, and a call for a
sub-schema has a smaller schema. -/
theorem acc_projectCalls (marks : t.MarksCycles) (bound : Nat) (call : Schema × Nat)
    (h : t.RanksBelow bound call.1) :
    Acc (fun next call => next ∈ projectCalls t limit call) call := by
  refine .intro call fun next mem => ?_
  -- A definition resets the depth, which therefore is no part of the measure.
  rcases mem_projectCalls mem with ⟨pointer, written, i, found, hi, rfl⟩ | sub
  · have lower := h pointer written i found hi
    exact acc_projectCalls marks _ _ (marks.ranksBelow_definition i)
  · have smaller := Schema.sizeOf_lt_of_mem_children (call.1.projected_subset sub)
    exact acc_projectCalls marks bound next (h.of_mem_projected sub)
termination_by (bound, sizeOf call.1)

/-- The calls on one level of the tree of all calls that a projection leads to. -/
def nestedCalls (t : Table defs) (limit : Nat) : (level : Nat) → Schema × Nat → List (Schema × Nat)
  | 0, call => [call]
  | level + 1, call => (projectCalls t limit call).flatMap (nestedCalls t limit level)

theorem nestedCalls_eq (level : Nat) (call : Schema × Nat) :
    nestedCalls t limit level call = callsOnLevel (projectCalls t limit) level call := by
  induction level generalizing call with
  | zero => rfl
  | succ level ih =>
    rw [nestedCalls, callsOnLevel]
    exact List.flatMap_congr fun next _ => ih next

/-- Finitely many calls end after finitely many levels. -/
theorem exists_nestedCalls_eq_nil (marks : t.MarksCycles) (call : Schema × Nat) :
    ∃ level, nestedCalls t limit level call = [] := by
  have acc : Acc (fun next call => next ∈ projectCalls t limit call) call :=
    acc_projectCalls marks _ call (marks.ranksBelow_length _)
  obtain ⟨level, none⟩ := exists_callsOnLevel_eq_nil acc
  exact ⟨level, (nestedCalls_eq level call).trans none⟩

/-! ## The recursion without a bound -/

/-- Enough definitions can be inlined if there are more of them than the rank of the first. -/
theorem followWithin_eq (marks : t.MarksCycles) {room m n : Nat} {pointer : String}
    (h : ∀ i, lookup? defs pointer = some i → t.isRecursive i = false →
      Search.rank (referenced defs) i < m ∧ Search.rank (referenced defs) i < n) :
    followWithin t room m pointer = followWithin t room n pointer := by
  induction m generalizing n pointer with
  | zero =>
    unfold followWithin
    cases found : lookup? defs pointer with
    | none => rfl
    | some i =>
      by_cases hi : t.isRecursive i
      · simp [hi]
      · have := h i found (by simpa using hi)
        omega
  | succ m ih =>
    unfold followWithin
    cases found : lookup? defs pointer with
    | none => rfl
    | some i =>
      by_cases hi : t.isRecursive i
      · simp [hi]
      · obtain ⟨hm, hn⟩ := h i found (by simpa using hi)
        cases n with
        | zero => omega
        | succ n =>
          simp only [hi, Bool.false_eq_true, if_false]
          -- What the definition refers to has a smaller rank, so both bounds may be one less.
          refine projectWithin_congr room fun p mem => ih fun j foundJ hj => ?_
          have := marks.ranksBelow_definition i p mem j foundJ hj
          omega

theorem followWithin_eq_referenceType (marks : t.MarksCycles) (pointer : String) :
    followWithin t (limit + 1) defs.length pointer =
      referenceType t (fun x => project t limit x 0) pointer := by
  unfold referenceType followWithin
  cases found : lookup? defs pointer with
  | none => rfl
  | some i =>
    by_cases hi : t.isRecursive i
    · simp [hi]
    · have := marks.rank_lt (by simpa using hi)
      obtain ⟨n, hn⟩ : ∃ n, defs.length = n + 1 := ⟨defs.length - 1, by omega⟩
      simp only [hi, Bool.false_eq_true, if_false, project, hn]
      refine projectWithin_congr _ fun p mem => followWithin_eq marks fun j foundJ hj => ?_
      have := marks.ranksBelow_definition i p mem j foundJ hj
      omega

/-- A projection answers its calls by projections, with no bound on inlining. -/
theorem project_eq (marks : t.MarksCycles) (call : Schema × Nat) :
    project t limit call.1 call.2 =
      projectStep t limit (fun next => project t limit next.1 next.2) call := by
  obtain ⟨schema, depth⟩ := call
  unfold projectStep
  split
  next deep =>
    have : limit + 1 - depth = 0 := Nat.sub_eq_zero_of_le deep
    rw [project, this]
    rfl
  next within =>
    have : limit + 1 - depth = (limit + 1 - (depth + 1)) + 1 := by
      simp only at within
      omega
    rw [project, this]
    exact projectNode_congr (fun pointer _ => followWithin_eq_referenceType marks pointer)
      fun _ _ => rfl

/-- The projection is the only function that answers its calls by itself. -/
theorem eq_project_iff (marks : t.MarksCycles) (f : Schema × Nat → String) :
    (∀ call, f call = projectStep t limit f call) ↔
      f = fun call => project t limit call.1 call.2 := by
  constructor
  · intro step
    funext call
    induction acc_projectCalls marks _ call (marks.ranksBelow_length _) with
    | intro call _ ih =>
      rw [step, project_eq marks]
      exact projectStep_congr ih
  · rintro rfl call
    exact project_eq marks call

/-- References to definitions that are not recursive lead back to no definition. -/
theorem not_transGen_refers (marks : t.MarksCycles) (i : Fin defs.length) :
    ¬ TransGen (fun i j => Refers defs i j ∧ t.isRecursive j = false) i i := by
  intro h
  have avoiding : TransGen (fun i j => Refers defs i j ∧ j ∉ Table.cyclic defs) i i :=
    TransGen.mono (fun _ _ edge => ⟨edge.1, marks.not_mem edge.2⟩) i i h
  exact lt_irrefl _ (rank_lt_of_transGen avoiding)

/-- Projecting any schema at any depth with the table of any root schema ends, after whatever
calls: the tree of its calls is finite, no chain of references through definitions that are not
recursive leads back, and the types are the only ones that the recursion gives. -/
theorem projection_terminates (root : Schema) (reserved : List String) (maxDepth limit : Nat)
    (calls : List Call) :
    let t := ((Run.initial root reserved).after maxDepth calls).table
    (∀ call, ∃ level, nestedCalls t limit level call = []) ∧
    (∀ i, ¬ TransGen (fun i j => Refers _ i j ∧ t.isRecursive j = false) i i) ∧
    (∀ f, (∀ call, f call = projectStep t limit f call) ↔
      f = fun call => project t limit call.1 call.2) := by
  intro t
  have marks : t.MarksCycles := marksCycles_after _ maxDepth calls
  exact ⟨exists_nestedCalls_eq_nil marks, not_transGen_refers marks, eq_project_iff marks⟩

end SchemaCompiler
