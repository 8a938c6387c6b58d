import SchemaCompiler.Proofs.Definitions.Detected
import SchemaCompiler.Proofs.Module.Declared
import SchemaCompiler.Proofs.TypeText.Bare

/-!
# Type aliases that refer to themselves

The type of a recursive definition is declared as an alias, and an alias may refer to itself only
from within an object type, an array or a tuple. Whether it does is decided by what is bare in
projected types. The sub-schemas whose types are bare in that of a schema are the members of a
composition and the schema of further keys of an object without properties (`Schema.bare`); beside
them, the type of a reference is that of the definition or its name (`bareIn_project_iff_step`).
So a name is bare in a projected type if a chain of such projections ends at a reference to it
(`bareIn_project_iff`), and this tells which aliases refer to which (`aliases_guarded_iff`).

Aliases are not guarded in general. With properties, the further keys of an object are written as
a member of an object type; without, the type is `Record<string, T>`, and in `mapOfItself` it is the
alias itself that stands there.
-/

namespace SchemaCompiler

open Relation

/-! ## Bare parts -/

namespace Keywords

/-- The schema of further keys, if it is projected. -/
def further (k : Keywords Schema) : List Schema :=
  match k.additionalProperties with
  | none => []
  | some (.bool _) => []
  | some extra => [extra]

/-- The sub-schemas whose types are bare in that of one type: the schema of further keys if there
are no properties. -/
def bareByTag (k : Keywords Schema) : TypeTag → List Schema
  | .object => if k.fields.isEmpty then k.further else []
  | _ => []

def bare (k : Keywords Schema) : List Schema :=
  match k.typeShape with
  | .one tag => k.bareByTag tag
  | .many tags => tags.flatMap k.bareByTag
  | .untyped => []

theorem bareByTag_subset (k : Keywords Schema) (tag : TypeTag) :
    k.bareByTag tag ⊆ k.projectedByTag tag := by
  cases tag <;> try exact List.nil_subset _
  have further : k.further ⊆ k.projectedByTag .object := List.subset_append_right _ _
  show (if k.fields.isEmpty then k.further else []) ⊆ _
  split
  · exact further
  · exact List.nil_subset _

theorem bare_subset (k : Keywords Schema) : k.bare ⊆ k.projected := by
  unfold bare projected
  cases k.typeShape with
  | one tag => exact k.bareByTag_subset tag
  | many tags =>
    intro x hx
    obtain ⟨tag, mem, hx⟩ := List.mem_flatMap.1 hx
    exact List.mem_flatMap.2 ⟨tag, mem, k.bareByTag_subset tag hx⟩
  | untyped => exact List.Subset.refl _

end Keywords

namespace Schema

/-- The sub-schemas whose types are bare in that of a schema, where `project` gives the types of
sub-schemas: a member of a mixed `allOf` with the type `never` leaves nothing of the others. -/
def bare (project : Schema → String) (s : Schema) : List Schema :=
  match s.shape with
  | .allOf members =>
    if 2 ≤ members.length ∧ members.all isObjectShaped = false ∧ "never" ∈ members.map project
    then [] else members
  | .anyOf members => members
  | .oneOf members => members
  | .nullable k => k.bare
  | .typed k => k.bare
  | _ => []

theorem bare_subset (project : Schema → String) (s : Schema) : s.bare project ⊆ s.projected := by
  unfold bare projected
  cases s.shape with
  | allOf members =>
    simp only
    split
    · exact List.nil_subset _
    · exact List.Subset.refl _
  | anyOf | oneOf => exact List.Subset.refl _
  | nullable k => exact k.bare_subset
  | typed k => exact k.bare_subset
  | bool | reference | not | const | enum => exact List.nil_subset _

end Schema

/-! ## Bare names in projected types -/

section Node

variable {follow : String → String} {project : Schema → String} {name : String}
  {k : Keywords Schema} {types : List String} {members : List Schema}

/-- Members without the name can be left out. -/
theorem exists_mem_filter_bareIn {word : String} (h : ¬ BareIn name word) :
    (∃ type ∈ types.filter (· != word), BareIn name type) ↔ ∃ type ∈ types, BareIn name type := by
  refine exists_congr fun type => and_congr_left fun bare => ?_
  have ne : type ≠ word := by
    rintro rfl
    exact h bare
  simp [List.mem_filter, ne]

theorem bareIn_intersectKnown (h : Declarable name) (typed : ∀ type ∈ types, IsTypeText type) :
    BareIn name (intersectKnown types) ↔ ∃ type ∈ types, BareIn name type := by
  have notAny : ¬ BareIn name "any" := h.not_bareIn_reserved (by decide)
  rw [← exists_mem_filter_bareIn notAny]
  unfold intersectKnown
  simp only
  split
  next none =>
    rw [List.isEmpty_iff.1 none]
    simpa using notAny
  next some =>
    exact bareIn_intersectionType (by simpa using some)
      fun type mem => typed type (List.mem_filter.1 mem).1

variable (h : Declarable name) (sub : ∀ x, IsTypeText (project x))

include h sub

theorem bareIn_projectTag_object :
    BareIn name (projectTag project k .object) ↔
      k.fields = [] ∧ ∃ x ∈ k.further, BareIn name (project x) := by
  have fields : ∀ f ∈ k.fields.map fun p => Field.mk p.1 (project p.2) !k.requires p.1,
      IsTypeText f.type := List.forall_mem_map.2 fun p _ => sub p.2
  have notAny : ¬ BareIn name "any" := h.not_bareIn_reserved (by decide)
  rw [projectTag, Keywords.further]
  rcases k.additionalProperties with _ | (_ | _) | extra
  · rw [bareIn_recordType fields (by simp)]
    simp
  · rw [bareIn_recordType fields (by simp)]
    simp
  · rw [bareIn_recordType fields (by simpa using .any)]
    simp [notAny]
  · rw [bareIn_recordType fields (by simpa using sub _)]
    simp

theorem bareIn_projectTag (tag : TypeTag) :
    BareIn name (projectTag project k tag) ↔ ∃ x ∈ k.bareByTag tag, BareIn name (project x) := by
  have word : ∀ word : String, word ∈ reservedWords ∧ isIdentifier word →
      (BareIn name word ↔ ∃ x ∈ ([] : List Schema), BareIn name (project x)) := by
    intro word reserved
    simpa using h.not_bareIn_reserved reserved
  cases tag with
  | string => exact word "string" (by decide)
  | number | integer => exact word "number" (by decide)
  | boolean => exact word "boolean" (by decide)
  | null => exact word "null" (by decide)
  | unknown => exact word "any" (by decide)
  | array =>
    have element : IsTypeText ((k.elementSchema?.map project).getD "any") := by
      cases k.elementSchema? with
      | none => exact .any
      | some x => exact sub x
    simpa [projectTag, Keywords.bareByTag] using not_bareIn_arrayType element
  | object =>
    rw [bareIn_projectTag_object h sub, Keywords.bareByTag]
    split
    next none => exact and_iff_right (List.isEmpty_iff.1 none)
    next some => exact iff_of_false (fun both => some (List.isEmpty_iff.2 both.1)) (by simp)

theorem bareIn_projectTyped :
    BareIn name (projectTyped project k) ↔ ∃ x ∈ k.bare, BareIn name (project x) := by
  have notAny : ¬ BareIn name "any" := h.not_bareIn_reserved (by decide)
  unfold projectTyped Keywords.bare
  cases k.typeShape with
  | one tag => exact bareIn_projectTag h sub tag
  | untyped => simpa using notAny
  | many tags =>
    cases tags with
    | nil => simpa using notAny
    | cons tag tags =>
      have typed : ∀ type ∈ (tag :: tags).map (projectTag project k), IsTypeText type :=
        List.forall_mem_map.2 fun tag _ => isTypeText_projectTag sub k tag
      simp only
      rw [bareIn_unionType (by simp) typed]
      constructor
      · rintro ⟨type, mem, bare⟩
        obtain ⟨tag, htag, rfl⟩ := List.mem_map.1 mem
        obtain ⟨x, hx, bare⟩ := (bareIn_projectTag h sub tag).1 bare
        exact ⟨x, List.mem_flatMap.2 ⟨tag, htag, hx⟩, bare⟩
      · rintro ⟨x, mem, bare⟩
        obtain ⟨tag, htag, hx⟩ := List.mem_flatMap.1 mem
        exact ⟨_, List.mem_map_of_mem htag, (bareIn_projectTag h sub tag).2 ⟨x, hx, bare⟩⟩

theorem bareIn_projectAnyOf :
    BareIn name (projectAnyOf project members) ↔ ∃ x ∈ members, BareIn name (project x) := by
  have notNever : ¬ BareIn name "never" := h.not_bareIn_reserved (by decide)
  rcases members with _ | ⟨x, _ | ⟨y, rest⟩⟩
  · simpa [projectAnyOf] using h.not_bareIn_reserved (by decide : "any" ∈ _ ∧ _)
  · simp [projectAnyOf]
  · have types : (∃ type ∈ ((x :: y :: rest).map project).filter (· != "never"),
        BareIn name type) ↔ ∃ z ∈ x :: y :: rest, BareIn name (project z) := by
      rw [exists_mem_filter_bareIn notNever]
      simp
    rw [← types]
    unfold projectAnyOf
    simp only
    split
    next none =>
      rw [List.isEmpty_iff.1 none]
      simpa using notNever
    next some =>
      refine bareIn_unionType (by simpa using some) fun type mem => ?_
      obtain ⟨z, _, rfl⟩ := List.mem_map.1 (List.mem_filter.1 mem).1
      exact sub z

theorem bareIn_projectAllOf :
    BareIn name (projectAllOf project members) ↔
      ¬ (2 ≤ members.length ∧ members.all Schema.isObjectShaped = false ∧
        "never" ∈ members.map project) ∧ ∃ x ∈ members, BareIn name (project x) := by
  rcases members with _ | ⟨x, _ | ⟨y, rest⟩⟩
  · simpa [projectAllOf] using h.not_bareIn_reserved (by decide : "any" ∈ _ ∧ _)
  · simp [projectAllOf]
  · have long : 2 ≤ (x :: y :: rest).length := by simp
    have typed : ∀ type ∈ (x :: y :: rest).map project, IsTypeText type :=
      List.forall_mem_map.2 fun z _ => sub z
    have types : (∃ type ∈ (x :: y :: rest).map project, BareIn name type) ↔
        ∃ z ∈ x :: y :: rest, BareIn name (project z) := by simp
    rw [← types]
    unfold projectAllOf
    simp only [long, true_and]
    split
    next shaped =>
      rw [bareIn_intersectionType (by simp) typed]
      simp [shaped]
    split
    next mixed never =>
      have notNever : ¬ BareIn name "never" := h.not_bareIn_reserved (by decide)
      exact iff_of_false notNever fun both =>
        both.1 ⟨by simpa using mixed, List.contains_iff_mem.1 never⟩
    next mixed never =>
      rw [bareIn_intersectKnown h typed]
      exact ⟨fun bare => ⟨fun both => never (List.contains_iff_mem.2 both.2), bare⟩, And.right⟩

/-- A name is bare in the type of a schema if the schema is a reference that stands for it, or in
one of its bare parts. -/
theorem bareIn_projectNode (schema : Schema) :
    BareIn name (projectNode follow project schema) ↔
      (∃ pointer, schema.shape = .reference pointer ∧ BareIn name (follow pointer)) ∨
        ∃ x ∈ schema.bare project, BareIn name (project x) := by
  have none : ∀ word : String, word ∈ reservedWords ∧ isIdentifier word → ¬ BareIn name word :=
    fun word => h.not_bareIn_reserved
  unfold projectNode Schema.bare
  cases schema.shape with
  | bool accepts =>
    cases accepts
    · simpa using none "never" (by decide)
    · simpa using none "any" (by decide)
  | reference pointer => simp
  | allOf members =>
    rw [bareIn_projectAllOf h sub]
    simp only [reduceCtorEq, false_and, exists_const, false_or]
    split
    next collapses => exact iff_of_false (fun both => both.1 collapses) (by simp)
    next apart => exact and_iff_right apart
  | anyOf members => simpa using bareIn_projectAnyOf h sub
  | oneOf members => simpa using bareIn_projectAnyOf h sub
  | not => simpa using none "unknown" (by decide)
  | const v => simpa using h.not_bareIn_literalType v
  | enum values =>
    cases values with
    | nil => simpa using none "any" (by decide)
    | cons v values =>
      have typed : ∀ type ∈ (v :: values).map literalType, IsTypeText type :=
        List.forall_mem_map.2 fun w _ => .literal w
      simp only [reduceCtorEq, false_and, exists_const, List.not_mem_nil, or_self, iff_false]
      rw [bareIn_unionType (by simp) typed]
      simpa using ⟨h.not_bareIn_literalType v, fun w _ => h.not_bareIn_literalType w⟩
  | nullable k =>
    rw [bareIn_orNull (isTypeText_projectTyped sub k), bareIn_projectTyped h sub]
    simp [h.ne_reserved (by decide : "null" ∈ reservedWords)]
  | typed k => simpa using bareIn_projectTyped h sub

end Node

/-! ## Chains of projections -/

variable {defs : List Definition} {t : Table defs} {limit : Nat} {name : String}
  {call : Schema × Nat} {i j : Fin defs.length}

/-- The projections whose types are bare in that of another: the one of the definition that a
reference stands for, and those of bare parts. -/
inductive Table.Exposes (t : Table defs) (limit : Nat) : Schema × Nat → Schema × Nat → Prop
  | definition {schema : Schema} {depth : Nat} {pointer : String} {i : Fin defs.length} :
    depth ≤ limit → schema.shape = .reference pointer → lookup? defs pointer = some i →
    t.isRecursive i = false → t.Exposes limit (schema, depth) ((defs.get i).schema, 0)
  | part {schema x : Schema} {depth : Nat} :
    depth ≤ limit → x ∈ schema.bare (fun y => project t limit y (depth + 1)) →
    t.Exposes limit (schema, depth) (x, depth + 1)

theorem Table.Exposes.mem_projectCalls {next : Schema × Nat} (h : t.Exposes limit call next) :
    next ∈ projectCalls t limit call := by
  cases h with
  | definition within shape found hi => simp [projectCalls, Nat.not_lt.2 within, shape, found, hi]
  | @part schema x depth within mem =>
    have projected : x ∈ schema.projected := schema.bare_subset _ mem
    unfold projectCalls
    rw [if_neg (by simpa using within)]
    split
    next shape => simp [Schema.projected, shape] at projected
    next => exact List.mem_map_of_mem projected

theorem bareIn_referenceType (declarable : ∀ d ∈ defs, Declarable d.name) (h : Declarable name)
    (definitionType : Schema → String) (pointer : String) :
    BareIn name (referenceType t definitionType pointer) ↔
      ∃ i, lookup? defs pointer = some i ∧
        if t.isRecursive i then (defs.get i).name = name
        else BareIn name (definitionType (defs.get i).schema) := by
  unfold referenceType
  cases found : lookup? defs pointer with
  | none => simpa using h.not_bareIn_reserved (by decide : "any" ∈ _ ∧ _)
  | some i =>
    simp only [Option.some.injEq, exists_eq_left']
    split
    · rw [bareIn_identifier (declarable _ (List.get_mem ..)).identifier]
      exact eq_comm
    · rfl

/-- A name is bare in a projected type if the projection returns it, or in that of a projection that
it exposes. -/
theorem bareIn_project_iff_step (marks : t.MarksCycles)
    (declarable : ∀ d ∈ defs, Declarable d.name) (h : Declarable name) (call : Schema × Nat) :
    BareIn name (project t limit call.1 call.2) ↔
      (∃ i, ReturnsName t limit call i ∧ (defs.get i).name = name) ∨
        ∃ next, t.Exposes limit call next ∧ BareIn name (project t limit next.1 next.2) := by
  obtain ⟨schema, depth⟩ := call
  have typed : ∀ x, IsTypeText (project t limit x (depth + 1)) := fun x =>
    isTypeText_project (fun d mem => (declarable d mem).identifier) t limit x _
  rw [project_eq marks, projectStep]
  split
  next deep =>
    refine iff_of_false (h.not_bareIn_reserved (by decide)) ?_
    rintro (⟨_, ⟨within, _⟩, _⟩ | ⟨_, ⟨within, _⟩ | ⟨within, _⟩, _⟩)
    all_goals exact absurd deep (by simpa using within)
  next within =>
    have within : depth ≤ limit := by simpa using within
    simp only [bareIn_projectNode h typed, bareIn_referenceType declarable h]
    constructor
    · rintro (⟨pointer, shape, i, found, bare⟩ | ⟨x, mem, bare⟩)
      · split at bare
        next hi => exact .inl ⟨i, ⟨within, pointer, shape, found, hi⟩, bare⟩
        next hi => exact .inr ⟨_, .definition within shape found (by simpa using hi), bare⟩
      · exact .inr ⟨_, .part within mem, bare⟩
    · rintro (⟨i, ⟨_, pointer, shape, found, hi⟩, same⟩ | ⟨_, exposed, bare⟩)
      · exact .inl ⟨pointer, shape, i, found, by rwa [if_pos hi]⟩
      · cases exposed with
        | @definition _ _ pointer i _ shape found hi =>
          exact .inl ⟨pointer, shape, i, found, by rwa [if_neg (by simp [hi])]⟩
        | part _ mem => exact .inr ⟨_, mem, bare⟩

/-- A name is bare in a projected type if a chain of projections, each exposed by the one before,
ends in one that returns it. -/
theorem bareIn_project_iff (marks : t.MarksCycles) (declarable : ∀ d ∈ defs, Declarable d.name)
    (h : Declarable name) (call : Schema × Nat) :
    BareIn name (project t limit call.1 call.2) ↔
      ∃ last, ReflTransGen (t.Exposes limit) call last ∧
        ∃ i, ReturnsName t limit last i ∧ (defs.get i).name = name := by
  induction acc_projectCalls marks _ call (marks.ranksBelow_length _) with
  | intro call _ ih =>
    rw [bareIn_project_iff_step marks declarable h]
    constructor
    · rintro (returned | ⟨next, exposed, bare⟩)
      · exact ⟨call, .refl, returned⟩
      · obtain ⟨last, chain, returned⟩ := (ih next exposed.mem_projectCalls).1 bare
        exact ⟨last, .head exposed chain, returned⟩
    · rintro ⟨last, chain, returned⟩
      rcases chain.cases_head with rfl | ⟨next, exposed, chain⟩
      · exact .inl returned
      · exact .inr ⟨next, exposed, (ih next exposed.mem_projectCalls).2 ⟨last, chain, returned⟩⟩

/-! ## Aliases -/

namespace Table

/-- The type that is emitted for a recursive definition. -/
def aliasType (t : Table defs) (limit : Nat) (i : Fin defs.length) : String :=
  project t limit (defs.get i).schema 0

/-- The type of a recursive definition refers to another one outside of records with fields, arrays
and tuples. -/
def AliasRefers (t : Table defs) (limit : Nat) (i j : Fin defs.length) : Prop :=
  t.isRecursive i ∧ t.isRecursive j ∧ BareIn (defs.get j).name (t.aliasType limit i)

/-- The schema of a recursive definition leads to a reference to another one through projections
that expose each other. -/
def LeadsTo (t : Table defs) (limit : Nat) (i j : Fin defs.length) : Prop :=
  t.isRecursive i ∧ ∃ last, ReflTransGen (t.Exposes limit) ((defs.get i).schema, 0) last ∧
    ReturnsName t limit last j

end Table

/-- Nothing is bare in the type of the schema, whatever the types of its sub-schemas. -/
structure Schema.Encloses (s : Schema) : Prop where
  no_reference : ∀ pointer, s.shape ≠ .reference pointer
  no_part : ∀ project, s.bare project = []

theorem Table.Distinct.aliasRefers_iff {reserved : List String} (distinct : t.Distinct reserved)
    (marks : t.MarksCycles) (declarable : ∀ d ∈ defs, Declarable d.name) :
    t.AliasRefers limit i j ↔ t.LeadsTo limit i j := by
  have bare : BareIn (defs.get j).name (t.aliasType limit i) ↔
      ∃ last, ReflTransGen (t.Exposes limit) ((defs.get i).schema, 0) last ∧
        ∃ k, ReturnsName t limit last k ∧ (defs.get k).name = (defs.get j).name :=
    bareIn_project_iff marks declarable (declarable _ (List.get_mem defs j))
      ((defs.get i).schema, 0)
  unfold Table.AliasRefers Table.LeadsTo
  rw [bare]
  refine and_congr_right fun _ => ⟨?_, ?_⟩
  · rintro ⟨_, last, chain, k, returned, same⟩
    exact ⟨last, chain, distinct.name_inj same ▸ returned⟩
  · rintro ⟨last, chain, returned⟩
    exact ⟨returned.isRecursive, last, chain, j, returned, rfl⟩

/-- A definition that encloses all that it refers to leads to no other. -/
theorem Schema.Encloses.not_leadsTo (h : (defs.get i).schema.Encloses) :
    ¬ t.LeadsTo limit i j := by
  rintro ⟨_, last, chain, returned⟩
  rcases chain.cases_head with rfl | ⟨next, exposed, _⟩
  · obtain ⟨_, pointer, shape, _⟩ := returned
    exact h.no_reference pointer shape
  · cases exposed with
    | definition _ shape => exact h.no_reference _ shape
    | part _ mem =>
      rw [h.no_part] at mem
      exact List.not_mem_nil mem

/-- In the module of a root schema every recursive definition has its projected type. Such a type
refers bare to another one if and only if the schema leads to a reference to it by way of references
that are inlined, members of compositions and the further keys of objects without properties. So
aliases are guarded if and only if no recursive definition leads back to itself, and a definition
whose schema encloses what it refers to is on no cycle. -/
theorem aliases_guarded_iff (root : Schema) (o : Options) :
    let defs := (root.definitions o.reserved).1
    let c := compileRoot defs (root.definitions o.reserved).2 o.maxDepth root
    let t := c.run.table
    ((convert root o).code = (c.module o root).text ∧
      ∀ i, t.isRecursive i → ∃ b ∈ (c.module o root).definitions,
        .typeAlias (defs.get i).name (t.aliasType o.maxDepth i) ∈ b.statements) ∧
    (∀ i j, t.AliasRefers o.maxDepth i j ↔ t.LeadsTo o.maxDepth i j) ∧
    ((∀ i, ¬ TransGen (t.AliasRefers o.maxDepth) i i) ↔
      ∀ i, ¬ TransGen (t.LeadsTo o.maxDepth) i i) ∧
    ∀ i, (defs.get i).schema.Encloses → ¬ TransGen (t.AliasRefers o.maxDepth) i i := by
  intro defs c t
  have marks : t.MarksCycles :=
    marksCycles_after _ o.maxDepth [.generateAll, .compile root .root]
  have distinct : t.Distinct o.reserved := distinct_compileRoot root o.reserved o.maxDepth
  have refers : ∀ i j, t.AliasRefers o.maxDepth i j ↔ t.LeadsTo o.maxDepth i j := fun _ _ =>
    distinct.aliasRefers_iff marks fun _ => declarable_name
  have same : t.AliasRefers o.maxDepth = t.LeadsTo o.maxDepth := by
    funext i j
    exact propext (refers i j)
  refine ⟨⟨rfl, fun i hi => ?_⟩, refers, by rw [same], fun i encloses cycle => ?_⟩
  · obtain ⟨sound, all⟩ := compileRoot_finished defs (root.definitions o.reserved).2 o.maxDepth root
    have generated : ∀ i, ∃ v, t.generated? i = some v := fun i =>
      Option.isSome_iff_exists.1 ((sound.generated i).2 (all i))
    choose code hcode using generated
    refine ⟨definitionBlock o t i (code i), ?_, by simp [definitionBlock, hi, Table.aliasType]⟩
    rw [c.definitions_module o root hcode]
    exact List.mem_map_of_mem (all i)
  · obtain ⟨k, edge, _⟩ := TransGen.head'_iff.1 cycle
    exact encloses.not_leadsTo ((refers i k).1 edge)

/-! ## An alias that refers to itself -/

/-- Objects that have objects of the same kind under any keys. -/
def mapOfItself.nested : Schema :=
  .object { type := some (.one .object), additionalProperties := some (toDefinition "A") }

/-- A document with that one definition. -/
def mapOfItself : Schema :=
  .object
    { reference := some (pointerText ["definitions", "A"])
      definitions := some [("A", mapOfItself.nested)] }

namespace mapOfItself

def definition : Definition := ⟨pointerText ["definitions", "A"], "A", nested⟩

theorem definitions_eq : mapOfItself.definitions ["v", "schema", "schemaType"] =
    ([definition], ⟨["A", "v", "schema", "schemaType"]⟩) := by
  rfl

theorem referenced_eq : referenced [definition] = fun i => [i] := by
  funext i
  have references : nested.references = [definition.pointer] := by
    have children : nested.children = [toDefinition "A"] := rfl
    rw [Schema.references_of_shape_ne fun _ => Shape.noConfusion, children, List.flatMap_cons,
      List.flatMap_nil, List.append_nil, references_toDefinition]
    rfl
  obtain rfl : i = 0 := Fin.eq_zero i
  show nested.references.filterMap _ = _
  rw [references]
  decide +kernel

/-- The name of the only definition is bare in its type, which has no fields. -/
theorem alias_circular :
    let o : Options := {}
    let defs := (mapOfItself.definitions o.reserved).1
    let c := compileRoot defs (mapOfItself.definitions o.reserved).2 o.maxDepth mapOfItself
    (∃ b ∈ (c.module o mapOfItself).definitions,
      .typeAlias "A" "Record<string, A>" ∈ b.statements) ∧
    ∃ i, TransGen (c.run.table.AliasRefers o.maxDepth) i i := by
  intro o defs c
  have reserved : o.reserved = ["v", "schema", "schemaType"] := by decide +kernel
  have emitted : (∃ b ∈ (c.module o mapOfItself).definitions,
        .typeAlias "A" "Record<string, A>" ∈ b.statements) ∧
      ∃ i, c.run.table.isRecursive i ∧ (defs.get i).name = "A" ∧
        c.run.table.aliasType o.maxDepth i = "Record<string, A>" := by
    unfold c compileRoot Run.start Table.detectCycles defs
    rw [reserved, definitions_eq]
    simp only
    rw [referenced_eq]
    decide +kernel
  obtain ⟨code, i, recursive, name, type⟩ := emitted
  refine ⟨code, i, .single ⟨recursive, recursive, ?_⟩⟩
  have identifier : isIdentifier "A" := by decide
  have text : recordType [] (some "A") = "Record<string, A>" := by decide +kernel
  rw [name, type, ← text, bareIn_recordType (by simp) (by simpa using .name identifier)]
  simpa using (bareIn_identifier identifier).2 rfl

end mapOfItself

end SchemaCompiler
