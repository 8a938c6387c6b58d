import SchemaCompiler.Proofs.Generate.Exact
import SchemaCompiler.Proofs.Module.Closed
import SchemaCompiler.Proofs.Projection.Types

/-!
# When compiled and projected types agree

After all definitions and the root schema have been compiled, the table says what each of them was
assembled from (`compileRoot_assembled`). So their types, which are those by code, can be compared
with the projected ones, schema by schema: they agree throughout the document if and only if every
composition in it is coherent, and then the type of the root schema and those of all definitions are
the projected ones (`types_agree_iff_coherent`).

Not every document is coherent (`types_disagree`): a free object has the same code whether it says
that further keys are allowed or not, but two types.
-/

namespace SchemaCompiler

variable {defs : List Definition} {t : Table defs} {maxDepth : Nat}
  {later : Fin defs.length → Bool} {pointer : String} {schema : Schema}

/-! ## Compiled tables -/

/-- What holds of a table once all definitions have been generated. -/
structure Table.Complete (maxDepth : Nat) (t : Table defs) : Prop where
  marks : t.MarksCycles
  spelled : ∀ i, Spelled (t.binding i)
  generated : ∀ i, t.generated? i = some (t.assembled maxDepth i)

theorem compileRoot_complete (names : NameSupply) (spelled : ∀ d ∈ defs, Spelled d.name)
    (maxDepth : Nat) (schema : Schema) :
    (compileRoot defs names maxDepth schema).run.table.Complete maxDepth := by
  obtain ⟨sound, all⟩ := compileRoot_finished defs names maxDepth schema
  refine ⟨?_, sound.ownBindings.spelled spelled, fun i => ?_⟩
  · exact marksCycles_after names maxDepth [.generateAll, .compile schema .root]
  · obtain ⟨v, hv⟩ := Option.isSome_iff_exists.1 ((sound.generated i).2 (all i))
    rw [hv, sound.assembled i v hv _ (.refl _)]

/-- The root schema is assembled after all definitions have been finished. -/
theorem compileRoot_assembled (names : NameSupply) (maxDepth : Nat) (schema : Schema) :
    (compileRoot defs names maxDepth schema).root =
      assembleWithin ((compileRoot defs names maxDepth schema).run.table.reference fun _ => false)
        (maxDepth + 1) schema := by
  have start : (Run.start defs names).Sound maxDepth [] := Run.sound_start names
  obtain ⟨_, assembled⟩ := compiles_sound generates_generate .nil
    (fun p (_ : p ∈ schema.references) => follows_nil p) (roomAt maxDepth Site.root.depth) .root
    (step_generateAll start).1.sound rfl
  exact assembled _ _ (.refl _) (fun _ _ => rfl) (by simp)

namespace Table.Complete

variable (h : t.Complete maxDepth)

include h

theorem type?_eq {i : Fin defs.length} (hi : t.isRecursive i = false) :
    t.type? i = (t.assembled maxDepth i).type := by
  simp [Table.type?, hi, h.generated i]

theorem exact_reference
    (typed : ∀ i, lookup? defs pointer = some i → t.isRecursive i = false →
      (t.assembled maxDepth i).type.isSome) : (t.reference later pointer).Exact := by
  unfold Table.reference
  cases found : lookup? defs pointer with
  | none => exact Validator.exact_any
  | some i =>
    simp only
    split
    · exact t.exact_lazyReferenceTo i
    · refine Table.exact_referenceTo (h.spelled i) ?_
      cases hi : t.isRecursive i with
      | true => simp [Table.type?, hi]
      | false =>
        rw [h.type?_eq hi]
        exact typed i found hi

/-- Definitions that are not recursive have a type, since those that they refer to have. -/
theorem isSome_type_assembled (n : Nat) (i : Fin defs.length) (hi : t.isRecursive i = false)
    (lt : Search.rank (referenced defs) i < n) : (t.assembled maxDepth i).type.isSome := by
  induction n generalizing i with
  | zero => omega
  | succ n ih =>
    refine (exact_assembleWithin _ fun p mem => h.exact_reference fun j found hj => ?_).typed
    have := h.marks.ranksBelow_definition i p mem j found hj
    exact ih j hj (by omega)

theorem exact_references (later : Fin defs.length → Bool) (pointer : String) :
    (t.reference later pointer).Exact :=
  h.exact_reference fun i _ hi => h.isSome_type_assembled _ i hi (Nat.lt_succ_self _)

theorem exact_assembleWithin (later : Fin defs.length → Bool) (room : Nat) (schema : Schema) :
    (assembleWithin (t.reference later) room schema).Exact :=
  SchemaCompiler.exact_assembleWithin room fun pointer _ => h.exact_references later pointer

/-- The type of a schema, where the definitions in `later` are not finished yet, is the one by the
code of what its sub-schemas are compiled to. -/
theorem type_assembleWithin (later : Fin defs.length → Bool) (room : Nat) (schema : Schema) :
    (assembleWithin (t.reference later) (room + 1) schema).type =
      some (typeByCode (t.reference later) (assembleWithin (t.reference later) room) schema) :=
  type_assembleNode (h.exact_assembleWithin later room)
    fun pointer _ => (h.exact_references later pointer).typed

end Table.Complete

/-! ## Compilations -/

/-- The type by code of the root schema. -/
def Table.rootType (t : Table defs) (maxDepth : Nat) (root : Schema) : String :=
  let reference := t.reference fun _ => false
  typeByCode reference (assembleWithin reference maxDepth) root

/-- The type by code of a definition. -/
def Table.definitionType (t : Table defs) (maxDepth : Nat) (i : Fin defs.length) : String :=
  let reference := t.reference fun j => !t.finishedBefore j i
  typeByCode reference (assembleWithin reference maxDepth) (defs.get i).schema

/-- The root schema and all definitions are compiled to their projected types. -/
def Compilation.TypesAgree (c : Compilation defs) (maxDepth : Nat) (root : Schema) : Prop :=
  c.root.type = some (project c.run.table maxDepth root 0) ∧
    ∀ i, (c.run.table.generated? i).bind (·.type) =
      some (project c.run.table maxDepth (defs.get i).schema 0)

/-- Types agree if and only if those by code are the projected ones. -/
theorem typesAgree_iff {c : Compilation defs} (h : c.run.table.Complete maxDepth) {root : Schema}
    (assembled : c.root =
      assembleWithin (c.run.table.reference fun _ => false) (maxDepth + 1) root) :
    c.TypesAgree maxDepth root ↔
      c.run.table.rootType maxDepth root = project c.run.table maxDepth root 0 ∧
      ∀ i, c.run.table.definitionType maxDepth i =
        project c.run.table maxDepth (defs.get i).schema 0 := by
  have definition : ∀ i, (c.run.table.generated? i).bind (·.type) =
      some (c.run.table.definitionType maxDepth i) := fun i => by
    rw [h.generated i, Option.bind_some]
    exact h.type_assembleWithin _ maxDepth _
  unfold Compilation.TypesAgree
  rw [assembled, h.type_assembleWithin]
  simp only [definition, Option.some.injEq]
  rfl

/-! ## Throughout a schema -/

/-- Something holds of a schema, and of the sub-schemas that are projected as part of it, with the
room that is left for the sub-schemas of each. -/
def Throughout (p : Nat → Schema → Prop) : (room : Nat) → Schema → Prop
  | 0, _ => True
  | room + 1, schema => p room schema ∧ ∀ x ∈ schema.projected, Throughout p room x

/-- A schema has the same type when it is compiled and when it is projected, where the definitions
in `later` are not finished yet. -/
def Agrees (t : Table defs) (maxDepth : Nat) (later : Fin defs.length → Bool) (room : Nat)
    (schema : Schema) : Prop :=
  (assembleWithin (t.reference later) (room + 1) schema).type =
    some (projectWithin (followWithin t (maxDepth + 1) defs.length) (room + 1) schema)

/-- A schema is coherent, where the definitions in `later` are not finished yet. -/
def CoherentAt (t : Table defs) (later : Fin defs.length → Bool) (room : Nat) (schema : Schema) :
    Prop := Coherent (assembleWithin (t.reference later) room) schema

/-- The code of the members decides on the type of a schema, where the definitions in `later` are
not finished yet. -/
def DecidedAt (t : Table defs) (later : Fin defs.length → Bool) (room : Nat) (schema : Schema) :
    Prop := CodeDecides (assembleWithin (t.reference later) room) schema

/-- Something holds throughout the root schema and throughout every definition, where those that
were not finished before it are not finished yet. -/
def Everywhere (t : Table defs) (maxDepth : Nat) (root : Schema)
    (p : (Fin defs.length → Bool) → Nat → Schema → Prop) : Prop :=
  Throughout (p fun _ => false) (maxDepth + 1) root ∧
    ∀ i, Throughout (p fun j => !t.finishedBefore j i) (maxDepth + 1) (defs.get i).schema

theorem Throughout.mono {p q : Nat → Schema → Prop} (h : ∀ room x, p room x → q room x)
    (room : Nat) {schema : Schema} (throughout : Throughout p room schema) :
    Throughout q room schema := by
  induction room generalizing schema with
  | zero => trivial
  | succ room ih => exact ⟨h room schema throughout.1, fun x hx => ih (throughout.2 x hx)⟩

theorem Throughout.agrees {room : Nat} (h : Throughout (Agrees t maxDepth later) room schema) :
    (assembleWithin (t.reference later) room schema).type =
      some (projectWithin (followWithin t (maxDepth + 1) defs.length) room schema) := by
  cases room with
  | zero => rfl
  | succ room => exact h.1

theorem coherent_of_agrees (h : t.Complete maxDepth) (room : Nat) {schema : Schema}
    (agrees : Throughout (Agrees t maxDepth later) room schema) :
    Throughout (CoherentAt t later) room schema := by
  induction room generalizing schema with
  | zero => trivial
  | succ room ih =>
    obtain ⟨node, below⟩ := agrees
    refine ⟨?_, fun x hx => ih (below x hx)⟩
    refine (type_assembleNode_iff (h.exact_assembleWithin later room) (fun p shape => ?_)
      fun x hx => (below x hx).agrees).1 node
    simpa [Agrees, assembleWithin, projectWithin, assembleNode, projectNode, shape] using node

theorem agrees_of_coherent (h : t.Complete maxDepth) (room : Nat) {schema : Schema}
    (references : ∀ pointer ∈ schema.references, (t.reference later pointer).type =
      some (followWithin t (maxDepth + 1) defs.length pointer))
    (coherent : Throughout (CoherentAt t later) room schema) :
    Throughout (Agrees t maxDepth later) room schema := by
  induction room generalizing schema with
  | zero => trivial
  | succ room ih =>
    obtain ⟨node, below⟩ := coherent
    have agree : ∀ x ∈ schema.projected, Throughout (Agrees t maxDepth later) room x :=
      fun x hx => ih (fun p mem =>
        references p (Schema.references_subset_of_mem_projected hx mem)) (below x hx)
    refine ⟨?_, agree⟩
    refine (type_assembleNode_iff (h.exact_assembleWithin later room) (fun p shape => ?_)
      fun x hx => (agree x hx).agrees).2 node
    exact references p (by simp [Schema.references_of_shape shape])

/-! ## References -/

/-- A reference has the projected type if the definition that it names does, unless that is
recursive. -/
theorem Table.Complete.type_reference (h : t.Complete maxDepth)
    (agrees : ∀ i, lookup? defs pointer = some i → t.isRecursive i = false →
      (t.assembled maxDepth i).type = some (project t maxDepth (defs.get i).schema 0)) :
    (t.reference later pointer).type =
      some (followWithin t (maxDepth + 1) defs.length pointer) := by
  rw [followWithin_eq_referenceType h.marks]
  unfold Table.reference referenceType
  cases found : lookup? defs pointer with
  | none => rfl
  | some i =>
    cases hi : t.isRecursive i with
    | true =>
      simp only [hi, Bool.true_and, if_true]
      split
      · rfl
      · simp [Table.referenceTo, Table.type?, hi]
    | false =>
      simp only [hi, Bool.false_and, Bool.false_eq_true, if_false]
      rw [Table.referenceTo, h.type?_eq hi, agrees i found hi]

/-- If all definitions are coherent, those that are not recursive have their projected types: each
refers to ones of a smaller rank. -/
theorem type_assembled_of_coherent (h : t.Complete maxDepth)
    (coherent : ∀ i, Throughout (CoherentAt t fun j => !t.finishedBefore j i) (maxDepth + 1)
      (defs.get i).schema)
    (n : Nat) (i : Fin defs.length) (hi : t.isRecursive i = false)
    (lt : Search.rank (referenced defs) i < n) :
    (t.assembled maxDepth i).type = some (project t maxDepth (defs.get i).schema 0) := by
  induction n generalizing i with
  | zero => omega
  | succ n ih =>
    refine (agrees_of_coherent h _ (fun p mem => ?_) (coherent i)).agrees
    refine h.type_reference fun j found hj => ih j hj ?_
    have := h.marks.ranksBelow_definition i p mem j found hj
    omega

/-- All references have their projected types if all definitions are coherent. -/
theorem type_reference_of_coherent (h : t.Complete maxDepth)
    (coherent : ∀ i, Throughout (CoherentAt t fun j => !t.finishedBefore j i) (maxDepth + 1)
      (defs.get i).schema) (later : Fin defs.length → Bool) (pointer : String) :
    (t.reference later pointer).type =
      some (followWithin t (maxDepth + 1) defs.length pointer) :=
  h.type_reference fun i _ hi =>
    type_assembled_of_coherent h coherent _ i hi (Nat.lt_succ_self _)

theorem everywhere_agrees_iff (h : t.Complete maxDepth) (root : Schema) :
    Everywhere t maxDepth root (Agrees t maxDepth) ↔ Everywhere t maxDepth root (CoherentAt t) := by
  constructor
  · rintro ⟨inRoot, inDefinitions⟩
    exact ⟨coherent_of_agrees h _ inRoot, fun i => coherent_of_agrees h _ (inDefinitions i)⟩
  · rintro ⟨inRoot, inDefinitions⟩
    have references := type_reference_of_coherent h inDefinitions
    exact ⟨agrees_of_coherent h _ (fun p _ => references _ p) inRoot,
      fun i => agrees_of_coherent h _ (fun p _ => references _ p) (inDefinitions i)⟩

theorem everywhere_coherent_of_decided (h : t.Complete maxDepth) {root : Schema}
    (decided : Everywhere t maxDepth root (DecidedAt t)) :
    Everywhere t maxDepth root (CoherentAt t) := by
  obtain ⟨inRoot, inDefinitions⟩ := decided
  have coherent : ∀ later room x, DecidedAt t later room x → CoherentAt t later room x :=
    fun later room _ => coherent_of_codeDecides (h.exact_assembleWithin later room)
  exact ⟨inRoot.mono (coherent _) _, fun i => (inDefinitions i).mono (coherent _) _⟩

/-! ## Documents -/

/-- After all definitions and the root schema have been compiled, each to what it is assembled from,
compiled types are the projected ones if and only if those by code are. They agree throughout the
document if and only if all compositions are coherent; this makes those of the root schema and of
all definitions agree; and it is enough for it that the code of members decides. -/
theorem types_agree_iff_coherent (root : Schema) (reserved : List String) (maxDepth : Nat) :
    let names := (root.definitions reserved).2
    let c := compileRoot (root.definitions reserved).1 names maxDepth root
    let t := c.run.table
    (c.root = assembleWithin (t.reference fun _ => false) (maxDepth + 1) root ∧
      ∀ i, t.generated? i = some (t.assembled maxDepth i)) ∧
    (c.TypesAgree maxDepth root ↔
      t.rootType maxDepth root = project t maxDepth root 0 ∧
      ∀ i, t.definitionType maxDepth i =
        project t maxDepth ((root.definitions reserved).1.get i).schema 0) ∧
    (Everywhere t maxDepth root (Agrees t maxDepth) ↔
      Everywhere t maxDepth root (CoherentAt t)) ∧
    (Everywhere t maxDepth root (CoherentAt t) → c.TypesAgree maxDepth root) ∧
    (Everywhere t maxDepth root (DecidedAt t) → Everywhere t maxDepth root (CoherentAt t)) := by
  intro names c t
  have h : t.Complete maxDepth := compileRoot_complete names (fun _ => spelled_name) maxDepth root
  have assembled : c.root = assembleWithin (t.reference fun _ => false) (maxDepth + 1) root :=
    compileRoot_assembled names maxDepth root
  refine ⟨⟨assembled, h.generated⟩, typesAgree_iff h assembled, everywhere_agrees_iff h root,
    fun coherent => ?_, everywhere_coherent_of_decided h⟩
  obtain ⟨inRoot, inDefinitions⟩ := (everywhere_agrees_iff h root).2 coherent
  refine ⟨?_, fun i => ?_⟩
  · rw [assembled]
    exact inRoot.agrees
  · rw [h.generated i]
    exact (inDefinitions i).agrees

/-- A free object, or one that says that it takes further keys. -/
def freeObjects : Schema :=
  .object { anyOf := some [
    .object { type := some (.one .object) },
    .object { type := some (.one .object), additionalProperties := some (.bool true) }] }

/-- Both members of the union have the same code, so only one is compiled, but two types. -/
theorem types_disagree :
    let names := (freeObjects.definitions []).2
    let c := compileRoot (freeObjects.definitions []).1 names 10 freeObjects
    ¬ c.TypesAgree 10 freeObjects ∧ c.root.type = some "\x7b\x7d" ∧
      project c.run.table 10 freeObjects 0 = "\x7b\x7d | Record<string, any>" := by
  intro names c
  have compiled : c.root.type = some "\x7b\x7d" := by decide +kernel
  have projected : project c.run.table 10 freeObjects 0 = "\x7b\x7d | Record<string, any>" := by
    decide +kernel
  refine ⟨fun agree => ?_, compiled, projected⟩
  have same := agree.1
  rw [compiled, projected] at same
  exact absurd same (by decide)

end SchemaCompiler
