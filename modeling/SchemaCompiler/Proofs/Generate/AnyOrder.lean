import SchemaCompiler.Proofs.Definitions.Detected
import SchemaCompiler.Proofs.Definitions.Operations
import SchemaCompiler.Proofs.Generate.Calls

/-!
# Generating in any order

Definitions are generated when they are first needed, in the middle of whatever needs them. Where no
definition is recursive at the start, none becomes so later, and what a definition compiles to is
the same in whatever order they are generated: `generated_anyOrder`.

Two runs are compared after both have generated all definitions, which changes none that were
generated before. What a definition compiles to depends on those that it refers to, all of which
rank below it (`generated?_eq_of_acyclic`).
-/

namespace SchemaCompiler

open Relation

variable {defs : List Definition} {maxDepth : Nat}

/-! ## Validators that are looked up -/

/-- Two compilations that have no state, at any sites. -/
def stateless : Comparison Unit Unit where
  Sites _ _ := True
  under _ _ := trivial
  member _ _ _ := trivial
  Related _ _ := True
  Moves _ _ := True
  refl _ := trivial
  trans _ _ := trivial
  Settled _ := True
  settled_of_moves _ _ := trivial

/-- The validator of a schema depends only on what its own references stand for. -/
theorem assembleWithin_congr {reference reference' : String → Validator} {schema : Schema}
    (same : ∀ pointer ∈ schema.references, reference pointer = reference' pointer) (room : Nat) :
    assembleWithin reference room schema = assembleWithin reference' room schema := by
  have alike : stateless.Alike (compileWithin (.pure reference) room schema .root)
      (compileWithin (.pure reference') room schema .root) := by
    refine Comparison.alike_compileWithin (fun _ _ _ _ => ?_) room (fun pointer mem _ _ _ => ?_)
      trivial
    · exact Comparison.alike_pure _
    · simp only [Handlers.pure, same pointer mem]
      exact Comparison.alike_pure _
  rw [compileWithin_pure, compileWithin_pure] at alike
  exact (alike () () trivial).2.2 trivial

namespace Table

variable {t t' : Table defs} {later later' : Fin defs.length → Bool} {i : Fin defs.length}

/-- How others refer to a definition that is not recursive depends on its validator alone. -/
theorem referenceTo_congr (plain : t.isRecursive i = false) (plain' : t'.isRecursive i = false)
    (same : t.generated? i = t'.generated? i) : t.referenceTo i = t'.referenceTo i := by
  simp [referenceTo, type?, binding_eq_name plain, binding_eq_name plain', plain, plain', same]

theorem reference_congr (plain : ∀ i, t.isRecursive i = false)
    (plain' : ∀ i, t'.isRecursive i = false) {pointer : String}
    (same : ∀ i, lookup? defs pointer = some i → t.generated? i = t'.generated? i) :
    t.reference later pointer = t'.reference later' pointer := by
  unfold reference
  cases found : lookup? defs pointer with
  | none => rfl
  | some i => simpa [plain i, plain' i] using referenceTo_congr (plain i) (plain' i) (same i found)

end Table

/-! ## Definitions without cycles -/

/-- No definition lies on a cycle if none is recursive from the start. -/
theorem not_onCycle_of_start {names : NameSupply}
    (acyclic : ∀ i, (Run.start defs names).table.isRecursive i = false) (i : Fin defs.length) :
    ¬ OnCycle defs i := by
  intro cycle
  obtain ⟨j, mem, _⟩ := exists_mem_cyclic_of_onCycle cycle
  have recursive : (Run.start defs names).table.isRecursive j := by
    rw [Run.start, Table.isRecursive_detectCycles_fresh, List.contains_iff_mem]
    exact mem
  rw [acyclic j] at recursive
  exact Bool.false_ne_true recursive

/-- No definition is recursive from the start if each refers only to later ones. -/
theorem isRecursive_start_of_forward {names : NameSupply}
    (forward : ∀ i j, Refers defs i j → i < j) (i : Fin defs.length) :
    (Run.start defs names).table.isRecursive i = false := by
  have increasing : ∀ {i j}, TransGen (Refers defs) i j → i < j := by
    intro i j path
    induction path with
    | single edge => exact forward _ _ edge
    | tail _ edge ih => exact ih.trans (forward _ _ edge)
  rw [Run.start, Table.isRecursive_detectCycles_fresh, ← Bool.not_eq_true, List.contains_iff_mem]
  exact fun mem => lt_irrefl i (increasing (onCycle_of_mem_cyclic mem))

section Acyclic

variable {stack : List (Fin defs.length)} {r r' : Run defs}

theorem Run.Sound.isRecursive_eq_false (h : r.Sound maxDepth stack)
    (acyclic : ∀ i, ¬ OnCycle defs i) (i : Fin defs.length) : r.table.isRecursive i = false := by
  rw [← Bool.not_eq_true]
  exact fun recursive => acyclic i (h.recursive i recursive)

/-- A finished definition has the validator that the table stands for. -/
theorem Run.Sound.generated?_eq_assembled (h : r.Sound maxDepth stack) {i : Fin defs.length}
    (finished : i ∈ r.table.completed) :
    r.table.generated? i = some (r.table.assembled maxDepth i) := by
  obtain ⟨v, hv⟩ := Option.isSome_iff_exists.1 ((h.generated i).2 finished)
  rw [hv, h.assembled i v hv r.table (.refl _)]

/-- Two runs that have finished all definitions have the same validators for them. -/
theorem generated?_eq_of_acyclic (acyclic : ∀ i, ¬ OnCycle defs i) (h : r.Sound maxDepth [])
    (h' : r'.Sound maxDepth []) (all : ∀ i, i ∈ r.table.completed)
    (all' : ∀ i, i ∈ r'.table.completed) (i : Fin defs.length) :
    r.table.generated? i = r'.table.generated? i := by
  induction rank : Search.rank (referenced defs) i using Nat.strong_induction_on generalizing i with
  | _ n ih =>
    subst rank
    rw [h.generated?_eq_assembled (all i), h'.generated?_eq_assembled (all' i)]
    refine congrArg some (assembleWithin_congr (fun pointer mem => ?_) _)
    refine Table.reference_congr (h.isRecursive_eq_false acyclic) (h'.isRecursive_eq_false acyclic)
      fun j found => ?_
    have below := rank_lt_of_refers (refers_of_lookup? mem found)
      fun mem => acyclic j (onCycle_of_mem_cyclic mem)
    exact ih _ below j rfl

/-- A schema compiles to what a table with all definitions says, which may be reached later. -/
theorem compile_eq_assembleWithin (h : r.Sound maxDepth []) (schema : Schema) (site : Site)
    {t : Table defs} (ht : ((compile maxDepth schema site).run r).2.table.Extends t) :
    ((compile maxDepth schema site).run r).1 =
      assembleWithin (t.reference fun _ => false) (roomAt maxDepth site.depth) schema :=
  (compiles_sound generates_generate .nil (fun pointer _ => follows_nil pointer) _ site h rfl).2 t
    _ ht (fun _ _ => rfl) (by simp)

end Acyclic

/-! ## Any two sequences of calls -/

/-- Where no definition of a root schema is recursive at the start, definitions that two sequences
of calls have both generated have the same validator in both, and after either of them a schema
compiles to the same validator at sites of the same depth. -/
theorem generated_anyOrder (root : Schema) (reserved : List String) (maxDepth : Nat)
    (acyclic : ∀ i, (Run.initial root reserved).table.isRecursive i = false)
    (calls calls' : List Call) :
    let r := (Run.initial root reserved).after maxDepth calls
    let r' := (Run.initial root reserved).after maxDepth calls'
    (∀ i v v', r.table.generated? i = some v → r'.table.generated? i = some v' → v = v') ∧
    ∀ schema site site', site.depth = site'.depth →
      ((compile maxDepth schema site).run r).1 = ((compile maxDepth schema site').run r').1 := by
  intro r r'
  have none := not_onCycle_of_start acyclic
  -- Both runs are extended by generating all definitions.
  have complete : ∀ {r : Run (root.definitions reserved).1}, r.Sound maxDepth [] →
      (r.after maxDepth [.generateAll]).Sound maxDepth [] ∧
      r.table.Extends (r.after maxDepth [.generateAll]).table ∧
      ∀ i, i ∈ (r.after maxDepth [.generateAll]).table.completed := by
    intro r h
    have step := step_after h [.generateAll]
    exact ⟨step.sound, step.grows, mem_completed_after h (List.mem_singleton_self _)⟩
  have sound : r.Sound maxDepth [] := (step_after (Run.sound_start _) calls).sound
  have sound' : r'.Sound maxDepth [] := (step_after (Run.sound_start _) calls').sound
  refine ⟨fun i v v' hv hv' => ?_, fun schema site site' depth => ?_⟩
  · obtain ⟨all, grows, done⟩ := complete sound
    obtain ⟨all', grows', done'⟩ := complete sound'
    have same := generated?_eq_of_acyclic none all all' done done' i
    rw [grows.generated? hv, grows'.generated? hv'] at same
    exact Option.some.inj same
  · obtain ⟨all, grows, done⟩ := complete (step_compile sound schema site).sound
    obtain ⟨all', grows', done'⟩ := complete (step_compile sound' schema site').sound
    rw [compile_eq_assembleWithin sound schema site grows,
      compile_eq_assembleWithin sound' schema site' grows', depth]
    refine assembleWithin_congr (fun pointer _ => ?_) _
    exact Table.reference_congr (all.isRecursive_eq_false none) (all'.isRecursive_eq_false none)
      fun i _ => generated?_eq_of_acyclic none all all' done done' i

/-! ## Definitions that share another -/

/-- The definitions `A` and `B` both refer to `C`. -/
def sharedDefinition : Schema :=
  .object { definitions := some [
    ("A", toDefinition "C"),
    ("B", toDefinition "C"),
    ("C", .object { type := some (.one .string) })] }

namespace sharedDefinition

theorem length_definitions : (sharedDefinition.definitions []).1.length = 3 := by decide +kernel

/-- The definitions `A`, `B` and `C`. -/
def position (k : Fin 3) : Fin (sharedDefinition.definitions []).1.length :=
  k.cast length_definitions.symm

theorem cases_position : ∀ i, i = position 0 ∨ i = position 1 ∨ i = position 2 := by
  decide +kernel

theorem lookup?_C : lookup? (sharedDefinition.definitions []).1
    (pointerText ["definitions", "C"]) = some (position 2) := by
  decide +kernel

theorem references_C :
    ((sharedDefinition.definitions []).1.get (position 2)).schema.references = [] := by
  rw [Schema.references_eq]
  rfl

theorem forward (i j : Fin (sharedDefinition.definitions []).1.length)
    (h : Refers (sharedDefinition.definitions []).1 i j) : i < j := by
  obtain ⟨pointer, mem, found⟩ := List.mem_filterMap.1 h
  have toC : pointer ∈ (toDefinition "C").references → j = position 2 := by
    intro mem
    rw [references_toDefinition, List.mem_singleton] at mem
    rw [mem, lookup?_C] at found
    exact (Option.some.inj found).symm
  rcases cases_position i with rfl | rfl | rfl
  · exact toC mem ▸ (by decide +kernel : position 0 < position 2)
  · exact toC mem ▸ (by decide +kernel : position 1 < position 2)
  · rw [references_C] at mem
    exact absurd mem List.not_mem_nil

/-- `B` first, whose generation completes `C`, and then all; or all in their order. -/
theorem generated_fromB :
    let start := Run.initial sharedDefinition []
    let r := start.after 5 [.resolve (pointerText ["definitions", "B"]) .root, .generateAll]
    let r' := start.after 5 [.generateAll]
    (∀ i, start.table.isRecursive i = false) ∧
    (∀ i, (r.table.generated? i).isSome ∧ (r'.table.generated? i).isSome) ∧
    (∀ i v v', r.table.generated? i = some v → r'.table.generated? i = some v' → v = v') ∧
    ∀ schema site site', site.depth = site'.depth →
      ((compile 5 schema site).run r).1 = ((compile 5 schema site').run r').1 := by
  intro start r r'
  have acyclic : ∀ i, start.table.isRecursive i = false := isRecursive_start_of_forward forward
  have all : ∀ calls, .generateAll ∈ calls → ∀ i,
      ((start.after 5 calls).table.generated? i).isSome := by
    intro calls mem i
    have start : start.Sound 5 [] := Run.sound_start _
    exact ((step_after start calls).sound.generated i).2 (mem_completed_after start mem i)
  exact ⟨acyclic, fun i => ⟨all _ (by simp) i, all _ (by simp) i⟩,
    generated_anyOrder sharedDefinition [] 5 acyclic _ _⟩

end sharedDefinition

end SchemaCompiler
