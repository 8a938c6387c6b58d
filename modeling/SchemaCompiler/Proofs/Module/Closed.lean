import SchemaCompiler.Proofs.Generate.Record
import SchemaCompiler.Proofs.Projection.Terminates

/-!
# Emitted modules are closed

A module lists the definitions in the order in which they were finished, so its code may refer to a
definition from those after it, and to itself and those after it only lazily. `module_closed` says
that it does: every reference that is compiled for a module is `Resolution.Closed`, in the words of
the table that the compilation ends with.

The names of types are those of recursive definitions, and each of these is declared with its type
and as a binding of that type (`Module.Declares`).
-/

namespace SchemaCompiler

variable {defs : List Definition} {t t' : Table defs} {i j : Fin defs.length}

/-! ## Closed references -/

/-- The validator of a reference is that of a definition finished before all that were being
generated then, or a lazy one of a recursive definition, in the words of a later table. -/
inductive Resolution.Closed (t : Table defs) (e : Resolution defs) : Prop where
  | dangling (named : lookup? defs e.pointer = none) (result : e.result = .any)
  | plain (j : Fin defs.length) (named : lookup? defs e.pointer = some j)
    (result : e.result = t.referenceTo j) (finished : j ∈ e.run.table.completed)
    (before : ∀ i, e.run.table.isProcessing i → t.finishedBefore j i)
  | lazy (j : Fin defs.length) (named : lookup? defs e.pointer = some j)
    (result : e.result = t.lazyReferenceTo j) (recursive : t.isRecursive j)
    (cycle : OnCycle defs j)

/-- What is finished in a table was finished before all that is not. -/
theorem Table.Extends.finishedBefore (h : t.Extends t') (hj : j ∈ t.completed)
    (hi : i ∉ t.completed) : t'.finishedBefore j i := by
  obtain ⟨rest, order⟩ := h.completed
  have hj' := List.idxOf_lt_length_iff.2 hj
  unfold Table.finishedBefore
  rw [← order, List.idxOf_append_of_mem hj, List.idxOf_append_of_notMem hi, decide_eq_true_eq]
  omega

theorem Recorded.Sound.closed {maxDepth : Nat} {s : Recorded defs} (h : s.Sound maxDepth)
    {e : Resolution defs} (he : e ∈ s.log) : e.Closed s.run.table := by
  obtain ⟨stack, sound, resolves, ext⟩ := h e he
  unfold Run.Resolves at resolves
  cases named : lookup? defs e.pointer with
  | none =>
    rw [named] at resolves
    exact .dangling named resolves
  | some j =>
    rw [named] at resolves
    generalize result : e.result = v at resolves
    cases resolves with
    | plain finished =>
      refine .plain j named ?_ finished fun i hi => ?_
      · rw [result, ext.referenceTo ((sound.generated j).2 finished)]
      · -- What is being generated at that moment is finished only later.
        exact ext.finishedBefore finished (sound.pending i ((sound.processing i).1 hi))
    | lazy pending recursive cycle =>
      refine .lazy j named ?_ (ext.isRecursive recursive) cycle
      rw [result, ext.lazyReferenceTo recursive]

/-! ## Declared types -/

/-- A module declares the type of a definition and its binding with that type. -/
def Module.Declares (m : Module) (t : Table defs) (i : Fin defs.length) : Prop :=
  ∃ b ∈ m.definitions, ∃ type code, b.statements =
    [.typeAlias (defs.get i).name type,
      .binding (t.binding i) (some ("v.GenericSchema<" ++ (defs.get i).name ++ ">")) code]

/-- Projecting a schema at a depth gives the name of a definition. -/
def ReturnsName (t : Table defs) (limit : Nat) (call : Schema × Nat) (i : Fin defs.length) :
    Prop :=
  call.2 ≤ limit ∧ ∃ pointer, call.1.shape = .reference pointer ∧ lookup? defs pointer = some i ∧
    t.isRecursive i

theorem ReturnsName.isRecursive {limit : Nat} {call : Schema × Nat}
    (h : ReturnsName t limit call i) : t.isRecursive i := by
  obtain ⟨_, _, _, _, recursive⟩ := h
  exact recursive

theorem ReturnsName.project_eq {limit : Nat} {call : Schema × Nat}
    (h : ReturnsName t limit call i) (marks : t.MarksCycles) :
    project t limit call.1 call.2 = (defs.get i).name := by
  obtain ⟨within, pointer, shape, named, recursive⟩ := h
  rw [SchemaCompiler.project_eq marks, projectStep, if_neg (by omega)]
  simp [projectNode, shape, referenceType, named, recursive]

/-- The definitions of a table in which all are finished. -/
theorem Table.finished_eq {code : Fin defs.length → Validator}
    (h : ∀ i, t.generated? i = some (code i)) :
    t.finished = t.completed.map fun i => (i, code i) := by
  unfold Table.finished
  rw [← List.filterMap_eq_map]
  exact List.filterMap_congr fun i _ => by simp [h i]

theorem Compilation.definitions_module {c : Compilation defs} (o : Options) (schema : Schema)
    {code : Fin defs.length → Validator}
    (h : ∀ i, c.run.table.generated? i = some (code i)) :
    (c.module o schema).definitions =
      c.run.table.completed.map fun i => definitionBlock o c.run.table i (code i) := by
  simp [Compilation.module, Table.finished_eq h]

theorem Compilation.declares {c : Compilation defs} (o : Options) (schema : Schema)
    {code : Fin defs.length → Validator}
    (h : ∀ i, c.run.table.generated? i = some (code i)) (hi : i ∈ c.run.table.completed)
    (recursive : c.run.table.isRecursive i) :
    (c.module o schema).Declares c.run.table i := by
  refine ⟨definitionBlock o c.run.table i (code i), ?_, ?_⟩
  · rw [c.definitions_module o schema h]
    exact List.mem_map_of_mem hi
  · simp [definitionBlock, recursive]

/-! ## Conversions -/

/-- All definitions are finished before the root schema is compiled. -/
theorem compileRoot_finished (defs : List Definition) (names : NameSupply) (maxDepth : Nat)
    (schema : Schema) :
    (compileRoot defs names maxDepth schema).run.Sound maxDepth [] ∧
      ∀ i, i ∈ (compileRoot defs names maxDepth schema).run.table.completed := by
  have start : (Run.start defs names).Sound maxDepth [] := Run.sound_start names
  have calls : (compileRoot defs names maxDepth schema).run =
      (Run.start defs names).after maxDepth [.generateAll, .compile schema .root] := rfl
  rw [calls]
  exact ⟨(step_after start _).sound, mem_completed_after start (by simp)⟩

/-- The module of a conversion is closed, whatever the schema and the options. Its text is that of
the blocks of all definitions, in the order in which they were finished, and the root schema; every
reference compiled for it is closed; and it declares the type of every definition whose name is
used as a type. -/
theorem module_closed (schema : Schema) (o : Options) :
    let names := (schema.definitions o.reserved).2
    let c := compileRoot (schema.definitions o.reserved).1 names o.maxDepth schema
    let record := recordRoot (schema.definitions o.reserved).1 names o.maxDepth schema
    let t := c.run.table
    let m := c.module o schema
    ((convert schema o).code = m.text ∧ record.1 = c.root ∧ record.2.run = c.run) ∧
    (t.completed.Perm (List.finRange _) ∧
      ∃ code : Fin _ → Validator, (∀ i, t.generated? i = some (code i)) ∧
        m.definitions = t.completed.map fun i => definitionBlock o t i (code i)) ∧
    (∀ e ∈ record.2.log, e.Closed t) ∧
    (∀ i, t.isRecursive i → m.Declares t i) ∧
    (∀ call i, ReturnsName t o.maxDepth call i →
      project t o.maxDepth call.1 call.2 =
        ((schema.definitions o.reserved).1.get i).name ∧ m.Declares t i) := by
  intro names c record t m
  obtain ⟨sound, all⟩ :=
    compileRoot_finished (schema.definitions o.reserved).1 names o.maxDepth schema
  obtain ⟨root, run, recorded⟩ :=
    recordRoot_record (schema.definitions o.reserved).1 names o.maxDepth schema
  have generated : ∀ i, ∃ v, t.generated? i = some v := fun i =>
    Option.isSome_iff_exists.1 ((sound.generated i).2 (all i))
  choose code hcode using generated
  have declares : ∀ i, t.isRecursive i → m.Declares t i := fun i hi =>
    c.declares o schema hcode (all i) hi
  have marks : t.MarksCycles :=
    marksCycles_after names o.maxDepth [.generateAll, .compile schema .root]
  refine ⟨⟨rfl, root, run⟩, ⟨sound.perm_completed all, code, hcode,
    c.definitions_module o schema hcode⟩, fun e he => ?_, declares, fun call i h => ?_⟩
  · have closed := recorded.closed he
    rwa [run] at closed
  · exact ⟨h.project_eq marks, declares i h.isRecursive⟩

end SchemaCompiler
