import SchemaCompiler.Proofs.Generate.Operations
import SchemaCompiler.Proofs.Module.Closed

/-!
# Emitted modules declare distinct names

A module declares its definitions under identifiers that its table has given out
(`Table.declarations`), and the root schema under names that were reserved when the table was made.
The identifiers of a table stay distinct from each other and from the reserved names whatever is
done to it, so no name is declared twice: `names_distinct`.
-/

namespace SchemaCompiler

variable {defs : List Definition} {t : Table defs} {i j : Fin defs.length} {name : String}
  {reserved : List String}

/-! ## Declarations of a definition -/

namespace Table

/-- What a module declares for a definition: its type if it is recursive, and its binding. -/
def declarations (t : Table defs) (i : Fin defs.length) : List String :=
  if t.isRecursive i then [(defs.get i).name, t.binding i] else [t.binding i]

theorem mem_declarations :
    name ∈ t.declarations i ↔
      (defs.get i).name = name ∨ (t.progress.get i).ownBinding = some name := by
  unfold declarations
  by_cases recursive : t.isRecursive i
  · obtain ⟨b, hb⟩ := isRecursive_iff.1 recursive
    rw [if_pos recursive, binding_of_ownBinding hb, hb]
    simp only [List.mem_cons, List.not_mem_nil, or_false, Option.some.injEq]
    exact or_congr eq_comm eq_comm
  · have none : t.isRecursive i = false := by simpa using recursive
    rw [if_neg recursive, binding_eq_name none, List.mem_singleton]
    have noOwn : (t.progress.get i).ownBinding ≠ some name := by
      intro own
      exact recursive (isRecursive_iff.2 ⟨name, own⟩)
    rw [or_iff_left noOwn]
    exact eq_comm

theorem declarations_subset_identifiers : t.declarations i ⊆ t.identifiers := by
  intro name mem
  refine mem_identifiers.2 ((mem_declarations.1 mem).imp (fun own => ?_) fun own => ⟨i, own⟩)
  exact ⟨defs.get i, List.get_mem _ i, own⟩

namespace Distinct

theorem name_inj (h : t.Distinct reserved) (same : (defs.get i).name = (defs.get j).name) :
    i = j := by
  have nodup := h.names_nodup
  rw [List.Nodup, List.pairwise_map] at nodup
  by_contra different
  rcases lt_or_gt_of_ne different with lt | lt
  · exact List.pairwise_iff_get.1 nodup i j lt same
  · exact List.pairwise_iff_get.1 nodup j i lt same.symm

/-- No name is declared for two definitions. -/
theorem declarations_inj (h : t.Distinct reserved) (hi : name ∈ t.declarations i)
    (hj : name ∈ t.declarations j) : i = j := by
  rcases mem_declarations.1 hi with own | own
  · rcases mem_declarations.1 hj with own' | own'
    · exact h.name_inj (own.trans own'.symm)
    · exact absurd own (h.own_ne_name j name own' _ (List.get_mem _ i))
  · rcases mem_declarations.1 hj with own' | own'
    · exact absurd own' (h.own_ne_name i name own _ (List.get_mem _ j))
    · exact h.own_inj i j name own own'

theorem nodup_declarations (h : t.Distinct reserved) (i : Fin defs.length) :
    (t.declarations i).Nodup := by
  unfold declarations
  split
  next recursive =>
    obtain ⟨b, hb⟩ := isRecursive_iff.1 recursive
    have ne := h.own_ne_name i b hb _ (List.get_mem _ i)
    rw [binding_of_ownBinding hb]
    exact List.nodup_cons.2 ⟨by simpa using ne, List.nodup_singleton b⟩
  next => exact List.nodup_singleton _

theorem nodup_flatMap_declarations (h : t.Distinct reserved) {is : List (Fin defs.length)}
    (his : is.Nodup) : (is.flatMap t.declarations).Nodup := by
  refine List.nodup_flatMap.2 ⟨fun i _ => h.nodup_declarations i, his.imp fun {i j} ne => ?_⟩
  exact fun name hi hj => ne (h.declarations_inj hi hj)

end Distinct

end Table

theorem names_definitionBlock (o : Options) (t : Table defs) (i : Fin defs.length)
    (generated : Validator) :
    (definitionBlock o t i generated).statements.map Statement.name = t.declarations i := by
  unfold definitionBlock Table.declarations
  simp only
  split <;> rfl

/-! ## Declarations of the root schema -/

namespace Options

/-- What a module declares for the root schema: its binding, and its type if types are emitted. -/
def rootDeclarations (o : Options) : List String :=
  o.rootName :: if o.withTypes then [o.rootTypeName] else []

theorem rootDeclarations_subset (o : Options) :
    o.rootDeclarations ⊆ [o.rootName, o.rootTypeName] := by
  unfold rootDeclarations
  split
  · exact List.Subset.refl _
  · exact List.cons_subset_cons _ (List.nil_subset _)

theorem rootDeclarations_subset_reserved (o : Options) : o.rootDeclarations ⊆ o.reserved :=
  fun _ mem => List.mem_cons_of_mem _ (o.rootDeclarations_subset mem)

theorem rootName_ne_rootTypeName (o : Options) : o.rootName ≠ o.rootTypeName := by
  intro same
  have length := congrArg String.length same
  rw [rootTypeName, String.length_append] at length
  have suffix : "Type".length = 4 := by decide
  omega

theorem nodup_rootDeclarations (o : Options) : o.rootDeclarations.Nodup := by
  unfold rootDeclarations
  split
  · exact List.nodup_cons.2 ⟨by simpa using o.rootName_ne_rootTypeName, List.nodup_singleton _⟩
  · exact List.nodup_singleton _

theorem declarable_of_mem_rootDeclarations {o : Options} (h : name ∈ o.rootDeclarations) :
    Declarable name := by
  have root : Declarable o.rootName := declarable_sanitize o.name
  have mem := o.rootDeclarations_subset h
  rcases List.mem_cons.1 mem with rfl | mem
  · exact root
  · obtain rfl := List.mem_singleton.1 mem
    exact root.appendType

end Options

/-! ## Declarations of a module -/

namespace Compilation

variable {c : Compilation defs} {code : Fin defs.length → Validator}

/-- What a module declares, if all definitions are finished. -/
theorem declared_module (o : Options) (schema : Schema)
    (h : ∀ i, c.run.table.generated? i = some (code i)) :
    (c.module o schema).declared =
      c.run.table.completed.flatMap c.run.table.declarations ++ o.rootDeclarations := by
  have definitions : (c.module o schema).definitions.flatMap
      (fun b => b.statements.map Statement.name) =
        c.run.table.completed.flatMap c.run.table.declarations := by
    rw [c.definitions_module o schema h, List.flatMap_map]
    exact List.flatMap_congr fun i _ => names_definitionBlock o _ i _
  unfold Module.declared Module.blocks
  rw [List.flatMap_append, definitions, List.flatMap_cons]
  unfold Compilation.module Options.rootDeclarations
  by_cases types : o.withTypes
  · simp [types, Statement.name]
  · simp [types, Statement.name]

theorem name_mem_identifiers (o : Options) (schema : Schema)
    (h : ∀ i, c.run.table.generated? i = some (code i)) {b : Block} {s : Statement}
    (hb : b ∈ (c.module o schema).definitions) (hs : s ∈ b.statements) :
    s.name ∈ c.run.table.identifiers := by
  rw [c.definitions_module o schema h] at hb
  obtain ⟨i, _, rfl⟩ := List.mem_map.1 hb
  have declared := List.mem_map_of_mem (f := Statement.name) hs
  rw [names_definitionBlock] at declared
  exact Table.declarations_subset_identifiers declared

end Compilation

namespace Table

theorem mem_identifiers_of_mem_flatMap {is : List (Fin defs.length)}
    (h : name ∈ is.flatMap t.declarations) : name ∈ t.identifiers := by
  obtain ⟨i, _, mem⟩ := List.mem_flatMap.1 h
  exact declarations_subset_identifiers mem

/-- What is declared for the root schema was reserved, so it is not declared for a definition. -/
theorem Distinct.nodup_declared {o : Options} (h : t.Distinct o.reserved)
    {is : List (Fin defs.length)} (his : is.Nodup) :
    (is.flatMap t.declarations ++ o.rootDeclarations).Nodup := by
  refine List.nodup_append.2
    ⟨h.nodup_flatMap_declarations his, o.nodup_rootDeclarations, fun name mem name' mem' same => ?_⟩
  have free := h.not_mem_reserved (mem_identifiers_of_mem_flatMap mem)
  exact free (same ▸ o.rootDeclarations_subset_reserved mem')

end Table

/-- The table of a compilation has been reached from the fresh one by operations. -/
theorem distinct_compileRoot (root : Schema) (reserved : List String) (maxDepth : Nat) :
    (compileRoot (root.definitions reserved).1 (root.definitions reserved).2 maxDepth
      root).run.table.Distinct reserved := by
  have start := (distinct_fresh root reserved).applyAll [.detectCycles]
  have run : (compileRoot (root.definitions reserved).1 (root.definitions reserved).2 maxDepth
      root).run = (Run.initial root reserved).after maxDepth
        [.generateAll, .compile root .root] := rfl
  obtain ⟨ops, table⟩ := reaches_after [.generateAll, .compile root .root]
    (Run.initial root reserved)
  rw [run, table]
  exact start.applyAll ops

/-- No name is given out or declared twice. Whatever operations are done to the table of a root
schema, the names of its definitions and the bindings of those that are recursive are distinct and
not reserved, and a definition that is not recursive is bound to its name. The names that the module
of a schema declares are therefore distinct, all of them can be declared, and none of those that it
declares for definitions is the name of the library. -/
theorem names_distinct :
    (∀ (root : Schema) (reserved : List String)
      (ops : List (Table.Operation (root.definitions reserved).1.length)),
      let t := (Table.fresh (root.definitions reserved).1 (root.definitions reserved).2).applyAll ops
      t.identifiers.Nodup ∧ (∀ name ∈ t.identifiers, name ∉ reserved) ∧
      ∀ i, t.isRecursive i = false → t.binding i = ((root.definitions reserved).1.get i).name) ∧
    ∀ (schema : Schema) (o : Options),
      let c := compileRoot (schema.definitions o.reserved).1 (schema.definitions o.reserved).2
        o.maxDepth schema
      let m := c.module o schema
      (convert schema o).code = m.text ∧
      m.declared =
        c.run.table.completed.flatMap c.run.table.declarations ++ o.rootDeclarations ∧
      m.declared.Nodup ∧
      (∀ name ∈ m.declared, isIdentifier name ∧ name ∉ reservedWords) ∧
      ∀ b ∈ m.definitions, ∀ s ∈ b.statements, s.name ≠ "v" := by
  constructor
  · intro root reserved ops t
    have distinct : t.Distinct reserved := (distinct_fresh root reserved).applyAll ops
    exact ⟨distinct.nodup_identifiers, fun _ mem => distinct.not_mem_reserved mem,
      fun _ hi => Table.binding_eq_name hi⟩
  · intro schema o c m
    have distinct : c.run.table.Distinct o.reserved :=
      distinct_compileRoot schema o.reserved o.maxDepth
    obtain ⟨sound, all⟩ := compileRoot_finished (schema.definitions o.reserved).1
      (schema.definitions o.reserved).2 o.maxDepth schema
    have generated : ∀ i, ∃ v, c.run.table.generated? i = some v := fun i =>
      Option.isSome_iff_exists.1 ((sound.generated i).2 (all i))
    choose code hcode using generated
    have declared := c.declared_module o schema hcode
    refine ⟨rfl, declared, ?_, fun name mem => ?_, fun b hb s hs library => ?_⟩
    · rw [declared]
      exact distinct.nodup_declared sound.nodup
    · rw [declared] at mem
      have declarable : Declarable name := by
        rcases List.mem_append.1 mem with mem | mem
        · exact sound.ownBindings.declarable (Table.mem_identifiers_of_mem_flatMap mem)
        · exact Options.declarable_of_mem_rootDeclarations mem
      exact ⟨declarable.identifier, declarable.unreserved⟩
    · have free := distinct.not_mem_reserved (c.name_mem_identifiers o schema hcode hb hs)
      rw [library] at free
      exact free (List.mem_cons_self ..)

end SchemaCompiler
