import SchemaCompiler.Proofs.Compile.Imports
import SchemaCompiler.Proofs.Generate.Operations
import SchemaCompiler.Proofs.Generate.Sustained
import SchemaCompiler.Proofs.Projection.Agreement

/-!
# Modules import what they call

The code of a reference is a binding, which calls nothing, or a lazy one, which calls one function
and imports it: bindings are made of identifier characters, whatever has been done to the table. So
schemas compile to validators that import what they call, and nothing else if no mixed `allOf` is
met (`imports_cover_calls`).

When a conversion puts its module together, all definitions are finished, and what they import is
imported besides what the root schema does. So the statements of the module call nothing else.
-/

namespace SchemaCompiler

open Validator (Accounted)

variable {defs : List Definition} {t : Table defs} {exact : Prop}

/-! ## References -/

namespace Table

theorem accounted_referenceTo (i : Fin defs.length) (h : Spelled (t.binding i)) :
    (t.referenceTo i).Accounted exact :=
  Validator.accounted_of (Accounts.spelled h) fun x => by simp [referenceTo]

theorem accounted_lazyReferenceTo (i : Fin defs.length) (h : Spelled (t.binding i)) :
    (t.lazyReferenceTo i).Accounted exact := by
  have parameters : Accounts exact "()" ∅ := .fixed rfl rfl
  have function := parameters.append (by decide : Separates " => ") (.spelled h)
  have whole := function.call (by decide : Spelled "lazy")
  refine Validator.accounted_of (s := insert "lazy" (∅ ∪ ∅)) ?_ fun x => by simp [lazyReferenceTo]
  have code : (t.lazyReferenceTo i).code = call "lazy" ("()" ++ " => " ++ t.binding i) := rfl
  rwa [code]

theorem accounted_reference (h : ∀ i, Spelled (t.binding i)) (later : Fin defs.length → Bool)
    (pointer : String) : (t.reference later pointer).Accounted exact := by
  unfold reference
  split
  · exact Validator.accounted_any
  next i _ =>
    split
    · exact accounted_lazyReferenceTo i (h i)
    · exact accounted_referenceTo i (h i)

end Table

/-! ## Compilations -/

section Compilations

variable (names : ∀ d ∈ defs, Spelled d.name)

include names

/-- Whatever has been done to the table, references compile to validators that import what they
call. -/
theorem yields_resolve (maxDepth : Nat) (pointer : String) (site : Site) :
    Yields (fun r : Run defs => r.table.OwnBindings) (Accounted exact)
      (resolve maxDepth pointer site) :=
  (sustains_ownBindings names (fun _ i => Table.accounted_referenceTo i)
    fun _ i => Table.accounted_lazyReferenceTo i).yields_resolveWith Validator.accounted_any
    (fun i r own => (reaches_generateWithin _ i r).ownBindings own) pointer site

theorem yields_compile (maxDepth : Nat) {schema : Schema} {site : Site}
    (unmixed : exact → schema.Unmixed (roomAt maxDepth site.depth)) :
    Yields (fun r : Run defs => r.table.OwnBindings) (Accounted exact)
      (compile maxDepth schema site) :=
  yields_compileWithin (yields_resolve names maxDepth)
    (fun _ _ _ own => ⟨own, Validator.accounted_any⟩) _ unmixed site

end Compilations

/-! ## Modules -/

/-- The library functions that a statement calls. -/
def Statement.calledSymbols : Statement → List String
  | .typeAlias _ _ => []
  | .binding _ _ code => SchemaCompiler.calledSymbols code

/-- The library functions that a module calls. -/
def Module.calledSymbols (m : Module) : List String :=
  m.blocks.flatMap fun b => b.statements.flatMap Statement.calledSymbols

theorem calledSymbols_definitionBlock (o : Options) (t : Table defs) (i : Fin defs.length)
    (generated : Validator) :
    (definitionBlock o t i generated).statements.flatMap Statement.calledSymbols =
      calledSymbols generated.code := by
  unfold definitionBlock
  simp only
  split <;> simp [Statement.calledSymbols]

theorem Compilation.calledSymbols_module (c : Compilation defs) (o : Options) (schema : Schema) :
    (c.module o schema).calledSymbols =
      c.run.table.finished.flatMap (fun (_, r) => calledSymbols r.code) ++
        calledSymbols c.root.code := by
  have rootType : (c.module o schema).rootType.toList.flatMap
      (fun b => b.statements.flatMap Statement.calledSymbols) = [] := by
    unfold Compilation.module
    simp only
    split <;> simp [Statement.calledSymbols]
  unfold Module.calledSymbols Module.blocks
  rw [List.flatMap_append, List.flatMap_cons, rootType, List.append_nil]
  congr 1
  · simp only [Compilation.module, List.flatMap_map, calledSymbols_definitionBlock]
  · simp [Compilation.module, Statement.calledSymbols]

theorem Compilation.mem_imports {c : Compilation defs} {s : String} :
    s ∈ c.imports ↔ (∃ p ∈ c.run.table.finished, s ∈ p.2.imports) ∨ s ∈ c.root.imports :=
  Validator.mem_foldr_imports

/-! ## Conversions -/

/-- Once all definitions have been finished, what is called for one of them is imported for it. -/
theorem Run.Sound.accounted {maxDepth : Nat} {stack : List (Fin defs.length)} {r : Run defs}
    (h : r.Sound maxDepth stack) (names : ∀ d ∈ defs, Spelled d.name) {i : Fin defs.length}
    {v : Validator} (hv : r.table.generated? i = some v) : v.Accounted False := by
  rw [h.assembled i v hv r.table (.refl _)]
  exact accounted_assembleWithin
    (r.table.accounted_reference (h.ownBindings.spelled names) _) _ nofun

theorem accounted_compileRoot (names : NameSupply) (spelled : ∀ d ∈ defs, Spelled d.name)
    (maxDepth : Nat) (schema : Schema) :
    (compileRoot defs names maxDepth schema).root.Accounted False := by
  obtain ⟨sound, _⟩ := compileRoot_finished defs names maxDepth schema
  rw [compileRoot_assembled]
  exact accounted_assembleWithin
    (Table.accounted_reference (sound.ownBindings.spelled spelled) _) _ nofun

/-- What the statements of a module call is imported. -/
theorem mem_imports_of_mem_calledSymbols (names : NameSupply)
    (spelled : ∀ d ∈ defs, Spelled d.name) (o : Options) (schema : Schema) {s : String}
    (hs : s ∈ ((compileRoot defs names o.maxDepth schema).module o schema).calledSymbols) :
    s ∈ (compileRoot defs names o.maxDepth schema).imports := by
  obtain ⟨sound, _⟩ := compileRoot_finished defs names o.maxDepth schema
  rw [Compilation.calledSymbols_module, List.mem_append] at hs
  rw [Compilation.mem_imports]
  rcases hs with called | called
  · obtain ⟨⟨i, v⟩, finished, called⟩ := List.mem_flatMap.1 called
    obtain ⟨j, _, generated⟩ := List.mem_filterMap.1 finished
    obtain ⟨w, hw, same⟩ := Option.map_eq_some_iff.1 generated
    obtain ⟨rfl, rfl⟩ := Prod.mk.inj same
    have covers := (Validator.accounted_iff.1 (sound.accounted spelled hw)).2.1
    exact .inl ⟨_, finished, covers s called⟩
  · have covers := (Validator.accounted_iff.1
      (accounted_compileRoot names spelled o.maxDepth schema)).2.1
    exact .inr (covers s called)

/-- Whatever the site and the state of the table of definitions, a schema compiles to code whose
literals are all closed, and every library function that is called outside of them is imported.
Nothing else is imported if no `allOf` of two or more members that are not all object-shaped is met.
The imports of a conversion have every function that its module calls, for a definition or for the
root schema. -/
theorem imports_cover_calls (root : Schema) (reserved : List String)
    (ops : List (Table.Operation (root.definitions reserved).1.length))
    (diagnostics : List Diagnostic) (maxDepth : Nat) (schema : Schema) (site : Site) :
    let t := (Table.fresh (root.definitions reserved).1 (root.definitions reserved).2).applyAll ops
    let v := ((compile maxDepth schema site).run ⟨t, diagnostics⟩).1
    (EndsInCode v.code ∧ (∀ s ∈ calledSymbols v.code, s ∈ v.imports) ∧
      (schema.Unmixed (roomAt maxDepth site.depth) →
        ∀ s ∈ v.imports, s ∈ calledSymbols v.code)) ∧
    ∀ o : Options,
      let c := compileRoot (schema.definitions o.reserved).1 (schema.definitions o.reserved).2
        o.maxDepth schema
      (convert schema o).code = (c.module o schema).text ∧
        ∀ s ∈ (c.module o schema).calledSymbols, s ∈ (convert schema o).imports := by
  intro t v
  have own : t.OwnBindings := (Table.ownBindings_fresh _).applyAll ops
  have yields : Yields (fun r : Run (root.definitions reserved).1 => r.table.OwnBindings)
      (Accounted (schema.Unmixed (roomAt maxDepth site.depth))) (compile maxDepth schema site) :=
    yields_compile (fun _ => spelled_name) maxDepth id
  refine ⟨Validator.accounted_iff.1 (yields ⟨t, diagnostics⟩ own).2, fun o => ⟨rfl, ?_⟩⟩
  intro s hs
  exact mem_imports_of_mem_calledSymbols _ (fun _ => spelled_name) o schema hs

/-- A schema and a definition with literals that look like calls. -/
def callsInLiterals : Schema :=
  .object
    { anyOf := some [
        .object { const := some (.string "v.any()") },
        .object { not := some (.object { reference := some "#/definitions/D" }) }]
      definitions := some [
        ("D", .object { type := some (.one .string), pattern := some "v.never()" })] }

theorem imports_cover_calls_callsInLiterals :
    let defs := (callsInLiterals.definitions []).1
    let t := (Table.fresh defs (callsInLiterals.definitions []).2).applyAll []
    let compiled := (compile 10 callsInLiterals .root).run ⟨t, []⟩
    callsInLiterals.Unmixed (roomAt 10 Site.root.depth) ∧
      (∀ s ∈ compiled.1.imports, s ∈ calledSymbols compiled.1.code) ∧
      calledSymbols compiled.1.code = ["union", "literal", "custom", "is"] ∧
      compiled.2.table.finished.map (fun (_, r) => (r.code, calledSymbols r.code)) =
        [("v.pipe(v.string(), v.regex(/v.never()/))", ["pipe", "string", "regex"])] := by
  have unmixed : callsInLiterals.Unmixed (roomAt 10 Site.root.depth) := by decide +kernel
  have covers := (imports_cover_calls callsInLiterals [] [] [] 10 callsInLiterals .root).1.2.2
  exact ⟨unmixed, covers unmixed, by decide +kernel⟩

end SchemaCompiler
