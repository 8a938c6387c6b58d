import SchemaCompiler.Convert
import SchemaCompiler.Proofs.Compile.Interchange
import SchemaCompiler.Proofs.Definitions.Table

/-!
# Compilations over interchangeable definitions

If the schemas of the definitions are replaced by interchangeable ones, the definitions keep their
positions, and a table of the old ones is one of the new ones as it stands (`Table.recast`). Each
step of a compilation then does the same to both (`Mirrors`), from the search for cycles on, so that
root schemas convert to the same if they and their definitions are interchangeable
(`convert_congr`).
-/

namespace SchemaCompiler

/-! ## Definitions -/

/-- Definitions of the same names, with interchangeable schemas. -/
structure Definition.Interchangeable (d d' : Definition) : Prop where
  pointer : d.pointer = d'.pointer
  name : d.name = d'.name
  schema : d.schema.Interchangeable d'.schema

variable {defs defs' : List Definition}

/-- Each definition can be taken for the one at its position. -/
structure Parallel (defs defs' : List Definition) : Prop where
  length : defs.length = defs'.length
  get : ∀ i, (defs.get i).Interchangeable (defs'.get (i.cast length))

theorem Parallel.of_forall₂ (h : List.Forall₂ Definition.Interchangeable defs defs') :
    Parallel defs defs' :=
  ⟨h.length_eq, fun i => h.get i.2 _⟩

theorem Parallel.lookup? (h : Parallel defs defs') (pointer : String) :
    SchemaCompiler.lookup? defs' pointer =
      (SchemaCompiler.lookup? defs pointer).map (Fin.cast h.length) := by
  have pointers : defs.map (·.pointer) = defs'.map (·.pointer) :=
    List.ext_get (by simpa using h.length) fun n lt lt' => by
      simpa using (h.get ⟨n, by simpa using lt⟩).pointer
  have positions : ∀ defs : List Definition, (SchemaCompiler.lookup? defs pointer).map Fin.val =
      (defs.map (·.pointer)).findIdx? (· == pointer) := by
    intro defs
    rw [List.findIdx?_map, SchemaCompiler.lookup?, ← List.findIdx?_eq_map_findFinIdx?_val]
    rfl
  apply Option.map_injective Fin.val_injective
  rw [positions, ← pointers, ← positions, Option.map_map]
  rfl

theorem Parallel.referenced (h : Parallel defs defs') (i : Fin defs.length) :
    SchemaCompiler.referenced defs' (i.cast h.length) =
      (SchemaCompiler.referenced defs i).map (Fin.cast h.length) := by
  unfold SchemaCompiler.referenced
  rw [← (h.get i).schema.references, List.map_filterMap]
  exact List.filterMap_congr fun pointer _ => h.lookup? pointer

/-! ## Casts -/

theorem get_cast {m n : Nat} (same : m = n) (v : Vector Progress m) (i : Fin m) :
    (v.cast same).get (i.cast same) = v.get i := by
  subst same
  rfl

theorem set_cast {m n : Nat} (same : m = n) (v : Vector Progress m) (i : Fin m) (p : Progress) :
    (v.cast same).set (i.cast same) p = (v.set i p).cast same := by
  subst same
  rfl

theorem replicate_cast {m n : Nat} (same : m = n) (p : Progress) :
    Vector.replicate n p = (Vector.replicate m p).cast same := by
  subst same
  rfl

theorem finRange_cast {m n : Nat} (same : m = n) :
    List.finRange n = (List.finRange m).map (Fin.cast same) := by
  subst same
  simp

/-- A search goes the same way over nodes that are counted the same. -/
theorem Search.run_cast {m n : Nat} (same : m = n) {edges : Fin m → List (Fin m)}
    {edges' : Fin n → List (Fin n)}
    (h : ∀ i, edges' (i.cast same) = (edges i).map (Fin.cast same)) :
    (Search.run edges').cyclic = (Search.run edges).cyclic.map (Fin.cast same) := by
  subst same
  obtain rfl : edges' = edges := funext fun i => by simpa using h i
  simp

/-! ## Tables -/

namespace Table

/-- A table of as many other definitions. -/
def recast (length : defs.length = defs'.length) (t : Table defs) : Table defs' :=
  ⟨t.progress.cast length, t.names, t.completed.map (Fin.cast length)⟩

theorem progress_recast (length : defs.length = defs'.length) (t : Table defs)
    (i : Fin defs.length) :
    (t.recast length).progress.get (i.cast length) = t.progress.get i :=
  get_cast length t.progress i

theorem modify_recast (length : defs.length = defs'.length) (t : Table defs) (i : Fin defs.length)
    (f : Progress → Progress) :
    (t.recast length).modify (i.cast length) f = (t.modify i f).recast length := by
  have progress := set_cast length t.progress i (f (t.progress.get i))
  unfold modify
  rw [progress_recast]
  exact congrArg (fun v : Vector Progress defs'.length => Table.mk v _ _) progress

theorem fresh_recast (length : defs.length = defs'.length) (names : NameSupply) :
    fresh defs' names = (fresh defs names).recast length :=
  congrArg (fun v : Vector Progress defs'.length => Table.mk v names [])
    (replicate_cast length {})

variable (h : Parallel defs defs') (t : Table defs) (i : Fin defs.length)

theorem isRecursive_recast :
    (t.recast h.length).isRecursive (i.cast h.length) = t.isRecursive i := by
  rw [isRecursive, progress_recast, isRecursive]

theorem isProcessing_recast :
    (t.recast h.length).isProcessing (i.cast h.length) = t.isProcessing i := by
  rw [isProcessing, progress_recast, isProcessing]

theorem generated?_recast : (t.recast h.length).generated? (i.cast h.length) = t.generated? i := by
  rw [generated?, progress_recast, generated?]

theorem binding_recast : (t.recast h.length).binding (i.cast h.length) = t.binding i := by
  rw [binding, progress_recast, binding, (h.get i).name]

theorem referenceTo_recast :
    (t.recast h.length).referenceTo (i.cast h.length) = t.referenceTo i := by
  rw [referenceTo, referenceTo, type?, type?, binding_recast h, isRecursive_recast h,
    generated?_recast h, (h.get i).name]

theorem lazyReferenceTo_recast :
    (t.recast h.length).lazyReferenceTo (i.cast h.length) = t.lazyReferenceTo i := by
  rw [lazyReferenceTo, lazyReferenceTo, binding_recast h, (h.get i).name]

theorem start_recast : (t.recast h.length).start (i.cast h.length) = (t.start i).recast h.length :=
  t.modify_recast h.length i _

theorem finish_recast (result : Validator) :
    (t.recast h.length).finish (i.cast h.length) result = (t.finish i result).recast h.length := by
  unfold finish
  rw [modify_recast]
  simp [recast]

theorem markRecursive_recast :
    (t.recast h.length).markRecursive (i.cast h.length) = (t.markRecursive i).recast h.length := by
  unfold markRecursive
  rw [isRecursive_recast h]
  split
  · rfl
  · simp only [modify_recast, (h.get i).name]
    rfl

theorem foldl_markRecursive_recast (is : List (Fin defs.length)) :
    (is.map (Fin.cast h.length)).foldl markRecursive (t.recast h.length) =
      (is.foldl markRecursive t).recast h.length := by
  induction is generalizing t with
  | nil => rfl
  | cons i is ih => rw [List.map_cons, List.foldl_cons, markRecursive_recast h, ih, List.foldl_cons]

theorem cyclic_cast : cyclic defs' = (cyclic defs).map (Fin.cast h.length) :=
  Search.run_cast h.length h.referenced

theorem detectCycles_recast :
    (t.recast h.length).detectCycles = t.detectCycles.recast h.length := by
  have onCycle : ∀ i, (cyclic defs').contains (i.cast h.length) = (cyclic defs).contains i := by
    intro i
    rw [cyclic_cast h, List.contains_eq_mem, List.contains_eq_mem]
    exact decide_eq_decide.2 (List.mem_map_of_injective (Fin.cast_injective h.length))
  have members : (List.finRange defs'.length).filter (cyclic defs').contains =
      ((List.finRange defs.length).filter (cyclic defs).contains).map (Fin.cast h.length) := by
    rw [finRange_cast h.length, List.filter_map]
    exact congrArg (List.map _) (List.filter_congr fun i _ => onCycle i)
  rw [detectCycles_eq, detectCycles_eq, members, foldl_markRecursive_recast h]

end Table

/-! ## Runs -/

/-- A state of a compilation over as many other definitions. -/
def Run.recast (length : defs.length = defs'.length) (r : Run defs) : Run defs' :=
  ⟨r.table.recast length, r.diagnostics⟩

theorem Run.start_recast (h : Parallel defs defs') (names : NameSupply) :
    Run.start defs' names = (Run.start defs names).recast h.length := by
  unfold Run.start
  rw [Table.fresh_recast h.length, Table.detectCycles_recast h]
  rfl

/-- Two computations return and do the same in states that only differ in the definitions. -/
def Mirrors {α : Type} (length : defs.length = defs'.length) (m' : StateM (Run defs') α)
    (m : StateM (Run defs) α) : Prop :=
  ∀ r : Run defs, m'.run (r.recast length) = Prod.map id (Run.recast length) (m.run r)

namespace Mirrors

variable {α β : Type} {length : defs.length = defs'.length}

theorem pure {a' a : α} (same : a' = a) : Mirrors length (Pure.pure a') (Pure.pure a) := by
  intro r
  rw [same]
  rfl

theorem bind {m' : StateM (Run defs') α} {m : StateM (Run defs) α}
    {f' : α → StateM (Run defs') β} {f : α → StateM (Run defs) β} (first : Mirrors length m' m)
    (next : ∀ a, Mirrors length (f' a) (f a)) : Mirrors length (m' >>= f') (m >>= f) := by
  intro r
  show (f' (m'.run (r.recast length)).1).run (m'.run (r.recast length)).2 = _
  rw [first r]
  exact next _ _

theorem get_bind {f' : Run defs' → StateM (Run defs') β} {f : Run defs → StateM (Run defs) β}
    (next : ∀ r : Run defs, Mirrors length (f' (r.recast length)) (f r)) :
    Mirrors length (get >>= f') (get >>= f) := fun r => next r r

theorem ite {p' p : Prop} [Decidable p'] [Decidable p] {a' b' : StateM (Run defs') α}
    {a b : StateM (Run defs) α} (same : p' ↔ p) (yes : Mirrors length a' a)
    (no : Mirrors length b' b) :
    Mirrors length (if p' then a' else b') (if p then a else b) := by
  by_cases hp : p
  · rwa [if_pos hp, if_pos (same.2 hp)]
  · rwa [if_neg hp, if_neg (mt same.1 hp)]

theorem report (d : Diagnostic) :
    Mirrors length (SchemaCompiler.report d) (SchemaCompiler.report d) := fun _ => rfl

theorem updateTable {f' : Table defs' → Table defs'} {f : Table defs → Table defs}
    (same : ∀ t, f' (t.recast length) = (f t).recast length) :
    Mirrors length (SchemaCompiler.updateTable f') (SchemaCompiler.updateTable f) := by
  intro r
  exact congrArg (fun t => ((), (⟨t, r.diagnostics⟩ : Run defs'))) (same r.table)

variable (h : Parallel defs defs') {maxDepth : Nat}

section Handlers

variable {generate' : Fin defs'.length → StateM (Run defs') Unit}
  {generate : Fin defs.length → StateM (Run defs) Unit}
  (same : ∀ i, Mirrors h.length (generate' (i.cast h.length)) (generate i))

include same

theorem resolveWith (pointer : String) (site : Site) :
    Mirrors h.length (SchemaCompiler.resolveWith generate' pointer site)
      (SchemaCompiler.resolveWith generate pointer site) := by
  unfold SchemaCompiler.resolveWith
  rw [h.lookup? pointer]
  cases SchemaCompiler.lookup? defs pointer with
  | none => exact .bind (.report _) fun _ => .pure rfl
  | some i =>
    refine .get_bind fun r => .ite (Bool.eq_iff_iff.1 (r.table.isProcessing_recast h i)) ?_ ?_
    · refine .bind (.updateTable fun t => t.markRecursive_recast h i) fun _ => ?_
      exact .get_bind fun r => .pure (r.table.lazyReferenceTo_recast h i)
    · have last : Mirrors h.length
          (get >>= fun r => Pure.pure (r.table.referenceTo (i.cast h.length)))
          (get >>= fun r => Pure.pure (r.table.referenceTo i)) :=
        .get_bind fun r => .pure (r.table.referenceTo_recast h i)
      refine .get_bind fun r => .ite ?_ (.bind (same i) fun _ => last) last
      rw [Run.recast, Table.generated?_recast h]

theorem compileWithin (room : Nat) {schema' schema : Schema}
    (alike : schema.Interchangeable schema') (site : Site) :
    Mirrors h.length (SchemaCompiler.compileWithin (handlers generate') room schema' site)
      (SchemaCompiler.compileWithin (handlers generate) room schema site) := by
  have reference : ∀ pointer site, Mirrors h.length ((handlers generate').reference pointer site)
      ((handlers generate).reference pointer site) := resolveWith h same
  have unknownType : ∀ name site, Mirrors h.length ((handlers generate').unknownType name site)
      ((handlers generate).unknownType name site) :=
    fun name site => .bind (.report _) fun _ => .pure rfl
  rw [← alike.compiled]
  exact compileWithin_view (Run.recast h.length) reference unknownType room schema site

end Handlers

theorem generateWithin (fuel : Nat) (i : Fin defs.length) :
    Mirrors h.length (SchemaCompiler.generateWithin maxDepth fuel (i.cast h.length))
      (SchemaCompiler.generateWithin maxDepth fuel i) := by
  induction fuel generalizing i with
  | zero => exact .pure rfl
  | succ fuel ih =>
    have alike := h.get i
    rw [SchemaCompiler.generateWithin, SchemaCompiler.generateWithin, ← alike.pointer]
    refine .get_bind fun r => .ite (Bool.eq_iff_iff.1 (r.table.isProcessing_recast h i))
      (.report _) ?_
    refine .bind (.updateTable fun t => t.start_recast h i) fun _ => ?_
    refine .bind (compileWithin h ih _ alike.schema _) fun result => ?_
    exact .updateTable fun t => t.finish_recast h i result

theorem generate (i : Fin defs.length) :
    Mirrors h.length (SchemaCompiler.generate maxDepth (i.cast h.length))
      (SchemaCompiler.generate maxDepth i) := by
  have fuel : SchemaCompiler.generateWithin maxDepth defs'.length (i.cast h.length) =
      SchemaCompiler.generateWithin maxDepth defs.length (i.cast h.length) :=
    congrArg (SchemaCompiler.generateWithin maxDepth · _) h.length.symm
  rw [SchemaCompiler.generate, fuel]
  exact generateWithin h defs.length i

theorem generateEach (is : List (Fin defs.length)) :
    Mirrors h.length (SchemaCompiler.generateEach maxDepth (is.map (Fin.cast h.length)))
      (SchemaCompiler.generateEach maxDepth is) := by
  induction is with
  | nil => exact .pure rfl
  | cons i is ih =>
    refine .get_bind fun r => .ite ?_ (.bind (generate h i) fun _ => ih) ih
    rw [Run.recast, Table.generated?_recast h]

theorem generateAll : Mirrors h.length (SchemaCompiler.generateAll maxDepth)
    (SchemaCompiler.generateAll maxDepth) := by
  unfold SchemaCompiler.generateAll
  rw [finRange_cast h.length]
  exact generateEach h _

end Mirrors

theorem compileRoot_recast (h : Parallel defs defs') (names : NameSupply) (maxDepth : Nat)
    {schema schema' : Schema} (alike : schema.Interchangeable schema') :
    compileRoot defs' names maxDepth schema' =
      ⟨(compileRoot defs names maxDepth schema).root,
        (compileRoot defs names maxDepth schema).run.recast h.length⟩ := by
  have steps : Mirrors h.length
      (generateAll maxDepth >>= fun _ => compile maxDepth schema' .root)
      (generateAll maxDepth >>= fun _ => compile maxDepth schema .root) :=
    .bind (.generateAll h) fun _ => .compileWithin h (.generate h) _ alike _
  unfold compileRoot
  simp only
  rw [Run.start_recast h, steps]
  rfl

/-! ## Types -/

theorem follow_recast (h : Parallel defs defs') (t : Table defs) (room fuel : Nat) :
    followWithin (t.recast h.length) room fuel = followWithin t room fuel := by
  funext pointer
  induction fuel generalizing pointer with
  | zero =>
    unfold followWithin
    rw [h.lookup? pointer]
    cases lookup? defs pointer with
    | none => rfl
    | some i =>
      simp only [Option.map_some, Table.isRecursive_recast h, ← (h.get i).name]
  | succ fuel ih =>
    unfold followWithin
    rw [h.lookup? pointer]
    cases lookup? defs pointer with
    | none => rfl
    | some i =>
      simp only [Option.map_some, Table.isRecursive_recast h, ← (h.get i).name]
      rw [← (h.get i).schema.projected, funext ih]

theorem project_recast (h : Parallel defs defs') (t : Table defs) (maxDepth : Nat)
    {schema schema' : Schema} (alike : schema.Interchangeable schema') (depth : Nat) :
    project (t.recast h.length) maxDepth schema' depth = project t maxDepth schema depth := by
  unfold project
  rw [follow_recast h, ← h.length, ← alike.projected]

/-! ## Conversions -/

theorem Table.finished_recast (h : Parallel defs defs') (t : Table defs) :
    (t.recast h.length).finished = t.finished.map (Prod.map (Fin.cast h.length) id) := by
  have one : ∀ i, ((t.recast h.length).generated? (i.cast h.length)).map (i.cast h.length, ·) =
      ((t.generated? i).map (i, ·)).map (Prod.map (Fin.cast h.length) id) := by
    intro i
    rw [Table.generated?_recast h, Option.map_map]
    rfl
  unfold Table.finished
  rw [List.map_filterMap]
  show (t.completed.map (Fin.cast h.length)).filterMap _ = _
  rw [List.filterMap_map]
  exact List.filterMap_congr fun i _ => one i

theorem definitionBlock_recast (h : Parallel defs defs') (o : Options) (t : Table defs)
    (i : Fin defs.length) (generated : Validator) :
    definitionBlock o (t.recast h.length) (i.cast h.length) generated =
      definitionBlock o t i generated := by
  have alike := h.get i
  unfold definitionBlock Options.comment
  rw [Table.isRecursive_recast h, Table.binding_recast h, project_recast h t _ alike.schema,
    ← alike.name, alike.schema.description]

theorem module_recast (h : Parallel defs defs') (o : Options) (c : Compilation defs)
    {schema schema' : Schema} (alike : schema.Interchangeable schema') :
    Compilation.module ⟨c.root, c.run.recast h.length⟩ o schema' = c.module o schema := by
  unfold Compilation.module Options.comment
  simp only [Run.recast, Table.finished_recast h, project_recast h _ _ alike, alike.description,
    List.map_map]
  have blocks : ∀ p : Fin defs.length × Validator,
      definitionBlock o (c.run.table.recast h.length) (p.1.cast h.length) p.2 =
        definitionBlock o c.run.table p.1 p.2 := fun p => definitionBlock_recast h o _ p.1 p.2
  have bindings : ∀ p : Fin defs.length × Validator,
      (c.run.table.recast h.length).binding (p.1.cast h.length) = c.run.table.binding p.1 :=
    fun p => Table.binding_recast h _ p.1
  simp only [Function.comp_def, Prod.map, id, blocks, bindings]

theorem imports_recast (h : Parallel defs defs') (c : Compilation defs) :
    Compilation.imports ⟨c.root, c.run.recast h.length⟩ = c.imports := by
  unfold Compilation.imports
  simp only [Run.recast, Table.finished_recast h, List.foldr_map, Prod.map_snd, id]

/-- Definition sites under the same keyword and key, with interchangeable schemas. -/
inductive SameSite : String × String × Schema → String × String × Schema → Prop where
  | intro (keyword key : String) {s t : Schema} (same : s.Interchangeable t) :
      SameSite (keyword, key, s) (keyword, key, t)

theorem sameSites_images {S : Type} {f g : S → Schema} (same : ∀ x, (f x).Interchangeable (g x))
    (k : Keywords S) :
    List.Forall₂ SameSite (Schema.object (k.map f)).definitionSites
      (Schema.object (k.map g)).definitionSites := by
  have sites : ∀ f : S → Schema, (Schema.object (k.map f)).definitionSites =
      (k.definitions.getD []).map (fun p => ("definitions", p.1, f p.2)) ++
        (k.defs.getD []).map fun p => ("$defs", p.1, f p.2) := by
    intro f
    unfold Schema.definitionSites Keywords.map
    cases k.definitions <;> cases k.defs <;> simp [mapValue, Function.comp_def]
  have each : ∀ (keyword : String) (members : List (String × S)),
      List.Forall₂ SameSite (members.map fun p => (keyword, p.1, f p.2))
        (members.map fun p => (keyword, p.1, g p.2)) := by
    intro keyword members
    rw [List.forall₂_map_left_iff, List.forall₂_map_right_iff, List.forall₂_same]
    exact fun p _ => .intro keyword p.1 (same p.2)
  rw [sites, sites]
  exact List.rel_append (each _ _) (each _ _)

/-- The definitions of a root schema, if an interchangeable schema is put at the end of a path. -/
theorem sameSites_replaceAt {root x y : Schema} {path : List Branch}
    (at_path : root.at? path = some x) (same : x.Interchangeable y)
    (keeps : root.KeepsIntersection path y)
    (definitions : path = [] → y.definitionSites = x.definitionSites) :
    List.Forall₂ SameSite root.definitionSites (root.replaceAt path y).definitionSites := by
  cases path with
  | nil =>
    obtain rfl := Option.some.inj at_path
    rw [Schema.replaceAt, definitions rfl, List.forall₂_same]
    exact fun p _ => .intro p.1 p.2.1 (.refl p.2.2)
  | cons b rest =>
    obtain ⟨k, z, rfl, child, below⟩ := Schema.at?_cons_eq_some at_path
    have inner : z.Interchangeable (z.replaceAt rest y) :=
      .replaceAt below same (keeps.below child)
    obtain ⟨pairs, first, second⟩ := Keywords.exists_pairs Schema.Interchangeable.refl child inner
    have sites := sameSites_images (fun p => p.2) pairs
    rwa [first, second, ← Schema.replaceAt_cons child] at sites

theorem parallel_definitions {root root' : Schema} (reserved : List String)
    (sites : List.Forall₂ SameSite root.definitionSites root'.definitionSites) :
    Parallel (root.definitions reserved).1 (root'.definitions reserved).1 ∧
      (root.definitions reserved).2 = (root'.definitions reserved).2 := by
  have definitions : ∀ root : Schema, root.definitions reserved =
      let allocated := NameSupply.allocateAll ⟨reserved⟩
        (root.definitionSites.map fun site => sanitize site.2.1)
      (List.zipWith (fun site name => ⟨pointerText [site.1, site.2.1], name, site.2.2⟩)
        root.definitionSites allocated.1, allocated.2) := fun _ => rfl
  rw [definitions, definitions]
  generalize root.definitionSites = ps at sites ⊢
  generalize root'.definitionSites = qs at sites ⊢
  have keys : ps.map (fun site => sanitize site.2.1) = qs.map fun site => sanitize site.2.1 := by
    induction sites with
    | nil => rfl
    | cons same _ ih =>
      obtain ⟨keyword, key, same⟩ := same
      rw [List.map_cons, List.map_cons, ih]
  simp only [keys]
  refine ⟨.of_forall₂ ?_, trivial⟩
  generalize (NameSupply.allocateAll _ _).1 = names
  clear keys
  induction sites generalizing names with
  | nil => exact .nil
  | cons same _ ih =>
    cases names with
    | nil => exact .nil
    | cons name names =>
      obtain ⟨keyword, key, same⟩ := same
      exact .cons ⟨rfl, rfl, same⟩ (ih names)

/-- Root schemas convert to the same if they and their definitions are interchangeable. -/
theorem convert_congr {root root' : Schema} (alike : root.Interchangeable root')
    (sites : List.Forall₂ SameSite root.definitionSites root'.definitionSites) (o : Options) :
    convert root' o = convert root o := by
  obtain ⟨parallel, names⟩ := parallel_definitions o.reserved sites
  unfold convert
  simp only
  rw [← names, compileRoot_recast parallel _ _ alike, module_recast parallel o _ alike,
    imports_recast parallel]
  rfl

end SchemaCompiler
