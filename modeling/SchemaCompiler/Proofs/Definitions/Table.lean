import SchemaCompiler.Generate
import SchemaCompiler.Proofs.Definitions.Names
import SchemaCompiler.Proofs.Definitions.Search

/-!
# How the table of definitions changes

What each step of a compilation does to the table, definition by definition, and what none of them
ever does: `Table.Extends` says that a table still holds all that another one had settled. A
definition once recursive stays so, with its binding; a finished definition does not change at all;
and more definitions are finished only after those that are.
-/

namespace SchemaCompiler

open Relation

variable {defs : List Definition}

/-! ## The graph of references -/

/-- One definition refers to another. -/
def Refers (defs : List Definition) (i j : Fin defs.length) : Prop := j ∈ referenced defs i

theorem refers_of_lookup? {i j : Fin defs.length} {pointer : String}
    (h : pointer ∈ (defs.get i).schema.references) (found : lookup? defs pointer = some j) :
    Refers defs i j := List.mem_filterMap.2 ⟨pointer, h, found⟩

/-- A definition lies on a cycle of references. -/
def OnCycle (defs : List Definition) (i : Fin defs.length) : Prop := TransGen (Refers defs) i i

namespace Table

variable {t t' t'' : Table defs} {i j : Fin defs.length} {r : Validator}

/-! ## Steps -/

theorem get_modify (t : Table defs) (i j : Fin defs.length) (f : Progress → Progress) :
    (t.modify i f).progress.get j = if i = j then f (t.progress.get i) else t.progress.get j := by
  have : (t.progress.set i (f (t.progress.get i)))[j] =
      if i.val = j.val then f (t.progress.get i) else t.progress[j] := Vector.getElem_set i.2 j.2
  simp only [Fin.ext_iff]
  exact this

/-- A field that an update leaves alone is the same for all definitions. -/
theorem field_modify {α : Type} (field : Progress → α) (f : Progress → Progress)
    (h : ∀ p, field (f p) = field p) (t : Table defs) (i j : Fin defs.length) :
    field ((t.modify i f).progress.get j) = field (t.progress.get j) := by
  rw [get_modify]
  split
  next e => rw [h, e]
  next => rfl

theorem field_markRecursive {α : Type} (field : Progress → α)
    (h : ∀ p b, field { p with ownBinding := b } = field p) (t : Table defs)
    (i j : Fin defs.length) :
    field ((t.markRecursive i).progress.get j) = field (t.progress.get j) := by
  unfold markRecursive
  split
  · rfl
  · exact field_modify field _ (fun p => h p _) t i j

theorem get_start (t : Table defs) (i j : Fin defs.length) :
    (t.start i).progress.get j =
      if i = j then { t.progress.get i with processing := true } else t.progress.get j :=
  get_modify t i j _

theorem get_finish (t : Table defs) (i j : Fin defs.length) (r : Validator) :
    (t.finish i r).progress.get j =
      if i = j then { t.progress.get i with processing := false, generated := some r }
      else t.progress.get j :=
  get_modify t i j fun p => { p with processing := false, generated := some r }

theorem get_markRecursive (t : Table defs) (i j : Fin defs.length) :
    (t.markRecursive i).progress.get j =
      if i = j ∧ t.isRecursive i = false then
        { t.progress.get i with
          ownBinding := some (t.names.allocate ((defs.get i).name ++ "Schema")).1 }
      else t.progress.get j := by
  unfold markRecursive
  by_cases h : t.isRecursive i
  · simp [h]
  · simp only [h, Bool.false_eq_true, if_false, and_true]
    exact get_modify t i j _

@[simp] theorem completed_start (t : Table defs) (i : Fin defs.length) :
    (t.start i).completed = t.completed := rfl

@[simp] theorem completed_finish (t : Table defs) (i : Fin defs.length) (r : Validator) :
    (t.finish i r).completed = t.completed ++ [i] := rfl

@[simp] theorem completed_markRecursive (t : Table defs) (i : Fin defs.length) :
    (t.markRecursive i).completed = t.completed := by
  unfold markRecursive
  split <;> rfl

@[simp] theorem generated?_start (t : Table defs) (i j : Fin defs.length) :
    (t.start i).generated? j = t.generated? j :=
  field_modify (·.generated) (fun p => { p with processing := true }) (fun _ => rfl) t i j

@[simp] theorem generated?_markRecursive (t : Table defs) (i j : Fin defs.length) :
    (t.markRecursive i).generated? j = t.generated? j :=
  field_markRecursive (·.generated) (fun _ _ => rfl) t i j

theorem generated?_finish (t : Table defs) (i j : Fin defs.length) (r : Validator) :
    (t.finish i r).generated? j = if i = j then some r else t.generated? j := by
  unfold generated?
  rw [get_finish]
  split <;> rfl

theorem isProcessing_start (t : Table defs) (i j : Fin defs.length) :
    (t.start i).isProcessing j = if i = j then true else t.isProcessing j := by
  unfold isProcessing
  rw [get_start]
  split <;> rfl

theorem isProcessing_finish (t : Table defs) (i j : Fin defs.length) (r : Validator) :
    (t.finish i r).isProcessing j = if i = j then false else t.isProcessing j := by
  unfold isProcessing
  rw [get_finish]
  split <;> rfl

@[simp] theorem isProcessing_markRecursive (t : Table defs) (i j : Fin defs.length) :
    (t.markRecursive i).isProcessing j = t.isProcessing j :=
  field_markRecursive (·.processing) (fun _ _ => rfl) t i j

@[simp] theorem isRecursive_start (t : Table defs) (i j : Fin defs.length) :
    (t.start i).isRecursive j = t.isRecursive j :=
  field_modify (·.ownBinding.isSome) (fun p => { p with processing := true }) (fun _ => rfl) t i j

@[simp] theorem isRecursive_finish (t : Table defs) (i j : Fin defs.length) (r : Validator) :
    (t.finish i r).isRecursive j = t.isRecursive j :=
  field_modify (·.ownBinding.isSome)
    (fun p => { p with processing := false, generated := some r }) (fun _ => rfl) t i j

theorem isRecursive_markRecursive (t : Table defs) (i j : Fin defs.length) :
    (t.markRecursive i).isRecursive j = (decide (i = j) || t.isRecursive j) := by
  rw [isRecursive, get_markRecursive]
  split
  next h => simp [h.1]
  next h =>
    rw [← isRecursive]
    by_cases e : i = j
    · subst e
      simpa using h
    · simp [e]

/-! ## What is being generated and what is finished -/

theorem isProcessing_start_iff {path : List (Fin defs.length)}
    (h : ∀ j, t.isProcessing j ↔ j ∈ path) (i j : Fin defs.length) :
    (t.start i).isProcessing j ↔ j ∈ i :: path := by
  rw [isProcessing_start]
  by_cases e : i = j
  · simp [e]
  · rw [if_neg e, h j, List.mem_cons, or_iff_right (Ne.symm e)]

theorem isProcessing_finish_iff {path : List (Fin defs.length)}
    (h : ∀ j, t.isProcessing j ↔ j ∈ i :: path) (hi : i ∉ path) (r : Validator)
    (j : Fin defs.length) : (t.finish i r).isProcessing j ↔ j ∈ path := by
  rw [isProcessing_finish]
  by_cases e : i = j
  · subst e
    simpa using hi
  · rw [if_neg e, h j, List.mem_cons, or_iff_right (Ne.symm e)]

theorem isSome_generated?_finish_iff {is : List (Fin defs.length)}
    (h : ∀ j, (t.generated? j).isSome ↔ j ∈ is) (i : Fin defs.length) (r : Validator)
    (j : Fin defs.length) : ((t.finish i r).generated? j).isSome ↔ j ∈ is ++ [i] := by
  rw [generated?_finish]
  by_cases e : i = j
  · simp [e]
  · rw [if_neg e, h j, List.mem_append, List.mem_singleton, or_iff_left (Ne.symm e)]

/-! ## Bindings -/

/-- The bindings of their own that recursive definitions have are made from their names. -/
def OwnBindings (t : Table defs) : Prop :=
  ∀ i b, (t.progress.get i).ownBinding = some b →
    ∃ n, b = NameSupply.candidate ((defs.get i).name ++ "Schema") n

theorem OwnBindings.of_eq (h : t.OwnBindings)
    (same : ∀ j, (t'.progress.get j).ownBinding = (t.progress.get j).ownBinding) :
    t'.OwnBindings := fun j b hb => h j b (same j ▸ hb)

theorem OwnBindings.start (h : t.OwnBindings) (i : Fin defs.length) : (t.start i).OwnBindings :=
  h.of_eq fun j =>
    field_modify (·.ownBinding) (fun p => { p with processing := true }) (fun _ => rfl) t i j

theorem OwnBindings.finish (h : t.OwnBindings) (i : Fin defs.length) (r : Validator) :
    (t.finish i r).OwnBindings :=
  h.of_eq fun j => field_modify (·.ownBinding)
    (fun p => { p with processing := false, generated := some r }) (fun _ => rfl) t i j

theorem OwnBindings.markRecursive (h : t.OwnBindings) (i : Fin defs.length) :
    (t.markRecursive i).OwnBindings := by
  intro j b hb
  rw [get_markRecursive] at hb
  split at hb
  next e =>
    obtain ⟨rfl, _⟩ := e
    obtain rfl := Option.some.inj hb
    exact t.names.free_eq_candidate _
  next => exact h j b hb

theorem OwnBindings.spelled (h : t.OwnBindings) (names : ∀ d ∈ defs, Spelled d.name)
    (i : Fin defs.length) : Spelled (t.binding i) := by
  have name := names _ (List.get_mem defs i)
  unfold binding
  cases own : (t.progress.get i).ownBinding with
  | none => exact name
  | some b =>
    obtain ⟨n, rfl⟩ := h i b own
    refine spelled_candidate (name.append ?_) n
    exact List.all_eq_true.1 (by decide)

/-! ## What is settled -/

/-- A table still holds all that another one had settled. -/
structure Extends (t t' : Table defs) : Prop where
  ownBinding : ∀ i, t.isRecursive i → (t'.progress.get i).ownBinding = (t.progress.get i).ownBinding
  finished : ∀ i, (t.generated? i).isSome → t'.progress.get i = t.progress.get i
  completed : t.completed <+: t'.completed

namespace Extends

theorem refl (t : Table defs) : t.Extends t := ⟨fun _ _ => rfl, fun _ _ => rfl, List.prefix_rfl⟩

theorem isRecursive (h : t.Extends t') (hi : t.isRecursive i) : t'.isRecursive i := by
  unfold Table.isRecursive
  rwa [h.ownBinding i hi]

theorem generated? (h : t.Extends t') (hi : t.generated? i = some r) :
    t'.generated? i = some r := by
  unfold Table.generated?
  rwa [h.finished i (by simp [hi])]

theorem isSome_generated? (h : t.Extends t') (hi : (t.generated? i).isSome) :
    (t'.generated? i).isSome := by
  obtain ⟨r, hr⟩ := Option.isSome_iff_exists.1 hi
  simp [h.generated? hr]

theorem trans (h : t.Extends t') (h' : t'.Extends t'') : t.Extends t'' where
  ownBinding i hi := (h'.ownBinding i (h.isRecursive hi)).trans (h.ownBinding i hi)
  finished i hi := (h'.finished i (h.isSome_generated? hi)).trans (h.finished i hi)
  completed := h.completed.trans h'.completed

/-- The validator by which others refer to a finished definition does not change. -/
theorem referenceTo (h : t.Extends t') (hi : (t.generated? i).isSome) :
    t'.referenceTo i = t.referenceTo i := by
  unfold Table.referenceTo Table.binding Table.type? Table.isRecursive Table.generated?
  rw [h.finished i hi]

/-- The validator by which a recursive definition refers to itself does not change. -/
theorem lazyReferenceTo (h : t.Extends t') (hi : t.isRecursive i) :
    t'.lazyReferenceTo i = t.lazyReferenceTo i := by
  simp [Table.lazyReferenceTo, Table.binding, h.ownBinding i hi]

end Extends

/-- A step that changes one definition that is not finished, and its binding only to make it
recursive, loses nothing that was settled. -/
theorem extends_of_get (hi : (t.generated? i).isNone)
    (others : ∀ j, i ≠ j → t'.progress.get j = t.progress.get j)
    (own : t.isRecursive i → (t'.progress.get i).ownBinding = (t.progress.get i).ownBinding)
    (completed : t.completed <+: t'.completed) : t.Extends t' where
  ownBinding j hj := by
    by_cases e : i = j
    · subst e
      exact own hj
    · rw [others j e]
  finished j hj := by
    refine others j ?_
    rintro rfl
    simp [Option.isNone_iff_eq_none.1 hi] at hj
  completed := completed

theorem extends_start (hi : (t.generated? i).isNone) : t.Extends (t.start i) :=
  extends_of_get hi (fun j e => by rw [get_start, if_neg e])
    (fun _ => by rw [get_start, if_pos rfl]) List.prefix_rfl

theorem extends_finish (hi : (t.generated? i).isNone) : t.Extends (t.finish i r) :=
  extends_of_get hi (fun j e => by rw [get_finish, if_neg e])
    (fun _ => by rw [get_finish, if_pos rfl]) (List.prefix_append _ _)

theorem extends_markRecursive (hi : (t.generated? i).isNone) : t.Extends (t.markRecursive i) := by
  refine extends_of_get hi (fun j e => ?_) (fun recursive => ?_) (by simp)
  · rw [get_markRecursive, if_neg fun h => e h.1]
  · rw [get_markRecursive, if_neg fun h => by simp [recursive] at h]

/-! ## The table to start with -/

theorem isRecursive_foldl_markRecursive (is : List (Fin defs.length)) (t : Table defs)
    (j : Fin defs.length) :
    (is.foldl markRecursive t).isRecursive j = (is.contains j || t.isRecursive j) := by
  induction is generalizing t with
  | nil => simp
  | cons i is ih =>
    rw [List.foldl_cons, ih, isRecursive_markRecursive, List.contains_cons]
    simp only [beq_eq_decide, eq_comm (a := j)]
    cases decide (i = j) <;> simp

/-- What making a definition recursive leaves alone, making several recursive does, too. -/
theorem foldl_markRecursive_eq {α : Type} (g : Table defs → α)
    (h : ∀ t i, g (t.markRecursive i) = g t) (is : List (Fin defs.length)) (t : Table defs) :
    g (is.foldl markRecursive t) = g t := by
  induction is generalizing t with
  | nil => rfl
  | cons i is ih => rw [List.foldl_cons, ih, h]

theorem get_fresh (defs : List Definition) (names : NameSupply) (i : Fin defs.length) :
    (fresh defs names).progress.get i = {} :=
  Vector.getElem_replicate i.2

/-- The definitions that a search of the references puts on cycles. -/
def cyclic (defs : List Definition) : List (Fin defs.length) :=
  (Search.run (referenced defs)).cyclic

theorem detectCycles_eq (t : Table defs) :
    t.detectCycles = ((List.finRange defs.length).filter (cyclic defs).contains).foldl
      markRecursive t := by
  have : (Vector.ofFn (referenced defs)).get = referenced defs := by
    funext i
    exact Vector.getElem_ofFn i.2
  rw [cyclic, ← this]
  rfl

theorem ownBindings_fresh (names : NameSupply) : (fresh defs names).OwnBindings :=
  fun i b hb => by simp [get_fresh] at hb

theorem ownBindings_detectCycles_fresh (names : NameSupply) :
    (fresh defs names).detectCycles.OwnBindings := by
  rw [detectCycles_eq]
  have start : (fresh defs names).OwnBindings := ownBindings_fresh names
  generalize (List.finRange defs.length).filter (cyclic defs).contains = is
  generalize fresh defs names = t at start
  induction is generalizing t with
  | nil => exact start
  | cons i is ih => exact ih _ (start.markRecursive i)

theorem isRecursive_detectCycles_fresh (names : NameSupply) (i : Fin defs.length) :
    (fresh defs names).detectCycles.isRecursive i = (cyclic defs).contains i := by
  rw [detectCycles_eq, isRecursive_foldl_markRecursive, isRecursive, get_fresh]
  simp

theorem generated?_detectCycles_fresh (names : NameSupply) (i : Fin defs.length) :
    (fresh defs names).detectCycles.generated? i = none := by
  rw [detectCycles_eq, foldl_markRecursive_eq (·.generated? i) fun t j =>
    generated?_markRecursive t j i, generated?, get_fresh]

theorem isProcessing_detectCycles_fresh (names : NameSupply) (i : Fin defs.length) :
    (fresh defs names).detectCycles.isProcessing i = false := by
  rw [detectCycles_eq, foldl_markRecursive_eq (·.isProcessing i) fun t j =>
    isProcessing_markRecursive t j i, isProcessing, get_fresh]

theorem completed_detectCycles_fresh (names : NameSupply) :
    (fresh defs names).detectCycles.completed = [] := by
  rw [detectCycles_eq, foldl_markRecursive_eq (·.completed) completed_markRecursive]
  rfl

end Table

theorem onCycle_of_mem_cyclic {i : Fin defs.length} (h : i ∈ Table.cyclic defs) :
    OnCycle defs i := (Search.valid_run _).cyclic i h

/-- Where no definition refers to another, none is made recursive. -/
theorem Table.detectCycles_eq_self (h : ∀ i, referenced defs i = []) (t : Table defs) :
    t.detectCycles = t := by
  have none : cyclic defs = [] := by
    refine List.eq_nil_iff_forall_not_mem.2 fun i mem => ?_
    obtain ⟨j, edge, _⟩ := TransGen.head'_iff.1 (onCycle_of_mem_cyclic mem)
    rw [Refers, h i] at edge
    exact List.not_mem_nil edge
  rw [detectCycles_eq, none, List.filter_eq_nil_iff.2 (by simp)]
  rfl

/-- Where the definitions of a root schema have no references, a run starts from the fresh table. -/
theorem Run.start_eq_fresh {root : Schema} {reserved : List String}
    (h : ∀ site ∈ root.definitionSites, site.2.2.references = []) :
    Run.start (root.definitions reserved).1 (root.definitions reserved).2 =
      ⟨.fresh (root.definitions reserved).1 (root.definitions reserved).2, []⟩ := by
  have none : ∀ i, referenced (root.definitions reserved).1 i = [] := by
    intro i
    obtain ⟨site, mem, schema⟩ := exists_definitionSite (List.get_mem _ i)
    unfold referenced
    rw [← schema, h site mem]
    rfl
  unfold Run.start
  rw [Table.detectCycles_eq_self none]

/-- Every definition that lies on a cycle is reached from one that the search has found. -/
theorem rank_lt_of_refers {i j : Fin defs.length} (h : Refers defs i j)
    (hj : j ∉ Table.cyclic defs) :
    Search.rank (referenced defs) j < Search.rank (referenced defs) i := Search.rank_lt_rank h hj

theorem rank_lt_of_transGen {i j : Fin defs.length}
    (h : TransGen (fun i j => Refers defs i j ∧ j ∉ Table.cyclic defs) i j) :
    Search.rank (referenced defs) j < Search.rank (referenced defs) i := by
  induction h with
  | single edge => exact rank_lt_of_refers edge.1 edge.2
  | tail _ edge ih => exact (rank_lt_of_refers edge.1 edge.2).trans ih

end SchemaCompiler
