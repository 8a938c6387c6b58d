import SchemaCompiler.Proofs.Definitions.Declarable
import SchemaCompiler.Proofs.Definitions.Supply
import SchemaCompiler.Proofs.Definitions.Table

/-!
# Sequences of operations on a table

Whatever is done to a table of definitions, in whatever order and however often, is a sequence of
`Table.Operation`s. What each of the three basic ones keeps, every sequence keeps
(`Table.applyAll_induction`).

The names of the definitions and the bindings of those that have become recursive are the
identifiers that a table has given out. They are distinct from each other and from the reserved
names, since all of them come from one supply: `Table.Distinct`.
-/

namespace SchemaCompiler

variable {defs : List Definition}

namespace Table

/-! ## Operations -/

/-- A change of a table of `n` definitions. -/
inductive Operation (n : Nat) where
  | detectCycles
  | markRecursive (i : Fin n)
  | start (i : Fin n)
  | finish (i : Fin n) (result : Validator)

/-- Change a table. -/
def Operation.apply : Operation defs.length → Table defs → Table defs
  | .detectCycles, t => t.detectCycles
  | .markRecursive i, t => t.markRecursive i
  | .start i, t => t.start i
  | .finish i result, t => t.finish i result

/-- Change a table several times. -/
def applyAll (t : Table defs) (ops : List (Operation defs.length)) : Table defs :=
  ops.foldl (fun t op => op.apply t) t

theorem applyAll_append (t : Table defs) (ops more : List (Operation defs.length)) :
    t.applyAll (ops ++ more) = (t.applyAll ops).applyAll more := List.foldl_append

section Induction

variable {P : Table defs → Prop} (mark : ∀ t i, P t → P (t.markRecursive i))
  (start : ∀ t i, P t → P (t.start i)) (finish : ∀ t i r, P t → P (t.finish i r))

include mark in
/-- Finding cycles makes some definitions recursive and does nothing else. -/
theorem detectCycles_induction {t : Table defs} (h : P t) : P t.detectCycles := by
  rw [detectCycles_eq]
  generalize (List.finRange defs.length).filter (cyclic defs).contains = is
  induction is generalizing t with
  | nil => exact h
  | cons i is ih => exact ih (mark t i h)

include mark start finish in
/-- What the basic operations keep, every sequence of operations keeps. -/
theorem applyAll_induction (ops : List (Operation defs.length)) {t : Table defs} (h : P t) :
    P (t.applyAll ops) := by
  induction ops generalizing t with
  | nil => exact h
  | cons op ops ih =>
    refine ih ?_
    cases op with
    | detectCycles => exact detectCycles_induction mark h
    | markRecursive i => exact mark t i h
    | start i => exact start t i h
    | finish i r => exact finish t i r h

end Induction

/-! ## Identifiers -/

/-- The identifiers that a table has given out: the names of the definitions and the bindings of
those that are recursive. -/
def identifiers (t : Table defs) : List String :=
  defs.map (·.name) ++ ((List.finRange defs.length).filter t.isRecursive).map t.binding

/-- The identifiers are distinct and have been taken from the supply, in which the reserved names
were taken before. -/
structure Distinct (reserved : List String) (t : Table defs) : Prop where
  names_nodup : (defs.map (·.name)).Nodup
  names_taken : ∀ d ∈ defs, d.name ∈ t.names.taken ∧ d.name ∉ reserved
  reserved_taken : ∀ name ∈ reserved, name ∈ t.names.taken
  own_taken : ∀ i b, (t.progress.get i).ownBinding = some b → b ∈ t.names.taken ∧ b ∉ reserved
  own_ne_name : ∀ i b, (t.progress.get i).ownBinding = some b → ∀ d ∈ defs, d.name ≠ b
  own_inj : ∀ i j b, (t.progress.get i).ownBinding = some b →
    (t.progress.get j).ownBinding = some b → i = j

variable {reserved : List String} {t t' : Table defs} {i j : Fin defs.length}

theorem isRecursive_iff : t.isRecursive i ↔ ∃ b, (t.progress.get i).ownBinding = some b :=
  Option.isSome_iff_exists

theorem binding_of_ownBinding {b : String} (h : (t.progress.get i).ownBinding = some b) :
    t.binding i = b := by
  rw [binding, h]
  rfl

/-- A definition that is not recursive is bound to its name. -/
theorem binding_eq_name (h : t.isRecursive i = false) : t.binding i = (defs.get i).name := by
  have none : (t.progress.get i).ownBinding = none := by
    rw [← Option.not_isSome_iff_eq_none, Bool.not_eq_true]
    exact h
  rw [binding, none]
  rfl

namespace Distinct

theorem of_eq (h : t.Distinct reserved) (names : t'.names = t.names)
    (own : ∀ j, (t'.progress.get j).ownBinding = (t.progress.get j).ownBinding) :
    t'.Distinct reserved where
  names_nodup := h.names_nodup
  names_taken := by
    rw [names]
    exact h.names_taken
  reserved_taken := by
    rw [names]
    exact h.reserved_taken
  own_taken j b hb := by
    rw [names]
    exact h.own_taken j b (own j ▸ hb)
  own_ne_name j b hb := h.own_ne_name j b (own j ▸ hb)
  own_inj j k b hj hk := h.own_inj j k b (own j ▸ hj) (own k ▸ hk)

theorem start (h : t.Distinct reserved) (i : Fin defs.length) : (t.start i).Distinct reserved :=
  h.of_eq rfl fun j =>
    field_modify (·.ownBinding) (fun p => { p with processing := true }) (fun _ => rfl) t i j

theorem finish (h : t.Distinct reserved) (i : Fin defs.length) (r : Validator) :
    (t.finish i r).Distinct reserved :=
  h.of_eq rfl fun j => field_modify (·.ownBinding)
    (fun p => { p with processing := false, generated := some r }) (fun _ => rfl) t i j

end Distinct

/-- The binding that a definition gets when it becomes recursive. -/
def freshBinding (t : Table defs) (i : Fin defs.length) : String :=
  t.names.free ((defs.get i).name ++ "Schema")

theorem names_markRecursive (hi : t.isRecursive i = false) :
    (t.markRecursive i).names.taken = t.freshBinding i :: t.names.taken := by
  unfold markRecursive
  rw [hi]
  rfl

theorem ownBinding_markRecursive (hi : t.isRecursive i = false) (j : Fin defs.length) :
    ((t.markRecursive i).progress.get j).ownBinding =
      if i = j then some (t.freshBinding i) else (t.progress.get j).ownBinding := by
  rw [get_markRecursive]
  by_cases e : i = j
  · rw [if_pos ⟨e, hi⟩, if_pos e]
    rfl
  · rw [if_neg fun h => e h.1, if_neg e]

theorem markRecursive_of_isRecursive (hi : t.isRecursive i) : t.markRecursive i = t := by
  unfold markRecursive
  rw [if_pos hi]

/-- A binding that is made for a definition has not been given out before. -/
theorem Distinct.markRecursive (h : t.Distinct reserved) (i : Fin defs.length) :
    (t.markRecursive i).Distinct reserved := by
  by_cases hi : t.isRecursive i
  · rwa [markRecursive_of_isRecursive hi]
  have hi : t.isRecursive i = false := by simpa using hi
  have taken := names_markRecursive hi
  have own := ownBinding_markRecursive hi
  have fresh : t.freshBinding i ∉ t.names.taken := t.names.free_not_mem_taken _
  -- Nothing that was given out before is the new binding.
  have old : ∀ k b, (t.progress.get k).ownBinding = some b → b ≠ t.freshBinding i := by
    intro k b hb e
    exact fresh (e ▸ (h.own_taken k b hb).1)
  refine ⟨h.names_nodup, fun d hd => ?_, fun name hn => ?_, fun k b hb => ?_, fun k b hb d hd => ?_,
    fun k l b hk hl => ?_⟩
  · obtain ⟨mem, unreserved⟩ := h.names_taken d hd
    rw [taken]
    exact ⟨List.mem_cons_of_mem _ mem, unreserved⟩
  · rw [taken]
    exact List.mem_cons_of_mem _ (h.reserved_taken name hn)
  · rw [taken]
    rw [own] at hb
    split at hb
    next =>
      obtain rfl := Option.some.inj hb
      exact ⟨List.mem_cons_self .., fun mem => fresh (h.reserved_taken _ mem)⟩
    next =>
      obtain ⟨mem, unreserved⟩ := h.own_taken k b hb
      exact ⟨List.mem_cons_of_mem _ mem, unreserved⟩
  · rw [own] at hb
    split at hb
    next =>
      obtain rfl := Option.some.inj hb
      exact fun e => fresh (e ▸ (h.names_taken d hd).1)
    next => exact h.own_ne_name k b hb d hd
  · rw [own] at hk hl
    split at hk
    next ek =>
      split at hl
      next el => exact ek.symm.trans el
      next =>
        obtain rfl := Option.some.inj hk
        exact absurd rfl (old l _ hl)
    next =>
      split at hl
      next =>
        obtain rfl := Option.some.inj hl
        exact absurd rfl (old k _ hk)
      next => exact h.own_inj k l b hk hl

theorem Distinct.applyAll (h : t.Distinct reserved) (ops : List (Operation defs.length)) :
    (t.applyAll ops).Distinct reserved :=
  applyAll_induction (P := fun t => t.Distinct reserved) (fun _ i h => h.markRecursive i)
    (fun _ i h => h.start i) (fun _ i r h => h.finish i r) ops h

theorem OwnBindings.applyAll (h : t.OwnBindings) (ops : List (Operation defs.length)) :
    (t.applyAll ops).OwnBindings :=
  applyAll_induction (P := fun t => t.OwnBindings) (fun _ i h => h.markRecursive i)
    (fun _ i h => h.start i) (fun _ i r h => h.finish i r) ops h

/-! ## Identifiers of a table in which they are distinct -/

theorem mem_identifiers {name : String} :
    name ∈ t.identifiers ↔
      (∃ d ∈ defs, d.name = name) ∨ ∃ i, (t.progress.get i).ownBinding = some name := by
  unfold identifiers
  rw [List.mem_append, List.mem_map, List.mem_map]
  refine or_congr Iff.rfl ⟨?_, ?_⟩
  · rintro ⟨i, hi, rfl⟩
    obtain ⟨b, hb⟩ := isRecursive_iff.1 (List.mem_filter.1 hi).2
    refine ⟨i, ?_⟩
    rw [binding_of_ownBinding hb, hb]
  · rintro ⟨i, hb⟩
    have hi : t.isRecursive i := isRecursive_iff.2 ⟨name, hb⟩
    exact ⟨i, List.mem_filter.2 ⟨List.mem_finRange i, hi⟩, binding_of_ownBinding hb⟩

theorem Distinct.nodup_identifiers (h : t.Distinct reserved) : t.identifiers.Nodup := by
  unfold identifiers
  refine List.nodup_append.2 ⟨h.names_nodup, ?_, fun name hn b hb => ?_⟩
  · refine List.Nodup.map_on (fun i hi j hj e => ?_) ((List.nodup_finRange _).filter _)
    obtain ⟨b, hb⟩ := isRecursive_iff.1 (List.mem_filter.1 hi).2
    obtain ⟨c, hc⟩ := isRecursive_iff.1 (List.mem_filter.1 hj).2
    rw [binding_of_ownBinding hb, binding_of_ownBinding hc] at e
    exact h.own_inj i j b hb (e ▸ hc)
  · obtain ⟨d, hd, rfl⟩ := List.mem_map.1 hn
    obtain ⟨i, hi, rfl⟩ := List.mem_map.1 hb
    obtain ⟨c, hc⟩ := isRecursive_iff.1 (List.mem_filter.1 hi).2
    rw [binding_of_ownBinding hc]
    exact h.own_ne_name i c hc d hd

theorem Distinct.not_mem_reserved (h : t.Distinct reserved) {name : String}
    (mem : name ∈ t.identifiers) : name ∉ reserved := by
  rcases mem_identifiers.1 mem with ⟨d, hd, rfl⟩ | ⟨i, hb⟩
  · exact (h.names_taken d hd).2
  · exact (h.own_taken i name hb).2

end Table

/-! ## The definitions of a root schema -/

theorem length_definitionSites_names (root : Schema) (reserved : List String) :
    root.definitionSites.length = (NameSupply.allocateAll ⟨reserved⟩
      (root.definitionSites.map fun (_, key, _) => sanitize key)).1.length := by
  rw [NameSupply.length_allocateAll, List.length_map]

theorem names_definitions (root : Schema) (reserved : List String) :
    (root.definitions reserved).1.map (·.name) = (NameSupply.allocateAll ⟨reserved⟩
      (root.definitionSites.map fun (_, key, _) => sanitize key)).1 := by
  have length := length_definitionSites_names root reserved
  simp only [Schema.definitions, List.map_zipWith]
  generalize (NameSupply.allocateAll ⟨reserved⟩
    (root.definitionSites.map fun (_, key, _) => sanitize key)).1 = names at length
  refine List.ext_getElem (by simp [length]) fun k _ _ => ?_
  simp

/-- Definitions are given distinct names that are not reserved. -/
theorem distinct_fresh (root : Schema) (reserved : List String) :
    (Table.fresh (root.definitions reserved).1 (root.definitions reserved).2).Distinct
      reserved where
  names_nodup := by
    rw [names_definitions]
    exact NameSupply.nodup_allocateAll _ _
  names_taken d hd := by
    have given : d.name ∈ (root.definitions reserved).1.map (·.name) := List.mem_map_of_mem hd
    rw [names_definitions] at given
    refine ⟨(NameSupply.mem_taken_allocateAll _ _).2 (.inl given), ?_⟩
    exact NameSupply.not_mem_taken_of_mem_allocateAll _ given
  reserved_taken name hn := (NameSupply.mem_taken_allocateAll _ _).2 (.inr hn)
  own_taken i b hb := by simp [Table.get_fresh] at hb
  own_ne_name i b hb := by simp [Table.get_fresh] at hb
  own_inj i j b hi := by simp [Table.get_fresh] at hi

theorem declarable_name {root : Schema} {reserved : List String} {d : Definition}
    (h : d ∈ (root.definitions reserved).1) : Declarable d.name := by
  have given : d.name ∈ (root.definitions reserved).1.map (·.name) := List.mem_map_of_mem h
  rw [names_definitions] at given
  refine declarable_allocateAll _ (fun b hb => ?_) _ given
  obtain ⟨site, _, rfl⟩ := List.mem_map.1 hb
  exact declarable_sanitize _

theorem Table.OwnBindings.declarable {root : Schema} {reserved : List String}
    {t : Table (root.definitions reserved).1} (h : t.OwnBindings) {name : String}
    (mem : name ∈ t.identifiers) : Declarable name := by
  rcases Table.mem_identifiers.1 mem with ⟨d, hd, rfl⟩ | ⟨i, hb⟩
  · exact declarable_name hd
  · obtain ⟨n, rfl⟩ := h i name hb
    exact (declarable_name (List.get_mem _ i)).appendSchema.candidate n

end SchemaCompiler
