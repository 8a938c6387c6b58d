import SchemaCompiler.Proofs.Compile.Whole
import SchemaCompiler.Proofs.Definitions.Flagged
import SchemaCompiler.Proofs.Definitions.Table

/-!
# Which definitions are found to be recursive

A definition that is recursive from the start lies on a cycle of references, and every cycle has a
recursive definition on it, but not all that lie on cycles are recursive: a definition is if it lies
on a cycle of definitions none of which the search had left when it entered this one
(`isRecursive_iff_onOpenCycle`). Where two cycles cross, the order in which references are written
decides; in `crossedCycles` one definition on a cycle is missed.
-/

namespace SchemaCompiler

open Relation

variable {defs : List Definition} {i j : Fin defs.length}

/-! ## Cycles without recursive definitions -/

/-- What leads from a definition back to it passes through one that is put on a cycle. -/
theorem exists_mem_cyclic_of_onCycle (cycle : OnCycle defs i) :
    ∃ j ∈ Table.cyclic defs, TransGen (Refers defs) i j ∧ TransGen (Refers defs) j i := by
  by_contra none
  push Not at none
  have avoiding : ∀ k, TransGen (Refers defs) i k → ReflTransGen (Refers defs) k i →
      TransGen (fun i j => Refers defs i j ∧ j ∉ Table.cyclic defs) i k := by
    intro k hk
    have outside : ∀ m, TransGen (Refers defs) i m → ReflTransGen (Refers defs) m i →
        m ∉ Table.cyclic defs := by
      intro m hm back mem
      exact none m mem hm (.trans_right back cycle)
    induction hk with
    | single edge => exact fun back => .single ⟨edge, outside _ (.single edge) back⟩
    | tail hm edge ih =>
      intro back
      exact .tail (ih (.head edge back)) ⟨edge, outside _ (hm.tail edge) back⟩
  exact lt_irrefl _ (rank_lt_of_transGen (avoiding i cycle .refl))

/-! ## Tables of root schemas -/

/-- The definitions of a root schema that are recursive from the start are those on cycles of
definitions none of which the search had left when it entered the one in question. So all of them
lie on cycles, and every cycle has one of them on it. -/
theorem isRecursive_iff_onOpenCycle (root : Schema) (reserved : List String) :
    let defs := (root.definitions reserved).1
    let t := (Table.fresh defs (root.definitions reserved).2).detectCycles
    let log := Search.log (referenced defs)
    log.search = Search.run (referenced defs) ∧
    (∀ i, t.isRecursive i ↔ Search.OnOpenCycle (referenced defs) log.events i) ∧
    (∀ i, t.isRecursive i → OnCycle defs i) ∧
    (∀ i, OnCycle defs i →
      ∃ j, t.isRecursive j ∧ TransGen (Refers defs) i j ∧ TransGen (Refers defs) j i) := by
  intro defs t log
  have marked : ∀ i, t.isRecursive i ↔ i ∈ Table.cyclic defs := by
    intro i
    rw [Table.isRecursive_detectCycles_fresh, List.contains_iff_mem]
  refine ⟨Search.search_log _, fun i => ?_, fun i hi => ?_, fun i cycle => ?_⟩
  · rw [marked]
    exact Search.mem_cyclic_run_iff
  · exact onCycle_of_mem_cyclic ((marked i).1 hi)
  · obtain ⟨j, mem, there, back⟩ := exists_mem_cyclic_of_onCycle cycle
    exact ⟨j, (marked j).2 mem, there, back⟩

/-! ## A definition that is missed -/

/-- A schema that is a reference to a definition. -/
def toDefinition (key : String) : Schema :=
  .object { reference := some (pointerText ["definitions", key]) }

/-- Two cycles that share the way from `B` to `A`: `A → B → A` and `A → C → B → A`. -/
def crossedCycles : Schema :=
  .object { definitions := some [
    ("A", .object { allOf := some [toDefinition "B", toDefinition "C"] }),
    ("B", toDefinition "A"),
    ("C", toDefinition "B")] }

theorem references_toDefinition (key : String) :
    (toDefinition key).references = [pointerText ["definitions", key]] :=
  Schema.references_of_shape rfl

theorem references_allOf (members : List Schema) :
    (Schema.object { allOf := some members }).references = members.flatMap Schema.references := by
  have visits : (Schema.object { allOf := some members }).visits =
      memberVisits "allOf" 0 members := rfl
  rw [Schema.references_eq, visits, flatMap_references_memberVisits]

namespace crossedCycles

theorem length_definitions : (crossedCycles.definitions []).1.length = 3 := by decide +kernel

/-- The definitions `A`, `B` and `C`. -/
def position (k : Fin 3) : Fin (crossedCycles.definitions []).1.length :=
  k.cast length_definitions.symm

theorem referenced_A : referenced (crossedCycles.definitions []).1 (position 0) =
    [position 1, position 2] := by
  have schema : ((crossedCycles.definitions []).1.get (position 0)).schema =
      .object { allOf := some [toDefinition "B", toDefinition "C"] } := rfl
  unfold referenced
  rw [schema, references_allOf]
  simp only [List.flatMap_cons, List.flatMap_nil, references_toDefinition]
  decide +kernel

theorem referenced_B : referenced (crossedCycles.definitions []).1 (position 1) = [position 0] := by
  have schema : ((crossedCycles.definitions []).1.get (position 1)).schema =
      toDefinition "A" := rfl
  unfold referenced
  rw [schema, references_toDefinition]
  decide +kernel

theorem referenced_C : referenced (crossedCycles.definitions []).1 (position 2) = [position 1] := by
  have schema : ((crossedCycles.definitions []).1.get (position 2)).schema =
      toDefinition "B" := rfl
  unfold referenced
  rw [schema, references_toDefinition]
  decide +kernel

/-- The graph of references. -/
def edges (i : Fin (crossedCycles.definitions []).1.length) :
    List (Fin (crossedCycles.definitions []).1.length) :=
  if i = position 0 then [position 1, position 2]
  else if i = position 1 then [position 0]
  else [position 1]

theorem cases_position : ∀ i, i = position 0 ∨ i = position 1 ∨ i = position 2 := by
  decide +kernel

theorem referenced_eq : referenced (crossedCycles.definitions []).1 = edges := by
  funext i
  rcases cases_position i with rfl | rfl | rfl
  · exact referenced_A
  · exact referenced_B
  · exact referenced_C

/-- `C` lies on a cycle, but is entered when `B`, through which it leads back, has been left. -/
theorem cycle_member_missed :
    let defs := (crossedCycles.definitions []).1
    let t := (Table.fresh defs (crossedCycles.definitions []).2).detectCycles
    ∃ i, (defs.get i).name = "C" ∧ OnCycle defs i ∧ t.isRecursive i = false := by
  intro defs t
  refine ⟨position 2, by decide +kernel, ?_, ?_⟩
  · have toB : Refers defs (position 2) (position 1) := by
      rw [Refers, referenced_C]
      exact List.mem_cons_self ..
    have toA : Refers defs (position 1) (position 0) := by
      rw [Refers, referenced_B]
      exact List.mem_cons_self ..
    have toC : Refers defs (position 0) (position 2) := by
      rw [Refers, referenced_A]
      exact List.mem_cons_of_mem _ (List.mem_cons_self ..)
    exact .tail (.tail (.single toB) toA) toC
  · rw [Table.isRecursive_detectCycles_fresh, Table.cyclic, referenced_eq]
    decide +kernel

end crossedCycles

end SchemaCompiler
