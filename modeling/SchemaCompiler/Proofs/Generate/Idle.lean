import SchemaCompiler.Proofs.Generate.Operations
import SchemaCompiler.Proofs.Generate.Record

/-!
# Idle definitions

A definition is idle until its generation begins, and never again. References generate idle
definitions only, so whenever one definition is generated inside another, there is one idle
definition less (`idleCount_enter_lt`).

It follows that fuel for all idle definitions is as good as any more of it
(`generateWithin_fuel_eq`): the fuel of a compilation, which is one for each definition, never runs
out.
-/

namespace SchemaCompiler

variable {defs : List Definition} {maxDepth : Nat}

/-! ## Idle definitions -/

namespace Table

variable {t t' : Table defs} {i j : Fin defs.length}

/-- A definition is neither being generated nor finished. -/
def isIdle (t : Table defs) (i : Fin defs.length) : Bool :=
  !t.isProcessing i && (t.generated? i).isNone

def idleCount (t : Table defs) : Nat := (Finset.univ.filter fun i => t.isIdle i).card

theorem isIdle_iff : t.isIdle i ↔ t.isProcessing i = false ∧ t.generated? i = none := by
  simp [isIdle]

theorem isIdle_markRecursive (t : Table defs) (i j : Fin defs.length) :
    (t.markRecursive i).isIdle j = t.isIdle j := by
  unfold isIdle
  rw [isProcessing_markRecursive, generated?_markRecursive]

theorem isIdle_start (t : Table defs) (i j : Fin defs.length) :
    (t.start i).isIdle j = (decide (i ≠ j) && t.isIdle j) := by
  unfold isIdle
  rw [isProcessing_start, generated?_start]
  by_cases e : i = j
  · simp [e]
  · simp [e]

theorem isIdle_finish (t : Table defs) (i j : Fin defs.length) (r : Validator) :
    (t.finish i r).isIdle j = (decide (i ≠ j) && t.isIdle j) := by
  unfold isIdle
  rw [isProcessing_finish, generated?_finish]
  by_cases e : i = j
  · simp [e]
  · simp [e]

/-- No operation makes a definition idle. -/
theorem isIdle_of_applyAll (ops : List (Operation defs.length)) (h : (t.applyAll ops).isIdle j) :
    t.isIdle j := by
  have all : ∀ j, (t.applyAll ops).isIdle j → t.isIdle j := by
    refine applyAll_induction (P := fun t' => ∀ j, t'.isIdle j → t.isIdle j) ?_ ?_ ?_ ops
      fun _ hj => hj
    · intro t' i before j hj
      rw [isIdle_markRecursive] at hj
      exact before j hj
    · intro t' i before j hj
      rw [isIdle_start, Bool.and_eq_true] at hj
      exact before j hj.2
    · intro t' i r before j hj
      rw [isIdle_finish, Bool.and_eq_true] at hj
      exact before j hj.2
  exact all j h

theorem idleCount_le (h : ∀ i, t'.isIdle i → t.isIdle i) : t'.idleCount ≤ t.idleCount :=
  Finset.card_le_card fun i hi => by
    rw [Finset.mem_filter] at hi ⊢
    exact ⟨hi.1, h i hi.2⟩

theorem idleCount_lt (h : ∀ i, t'.isIdle i → t.isIdle i) (hi : t.isIdle i)
    (gone : t'.isIdle i = false) : t'.idleCount < t.idleCount := by
  refine Finset.card_lt_card ((Finset.ssubset_iff_of_subset fun j hj => ?_).2 ⟨i, ?_, ?_⟩)
  · rw [Finset.mem_filter] at hj ⊢
    exact ⟨hj.1, h j hj.2⟩
  · rw [Finset.mem_filter]
    exact ⟨Finset.mem_univ i, hi⟩
  · rw [Finset.mem_filter, gone]
    simp

theorem idleCount_pos (hi : t.isIdle i) : 0 < t.idleCount :=
  Finset.card_pos.2 ⟨i, Finset.mem_filter.2 ⟨Finset.mem_univ i, hi⟩⟩

/-- There are fewer idle definitions than definitions if one of these is not idle. -/
theorem idleCount_lt_length (hi : t.isIdle i = false) : t.idleCount < defs.length := by
  have outside : i ∉ Finset.univ.filter fun i => t.isIdle i := by
    rw [Finset.mem_filter, hi]
    simp
  have := Finset.card_lt_univ_of_notMem outside
  rwa [Fintype.card_fin] at this

end Table

namespace Run

variable {r r' : Run defs} {i : Fin defs.length}

def idleCount (r : Run defs) : Nat := r.table.idleCount

theorem Reaches.idleCount_le (h : r.Reaches r') : r'.idleCount ≤ r.idleCount := by
  obtain ⟨ops, table⟩ := h
  unfold Run.idleCount
  rw [table]
  exact Table.idleCount_le fun i hi => Table.isIdle_of_applyAll ops hi

theorem isIdle_enter (r : Run defs) (i : Fin defs.length) : (r.enter i).table.isIdle i = false := by
  rw [enter, Table.isIdle_start]
  simp

theorem idleCount_enter_lt (hi : r.table.isIdle i) : (r.enter i).idleCount < r.idleCount := by
  refine Table.idleCount_lt (fun j hj => ?_) hi (r.isIdle_enter i)
  rw [enter, Table.isIdle_start, Bool.and_eq_true] at hj
  exact hj.2

/-- What is missing for a reference is idle. -/
theorem missing_eq_some_iff {pointer : String} :
    r.missing pointer = some i ↔ lookup? defs pointer = some i ∧ r.table.isIdle i := by
  unfold missing
  rw [Option.filter_eq_some_iff]
  rfl

end Run

/-! ## Fuel -/

section Fuel

variable {r : Run defs} {g g' : Fin defs.length → StateM (Run defs) Unit}

/-- A reference looks at the generation of the definition that is missing for it only. -/
theorem resolveWith_congr {pointer : String} (site : Site)
    (same : ∀ i, r.missing pointer = some i → (g i).run r = (g' i).run r) :
    (resolveWith g pointer site).run r = (resolveWith g' pointer site).run r := by
  cases found : lookup? defs pointer with
  | none => rw [run_resolveWith_none site found, run_resolveWith_none site found]
  | some i =>
    by_cases processing : r.table.isProcessing i
    · rw [run_resolveWith_lazy site found processing, run_resolveWith_lazy site found processing]
    · have idle : r.table.isProcessing i = false := by simpa using processing
      cases generated : r.table.generated? i with
      | none =>
        have missing : r.missing pointer = some i :=
          Run.missing_eq_some_iff.2 ⟨found, Table.isIdle_iff.2 ⟨idle, generated⟩⟩
        rw [run_resolveWith_new site found idle generated,
          run_resolveWith_new site found idle generated, same i missing]
      | some v =>
        have there : (r.table.generated? i).isSome := Option.isSome_of_eq_some generated
        rw [run_resolveWith_old site found idle there, run_resolveWith_old site found idle there]

/-- Compilations do the same if they generate idle definitions in the same way, as long as there
are no more idle definitions than at the start. -/
theorem compileWithin_handlers_congr (bound : Nat)
    (same : ∀ i (r : Run defs), r.idleCount ≤ bound → r.table.isIdle i →
      (g i).run r = (g' i).run r)
    (gen : ∀ i (r : Run defs), r.Reaches ((g i).run r).2) (room : Nat) (schema : Schema)
    (site : Site) (enough : r.idleCount ≤ bound) :
    (compileWithin (handlers g) room schema site).run r =
      (compileWithin (handlers g') room schema site).run r := by
  refine compileWithin_congr (P := fun r : Run defs => r.idleCount ≤ bound) ?_ ?_ ?_ ?_ room schema
    site enough
  · intro pointer site r enough
    refine resolveWith_congr site fun i missing => ?_
    exact same i r enough (Run.missing_eq_some_iff.1 missing).2
  · intro name site r _
    rfl
  · intro pointer site r enough
    exact (reaches_resolveWith gen pointer site r).idleCount_le.trans enough
  · intro name site r enough
    exact (Run.Reaches.report r _).idleCount_le.trans enough

/-- It does not matter how much fuel there is for the generation of an idle definition, if there is
enough for all of them. -/
theorem generateWithin_fuel_eq {m n : Nat} {i : Fin defs.length} (hi : r.table.isIdle i)
    (hm : r.idleCount ≤ m) (hn : r.idleCount ≤ n) :
    (generateWithin maxDepth m i).run r = (generateWithin maxDepth n i).run r := by
  induction m generalizing n i r with
  | zero =>
    have : 0 < r.idleCount := Table.idleCount_pos hi
    omega
  | succ m ih =>
    have positive : 0 < r.idleCount := Table.idleCount_pos hi
    obtain ⟨n, rfl⟩ : ∃ k, n = k + 1 := ⟨n - 1, by omega⟩
    have fewer := Run.idleCount_enter_lt hi
    have idle := (Table.isIdle_iff.1 hi).1
    have inside : (compileDefinition maxDepth m i).run (r.enter i) =
        (compileDefinition maxDepth n i).run (r.enter i) := by
      refine compileWithin_handlers_congr (r.enter i).idleCount ?_
        (reaches_generateWithin m) _ _ _ (Nat.le_refl _)
      intro j r' fewer' hj
      exact ih hj (by omega) (by omega)
    refine Prod.ext (Subsingleton.elim _ _) ?_
    rw [run_generateWithin maxDepth m idle, run_generateWithin maxDepth n idle, inside]

end Fuel

end SchemaCompiler
