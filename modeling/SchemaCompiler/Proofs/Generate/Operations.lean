import SchemaCompiler.Proofs.Compile.Whole
import SchemaCompiler.Proofs.Definitions.Operations
import SchemaCompiler.Proofs.Generate.Calls

/-!
# Generating as a sequence of operations

All that a compilation does to the table of definitions is a sequence of the operations of a table,
however definitions are generated inside one another: `reaches_after`. So what every sequence of
operations keeps holds after any calls.
-/

namespace SchemaCompiler

variable {defs : List Definition} {maxDepth : Nat}

/-! ## Reachable tables -/

/-- The table of one run is got from that of another by a sequence of operations. -/
def Run.Reaches (r r' : Run defs) : Prop := ∃ ops, r'.table = r.table.applyAll ops

namespace Run.Reaches

variable {r r' r'' : Run defs}

theorem refl (r : Run defs) : r.Reaches r := ⟨[], rfl⟩

theorem trans (h : r.Reaches r') (h' : r'.Reaches r'') : r.Reaches r'' := by
  obtain ⟨ops, table⟩ := h
  obtain ⟨ops', table'⟩ := h'
  refine ⟨ops ++ ops', ?_⟩
  rw [Table.applyAll_append, ← table, table']

/-- Reports do not touch the table. -/
theorem report (r : Run defs) (ds : List Diagnostic) :
    r.Reaches { r with diagnostics := ds } := ⟨[], rfl⟩

theorem operation (r : Run defs) (op : Table.Operation defs.length) :
    r.Reaches { r with table := op.apply r.table } := ⟨[op], rfl⟩

theorem enter (r : Run defs) (i : Fin defs.length) : r.Reaches (r.enter i) :=
  operation r (.start i)

theorem leave (r : Run defs) (i : Fin defs.length) (v : Validator) : r.Reaches (r.leave i v) :=
  operation r (.finish i v)

theorem ownBindings (h : r.Reaches r') (own : r.table.OwnBindings) : r'.table.OwnBindings := by
  obtain ⟨ops, table⟩ := h
  rw [table]
  exact own.applyAll ops

end Run.Reaches

/-! ## Generating -/

section Generating

variable {r : Run defs} {generate : Fin defs.length → StateM (Run defs) Unit}

theorem run_generateWithin_again (maxDepth fuel : Nat) {i : Fin defs.length}
    (hi : r.table.isProcessing i) :
    (generateWithin maxDepth (fuel + 1) i).run r =
      ((), { r with diagnostics := r.diagnostics ++
        [.reentrantDefinition (defs.get i).pointer (.ofDefinition (defs.get i).pointer)] }) := by
  simp [generateWithin, hi, report]
  rfl

theorem reaches_resolveWith (gen : ∀ i (r : Run defs), r.Reaches ((generate i).run r).2)
    (pointer : String) (site : Site) (r : Run defs) :
    r.Reaches ((resolveWith generate pointer site).run r).2 := by
  cases resolveWith_cases generate pointer site r with
  | dangling found run =>
    rw [run]
    exact .report r _
  | lazy i found processing run =>
    rw [run]
    exact .operation r (.markRecursive i)
  | new i found waiting missing run =>
    rw [run]
    exact gen i r
  | old i found waiting finished run =>
    rw [run]
    exact .refl r

theorem reaches_compileWithin (gen : ∀ i (r : Run defs), r.Reaches ((generate i).run r).2)
    (room : Nat) (schema : Schema) (site : Site) (r : Run defs) :
    r.Reaches ((compileWithin (handlers generate) room schema site).run r).2 := by
  refine compileWithin_keeps (P := fun r' => r.Reaches r') (fun pointer site r' h => ?_)
    (fun name site r' h => ?_) room schema site (.refl r)
  · exact h.trans (reaches_resolveWith gen pointer site r')
  · exact h.trans (.report r' _)

theorem reaches_generateWithin (fuel : Nat) (i : Fin defs.length) (r : Run defs) :
    r.Reaches ((generateWithin maxDepth fuel i).run r).2 := by
  induction fuel generalizing i r with
  | zero => exact .refl r
  | succ fuel ih =>
    by_cases processing : r.table.isProcessing i
    · rw [run_generateWithin_again maxDepth fuel processing]
      exact .report r _
    · rw [run_generateWithin maxDepth fuel (by simpa using processing)]
      have compiled := reaches_compileWithin ih (roomAt maxDepth 0) (defs.get i).schema
        (.ofDefinition (defs.get i).pointer) (r.enter i)
      exact ((Run.Reaches.enter r i).trans compiled).trans (.leave _ i _)

theorem reaches_generateEach (is : List (Fin defs.length)) (r : Run defs) :
    r.Reaches ((generateEach maxDepth is).run r).2 := by
  induction is generalizing r with
  | nil => exact .refl r
  | cons i is ih =>
    cases generated : r.table.generated? i with
    | none =>
      rw [run_generateEach_new is generated]
      exact (reaches_generateWithin _ i r).trans (ih _)
    | some v =>
      rw [run_generateEach_old is (Option.isSome_of_eq_some generated)]
      exact ih r

end Generating

/-! ## Calls -/

theorem reaches_run (call : Call) (r : Run defs) :
    r.Reaches ((call.run maxDepth).run r).2 := by
  cases call with
  | generateAll => exact reaches_generateEach _ r
  | compile schema site =>
    exact reaches_compileWithin (reaches_generateWithin _) _ schema site r
  | resolve pointer site => exact reaches_resolveWith (reaches_generateWithin _) pointer site r

theorem reaches_after (calls : List Call) (r : Run defs) : r.Reaches (r.after maxDepth calls) := by
  induction calls generalizing r with
  | nil => exact .refl r
  | cons call calls ih => exact (reaches_run call r).trans (ih _)

end SchemaCompiler
