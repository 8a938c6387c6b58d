import SchemaCompiler.Proofs.Generate.Again

/-!
# Compiling twice

Any calls keep what a compilation has reached in the table of definitions (`keeps_after`), so that
the same compilation gives the same validator after them and has nothing left to do. Once all
definitions are finished every reference can be answered from the table, and no call changes the
table any more (`table_run_of_finished`).
-/

namespace SchemaCompiler

variable {defs : List Definition} {maxDepth : Nat} {r : Run defs}

/-! ## Calls in between -/

theorem keeps_generate (maxDepth : Nat) (i : Fin defs.length) (r : Run defs)
    (missing : r.table.generated? i = none) :
    r.table.Keeps ((generate maxDepth i).run r).2.table := by
  by_cases processing : r.table.isProcessing i
  · obtain ⟨fuel, length⟩ : ∃ fuel, defs.length = fuel + 1 :=
      Nat.exists_eq_add_one_of_ne_zero (Fin.pos i).ne'
    unfold generate
    rw [length, run_generateWithin_again maxDepth fuel processing]
    exact .refl _
  · exact keeps_generateWithin _ i r (by simpa using processing) missing

theorem keeps_generateEach (maxDepth : Nat) (is : List (Fin defs.length)) (r : Run defs) :
    r.table.Keeps ((generateEach maxDepth is).run r).2.table := by
  induction is generalizing r with
  | nil => exact .refl _
  | cons i is ih =>
    cases generated : r.table.generated? i with
    | none =>
      rw [run_generateEach_new is generated]
      exact (keeps_generate maxDepth i r generated).trans (ih _)
    | some v =>
      rw [run_generateEach_old is (Option.isSome_of_eq_some generated)]
      exact ih r

theorem keeps_run (maxDepth : Nat) (call : Call) (r : Run defs) :
    r.table.Keeps ((call.run maxDepth).run r).2.table := by
  cases call with
  | generateAll => exact keeps_generateEach maxDepth _ r
  | compile schema site => exact keeps_compile maxDepth schema site r
  | resolve pointer site => exact keeps_resolveWith (keeps_generateWithin _) pointer site r

theorem keeps_after (maxDepth : Nat) (calls : List Call) (r : Run defs) :
    r.table.Keeps (r.after maxDepth calls).table := by
  induction calls generalizing r with
  | nil => exact .refl _
  | cons call calls ih => exact (keeps_run maxDepth call r).trans (ih _)

/-! ## Finished tables -/

/-- All definitions are finished, and none is being generated. -/
structure Table.Finished (t : Table defs) : Prop where
  idle : ∀ i, t.isProcessing i = false
  generated : ∀ i, (t.generated? i).isSome

theorem Table.Finished.ready {t : Table defs} (h : t.Finished) (pointer : String) :
    t.Ready pointer := by
  intro i _
  rw [if_neg (by simp [h.idle i])]
  exact h.generated i

theorem finished_after (h : r.Sound maxDepth []) {calls : List Call}
    (all : .generateAll ∈ calls) : (r.after maxDepth calls).table.Finished where
  idle i := (step_after h calls).sound.isProcessing_eq_false (by simp)
  generated i := ((step_after h calls).sound.generated i).2 (mem_completed_after h all i)

theorem table_resolve_of_finished (h : r.table.Finished) (pointer : String) (site : Site) :
    ((resolve maxDepth pointer site).run r).2.table = r.table :=
  (resolveWith_of_ready (generate maxDepth) site (h.ready pointer)).2

theorem table_compile_of_finished (h : r.table.Finished) (schema : Schema) (site : Site) :
    ((compile maxDepth schema site).run r).2.table = r.table := by
  refine compileWithin_keeps (P := fun r' : Run defs => r'.table = r.table)
    (fun pointer site r' same => ?_) (fun name site r' same => ?_) _ schema site rfl
  · have finished : r'.table.Finished := same ▸ h
    exact (table_resolve_of_finished finished pointer site).trans same
  · exact same

theorem table_generateEach_of_finished (h : r.table.Finished) (is : List (Fin defs.length)) :
    ((generateEach maxDepth is).run r).2.table = r.table := by
  induction is with
  | nil => rfl
  | cons i is ih => rw [run_generateEach_old is (h.generated i), ih]

theorem table_run_of_finished (h : r.table.Finished) (call : Call) :
    ((call.run maxDepth).run r).2.table = r.table := by
  cases call with
  | generateAll => exact table_generateEach_of_finished h _
  | compile schema site => exact table_compile_of_finished h schema site
  | resolve pointer site => exact table_resolve_of_finished h pointer site

/-! ## Compiling twice -/

/-- In whatever state a schema is compiled, compiling it again, right after that or after any calls
in between, gives the same validator and leaves the table of definitions as it is. Once all
definitions have been generated, no call changes the table at all. -/
theorem compile_twice (root : Schema) (reserved : List String) (maxDepth : Nat) :
    (∀ (r : Run (root.definitions reserved).1) (schema : Schema) (site : Site)
        (between : List Call),
      let first := (compile maxDepth schema site).run r
      let later := first.2.after maxDepth between
      let second := (compile maxDepth schema site).run later
      second.1 = first.1 ∧ second.2.table = later.table) ∧
    ∀ (before more : List Call) (call : Call),
      let r := (Run.initial root reserved).after maxDepth (before ++ .generateAll :: more)
      ((call.run maxDepth).run r).2.table = r.table := by
  refine ⟨fun r schema site between => ?_, fun before more call => ?_⟩
  · exact compile_again schema (keeps_after maxDepth between _) rfl
  · refine table_run_of_finished (finished_after (Run.sound_start _) ?_) call
    exact List.mem_append_right _ List.mem_cons_self

end SchemaCompiler
