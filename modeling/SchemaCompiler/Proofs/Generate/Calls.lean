import SchemaCompiler.Proofs.Generate.Sound

/-!
# Sequences of calls

From outside, a compilation is a sequence of calls in any order: generate all definitions, compile
a schema, compile a reference. Between two calls nothing is being generated, so each call is a step
that starts and ends in a sound state with an empty stack (`step_run`), and so is every sequence of
them (`step_after`).

What that means for the table of definitions is `table_after`: the finished definitions are those in
the list of completed ones, each once; a finished definition does not change any more; and no
definition is ever generated inside itself.
-/

namespace SchemaCompiler

variable {defs : List Definition} {maxDepth : Nat}

/-! ## Calls -/

/-- A call of the compiler from outside. -/
inductive Call where
  | generateAll
  | compile (schema : Schema) (site : Site)
  | resolve (pointer : String) (site : Site)

/-- Make a call. Only the compilation of a schema or a reference has a result. -/
def Call.run (maxDepth : Nat) : Call → StateM (Run defs) (Option Validator)
  | .generateAll => do
    SchemaCompiler.generateAll maxDepth
    return none
  | .compile schema site => some <$> SchemaCompiler.compile maxDepth schema site
  | .resolve pointer site => some <$> SchemaCompiler.resolve maxDepth pointer site

namespace Run

/-- The state after some calls. -/
def after (maxDepth : Nat) (r : Run defs) (calls : List Call) : Run defs :=
  calls.foldl (fun r call => ((call.run maxDepth).run r).2) r

/-- The state before the first call for a root schema. -/
def initial (root : Schema) (reserved : List String) : Run (root.definitions reserved).1 :=
  .start (root.definitions reserved).1 (root.definitions reserved).2

theorem sound_start (names : NameSupply) : (Run.start defs names).Sound maxDepth [] where
  processing i := by simp [Run.start, Table.isProcessing_detectCycles_fresh]
  generated i := by
    simp [Run.start, Table.generated?_detectCycles_fresh, Table.completed_detectCycles_fresh]
  nodup := by simp [Run.start, Table.completed_detectCycles_fresh]
  pending := by simp
  recursive i hi := by
    rw [Run.start, Table.isRecursive_detectCycles_fresh] at hi
    exact onCycle_of_mem_cyclic (by simpa using hi)
  ownBindings := Table.ownBindings_detectCycles_fresh names
  assembled i v hv := by simp [Run.start, Table.generated?_detectCycles_fresh] at hv
  diagnostics := by simp [Run.start]

end Run

/-! ## Calls are steps -/

namespace Run.Step

variable {stack : List (Fin defs.length)} {r r' r'' : Run defs}

theorem refl (h : r.Sound maxDepth stack) : Run.Step maxDepth stack r r := ⟨h, .refl _⟩

theorem trans (h : Run.Step maxDepth stack r r') (h' : Run.Step maxDepth stack r' r'') :
    Run.Step maxDepth stack r r'' := ⟨h'.sound, h.grows.trans h'.grows⟩

theorem mem_completed (h : Run.Step maxDepth stack r r') {i : Fin defs.length}
    (hi : i ∈ r.table.completed) : i ∈ r'.table.completed := h.grows.completed.subset hi

end Run.Step

theorem generates_generate :
    Generates maxDepth ([] : List (Fin defs.length)) (generate maxDepth) :=
  generates_generateWithin _ (by simp)

/-- Outside of all definitions every reference may be followed. -/
theorem follows_nil (pointer : String) : Follows ([] : List (Fin defs.length)) pointer := by
  simp [Follows]

section

variable {r : Run defs}

theorem run_generateEach_old {i : Fin defs.length} (is : List (Fin defs.length))
    (h : (r.table.generated? i).isSome) :
    (generateEach maxDepth (i :: is)).run r = (generateEach maxDepth is).run r := by
  simp [generateEach, Option.isSome_iff_ne_none.1 h]

theorem run_generateEach_new {i : Fin defs.length} (is : List (Fin defs.length))
    (h : r.table.generated? i = none) :
    (generateEach maxDepth (i :: is)).run r =
      (generateEach maxDepth is).run ((generate maxDepth i).run r).2 := by
  simp [generateEach, h]
  rfl

theorem step_generateEach (h : r.Sound maxDepth []) (is : List (Fin defs.length)) :
    Run.Step maxDepth [] r ((generateEach maxDepth is).run r).2 ∧
      ∀ i ∈ is, i ∈ ((generateEach maxDepth is).run r).2.table.completed := by
  induction is generalizing r with
  | nil => exact ⟨.refl h, by simp⟩
  | cons i is ih =>
    obtain ⟨next, run, step, done⟩ : ∃ next,
        (generateEach maxDepth (i :: is)).run r = (generateEach maxDepth is).run next ∧
        Run.Step maxDepth [] r next ∧ i ∈ next.table.completed := by
      by_cases hi : i ∈ r.table.completed
      · exact ⟨r, run_generateEach_old is ((h.generated i).2 hi), .refl h, hi⟩
      · obtain ⟨step, done⟩ := generates_generate i r (.cons .nil (by simp) (by simp)) h hi
        exact ⟨_, run_generateEach_new is (h.generated?_eq_none hi), step, done⟩
    obtain ⟨steps, all⟩ := ih step.sound
    rw [run]
    refine ⟨step.trans steps, List.forall_mem_cons.2 ⟨steps.mem_completed done, all⟩⟩

theorem step_generateAll (h : r.Sound maxDepth []) :
    Run.Step maxDepth [] r ((generateAll maxDepth).run r).2 ∧
      ∀ i, i ∈ ((generateAll maxDepth).run r).2.table.completed :=
  (step_generateEach h _).imp_right fun all i => all i (List.mem_finRange i)

theorem step_compile (h : r.Sound maxDepth []) (schema : Schema) (site : Site) :
    Run.Step maxDepth [] r ((compile maxDepth schema site).run r).2 :=
  (compiles_sound generates_generate .nil (fun pointer _ => follows_nil pointer) _ site h rfl).1

theorem step_resolve (h : r.Sound maxDepth []) (pointer : String) (site : Site) :
    Run.Step maxDepth [] r ((resolve maxDepth pointer site).run r).2 :=
  (resolves_resolveWith generates_generate .nil (follows_nil pointer) h site).1

/-- Every call is a step. -/
theorem step_run (h : r.Sound maxDepth []) (call : Call) :
    Run.Step maxDepth [] r ((call.run maxDepth).run r).2 := by
  cases call with
  | generateAll => exact (step_generateAll h).1
  | compile schema site => exact step_compile h schema site
  | resolve pointer site => exact step_resolve h pointer site

/-- Calls one after the other are a step. -/
theorem step_after (h : r.Sound maxDepth []) (calls : List Call) :
    Run.Step maxDepth [] r (r.after maxDepth calls) := by
  induction calls generalizing r with
  | nil => exact .refl h
  | cons call calls ih =>
    have step := step_run h call
    exact step.trans (ih step.sound)

/-- All definitions are finished once all of them have been generated. -/
theorem mem_completed_after (h : r.Sound maxDepth []) {calls : List Call}
    (all : .generateAll ∈ calls) (i : Fin defs.length) :
    i ∈ (r.after maxDepth calls).table.completed := by
  induction calls generalizing r with
  | nil => simp at all
  | cons call calls ih =>
    have step := step_run h call
    rcases List.mem_cons.1 all with rfl | all
    · exact (step_after step.sound calls).mem_completed ((step_generateAll h).2 i)
    · exact ih step.sound all

end

/-! ## The table of definitions between two calls -/

/-- Whatever calls are made for a root schema, in whatever order: nothing is being generated, the
finished definitions are the completed ones, each once, none of which changes by any calls that are
made later, no definition has been generated inside itself, and all are completed once all have
been generated. -/
theorem table_after (root : Schema) (reserved : List String) (maxDepth : Nat)
    (calls more : List Call) :
    let r := (Run.initial root reserved).after maxDepth calls
    let later := r.after maxDepth more
    (∀ i, r.table.isProcessing i = false) ∧
    (∀ i, r.table.completed.count i = if (r.table.generated? i).isSome then 1 else 0) ∧
    (∀ i, (r.table.generated? i).isSome →
      later.table.binding i = r.table.binding i ∧
      later.table.isRecursive i = r.table.isRecursive i ∧
      later.table.generated? i = r.table.generated? i) ∧
    (∀ d ∈ r.diagnostics, d.kind ≠ .reentrantDefinition) ∧
    (.generateAll ∈ calls → r.table.completed.Perm (List.finRange _)) := by
  intro r later
  have h : r.Sound maxDepth [] := (step_after (Run.sound_start _) calls).sound
  have grows : r.table.Extends later.table := (step_after h more).grows
  refine ⟨fun i => h.isProcessing_eq_false (by simp), fun i => ?_, fun i hi => ?_,
    h.diagnostics, fun all => ?_⟩
  · rw [List.Nodup.count h.nodup]
    simp only [h.generated i]
  · have same := grows.finished i hi
    simp [Table.binding, Table.isRecursive, Table.generated?, same]
  · exact h.perm_completed (mem_completed_after (Run.sound_start _) all)

end SchemaCompiler
