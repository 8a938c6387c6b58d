import SchemaCompiler.Proofs.Compile.Assemble
import SchemaCompiler.Proofs.Compile.Comparison
import SchemaCompiler.Proofs.Definitions.Table

/-!
# Generating definitions inside one another

While definitions are generated on demand, those that have been started and not finished form a
trail of references, and everything else is as between two calls: `Run.Sound` says so of the state
in the middle of a compilation. Compiling a schema keeps it (`compiles_sound`), and so does
generating a definition, which is finished then and leaves the trail as it was
(`generates_generateWithin`).

In the end a table knows all by itself what the code of its definitions is: that of their schemas,
with a lazy reference to every definition that was not finished before (`Table.assembled`).
-/

namespace SchemaCompiler

open Relation

variable {defs : List Definition} {maxDepth : Nat}

/-! ## The code that a table stands for -/

namespace Table

/-- One definition was finished before another. -/
def finishedBefore (t : Table defs) (i j : Fin defs.length) : Bool :=
  decide (t.completed.idxOf i < t.completed.idxOf j)

/-- What a reference compiles to where the definitions in `later` are not finished yet, in the
words of a table that is reached after that. -/
def reference (t : Table defs) (later : Fin defs.length → Bool) (pointer : String) : Validator :=
  match lookup? defs pointer with
  | none => .any
  | some i => if t.isRecursive i && later i then t.lazyReferenceTo i else t.referenceTo i

/-- The validator of a definition, made from its schema in the words of a table. -/
def assembled (t : Table defs) (maxDepth : Nat) (i : Fin defs.length) : Validator :=
  assembleWithin (t.reference fun j => !t.finishedBefore j i) (roomAt maxDepth 0)
    (defs.get i).schema

end Table

/-! ## Steps of a run -/

section Run

variable {r : Run defs} {i : Fin defs.length} {pointer : String}
  {generate : Fin defs.length → StateM (Run defs) Unit}

theorem run_resolveWith_none (site : Site) (h : lookup? defs pointer = none) :
    (resolveWith generate pointer site).run r =
      (.any, { r with diagnostics := r.diagnostics ++ [.danglingReference pointer site] }) := by
  simp only [resolveWith, h]
  rfl

theorem run_resolveWith_lazy (site : Site) (h : lookup? defs pointer = some i)
    (hi : r.table.isProcessing i) :
    (resolveWith generate pointer site).run r =
      ((r.table.markRecursive i).lazyReferenceTo i,
        { r with table := r.table.markRecursive i }) := by
  simp [resolveWith, h, hi, updateTable]
  rfl

theorem run_resolveWith_old (site : Site) (h : lookup? defs pointer = some i)
    (hi : r.table.isProcessing i = false) (hg : (r.table.generated? i).isSome) :
    (resolveWith generate pointer site).run r = (r.table.referenceTo i, r) := by
  obtain ⟨v, hv⟩ := Option.isSome_iff_exists.1 hg
  simp [resolveWith, h, hi, hv]
  rfl

theorem run_resolveWith_new (site : Site) (h : lookup? defs pointer = some i)
    (hi : r.table.isProcessing i = false) (hg : r.table.generated? i = none) :
    (resolveWith generate pointer site).run r =
      (((generate i).run r).2.table.referenceTo i, ((generate i).run r).2) := by
  simp [resolveWith, h, hi, hg]
  rfl

/-- The ways in which a reference is compiled: it names no definition, or one that is being
generated, or one that is idle, or one that is finished. -/
inductive ResolveCase (generate : Fin defs.length → StateM (Run defs) Unit) (pointer : String)
    (site : Site) (r : Run defs) : Prop where
  | dangling (found : lookup? defs pointer = none)
    (run : (resolveWith generate pointer site).run r =
      (.any, { r with diagnostics := r.diagnostics ++ [.danglingReference pointer site] }))
  | lazy (i : Fin defs.length) (found : lookup? defs pointer = some i)
    (processing : r.table.isProcessing i)
    (run : (resolveWith generate pointer site).run r =
      ((r.table.markRecursive i).lazyReferenceTo i, { r with table := r.table.markRecursive i }))
  | new (i : Fin defs.length) (found : lookup? defs pointer = some i)
    (waiting : r.table.isProcessing i = false) (missing : r.table.generated? i = none)
    (run : (resolveWith generate pointer site).run r =
      (((generate i).run r).2.table.referenceTo i, ((generate i).run r).2))
  | old (i : Fin defs.length) (found : lookup? defs pointer = some i)
    (waiting : r.table.isProcessing i = false) (finished : (r.table.generated? i).isSome)
    (run : (resolveWith generate pointer site).run r = (r.table.referenceTo i, r))

theorem resolveWith_cases (generate : Fin defs.length → StateM (Run defs) Unit) (pointer : String)
    (site : Site) (r : Run defs) : ResolveCase generate pointer site r := by
  cases found : lookup? defs pointer with
  | none => exact .dangling found (run_resolveWith_none site found)
  | some i =>
    by_cases processing : r.table.isProcessing i
    · exact .lazy i found processing (run_resolveWith_lazy site found processing)
    · have waiting : r.table.isProcessing i = false := by simpa using processing
      cases generated : r.table.generated? i with
      | none =>
        exact .new i found waiting generated (run_resolveWith_new site found waiting generated)
      | some v =>
        have finished : (r.table.generated? i).isSome := Option.isSome_of_eq_some generated
        exact .old i found waiting finished (run_resolveWith_old site found waiting finished)

/-- The state in which the schema of a definition is compiled. -/
def Run.enter (r : Run defs) (i : Fin defs.length) : Run defs := { r with table := r.table.start i }

/-- The state after the schema of a definition has been compiled. -/
def Run.leave (r : Run defs) (i : Fin defs.length) (v : Validator) : Run defs :=
  { r with table := r.table.finish i v }

/-- What is compiled for a definition. -/
def compileDefinition (maxDepth fuel : Nat) (i : Fin defs.length) : StateM (Run defs) Validator :=
  compileWithin (handlers (generateWithin maxDepth fuel)) (roomAt maxDepth 0) (defs.get i).schema
    (.ofDefinition (defs.get i).pointer)

theorem run_generateWithin (maxDepth fuel : Nat) (hi : r.table.isProcessing i = false) :
    ((generateWithin maxDepth (fuel + 1) i).run r).2 =
      ((compileDefinition maxDepth fuel i).run (r.enter i)).2.leave i
        ((compileDefinition maxDepth fuel i).run (r.enter i)).1 := by
  simp [generateWithin, hi, updateTable]
  rfl

/-- There is fuel to generate a definition, and it is finished then. -/
theorem isSome_generated?_generate (maxDepth : Nat) (hi : r.table.isProcessing i = false) :
    (((SchemaCompiler.generate maxDepth i).run r).2.table.generated? i).isSome := by
  obtain ⟨fuel, length⟩ : ∃ fuel, defs.length = fuel + 1 :=
    Nat.exists_eq_add_one_of_ne_zero (Fin.pos i).ne'
  unfold SchemaCompiler.generate
  rw [length, run_generateWithin maxDepth fuel hi, Run.leave, Table.generated?_finish, if_pos rfl]
  rfl

end Run

/-! ## Sound states -/

/-- What holds of a run while the definitions of `stack` are being generated. -/
structure Run.Sound (maxDepth : Nat) (stack : List (Fin defs.length)) (r : Run defs) : Prop where
  processing : ∀ i, r.table.isProcessing i ↔ i ∈ stack
  generated : ∀ i, (r.table.generated? i).isSome ↔ i ∈ r.table.completed
  nodup : r.table.completed.Nodup
  pending : ∀ i ∈ stack, i ∉ r.table.completed
  recursive : ∀ i, r.table.isRecursive i → OnCycle defs i
  ownBindings : r.table.OwnBindings
  assembled : ∀ i v, r.table.generated? i = some v → ∀ t, r.table.Extends t →
    v = t.assembled maxDepth i
  diagnostics : ∀ d ∈ r.diagnostics, d.kind ≠ .reentrantDefinition

namespace Run.Sound

variable {stack : List (Fin defs.length)} {r : Run defs} {i : Fin defs.length} {v : Validator}

theorem generated?_eq_none (h : r.Sound maxDepth stack) (hi : i ∉ r.table.completed) :
    r.table.generated? i = none := by
  rw [← Option.not_isSome_iff_eq_none, h.generated i]
  exact hi

theorem isProcessing_eq_false (h : r.Sound maxDepth stack) (hi : i ∉ stack) :
    r.table.isProcessing i = false := by
  rw [← Bool.not_eq_true, h.processing i]
  exact hi

theorem perm_completed (h : r.Sound maxDepth stack) (all : ∀ i, i ∈ r.table.completed) :
    r.table.completed.Perm (List.finRange _) :=
  (List.perm_ext_iff_of_nodup h.nodup (List.nodup_finRange _)).2 fun i =>
    ⟨fun _ => List.mem_finRange i, fun _ => all i⟩

theorem report (h : r.Sound maxDepth stack) {d : Diagnostic} (hd : d.kind ≠ .reentrantDefinition) :
    Run.Sound maxDepth stack { r with diagnostics := r.diagnostics ++ [d] } :=
  { h with
    diagnostics := fun e he => (List.mem_append.1 he).elim (h.diagnostics e)
      fun he => List.mem_singleton.1 he ▸ hd }

theorem markRecursive (h : r.Sound maxDepth stack) (hi : i ∈ stack) (cycle : OnCycle defs i) :
    Run.Sound maxDepth stack { r with table := r.table.markRecursive i } where
  processing j := by simpa using h.processing j
  generated j := by simpa using h.generated j
  nodup := by simpa using h.nodup
  pending j hj := by simpa using h.pending j hj
  recursive j hj := by
    rw [Table.isRecursive_markRecursive, Bool.or_eq_true, decide_eq_true_eq] at hj
    rcases hj with rfl | hj
    · exact cycle
    · exact h.recursive j hj
  ownBindings := h.ownBindings.markRecursive i
  assembled j v hv t ht := by
    have none := h.generated?_eq_none (h.pending i hi)
    refine h.assembled j v (by simpa using hv) t (Table.Extends.trans ?_ ht)
    exact Table.extends_markRecursive (by simp [none])
  diagnostics := h.diagnostics

theorem enter (h : r.Sound maxDepth stack) (hi : i ∉ r.table.completed) :
    (r.enter i).Sound maxDepth (i :: stack) where
  processing := Table.isProcessing_start_iff h.processing i
  generated j := by simpa [Run.enter] using h.generated j
  nodup := h.nodup
  pending := List.forall_mem_cons.2 ⟨hi, h.pending⟩
  recursive j hj := h.recursive j (by simpa [Run.enter] using hj)
  ownBindings := h.ownBindings.start i
  assembled j v hv t ht := by
    have none := h.generated?_eq_none hi
    refine h.assembled j v (by simpa [Run.enter] using hv) t (Table.Extends.trans ?_ ht)
    exact Table.extends_start (by simp [none])
  diagnostics := h.diagnostics

/-- A definition is finished with the validator that every later table stands for. -/
theorem leave (h : r.Sound maxDepth (i :: stack)) (hi : i ∉ stack)
    (hv : ∀ t, (r.leave i v).table.Extends t → v = t.assembled maxDepth i) :
    (r.leave i v).Sound maxDepth stack where
  processing := Table.isProcessing_finish_iff h.processing hi v
  generated := Table.isSome_generated?_finish_iff h.generated i v
  nodup := by
    have pending := h.pending i (by simp)
    exact List.nodup_append.2 ⟨h.nodup, List.nodup_singleton i, fun a ha b hb e =>
      pending (List.mem_singleton.1 hb ▸ e ▸ ha)⟩
  pending j hj := by
    have := h.pending j (List.mem_cons_of_mem _ hj)
    simp only [Run.leave, Table.completed_finish, List.mem_append, List.mem_singleton, not_or]
    exact ⟨this, fun e => hi (e ▸ hj)⟩
  recursive j hj := h.recursive j (by simpa [Run.leave] using hj)
  ownBindings := h.ownBindings.finish i v
  assembled j w hw t ht := by
    have none := h.generated?_eq_none (h.pending i (by simp))
    by_cases e : i = j
    · subst e
      obtain rfl : v = w := by simpa [Run.leave, Table.generated?_finish] using hw
      exact hv t ht
    · refine h.assembled j w ?_ t (Table.Extends.trans ?_ ht)
      · simpa [Run.leave, Table.generated?_finish, e] using hw
      · exact Table.extends_finish (by simp [none])
  diagnostics := h.diagnostics

end Run.Sound

/-! ## References -/

/-- A step of a run while the definitions of `stack` are being generated. -/
structure Run.Step (maxDepth : Nat) (stack : List (Fin defs.length)) (r r' : Run defs) : Prop where
  sound : r'.Sound maxDepth stack
  grows : r.table.Extends r'.table

/-- What the reference to a definition compiles to: its binding if it is finished, and if it is
being generated a lazy one. -/
inductive Run.IsReference (r : Run defs) (stack : List (Fin defs.length)) (i : Fin defs.length) :
    Validator → Prop where
  | plain (finished : i ∈ r.table.completed) : Run.IsReference r stack i (r.table.referenceTo i)
  | lazy (pending : i ∈ stack) (recursive : r.table.isRecursive i) (cycle : OnCycle defs i) :
    Run.IsReference r stack i (r.table.lazyReferenceTo i)

/-- What a reference compiles to. -/
def Run.Resolves (r : Run defs) (stack : List (Fin defs.length)) (pointer : String)
    (v : Validator) : Prop :=
  match lookup? defs pointer with
  | none => v = .any
  | some i => r.IsReference stack i v

/-- The latest definition of a stack refers to a definition if it holds the pointer. -/
def Follows (stack : List (Fin defs.length)) (pointer : String) : Prop :=
  ∀ last ∈ stack.head?, ∀ i, lookup? defs pointer = some i → Refers defs last i

/-- Generating a definition is a step by which it is finished. -/
def Generates (maxDepth : Nat) (stack : List (Fin defs.length))
    (generate : Fin defs.length → StateM (Run defs) Unit) : Prop :=
  ∀ i r, Trail (Refers defs) (i :: stack) → r.Sound maxDepth stack → i ∉ r.table.completed →
    Run.Step maxDepth stack r ((generate i).run r).2 ∧
      i ∈ ((generate i).run r).2.table.completed

section References

variable {stack : List (Fin defs.length)} {r : Run defs} {pointer : String}
  {generate : Fin defs.length → StateM (Run defs) Unit} {schema : Schema}

theorem resolves_resolveWith (gen : Generates maxDepth stack generate)
    (trail : Trail (Refers defs) stack) (follows : Follows stack pointer)
    (h : r.Sound maxDepth stack) (site : Site) :
    Run.Step maxDepth stack r ((resolveWith generate pointer site).run r).2 ∧
      ((resolveWith generate pointer site).run r).2.Resolves stack pointer
        ((resolveWith generate pointer site).run r).1 := by
  unfold Run.Resolves
  cases found : lookup? defs pointer with
  | none =>
    rw [run_resolveWith_none site found]
    refine ⟨⟨h.report ?_, .refl _⟩, rfl⟩
    unfold Diagnostic.danglingReference
    split <;> simp
  | some i =>
    by_cases hi : i ∈ stack
    · rw [run_resolveWith_lazy site found ((h.processing i).2 hi)]
      -- The latest definition refers to one under it, which leads back to the latest.
      have cycle : OnCycle defs i := by
        cases stack with
        | nil => simp at hi
        | cons last stack => exact trail.cycle hi (follows last (by simp) i found)
      have none := h.generated?_eq_none (h.pending i hi)
      refine ⟨⟨h.markRecursive hi cycle, Table.extends_markRecursive (by simp [none])⟩, ?_⟩
      exact .lazy hi (by simp [Table.isRecursive_markRecursive]) cycle
    · by_cases finished : i ∈ r.table.completed
      · rw [run_resolveWith_old site found (h.isProcessing_eq_false hi)
          ((h.generated i).2 finished)]
        exact ⟨⟨h, .refl _⟩, .plain finished⟩
      · rw [run_resolveWith_new site found (h.isProcessing_eq_false hi)
          (h.generated?_eq_none finished)]
        obtain ⟨step, done⟩ := gen i r
          (trail.cons hi fun last hl => follows last hl i found) h finished
        exact ⟨step, .plain done⟩

/-- In a later table the reference has not changed. -/
theorem Run.Resolves.eq_reference {v : Validator} (hv : r.Resolves stack pointer v)
    (h : r.Sound maxDepth stack) {t : Table defs} {later : Fin defs.length → Bool}
    (ht : r.table.Extends t) (earlier : ∀ i ∈ r.table.completed, later i = false)
    (pending : ∀ i ∈ stack, later i) : v = t.reference later pointer := by
  unfold Run.Resolves at hv
  unfold Table.reference
  cases found : lookup? defs pointer with
  | none => rwa [found] at hv
  | some i =>
    rw [found] at hv
    cases hv with
    | plain finished =>
      simp [earlier i finished, ht.referenceTo ((h.generated i).2 finished)]
    | lazy hi recursive cycle =>
      simp [pending i hi, ht.isRecursive recursive, ht.lazyReferenceTo recursive]

/-! ## Compilations -/

/-- A compilation in the middle of a run beside one that looks references up in a table which the
run has reached later. -/
def besideTable (maxDepth : Nat) (stack : List (Fin defs.length)) (t : Table defs)
    (later : Fin defs.length → Bool) : Comparison (Run defs) Unit where
  Sites _ _ := True
  under _ _ := trivial
  member _ _ _ := trivial
  Related r _ := r.Sound maxDepth stack
  Moves p q := p.1.table.Extends q.1.table
  refl p := .refl p.1.table
  trans := .trans
  Settled p := p.1.table.Extends t ∧ (∀ i ∈ p.1.table.completed, later i = false) ∧
    ∀ i ∈ stack, later i
  settled_of_moves moves settled := by
    obtain ⟨ht, earlier, pending⟩ := settled
    exact ⟨moves.trans ht, fun i hi => earlier i (moves.completed.subset hi), pending⟩

theorem alike_besideTable (gen : Generates maxDepth stack generate)
    (trail : Trail (Refers defs) stack)
    (follows : ∀ pointer ∈ schema.references, Follows stack pointer) (t : Table defs)
    (later : Fin defs.length → Bool) (room : Nat) (site : Site) :
    (besideTable maxDepth stack t later).Alike
      (compileWithin (handlers generate) room schema site)
      (compileWithin (.pure (t.reference later)) room schema site) := by
  refine Comparison.alike_compileWithin ?_ room ?_ trivial
  · intro name a b _ r _ h
    exact ⟨h.report (by simp [Diagnostic.unknownType]), .refl _, fun _ => rfl⟩
  · intro pointer mem a b _ r _ h
    obtain ⟨step, resolves⟩ := resolves_resolveWith gen trail (follows pointer mem) h a
    refine ⟨step.sound, step.grows, fun settled => ?_⟩
    obtain ⟨ht, earlier, pending⟩ := settled
    exact resolves.eq_reference step.sound ht earlier pending

/-- Compiling a schema is a step. The validator is the one assembled from what the references stand
for in every later table. -/
theorem compiles_sound (gen : Generates maxDepth stack generate)
    (trail : Trail (Refers defs) stack)
    (follows : ∀ pointer ∈ schema.references, Follows stack pointer) (room : Nat) (site : Site)
    (h : r.Sound maxDepth stack) {v : Validator} {r' : Run defs}
    (run : (compileWithin (handlers generate) room schema site).run r = (v, r')) :
    Run.Step maxDepth stack r r' ∧ ∀ t later, r'.table.Extends t →
      (∀ i ∈ r'.table.completed, later i = false) → (∀ i ∈ stack, later i) →
        v = assembleWithin (t.reference later) room schema := by
  -- That this is a step does not depend on the table beside the run; any will do.
  have alike := fun t later => alike_besideTable gen trail follows t later room site r () h
  simp only [run, compileWithin_pure] at alike
  obtain ⟨sound, grows, _⟩ := alike r'.table fun _ => true
  exact ⟨⟨sound, grows⟩, fun t later ht earlier pending =>
    (alike t later).2.2 ⟨ht, earlier, pending⟩⟩

end References

/-! ## Definitions -/

/-- In a table in which `i` was finished after `before`, these are the definitions that were
finished before it. -/
theorem Table.finishedBefore_eq {t : Table defs} {before after : List (Fin defs.length)}
    {i : Fin defs.length} (h : t.completed = before ++ i :: after) (hi : i ∉ before)
    (j : Fin defs.length) : t.finishedBefore j i = decide (j ∈ before) := by
  have position : (before ++ i :: after).idxOf i = before.length := by
    simp [List.idxOf_append_of_notMem hi]
  unfold finishedBefore
  rw [h, position]
  by_cases hj : j ∈ before
  · rw [List.idxOf_append_of_mem hj]
    simp [hj, List.idxOf_lt_length_iff.2 hj]
  · rw [List.idxOf_append_of_notMem hj]
    simp [hj]

theorem follows_definition (i : Fin defs.length) (stack : List (Fin defs.length)) :
    ∀ pointer ∈ (defs.get i).schema.references, Follows (i :: stack) pointer := by
  intro pointer mem last hl j found
  obtain rfl : i = last := by simpa using hl
  exact refers_of_lookup? mem found

/-- Generating a definition is a step, with fuel for all definitions that are not being generated
already. -/
theorem generates_generateWithin (fuel : Nat) {stack : List (Fin defs.length)}
    (enough : defs.length ≤ stack.length + fuel) :
    Generates maxDepth stack (generateWithin maxDepth fuel) := by
  induction fuel generalizing stack with
  | zero =>
    -- The definitions being generated are distinct, so there is fuel for one more.
    intro i r trail
    have := trail.length_le
    simp only [List.length_cons] at this
    omega
  | succ fuel ih =>
    intro i r trail h hi
    have new := trail.not_mem_tail
    rw [run_generateWithin maxDepth fuel (h.isProcessing_eq_false new)]
    cases run : (compileDefinition maxDepth fuel i).run (r.enter i) with | mk v r' =>
    have gen : Generates maxDepth (i :: stack) (generateWithin maxDepth fuel) :=
      ih (by simp only [List.length_cons]; omega)
    obtain ⟨step, assembled⟩ :=
      compiles_sound gen trail (follows_definition i stack) _ _ (h.enter hi) run
    have pending := step.sound.pending
    have none := h.generated?_eq_none hi
    have none' := step.sound.generated?_eq_none (pending i (by simp))
    refine ⟨⟨step.sound.leave new fun t ht => ?_, ?_⟩, by simp [Run.leave]⟩
    · -- In every later table, what was finished before `i` is what is finished now.
      have grows : r'.table.Extends t := .trans (Table.extends_finish (by simp [none'])) ht
      obtain ⟨after, completed⟩ := ht.completed
      have completed : t.completed = r'.table.completed ++ i :: after := by
        simpa [Run.leave] using completed.symm
      have order := Table.finishedBefore_eq completed (pending i (by simp))
      refine assembled t _ grows (fun j hj => ?_) fun j hj => ?_
      · simp [order, hj]
      · simp [order, pending j hj]
    · exact .trans (Table.extends_start (by simp [none]))
        (.trans step.grows (Table.extends_finish (by simp [none'])))

end SchemaCompiler
