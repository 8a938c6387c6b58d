import SchemaCompiler.Proofs.Compile.Exact
import SchemaCompiler.Proofs.Generate.Terminates

/-!
# Any and never are told by code

Compositions compare the code of their members with `v.any()` and `v.never()`. In every state that a
compilation gets into (`Run.Reachable`), in the middle of generating definitions as well as between
calls, the table holds exact validators only and names bindings after definitions (`Table.Exact`).
So a reference compiles to an exact validator, its definition being finished or still on its way,
and so does every schema (`any_never_by_code`).

A reference to an idle definition has a type because its generation finishes the definition, which
is where the fuel matters: `yields_compile_exact` is by induction on the number of idle definitions.
-/

namespace SchemaCompiler

variable {defs : List Definition} {maxDepth : Nat}

/-! ## States of a compilation -/

/-- What tasks and reports keep holds wherever visits make calls. -/
theorem holds_of_mem_visitCalls {I : Run defs → Prop}
    (perform : ∀ task r, I r → I (((routines maxDepth).perform task).run r).2)
    (report : ∀ d (r : Run defs), I r → I { r with diagnostics := r.diagnostics ++ [d] })
    {site : Site} {vs : List Visit} {r : Run defs} (h : I r) {next : Task defs × Run defs}
    (mem : next ∈ visitCalls maxDepth site vs r) : I next.2 := by
  induction vs generalizing r with
  | nil => simp [visitCalls] at mem
  | cons v vs ih =>
    rcases List.mem_append.1 mem with mem | mem
    · obtain ⟨task, -, rfl⟩ := List.mem_map.1 mem
      exact h
    · refine ih ?_ mem
      cases v with
      | schema x path => exact perform (.compile x (site.down path)) r h
      | reference pointer => exact perform (.resolve pointer site) r h
      | unknownType name => exact report (.unknownType name site) r h

namespace Run

/-- The states that a compilation of a root schema gets into: the first one, those after a task, and
those in which a task has another one performed. -/
inductive Reachable (root : Schema) (reserved : List String) (maxDepth : Nat) :
    Run (root.definitions reserved).1 → Prop where
  | initial : Reachable root reserved maxDepth (.initial root reserved)
  | after {r : Run (root.definitions reserved).1} (h : Reachable root reserved maxDepth r)
    (task : Task (root.definitions reserved).1) :
    Reachable root reserved maxDepth (((routines maxDepth).perform task).run r).2
  | inside {r : Run (root.definitions reserved).1} (h : Reachable root reserved maxDepth r)
    (task : Task (root.definitions reserved).1) {next : Task _ × Run _}
    (mem : next ∈ calls maxDepth (task, r)) : Reachable root reserved maxDepth next.2

namespace Reachable

variable {root : Schema} {reserved : List String} {r : Run (root.definitions reserved).1}

/-- The schema of a definition is compiled in a reachable state. -/
theorem enter (h : r.Reachable root reserved maxDepth)
    (i : Fin (root.definitions reserved).1.length) (hi : r.table.isProcessing i = false) :
    (r.enter i).Reachable root reserved maxDepth := by
  have mem : (.compile ((root.definitions reserved).1.get i).schema
      (.ofDefinition ((root.definitions reserved).1.get i).pointer), r.enter i) ∈
        calls maxDepth (.generate i, r) := by
    unfold calls Task.calls
    simp [hi]
  exact h.inside (.generate i) mem

theorem generateEach (h : r.Reachable root reserved maxDepth)
    (is : List (Fin (root.definitions reserved).1.length)) :
    Reachable root reserved maxDepth ((generateEach maxDepth is).run r).2 := by
  induction is generalizing r with
  | nil => exact h
  | cons i is ih =>
    cases generated : r.table.generated? i with
    | none =>
      rw [run_generateEach_new is generated]
      exact ih (h.after (.generate i))
    | some v =>
      rw [run_generateEach_old is (Option.isSome_of_eq_some generated)]
      exact ih h

/-- Calls from outside lead to reachable states. -/
theorem afterCalls (h : r.Reachable root reserved maxDepth) (calls : List Call) :
    (r.after maxDepth calls).Reachable root reserved maxDepth := by
  induction calls generalizing r with
  | nil => exact h
  | cons call calls ih =>
    apply ih
    cases call with
    | generateAll => exact h.generateEach _
    | compile schema site => exact h.after (.compile schema site)
    | resolve pointer site => exact h.after (.resolve pointer site)

/-- What holds in the first state, and is kept by tasks, by reports and by the start of definitions,
holds in all reachable states. -/
theorem holds {I : Run (root.definitions reserved).1 → Prop} (initial : I (.initial root reserved))
    (perform : ∀ task r, I r → I (((routines maxDepth).perform task).run r).2)
    (report : ∀ d (r : Run _), I r → I { r with diagnostics := r.diagnostics ++ [d] })
    (enter : ∀ i r, I r → I (Run.enter r i)) (h : r.Reachable root reserved maxDepth) : I r := by
  induction h with
  | initial => exact initial
  | after h task ih => exact perform task _ ih
  | @inside r h task next mem ih =>
    unfold calls Task.calls at mem
    cases task with
    | compile schema site =>
      simp only at mem
      split at mem
      · simp at mem
      · exact holds_of_mem_visitCalls perform report ih mem
    | resolve pointer site =>
      obtain ⟨i, -, rfl⟩ := List.mem_map.1 mem
      exact ih
    | generate i =>
      simp only at mem
      split at mem
      · simp at mem
      · obtain rfl := List.mem_singleton.1 mem
        exact enter i r ih

end Reachable

end Run

/-! ## Exact tables -/

namespace Table

variable {t : Table defs} {i : Fin defs.length} {v : Validator}

/-- Bindings are made from the names of definitions, and finished definitions are exact. -/
structure Exact (t : Table defs) : Prop where
  ownBindings : t.OwnBindings
  generated : ∀ i v, t.generated? i = some v → v.Exact

theorem exact_detectCycles_fresh (names : NameSupply) :
    ((fresh defs names).detectCycles).Exact where
  ownBindings := ownBindings_detectCycles_fresh names
  generated i v hv := by simp [generated?_detectCycles_fresh] at hv

theorem Exact.markRecursive (h : t.Exact) (i : Fin defs.length) : (t.markRecursive i).Exact where
  ownBindings := h.ownBindings.markRecursive i
  generated j v hv := h.generated j v (by simpa using hv)

theorem Exact.start (h : t.Exact) (i : Fin defs.length) : (t.start i).Exact where
  ownBindings := h.ownBindings.start i
  generated j v hv := h.generated j v (by simpa using hv)

theorem Exact.finish (h : t.Exact) (i : Fin defs.length) (hv : v.Exact) :
    (t.finish i v).Exact where
  ownBindings := h.ownBindings.finish i v
  generated j w hw := by
    rw [generated?_finish] at hw
    split at hw
    · exact Option.some.inj hw ▸ hv
    · exact h.generated j w hw

theorem exact_lazyReferenceTo (t : Table defs) (i : Fin defs.length) :
    (t.lazyReferenceTo i).Exact :=
  Validator.exact_of_calls (Validator.calls_of_code_eq rfl) rfl (by decide : IsSymbol "lazy" ∧ _)

theorem exact_referenceTo (spelled : Spelled (t.binding i)) (typed : (t.type? i).isSome) :
    (t.referenceTo i).Exact :=
  Validator.exact_of_spelled spelled typed

theorem Exact.isSome_type? (h : t.Exact) (finished : (t.generated? i).isSome) :
    (t.type? i).isSome := by
  obtain ⟨v, hv⟩ := Option.isSome_iff_exists.1 finished
  unfold type?
  split
  · rfl
  · rw [hv]
    exact (h.generated i v hv).typed

end Table

/-! ## Exact compilations -/

section Compilation

variable {n : Nat} {r : Run defs} {i : Fin defs.length}

/-- The table is exact, and at most `n` definitions are idle. -/
def Run.ExactWithin (n : Nat) (r : Run defs) : Prop := r.table.Exact ∧ r.idleCount ≤ n

/-- Generating a definition keeps the table exact if schemas are compiled to exact validators. -/
theorem exact_generate (compiles : ∀ schema site, Yields (Run.ExactWithin n) Validator.Exact
      (compile maxDepth schema site : StateM (Run defs) Validator))
    (waiting : r.table.isProcessing i = false) (h : (r.enter i).ExactWithin n) :
    ((generate maxDepth i).run r).2.table.Exact := by
  rw [← step_routines_generate, run_step_generate waiting]
  obtain ⟨⟨kept, -⟩, exact⟩ := compiles (defs.get i).schema (.ofDefinition (defs.get i).pointer)
    (r.enter i) h
  exact kept.finish i exact

variable (names : ∀ d ∈ defs, Spelled d.name)

include names

/-- References compile to exact validators if schemas do where fewer definitions are idle. -/
theorem yields_resolve_exact
    (compiles : ∀ m < n, ∀ schema site, Yields (Run.ExactWithin m) Validator.Exact
      (compile maxDepth schema site : StateM (Run defs) Validator))
    (pointer : String) (site : Site) :
    Yields (Run.ExactWithin n) Validator.Exact
      (resolve maxDepth pointer site : StateM (Run defs) Validator) := by
  intro r h
  have fewer : ((resolve maxDepth pointer site).run r).2.idleCount ≤ n :=
    (reaches_resolveWith (reaches_generateWithin _) pointer site r).idleCount_le.trans h.2
  refine (and_congr_left' (and_iff_left fewer)).2 ?_
  have plain : ∀ {t : Table defs} {i}, t.Exact → (t.generated? i).isSome →
      (t.referenceTo i).Exact := fun exact finished =>
    Table.exact_referenceTo (exact.ownBindings.spelled names _) (exact.isSome_type? finished)
  unfold resolve
  cases resolveWith_cases (generate maxDepth) pointer site r with
  | dangling found run =>
    rw [run]
    exact ⟨h.1, Validator.exact_any⟩
  | lazy i found processing run =>
    rw [run]
    exact ⟨h.1.markRecursive i, Table.exact_lazyReferenceTo _ i⟩
  | new i found waiting missing run =>
    rw [run]
    -- While the definition is generated, there is one idle definition less.
    have idle : r.table.isIdle i := Table.isIdle_iff.2 ⟨waiting, missing⟩
    have less : (r.enter i).idleCount < n := (Run.idleCount_enter_lt idle).trans_le h.2
    have exact := exact_generate (compiles _ less) waiting ⟨h.1.start i, Nat.le_refl _⟩
    exact ⟨exact, plain exact (isSome_generated?_generate maxDepth waiting)⟩
  | old i found waiting finished run =>
    rw [run]
    exact ⟨h.1, plain h.1 finished⟩

/-- Schemas compile to exact validators, however many definitions are idle. -/
theorem yields_compile_exact (n : Nat) (schema : Schema) (site : Site) :
    Yields (Run.ExactWithin n) Validator.Exact
      (compile maxDepth schema site : StateM (Run defs) Validator) := by
  induction n using Nat.strongRecOn generalizing schema site with
  | ind n ih =>
    have references : ∀ pointer site, Yields (Run.ExactWithin n) Validator.Exact
        ((handlers (generate maxDepth)).reference pointer site : StateM (Run defs) Validator) :=
      yields_resolve_exact names ih
    have types : ∀ name site, Yields (Run.ExactWithin n) Validator.Exact
        ((handlers (generate maxDepth)).unknownType name site : StateM (Run defs) Validator) :=
      fun name site r h => ⟨h, Validator.exact_any⟩
    exact Validator.preserved_exact.yields_compileWithin (fun _ _ => True) references types
      (fun _ _ _ _ _ => trivial) (fun _ _ _ _ _ _ _ _ => Validator.exact_allOf _) trivial site

/-- Every task keeps the table exact. -/
theorem exact_perform (task : Task defs) (h : r.table.Exact) :
    (((routines maxDepth).perform task).run r).2.table.Exact := by
  have compiles : ∀ n schema site, Yields (Run.ExactWithin n) Validator.Exact
      (compile maxDepth schema site : StateM (Run defs) Validator) := yields_compile_exact names
  cases task with
  | compile schema site => exact (compiles _ schema site r ⟨h, Nat.le_refl _⟩).1.1
  | resolve pointer site =>
    have resolves : ∀ n, Yields (Run.ExactWithin n) Validator.Exact
        (resolve maxDepth pointer site : StateM (Run defs) Validator) :=
      fun _ => yields_resolve_exact names (fun m _ => compiles m) pointer site
    exact (resolves _ r ⟨h, Nat.le_refl _⟩).1.1
  | generate i =>
    show ((generate maxDepth i).run r).2.table.Exact
    by_cases processing : r.table.isProcessing i
    · rw [← step_routines_generate, run_step_generate_again processing]
      exact h
    · have waiting : r.table.isProcessing i = false := by simpa using processing
      exact exact_generate (compiles _) waiting ⟨h.start i, Nat.le_refl _⟩

end Compilation

/-! ## Reachable states -/

theorem Run.Reachable.exact {root : Schema} {reserved : List String}
    {r : Run (root.definitions reserved).1} (h : r.Reachable root reserved maxDepth) :
    r.table.Exact := by
  apply h.holds (I := fun r => r.table.Exact)
  · exact Table.exact_detectCycles_fresh _
  · exact fun task r exact => exact_perform (fun _ => spelled_name) task exact
  · exact fun d r exact => exact
  · exact fun i r exact => exact.start i

/-- Whatever state a compilation of a root schema is in, and wherever a schema is compiled in it,
the code of the validator is `v.any()` only if its symbols and its type are those of the validator
that accepts everything, too; likewise for `v.never()`; and the validator has a type. -/
theorem any_never_by_code {root : Schema} {reserved : List String} {maxDepth : Nat}
    {r : Run (root.definitions reserved).1} (h : r.Reachable root reserved maxDepth)
    (schema : Schema) (site : Site) :
    let v := ((compile maxDepth schema site).run r).1
    (v.isAny ↔ v = .any) ∧ (v.isNever ↔ v = .never) ∧ v.type.isSome := by
  intro v
  have exact : v.Exact :=
    (yields_compile_exact (fun _ => spelled_name) _ schema site r ⟨h.exact, Nat.le_refl _⟩).2
  refine ⟨⟨exact.any, ?_⟩, ⟨exact.never, ?_⟩, exact.typed⟩
  · intro same
    rw [same]
    decide
  · intro same
    rw [same]
    decide

namespace insideItself

/-- A definition that refers to itself, and another one. -/
def root : Schema :=
  .object { defs := some [
    ("A", .object { reference := some "#/$defs/A" }),
    ("B", .object { type := some (.one .string) })] }

/-- Alternatives of which two unknown type names are left. -/
def schema : Schema :=
  .object { anyOf := some [.bool false,
    .object { type := some (.many [.unknown "x", .unknown "y"]) }] }

theorem length_definitions : 0 < (root.definitions []).1.length := by decide

def first : Fin (root.definitions []).1.length := ⟨0, length_definitions⟩

/-- While the first definition is generated after the other one, alternatives are compiled to what
accepts everything, as their code says, and a reference to the definition is not. -/
theorem any_by_code_insideItself :
    let before := (Run.initial root []).after 10 [.resolve "#/$defs/B" .root]
    let r := before.enter first
    let reference : Schema := .object { reference := some "#/$defs/A" }
    r.table.isProcessing first ∧ ((compile 10 schema .root).run r).1 = .any ∧
      ((compile 10 reference .root).run r).1 ≠ .any := by
  intro before r reference
  have waiting : before.table.isProcessing first = false := by decide +kernel
  have reachable : r.Reachable root [] 10 :=
    (Run.Reachable.initial.afterCalls _).enter first waiting
  have code : ((compile 10 schema .root).run r).1.isAny := by decide +kernel
  have lazy : ((compile 10 reference .root).run r).1.isAny = false := by decide +kernel
  refine ⟨by decide +kernel, (any_never_by_code reachable schema .root).1.1 code, fun any => ?_⟩
  have := (any_never_by_code reachable reference .root).1.2 any
  simp [lazy] at this

end insideItself

end SchemaCompiler
