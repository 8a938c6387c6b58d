import SchemaCompiler.Proofs.CallTree
import SchemaCompiler.Proofs.Generate.Idle

/-!
# Compilation terminates

Compiling schemas and references and generating definitions call each other: `Routines.step` is
their recursion, without any bound, and `calls` lists the calls that one of them makes in a state,
each with the state in which it is made. A call for a sub-schema has a smaller schema. A call for a
definition starts over with another schema at depth 0, but it is made for an idle definition, which
is not idle any more then; and no call makes a definition idle again (`acc_calls`).

So the recursion makes finitely many calls, in whatever state it is started, and it has one solution
only, which is the compilation with its bounds (`step_eq_iff`).
-/

namespace SchemaCompiler

variable {defs : List Definition} {maxDepth : Nat}

/-! ## The recursion -/

/-- The procedures that call each other. -/
@[ext]
structure Routines (defs : List Definition) where
  compile : Schema → Site → StateM (Run defs) Validator
  resolve : String → Site → StateM (Run defs) Validator
  generate : Fin defs.length → StateM (Run defs) Unit

namespace Routines

/-- What the procedures do where `f` answers their calls. -/
def step (maxDepth : Nat) (f : Routines defs) : Routines defs where
  compile schema site :=
    if maxDepth < site.depth then pure .any
    else compileNode ⟨f.resolve, compileUnknownType⟩ f.compile schema site
  resolve := resolveWith f.generate
  generate i := do
    let site := Site.ofDefinition (defs.get i).pointer
    if (← get).table.isProcessing i then report (.reentrantDefinition (defs.get i).pointer site)
    else
      updateTable (·.start i)
      let result ← f.compile (defs.get i).schema site
      updateTable (·.finish i result)

end Routines

/-- The procedures of a compilation. -/
def routines (maxDepth : Nat) : Routines defs :=
  ⟨compile maxDepth, resolve maxDepth, generate maxDepth⟩

/-- A call of one of the procedures. -/
inductive Task (defs : List Definition) where
  | compile (schema : Schema) (site : Site)
  | resolve (pointer : String) (site : Site)
  | generate (i : Fin defs.length)

/-- Make a call. Generating a definition has no result. -/
def Routines.perform (f : Routines defs) : Task defs → StateM (Run defs) (Option Validator)
  | .compile schema site => some <$> f.compile schema site
  | .resolve pointer site => some <$> f.resolve pointer site
  | .generate i => do
    f.generate i
    return none

/-! ## Calls -/

/-- The call that a visit at a site makes. -/
def Visit.task? (site : Site) : Visit → Option (Task defs)
  | .schema x path => some (.compile x (site.down path))
  | .reference pointer => some (.resolve pointer site)
  | .unknownType _ => none

/-- The calls that visits make one after the other, each with the state in which it is made. -/
def visitCalls (maxDepth : Nat) (site : Site) :
    List Visit → Run defs → List (Task defs × Run defs)
  | [], _ => []
  | v :: vs, r =>
    (v.task? site).toList.map (fun task => (task, r)) ++
      visitCalls maxDepth site vs
        ((v.perform (handlers (generate maxDepth)) (compile maxDepth) site).run r).2

/-- The calls that a call makes in a state, each with the state in which it is made. -/
def Task.calls (maxDepth : Nat) (r : Run defs) : Task defs → List (Task defs × Run defs)
  | .compile schema site =>
    if maxDepth < site.depth then [] else visitCalls maxDepth site schema.visits r
  | .resolve pointer _ => (r.missing pointer).toList.map fun i => (.generate i, r)
  | .generate i =>
    if r.table.isProcessing i then []
    else [(.compile (defs.get i).schema (.ofDefinition (defs.get i).pointer), r.enter i)]

def calls (maxDepth : Nat) (call : Task defs × Run defs) : List (Task defs × Run defs) :=
  call.1.calls maxDepth call.2

/-! ## Calls end -/

/-- How many definitions can still be generated during a call. -/
def Task.room (r : Run defs) : Task defs → Nat
  | .compile _ _ => r.idleCount
  | .resolve _ _ => r.idleCount
  | .generate i => (r.enter i).idleCount

/-- How large the schema of a call is. -/
noncomputable def Task.size : Task defs → Nat
  | .compile schema _ => sizeOf schema
  | .resolve _ _ => 0
  | .generate i => sizeOf (defs.get i).schema + 1

theorem reaches_perform (v : Visit) (site : Site) (r : Run defs) :
    r.Reaches ((v.perform (handlers (generate maxDepth)) (compile maxDepth) site).run r).2 := by
  have gen : ∀ i (r : Run defs), r.Reaches ((generate maxDepth i).run r).2 :=
    reaches_generateWithin _
  cases v with
  | schema x path => exact reaches_compileWithin gen _ x (site.down path) r
  | reference pointer => exact reaches_resolveWith gen pointer site r
  | unknownType name => exact .report r _

theorem mem_visitCalls {site : Site} {vs : List Visit} {r : Run defs}
    {next : Task defs × Run defs} (h : next ∈ visitCalls maxDepth site vs r) :
    ∃ v ∈ vs, v.task? site = some next.1 ∧ r.Reaches next.2 := by
  induction vs generalizing r with
  | nil => simp [visitCalls] at h
  | cons v vs ih =>
    rcases List.mem_append.1 h with h | h
    · obtain ⟨task, mem, rfl⟩ := List.mem_map.1 h
      exact ⟨v, List.mem_cons_self .., Option.mem_toList.1 mem, .refl r⟩
    · obtain ⟨w, mem, task, reaches⟩ := ih h
      exact ⟨w, List.mem_cons_of_mem _ mem, task, (reaches_perform v site r).trans reaches⟩

theorem sizeOf_pos (schema : Schema) : 0 < sizeOf schema := by
  cases schema with
  | bool accepts => simp
  | object keywords =>
    simp only [Schema.object.sizeOf_spec]
    omega

/-- Fewer definitions can be generated during the calls that a call makes, or no more and the calls
are for smaller schemas. -/
theorem decreases {task : Task defs} {r : Run defs} {next : Task defs × Run defs}
    (h : next ∈ task.calls maxDepth r) :
    next.1.room next.2 < task.room r ∨
      next.1.room next.2 ≤ task.room r ∧ next.1.size < task.size := by
  unfold Task.calls at h
  cases task with
  | compile schema site =>
    right
    simp only at h
    split at h
    · simp at h
    obtain ⟨v, mem, task, reaches⟩ := mem_visitCalls h
    obtain ⟨next, r'⟩ := next
    have fewer := reaches.idleCount_le
    cases v with
    | schema x path =>
      obtain rfl : Task.compile x (site.down path) = next := Option.some.inj task
      exact ⟨fewer, Schema.sizeOf_lt_of_mem_visits mem⟩
    | reference pointer =>
      obtain rfl : Task.resolve pointer site = next := Option.some.inj task
      exact ⟨fewer, sizeOf_pos schema⟩
    | unknownType name => simp [Visit.task?] at task
  | resolve pointer site =>
    left
    obtain ⟨i, mem, rfl⟩ := List.mem_map.1 h
    have missing : r.missing pointer = some i := Option.mem_toList.1 mem
    exact Run.idleCount_enter_lt (Run.missing_eq_some_iff.1 missing).2
  | generate i =>
    right
    simp only at h
    split at h
    · simp at h
    obtain rfl := List.mem_singleton.1 h
    exact ⟨Nat.le_refl _, Nat.lt_succ_self _⟩

theorem acc_calls (call : Task defs × Run defs) :
    Acc (fun next call => next ∈ calls maxDepth call) call := by
  refine .intro call fun next mem => ?_
  have smaller := decreases mem
  exact acc_calls next
termination_by (call.1.room call.2, call.1.size)
decreasing_by
  rcases smaller with lt | ⟨le, lt⟩
  · exact .left _ _ lt
  · rcases Nat.lt_or_eq_of_le le with lt' | eq
    · exact .left _ _ lt'
    · rw [eq]
      exact .right _ lt

/-! ## What a step depends on -/

section Step

variable {f : Routines defs} {r : Run defs} {i : Fin defs.length}

theorem run_step_generate_again (hi : r.table.isProcessing i) :
    ((f.step maxDepth).generate i).run r =
      ((), { r with diagnostics := r.diagnostics ++
        [.reentrantDefinition (defs.get i).pointer (.ofDefinition (defs.get i).pointer)] }) := by
  simp [Routines.step, hi, report]
  rfl

theorem run_step_generate (hi : r.table.isProcessing i = false) :
    ((f.step maxDepth).generate i).run r =
      ((), ((f.compile (defs.get i).schema (.ofDefinition (defs.get i).pointer)).run
        (r.enter i)).2.leave i
          ((f.compile (defs.get i).schema (.ofDefinition (defs.get i).pointer)).run
            (r.enter i)).1) := by
  simp [Routines.step, hi, updateTable]
  rfl

end Step

/-- Two recursions answer a call in a state alike. -/
def Routines.Agrees (f g : Routines defs) (call : Task defs × Run defs) : Prop :=
  (f.perform call.1).run call.2 = (g.perform call.1).run call.2

section Agrees

variable {f g : Routines defs} {r : Run defs} {i : Fin defs.length}

theorem run_map_some_inj {σ α : Type} {m n : StateM σ α} {s : σ} :
    (some <$> m).run s = (some <$> n).run s ↔ m.run s = n.run s := by
  constructor
  · intro same
    have result := congrArg Prod.fst same
    have state := congrArg Prod.snd same
    exact Prod.ext (Option.some.inj result) state
  · intro same
    rw [StateT.run_map, StateT.run_map, same]

theorem agrees_compile_iff {schema : Schema} {site : Site} :
    f.Agrees g (.compile schema site, r) ↔
      (f.compile schema site).run r = (g.compile schema site).run r := run_map_some_inj

theorem agrees_resolve_iff {pointer : String} {site : Site} :
    f.Agrees g (.resolve pointer site, r) ↔
      (f.resolve pointer site).run r = (g.resolve pointer site).run r := run_map_some_inj

theorem agrees_generate_iff :
    f.Agrees g (.generate i, r) ↔ (f.generate i).run r = (g.generate i).run r := by
  unfold Routines.Agrees Routines.perform
  constructor
  · intro same
    have state := congrArg Prod.snd same
    exact Prod.ext (Subsingleton.elim _ _) state
  · intro same
    simp only [StateT.run_bind, same]

theorem performAll_eq_of_agrees {site : Site} {vs : List Visit}
    (agree : ∀ next ∈ visitCalls maxDepth site vs r, f.Agrees (routines maxDepth) next) :
    (performAll ⟨f.resolve, compileUnknownType⟩ f.compile site vs).run r =
      (performAll (handlers (generate maxDepth)) (compile maxDepth) site vs).run r := by
  induction vs generalizing r with
  | nil => rfl
  | cons v vs ih =>
    obtain ⟨first, rest⟩ := List.forall_mem_append.1 agree
    have same : (v.perform ⟨f.resolve, compileUnknownType⟩ f.compile site).run r =
        (v.perform (handlers (generate maxDepth)) (compile maxDepth) site).run r := by
      cases v with
      | schema x path => exact agrees_compile_iff.1 (first _ (List.mem_singleton.2 rfl))
      | reference pointer => exact agrees_resolve_iff.1 (first _ (List.mem_singleton.2 rfl))
      | unknownType name => rfl
    rw [run_performAll_cons, run_performAll_cons, same, ih rest]

/-- What a step does depends on the answers to its calls only. -/
theorem agrees_step {call : Task defs × Run defs}
    (agree : ∀ next ∈ calls maxDepth call, f.Agrees (routines maxDepth) next) :
    (f.step maxDepth).Agrees ((routines maxDepth).step maxDepth) call := by
  obtain ⟨task, r⟩ := call
  cases task with
  | compile schema site =>
    refine agrees_compile_iff.2 ?_
    unfold calls Task.calls at agree
    unfold Routines.step
    simp only at agree ⊢
    split
    next => rfl
    next within =>
      rw [if_neg within] at agree
      obtain ⟨build, run⟩ := exists_run_compileNode schema site
      rw [run, run, performAll_eq_of_agrees agree]
      rfl
  | resolve pointer site =>
    refine agrees_resolve_iff.2 (resolveWith_congr site fun i missing => ?_)
    refine agrees_generate_iff.1 (agree _ (List.mem_map.2 ⟨i, ?_, rfl⟩))
    exact Option.mem_toList.2 missing
  | generate i =>
    refine agrees_generate_iff.2 ?_
    by_cases processing : r.table.isProcessing i
    · rw [run_step_generate_again processing, run_step_generate_again processing]
    · have idle : r.table.isProcessing i = false := by simpa using processing
      have inside : (Task.compile (defs.get i).schema (.ofDefinition (defs.get i).pointer),
          r.enter i) ∈ calls maxDepth (.generate i, r) := by
        unfold calls Task.calls
        simp only
        rw [if_neg processing]
        exact List.mem_singleton.2 rfl
      rw [run_step_generate idle, run_step_generate idle, agrees_compile_iff.1 (agree _ inside)]

end Agrees

/-! ## The compilation solves the recursion -/

theorem step_routines_compile (schema : Schema) (site : Site) :
    ((routines maxDepth).step maxDepth).compile schema site =
      (compile maxDepth schema site : StateM (Run defs) Validator) := by
  unfold Routines.step compile
  simp only
  split
  next deep =>
    have none : roomAt maxDepth site.depth = 0 := Nat.sub_eq_zero_of_le deep
    rw [none]
    rfl
  next within =>
    have room : roomAt maxDepth site.depth = roomAt maxDepth (site.depth + 1) + 1 := by
      unfold roomAt
      omega
    rw [room, compileWithin]
    refine funext fun r => compileNode_congr (P := fun _ => True) (fun v _ r _ => ?_)
      (fun _ _ _ _ => trivial) trivial
    cases v <;> rfl

/-- There is fuel to generate a definition inside another one whenever one is missing. -/
theorem step_routines_generate (i : Fin defs.length) :
    ((routines maxDepth).step maxDepth).generate i = generate maxDepth i := by
  obtain ⟨n, hn⟩ : ∃ n, defs.length = n + 1 :=
    Nat.exists_eq_succ_of_ne_zero (Nat.ne_of_gt (Nat.zero_lt_of_lt i.2))
  have fuel : generate maxDepth i = generateWithin maxDepth (n + 1) i :=
    congrArg (fun fuel => generateWithin maxDepth fuel i) hn
  funext r
  show (((routines maxDepth).step maxDepth).generate i).run r = (generate maxDepth i).run r
  rw [fuel]
  by_cases processing : r.table.isProcessing i
  · rw [run_step_generate_again processing, run_generateWithin_again maxDepth n processing]
  · have idle : r.table.isProcessing i = false := by simpa using processing
    refine Prod.ext (Subsingleton.elim _ _) ?_
    rw [run_step_generate idle, run_generateWithin maxDepth n idle]
    have fewer : (r.enter i).idleCount ≤ n := by
      have := Table.idleCount_lt_length (r.isIdle_enter i)
      unfold Run.idleCount
      omega
    have same : (compile maxDepth (defs.get i).schema (.ofDefinition (defs.get i).pointer)).run
        (r.enter i) = (compileDefinition maxDepth n i).run (r.enter i) := by
      refine compileWithin_handlers_congr n ?_ (reaches_generateWithin _) _ _ _ fewer
      intro j r' fewer hj
      exact generateWithin_fuel_eq hj (fewer.trans (by omega)) fewer
    rw [← same]
    rfl

theorem step_routines (maxDepth : Nat) :
    (routines maxDepth : Routines defs).step maxDepth = routines maxDepth := by
  have compile : ((routines maxDepth : Routines defs).step maxDepth).compile =
      (routines maxDepth).compile := funext₂ step_routines_compile
  have generate : ((routines maxDepth : Routines defs).step maxDepth).generate =
      (routines maxDepth).generate := funext step_routines_generate
  exact Routines.ext compile rfl generate

/-- The compilation is the only solution of the recursion. -/
theorem step_eq_iff (f : Routines defs) : f.step maxDepth = f ↔ f = routines maxDepth := by
  constructor
  · intro solves
    have agree : ∀ call, f.Agrees (routines maxDepth) call := by
      intro call
      have acc : Acc (fun next call => next ∈ calls maxDepth call) call := acc_calls call
      induction acc with
      | intro call _ ih =>
        have := agrees_step ih
        rwa [solves, step_routines] at this
    refine Routines.ext ?_ ?_ ?_
    · exact funext₂ fun schema site => funext fun r =>
        agrees_compile_iff.1 (agree (.compile schema site, r))
    · exact funext₂ fun pointer site => funext fun r =>
        agrees_resolve_iff.1 (agree (.resolve pointer site, r))
    · exact funext fun i => funext fun r => agrees_generate_iff.1 (agree (.generate i, r))
  · rintro rfl
    exact step_routines maxDepth

/-- Compiling any schema or reference at any site and generating any definition ends, whatever the
definitions, the limit and the state: the tree of calls is finite, it holds all calls on which an
answer depends, and the compilation is the only solution of the recursion. -/
theorem compilation_terminates (defs : List Definition) (maxDepth : Nat) :
    (∀ call : Task defs × Run defs, ∃ level, callsOnLevel (calls maxDepth) level call = []) ∧
    (∀ (f : Routines defs) (call : Task defs × Run defs),
      (∀ next ∈ calls maxDepth call, f.Agrees (routines maxDepth) next) →
        (f.step maxDepth).Agrees (routines maxDepth) call) ∧
    (∀ f : Routines defs, f.step maxDepth = f ↔ f = routines maxDepth) := by
  refine ⟨fun call => exists_callsOnLevel_eq_nil (acc_calls call), fun f call agree => ?_,
    step_eq_iff⟩
  have step := agrees_step agree
  rwa [step_routines] at step

end SchemaCompiler
