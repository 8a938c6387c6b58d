import SchemaCompiler.Convert
import SchemaCompiler.Proofs.Generate.Calls

/-!
# Recorded compilations

A compilation that notes, at each reference, what it compiles to and in which state that is: the
definitions of this module follow those of `Generate` step by step and add to a log.
`run_recordRoot` says that apart from the log nothing is different, and what the log holds is
`Recorded.Sound`: each entry was right at its moment, and all that was settled then still is.
-/

namespace SchemaCompiler

variable {defs : List Definition} {maxDepth : Nat}

/-! ## Recording -/

/-- A reference that has been compiled, with the state in which its validator was returned. -/
structure Resolution (defs : List Definition) where
  pointer : String
  run : Run defs
  result : Validator

/-- The state of a compilation, with the references that it has compiled. -/
structure Recorded (defs : List Definition) where
  run : Run defs
  log : List (Resolution defs)

section

/-- A step of the compilation. -/
def onRun {α : Type} (step : StateM (Run defs) α) : StateM (Recorded defs) α := fun s =>
  ((step.run s.run).1, { s with run := (step.run s.run).2 })

/-- Note a reference that has been compiled. -/
def note (pointer : String) (result : Validator) : StateM (Recorded defs) Unit :=
  modify fun s => { s with log := s.log ++ [⟨pointer, s.run, result⟩] }

/-- The definition that has to be generated before a reference can be compiled. -/
def Run.missing (r : Run defs) (pointer : String) : Option (Fin defs.length) :=
  (lookup? defs pointer).filter fun i =>
    !r.table.isProcessing i && (r.table.generated? i).isNone

/-- Compile a reference, generating a definition that is not there yet by `generate`, and note
it. -/
def recordWith (generate : Fin defs.length → StateM (Recorded defs) Unit) (pointer : String)
    (site : Site) : StateM (Recorded defs) Validator := do
  match (← get).run.missing pointer with
  | some i => generate i
  | none => pure ()
  let result ← onRun (resolveWith (fun _ => pure ()) pointer site)
  note pointer result
  return result

/-- How schemas are compiled while references are noted. -/
def recordHandlers (generate : Fin defs.length → StateM (Recorded defs) Unit) :
    Handlers (Recorded defs) :=
  ⟨recordWith generate, fun name site => onRun (compileUnknownType name site)⟩

/-- Generate a definition, with at most `fuel` definitions generated inside one another. -/
def recordDefinitionWithin (maxDepth : Nat) :
    (fuel : Nat) → Fin defs.length → StateM (Recorded defs) Unit
  | 0, _ => pure ()
  | fuel + 1, i => do
    let site := Site.ofDefinition (defs.get i).pointer
    if (← get).run.table.isProcessing i then
      onRun (report (.reentrantDefinition (defs.get i).pointer site))
    else
      onRun (updateTable (·.start i))
      let result ← compileWithin (recordHandlers (recordDefinitionWithin maxDepth fuel))
        (roomAt maxDepth 0) (defs.get i).schema site
      onRun (updateTable (·.finish i result))

/-- Generate those of some definitions that have not been generated. -/
def recordEach (maxDepth : Nat) : List (Fin defs.length) → StateM (Recorded defs) Unit
  | [] => pure ()
  | i :: rest => do
    if ((← get).run.table.generated? i).isNone then
      recordDefinitionWithin maxDepth defs.length i
    recordEach maxDepth rest

/-- Compile all definitions and then the root schema. -/
def recordRoot (defs : List Definition) (names : NameSupply) (maxDepth : Nat) (schema : Schema) :
    Validator × Recorded defs :=
  let steps : StateM (Recorded defs) Validator := do
    recordEach maxDepth (List.finRange defs.length)
    compileWithin (recordHandlers (recordDefinitionWithin maxDepth defs.length))
      (roomAt maxDepth Site.root.depth) schema .root
  steps.run ⟨.start defs names, []⟩

end

/-! ## What is recorded -/

/-- Each reference was compiled in a sound state to what it stands for there, and what was settled
then still is. -/
def Recorded.Sound (maxDepth : Nat) (s : Recorded defs) : Prop :=
  ∀ e ∈ s.log, ∃ stack, e.run.Sound maxDepth stack ∧ e.run.Resolves stack e.pointer e.result ∧
    e.run.table.Extends s.run.table

namespace Recorded.Sound

variable {s : Recorded defs} {stack : List (Fin defs.length)}

theorem advance (h : s.Sound maxDepth) {r : Run defs} (grows : s.run.table.Extends r.table) :
    Recorded.Sound maxDepth { s with run := r } := by
  intro e he
  obtain ⟨stack, sound, resolves, ext⟩ := h e he
  exact ⟨stack, sound, resolves, ext.trans grows⟩

theorem add (h : s.Sound maxDepth) (sound : s.run.Sound maxDepth stack) {pointer : String}
    {v : Validator} (resolves : s.run.Resolves stack pointer v) :
    Recorded.Sound maxDepth { s with log := s.log ++ [⟨pointer, s.run, v⟩] } := by
  intro e he
  rcases List.mem_append.1 he with he | he
  · exact h e he
  · obtain rfl := List.mem_singleton.1 he
    exact ⟨stack, sound, resolves, .refl _⟩

end Recorded.Sound

/-! ## Recorded and plain steps -/

/-- A recorded compilation beside the plain one. -/
def besideRun (maxDepth : Nat) (stack : List (Fin defs.length)) :
    Comparison (Recorded defs) (Run defs) where
  Sites := Eq
  under keyword h := congrArg (·.under keyword) h
  member keyword name h := congrArg (·.member keyword name) h
  Related s r := s.run = r ∧ r.Sound maxDepth stack ∧ s.Sound maxDepth
  Moves _ _ := True
  refl _ := trivial
  trans _ _ := trivial
  Settled _ := True
  settled_of_moves _ _ := trivial

/-- Generating a definition is recorded as it is. -/
def Records (maxDepth : Nat) (stack : List (Fin defs.length))
    (record : Fin defs.length → StateM (Recorded defs) Unit)
    (generate : Fin defs.length → StateM (Run defs) Unit) : Prop :=
  ∀ i s, Trail (Refers defs) (i :: stack) → s.run.Sound maxDepth stack → s.Sound maxDepth →
    i ∉ s.run.table.completed →
      ((record i).run s).2.run = ((generate i).run s.run).2 ∧
        ((record i).run s).2.Sound maxDepth

section

variable {stack : List (Fin defs.length)} {s : Recorded defs} {pointer : String}
  {record : Fin defs.length → StateM (Recorded defs) Unit}
  {generate : Fin defs.length → StateM (Run defs) Unit}

/-- The state in which what is missing for a reference has been generated. -/
def Recorded.ready (record : Fin defs.length → StateM (Recorded defs) Unit) (s : Recorded defs)
    (pointer : String) : Recorded defs :=
  match s.run.missing pointer with
  | some i => ((record i).run s).2
  | none => s

theorem run_recordWith (site : Site) :
    (recordWith record pointer site).run s =
      let out := (resolveWith (fun _ => pure ()) pointer site).run (s.ready record pointer).run
      (out.1, ⟨out.2, (s.ready record pointer).log ++ [⟨pointer, out.2, out.1⟩]⟩) := by
  unfold recordWith Recorded.ready
  simp only [StateT.run_bind, StateT.run_get, pure_bind]
  cases s.run.missing pointer <;> rfl

/-- If nothing is missing for a reference, it does not matter how definitions are generated. -/
theorem run_resolveWith_of_missing_eq_none {r : Run defs}
    {generate' : Fin defs.length → StateM (Run defs) Unit} (h : r.missing pointer = none)
    (site : Site) :
    (resolveWith generate pointer site).run r = (resolveWith generate' pointer site).run r := by
  cases found : lookup? defs pointer with
  | none => rw [run_resolveWith_none site found, run_resolveWith_none site found]
  | some i =>
    by_cases processing : r.table.isProcessing i
    · rw [run_resolveWith_lazy site found processing, run_resolveWith_lazy site found processing]
    · have idle : r.table.isProcessing i = false := by simpa using processing
      have there : (r.table.generated? i).isSome := by
        simpa [Run.missing, found, idle, Option.isSome_iff_ne_none] using h
      rw [run_resolveWith_old site found idle there, run_resolveWith_old site found idle there]

/-- Once what is missing for a reference has been generated, the reference compiles to the same,
with nothing more to generate. -/
theorem resolveWith_ready (gen : Generates maxDepth stack generate)
    (records : Records maxDepth stack record generate) (trail : Trail (Refers defs) stack)
    (follows : Follows stack pointer) (h : s.run.Sound maxDepth stack) (hs : s.Sound maxDepth)
    (site : Site) :
    (resolveWith (fun _ => pure ()) pointer site).run (s.ready record pointer).run =
        (resolveWith generate pointer site).run s.run ∧
      (s.ready record pointer).Sound maxDepth ∧
      (s.ready record pointer).run.table.Extends
        ((resolveWith generate pointer site).run s.run).2.table := by
  have grows := (resolves_resolveWith gen trail follows h site).1.grows
  unfold Recorded.ready
  cases missing : s.run.missing pointer with
  | none => exact ⟨run_resolveWith_of_missing_eq_none missing site, hs, grows⟩
  | some i =>
    obtain ⟨found, new⟩ := Option.filter_eq_some_iff.1 missing
    simp only [Bool.and_eq_true, Bool.not_eq_true', Option.isNone_iff_eq_none] at new
    obtain ⟨idle, none⟩ := new
    have outside : i ∉ stack := fun hi => by simp [(h.processing i).2 hi] at idle
    have unfinished : i ∉ s.run.table.completed := fun hi => by
      have there := (h.generated i).2 hi
      simp [none] at there
    have trail' := trail.cons outside fun last hl => follows last hl i found
    obtain ⟨same, sound⟩ := records i s trail' h hs unfinished
    obtain ⟨step, done⟩ := gen i s.run trail' h unfinished
    rw [run_resolveWith_new site found idle none, ← same]
    rw [← same] at step done
    -- The definition is finished now, so its binding is returned in either case.
    refine ⟨?_, sound, .refl _⟩
    exact run_resolveWith_old site found (step.sound.isProcessing_eq_false outside)
      ((step.sound.generated i).2 done)

/-- Recording a reference is compiling it. -/
theorem alike_recordWith (gen : Generates maxDepth stack generate)
    (records : Records maxDepth stack record generate) (trail : Trail (Refers defs) stack)
    (follows : Follows stack pointer) :
    (besideRun maxDepth stack).AlikeOn (recordHandlers record) (handlers generate) pointer := by
  rintro a _ rfl s _ ⟨rfl, h, hs⟩
  obtain ⟨same, sound, grows⟩ := resolveWith_ready gen records trail follows h hs a
  obtain ⟨step, resolves⟩ := resolves_resolveWith gen trail follows h a
  cases run : (resolveWith generate pointer a).run s.run with | mk v r =>
  rw [run] at same grows step resolves
  simp only [recordHandlers, handlers, run_recordWith, same, run]
  exact ⟨⟨rfl, step.sound, (sound.advance grows).add step.sound resolves⟩, trivial,
    fun _ => trivial⟩

/-- Compiling a schema is recorded as it is. -/
theorem compileWithin_record (gen : Generates maxDepth stack generate)
    (records : Records maxDepth stack record generate) (trail : Trail (Refers defs) stack)
    {schema : Schema} (follows : ∀ pointer ∈ schema.references, Follows stack pointer)
    (h : s.run.Sound maxDepth stack) (hs : s.Sound maxDepth) (room : Nat) (site : Site)
    {v : Validator} {r : Run defs}
    (run : (compileWithin (handlers generate) room schema site).run s.run = (v, r)) :
    ∃ s', (compileWithin (recordHandlers record) room schema site).run s = (v, s') ∧
      s'.run = r ∧ s'.Sound maxDepth := by
  have alike : (besideRun maxDepth stack).Alike
      (compileWithin (recordHandlers record) room schema site)
      (compileWithin (handlers generate) room schema site) := by
    refine Comparison.alike_compileWithin ?_ room (fun pointer mem => ?_) rfl
    · rintro name a _ rfl s _ ⟨rfl, h, hs⟩
      exact ⟨⟨rfl, h.report (by simp [Diagnostic.unknownType]), hs.advance (.refl _)⟩, trivial,
        fun _ => rfl⟩
    · exact alike_recordWith gen records trail (follows pointer mem)
  obtain ⟨⟨same, _, sound⟩, _, result⟩ := alike s s.run ⟨rfl, h, hs⟩
  rw [run] at same result
  exact ⟨_, Prod.ext (result trivial) rfl, same, sound⟩

end

/-- What is compiled for a definition, recorded. -/
def recordDefinition (maxDepth fuel : Nat) (i : Fin defs.length) :
    StateM (Recorded defs) Validator :=
  compileWithin (recordHandlers (recordDefinitionWithin maxDepth fuel)) (roomAt maxDepth 0)
    (defs.get i).schema (.ofDefinition (defs.get i).pointer)

theorem run_recordDefinitionWithin (fuel : Nat) {i : Fin defs.length} {s : Recorded defs}
    (hi : s.run.table.isProcessing i = false) :
    ((recordDefinitionWithin maxDepth (fuel + 1) i).run s).2 =
      let out := (recordDefinition maxDepth fuel i).run { s with run := s.run.enter i }
      { out.2 with run := out.2.run.leave i out.1 } := by
  simp [recordDefinitionWithin, hi]
  rfl

/-- Generating definitions is recorded as it is. -/
theorem records_recordDefinitionWithin (fuel : Nat) {stack : List (Fin defs.length)}
    (enough : defs.length ≤ stack.length + fuel) :
    Records maxDepth stack (recordDefinitionWithin maxDepth fuel)
      (generateWithin maxDepth fuel) := by
  induction fuel generalizing stack with
  | zero =>
    intro i s trail
    have := trail.length_le
    simp only [List.length_cons] at this
    omega
  | succ fuel ih =>
    intro i s trail h hs hi
    have idle := h.isProcessing_eq_false trail.not_mem_tail
    have enough' : defs.length ≤ (i :: stack).length + fuel := by
      simp only [List.length_cons]
      omega
    have gen : Generates maxDepth (i :: stack) (generateWithin maxDepth fuel) :=
      generates_generateWithin fuel enough'
    have follows := follows_definition i stack
    have none := h.generated?_eq_none hi
    cases run : (compileDefinition maxDepth fuel i).run (s.run.enter i) with | mk v r =>
    obtain ⟨step, _⟩ := compiles_sound gen trail follows _ _ (h.enter hi) run
    have entered : Recorded.Sound maxDepth { s with run := s.run.enter i } :=
      hs.advance (Table.extends_start (by simp [none]))
    obtain ⟨s', run', rfl, sound⟩ :
        ∃ s', (recordDefinition maxDepth fuel i).run { s with run := s.run.enter i } = (v, s') ∧
          s'.run = r ∧ s'.Sound maxDepth :=
      compileWithin_record gen (ih enough') trail follows (h.enter hi) entered _ _ run
    have none' := step.sound.generated?_eq_none (step.sound.pending i (by simp))
    rw [run_recordDefinitionWithin fuel idle, run_generateWithin maxDepth fuel idle, run, run']
    exact ⟨rfl, sound.advance (Table.extends_finish (by simp [none']))⟩

/-! ## Whole compilations -/

theorem run_recordEach_old {i : Fin defs.length} {s : Recorded defs} (is : List (Fin defs.length))
    (h : (s.run.table.generated? i).isSome) :
    (recordEach maxDepth (i :: is)).run s = (recordEach maxDepth is).run s := by
  simp [recordEach, Option.isSome_iff_ne_none.1 h]

theorem run_recordEach_new {i : Fin defs.length} {s : Recorded defs} (is : List (Fin defs.length))
    (h : s.run.table.generated? i = none) :
    (recordEach maxDepth (i :: is)).run s =
      (recordEach maxDepth is).run ((recordDefinitionWithin maxDepth defs.length i).run s).2 := by
  simp [recordEach, h]
  rfl

theorem recordEach_record {s : Recorded defs} (h : s.run.Sound maxDepth [])
    (hs : s.Sound maxDepth) (is : List (Fin defs.length)) :
    ((recordEach maxDepth is).run s).2.run = ((generateEach maxDepth is).run s.run).2 ∧
      ((recordEach maxDepth is).run s).2.Sound maxDepth := by
  induction is generalizing s with
  | nil => exact ⟨rfl, hs⟩
  | cons i is ih =>
    by_cases hi : i ∈ s.run.table.completed
    · have there := (h.generated i).2 hi
      rw [run_recordEach_old is there, run_generateEach_old is there]
      exact ih h hs
    · have none := h.generated?_eq_none hi
      have trail : Trail (Refers defs) [i] := .cons .nil (by simp) (by simp)
      obtain ⟨same, sound⟩ :=
        records_recordDefinitionWithin defs.length (by simp) i s trail h hs hi
      obtain ⟨step, _⟩ := generates_generate i s.run trail h hi
      rw [run_recordEach_new is none, run_generateEach_new is none, generate, ← same]
      rw [generate, ← same] at step
      exact ih step.sound sound

/-- A recorded compilation is the plain one, and all that is recorded was right at its moment. -/
theorem recordRoot_record (defs : List Definition) (names : NameSupply) (maxDepth : Nat)
    (schema : Schema) :
    (recordRoot defs names maxDepth schema).1 = (compileRoot defs names maxDepth schema).root ∧
      (recordRoot defs names maxDepth schema).2.run =
        (compileRoot defs names maxDepth schema).run ∧
      (recordRoot defs names maxDepth schema).2.Sound maxDepth := by
  have start : (Run.start defs names).Sound maxDepth [] := Run.sound_start names
  obtain ⟨same, sound⟩ := recordEach_record (s := ⟨.start defs names, []⟩) start
    (fun e he => by simp at he) (List.finRange defs.length)
  have generated := (step_generateAll start).1.sound
  obtain ⟨s, run, final, sound⟩ := compileWithin_record generates_generate
    (records_recordDefinitionWithin defs.length (by simp)) .nil
    (fun p (_ : p ∈ schema.references) => follows_nil p)
    (same ▸ generated) sound (roomAt maxDepth Site.root.depth) .root rfl
  have root : recordRoot defs names maxDepth schema = _ := run
  rw [same] at root final
  exact ⟨congrArg Prod.fst root, (congrArg (·.2.run) root).trans final, root ▸ sound⟩

end SchemaCompiler
