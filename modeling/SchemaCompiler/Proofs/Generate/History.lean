import SchemaCompiler.Proofs.Compile.Whole
import SchemaCompiler.Proofs.Definitions.Log
import SchemaCompiler.Proofs.Generate.Record

/-!
# Histories of generating

Generating definitions is a depth-first walk along references, and so it has the events of one: a
definition is entered, the reference to a definition is compiled, to a lazy one or not, and the
definition is left. A `History` is a run with these events, each with the table in which it began.

References are compiled by the plain handlers on the run so far, so that the run of a history is the
plain one (`historyAll_run`).
-/

namespace SchemaCompiler

variable {defs : List Definition} {maxDepth : Nat}

/-! ## Histories -/

/-- Something that happens while definitions are generated, with the table in which it began. -/
structure Moment (defs : List Definition) where
  event : Search.Event defs.length
  table : Table defs

/-- The state of a compilation, with what has happened. -/
structure History (defs : List Definition) where
  run : Run defs
  moments : List (Moment defs)

section

/-- A step of the compilation at which nothing happens. -/
def silently {α : Type} (step : StateM (Run defs) α) : StateM (History defs) α := fun h =>
  ((step.run h.run).1, { h with run := (step.run h.run).2 })

/-- Note that something begins. -/
def happen (event : Search.Event defs.length) : StateM (History defs) Unit :=
  modify fun h => { h with moments := h.moments ++ [⟨event, h.run.table⟩] }

/-- The reference to a definition has been compiled in the definition `source`. -/
def followed (source : Fin defs.length) (pointer : String) (before : Run defs)
    (out : Validator × Run defs) : List (Moment defs) :=
  match lookup? defs pointer with
  | none => []
  | some j => [⟨.follow source j (out.1 = out.2.table.lazyReferenceTo j), before.table⟩]

/-- Compile a reference in the definition `source` on the run so far. What happens while a missing
definition is generated is that which happens in `history`. -/
def historyReference (generate : Fin defs.length → StateM (Run defs) Unit)
    (history : Fin defs.length → StateM (History defs) Unit) (source : Fin defs.length)
    (pointer : String) (site : Site) : StateM (History defs) Validator := do
  let before := (← get).run
  let out := (resolveWith generate pointer site).run before
  match before.missing pointer with
  | some j => history j
  | none => pure ()
  modify fun h => ⟨out.2, h.moments ++ followed source pointer before out⟩
  return out.1

/-- How the definition `source` is compiled with a history. -/
def historyHandlers (generate : Fin defs.length → StateM (Run defs) Unit)
    (history : Fin defs.length → StateM (History defs) Unit) (source : Fin defs.length) :
    Handlers (History defs) :=
  ⟨historyReference generate history source, fun name site =>
    silently (compileUnknownType name site)⟩

/-- Generate a definition, with at most `fuel` definitions generated inside one another. -/
def historyWithin (maxDepth : Nat) : (fuel : Nat) → Fin defs.length → StateM (History defs) Unit
  | 0, _ => pure ()
  | fuel + 1, i => do
    let site := Site.ofDefinition (defs.get i).pointer
    if (← get).run.table.isProcessing i then
      silently (report (.reentrantDefinition (defs.get i).pointer site))
    else
      happen (.enter i)
      silently (updateTable (·.start i))
      let result ← compileWithin
        (historyHandlers (generateWithin maxDepth fuel) (historyWithin maxDepth fuel) i)
        (roomAt maxDepth 0) (defs.get i).schema site
      happen (.leave i)
      silently (updateTable (·.finish i result))

/-- Generate those of some definitions that have not been generated. -/
def historyEach (maxDepth : Nat) : List (Fin defs.length) → StateM (History defs) Unit
  | [] => pure ()
  | i :: rest => do
    if ((← get).run.table.generated? i).isNone then historyWithin maxDepth defs.length i
    historyEach maxDepth rest

def historyAll (maxDepth : Nat) : StateM (History defs) Unit :=
  historyEach maxDepth (List.finRange defs.length)

end

/-! ## Histories and plain runs -/

section

variable {h : History defs} {source i : Fin defs.length} {pointer : String}
  {generate : Fin defs.length → StateM (Run defs) Unit}
  {history : Fin defs.length → StateM (History defs) Unit}

/-- The history of what is missing for a reference. -/
def History.ready (history : Fin defs.length → StateM (History defs) Unit) (h : History defs)
    (pointer : String) : History defs :=
  match h.run.missing pointer with
  | some j => ((history j).run h).2
  | none => h

theorem run_historyReference (pointer : String) (site : Site) (h : History defs) :
    (historyReference generate history source pointer site).run h =
      (((resolveWith generate pointer site).run h.run).1,
        ⟨((resolveWith generate pointer site).run h.run).2,
          (h.ready history pointer).moments ++
            followed source pointer h.run ((resolveWith generate pointer site).run h.run)⟩) := by
  unfold historyReference History.ready
  simp only [StateT.run_bind, StateT.run_get, pure_bind]
  cases h.run.missing pointer <;> rfl

/-- Compiling a schema with a history is compiling it. -/
theorem run_compileWithin_history (room : Nat) (schema : Schema) (site : Site)
    (h : History defs) :
    (compileWithin (handlers generate) room schema site).run h.run =
      Prod.map id History.run
        ((compileWithin (historyHandlers generate history source) room schema site).run h) := by
  refine compileWithin_view History.run (fun pointer site h => ?_) (fun name site h => ?_) room
    schema site h
  · show _ = Prod.map id History.run ((historyReference generate history source pointer site).run h)
    rw [run_historyReference]
    rfl
  · rfl

/-- What is compiled for a definition, with its history. -/
def historyDefinition (maxDepth fuel : Nat) (i : Fin defs.length) :
    StateM (History defs) Validator :=
  compileWithin (historyHandlers (generateWithin maxDepth fuel) (historyWithin maxDepth fuel) i)
    (roomAt maxDepth 0) (defs.get i).schema (.ofDefinition (defs.get i).pointer)

/-- The history in which the schema of a definition is compiled. -/
def History.enter (h : History defs) (i : Fin defs.length) : History defs :=
  ⟨h.run.enter i, h.moments ++ [⟨.enter i, h.run.table⟩]⟩

/-- The history after the schema of a definition has been compiled. -/
def History.leave (h : History defs) (i : Fin defs.length) (v : Validator) : History defs :=
  ⟨h.run.leave i v, h.moments ++ [⟨.leave i, h.run.table⟩]⟩

theorem run_historyDefinition (maxDepth fuel : Nat) (i : Fin defs.length) (h : History defs) :
    (compileDefinition maxDepth fuel i).run h.run =
      Prod.map id History.run ((historyDefinition maxDepth fuel i).run h) :=
  run_compileWithin_history _ _ _ h

theorem run_historyWithin (fuel : Nat) (hi : h.run.table.isProcessing i = false) :
    ((historyWithin maxDepth (fuel + 1) i).run h).2 =
      ((historyDefinition maxDepth fuel i).run (h.enter i)).2.leave i
        ((historyDefinition maxDepth fuel i).run (h.enter i)).1 := by
  simp [historyWithin, hi]
  rfl

/-- Generating a definition with a history is generating it. -/
theorem historyWithin_run (fuel : Nat) (i : Fin defs.length) (h : History defs) :
    ((historyWithin maxDepth fuel i).run h).2.run =
      ((generateWithin maxDepth fuel i).run h.run).2 := by
  cases fuel with
  | zero => rfl
  | succ fuel =>
    by_cases hi : h.run.table.isProcessing i
    · simp [historyWithin, generateWithin, hi]
      rfl
    · have idle : h.run.table.isProcessing i = false := by simpa using hi
      have inside : (compileDefinition maxDepth fuel i).run (h.run.enter i) = _ :=
        run_historyDefinition maxDepth fuel i (h.enter i)
      rw [run_historyWithin fuel idle, run_generateWithin maxDepth fuel idle, inside]
      rfl

theorem run_historyEach_old (is : List (Fin defs.length))
    (hi : (h.run.table.generated? i).isSome) :
    (historyEach maxDepth (i :: is)).run h = (historyEach maxDepth is).run h := by
  simp [historyEach, Option.isSome_iff_ne_none.1 hi]

theorem run_historyEach_new (is : List (Fin defs.length))
    (hi : h.run.table.generated? i = none) :
    (historyEach maxDepth (i :: is)).run h =
      (historyEach maxDepth is).run ((historyWithin maxDepth defs.length i).run h).2 := by
  simp [historyEach, hi]
  rfl

theorem historyEach_run (is : List (Fin defs.length)) (h : History defs) :
    ((historyEach maxDepth is).run h).2.run = ((generateEach maxDepth is).run h.run).2 := by
  induction is generalizing h with
  | nil => rfl
  | cons i is ih =>
    cases hi : h.run.table.generated? i with
    | none =>
      rw [run_historyEach_new is hi, run_generateEach_new is hi, ih, historyWithin_run]
      rfl
    | some v =>
      have there : (h.run.table.generated? i).isSome := Option.isSome_of_eq_some hi
      rw [run_historyEach_old is there, run_generateEach_old is there, ih]

/-- Generating all definitions with a history is generating them. -/
theorem historyAll_run (h : History defs) :
    ((historyAll maxDepth).run h).2.run = ((generateAll maxDepth).run h.run).2 :=
  historyEach_run _ h

end

end SchemaCompiler
