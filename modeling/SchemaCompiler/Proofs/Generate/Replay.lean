import SchemaCompiler.Proofs.Compile.Whole
import SchemaCompiler.Proofs.Definitions.Detected
import SchemaCompiler.Proofs.Definitions.Operations
import SchemaCompiler.Proofs.Generate.History
import SchemaCompiler.Proofs.Projection.Terminates

/-!
# Generating definitions replays the search for cycles

If schemas are compiled down to all of their references, then what happens while all definitions are
generated is what has happened in the search for cycles: the definitions that are being generated
are the path of the search, and those that are finished are those that it has left (`Replays`). So
a reference is compiled to a lazy one where the search has found an edge back to its path, and the
definition that it names is recursive already.
-/

namespace SchemaCompiler

open Search (Event Logged)

variable {defs : List Definition} {maxDepth : Nat}

/-! ## Histories and logs -/

/-- A history in which the same has happened as in a search that is visiting the nodes on `path`. -/
structure Replays (path : List (Fin defs.length)) (h : History defs) (l : Logged defs.length) :
    Prop where
  processing : ∀ i, h.run.table.isProcessing i ↔ i ∈ path
  generated : ∀ i, (h.run.table.generated? i).isSome ↔ i ∈ l.search.left
  completed : h.run.table.completed = l.search.left
  events : h.moments.map Moment.event = l.events
  marks : h.run.table.MarksCycles
  marked : ∀ m ∈ h.moments, m.table.MarksCycles

/-- A lazy reference is not a plain one: it uses `v.lazy`. -/
theorem Table.referenceTo_ne_lazyReferenceTo (t : Table defs) (i : Fin defs.length) :
    t.referenceTo i ≠ t.lazyReferenceTo i := by
  intro same
  have imports : (∅ : SymbolSet) = .ofList ["lazy"] := congrArg Validator.imports same
  exact absurd imports (by decide)

namespace Replays

variable {path : List (Fin defs.length)} {h : History defs} {l : Logged defs.length}
  {i j : Fin defs.length}

theorem isProcessing_eq_false (replays : Replays path h l) (hi : i ∉ path) :
    h.run.table.isProcessing i = false := by
  rw [← Bool.not_eq_true, replays.processing i]
  exact hi

theorem generated?_eq_none (replays : Replays path h l) (hi : i ∉ l.search.left) :
    h.run.table.generated? i = none := by
  rw [← Option.not_isSome_iff_eq_none, replays.generated i]
  exact hi

theorem silently (replays : Replays path h l) (ds : List Diagnostic) :
    Replays path { h with run := { h.run with diagnostics := ds } } l :=
  { replays with }

theorem events_append (replays : Replays path h l) (e : Event defs.length) (t : Table defs) :
    (h.moments ++ [(⟨e, t⟩ : Moment defs)]).map Moment.event = l.events ++ [e] := by
  rw [List.map_append, replays.events]
  rfl

theorem marked_append (replays : Replays path h l) (e : Event defs.length) {t : Table defs}
    (ht : t.MarksCycles) : ∀ m ∈ h.moments ++ [⟨e, t⟩], m.table.MarksCycles := by
  intro m hm
  rcases List.mem_append.1 hm with hm | hm
  · exact replays.marked m hm
  · obtain rfl := List.mem_singleton.1 hm
    exact ht

theorem enter (replays : Replays path h l) (i : Fin defs.length) :
    Replays (i :: path) (h.enter i) (l.note (.enter i)) where
  processing := Table.isProcessing_start_iff replays.processing i
  generated j := by simpa [History.enter, Run.enter, Logged.note] using replays.generated j
  completed := replays.completed
  events := replays.events_append _ _
  marks j hj := by simpa [History.enter, Run.enter] using replays.marks j hj
  marked := replays.marked_append _ replays.marks

theorem leave (replays : Replays (i :: path) h l) (hi : i ∉ path) (v : Validator) :
    Replays path (h.leave i v) (l.leave i) where
  processing := Table.isProcessing_finish_iff replays.processing hi v
  generated := Table.isSome_generated?_finish_iff replays.generated i v
  completed := by
    simp only [History.leave, Run.leave, Logged.leave, Table.completed_finish, replays.completed]
  events := replays.events_append _ _
  marks j hj := by simpa [History.leave, Run.leave] using replays.marks j hj
  marked := replays.marked_append _ replays.marks

/-! ## References -/

/-- A reference to a definition on the path is lazy. -/
theorem closeCycle (replays : Replays path h l) (source j : Fin defs.length) :
    Replays path
      ⟨{ h.run with table := h.run.table.markRecursive j },
        h.moments ++ [⟨.follow source j true, h.run.table⟩]⟩
      (l.closeCycle path source j) where
  processing k := by simpa using replays.processing k
  generated k := by simpa [Logged.closeCycle] using replays.generated k
  completed := by simpa [Logged.closeCycle] using replays.completed
  events := replays.events_append _ _
  marks k hk := by
    have marked := replays.marks k hk
    rw [Table.isRecursive_markRecursive, marked, Bool.or_true]
  marked := replays.marked_append _ replays.marks

/-- A reference to a definition that is finished is plain. -/
theorem noteFollow (replays : Replays path h l) (source j : Fin defs.length) {t : Table defs}
    (ht : t.MarksCycles) :
    Replays path ⟨h.run, h.moments ++ [⟨.follow source j false, t⟩]⟩
      (l.note (.follow source j false)) where
  processing := replays.processing
  generated := replays.generated
  completed := replays.completed
  events := replays.events_append _ _
  marks := replays.marks
  marked := replays.marked_append _ ht

end Replays

/-- Generating a definition replays a visit to it. -/
def ReplaysVisits (path : List (Fin defs.length))
    (generate : Fin defs.length → StateM (Run defs) Unit)
    (history : Fin defs.length → StateM (History defs) Unit)
    (visit : Fin defs.length → Logged defs.length → Logged defs.length) : Prop :=
  ∀ j h l, j ∉ path → Replays path h l →
    Replays path ((history j).run h).2 (visit j l) ∧
      ((history j).run h).2.run = ((generate j).run h.run).2

/-- What a search does at a reference. -/
def followPointer (visit : Fin defs.length → Logged defs.length → Logged defs.length)
    (path : List (Fin defs.length)) (source : Fin defs.length) (l : Logged defs.length)
    (pointer : String) : Logged defs.length :=
  match lookup? defs pointer with
  | none => l
  | some j => Search.logFollow visit path source l j

section References

variable {path : List (Fin defs.length)} {h : History defs} {l : Logged defs.length}
  {source j : Fin defs.length} {pointer : String} {before : Run defs}
  {generate : Fin defs.length → StateM (Run defs) Unit}
  {history : Fin defs.length → StateM (History defs) Unit}
  {visit : Fin defs.length → Logged defs.length → Logged defs.length}

theorem followPointer_some (found : lookup? defs pointer = some j) :
    followPointer visit path source l pointer = Search.logFollow visit path source l j := by
  unfold followPointer
  rw [found]

theorem followed_lazy (found : lookup? defs pointer = some j) (r : Run defs) :
    followed source pointer before (r.table.lazyReferenceTo j, r) =
      [⟨.follow source j true, before.table⟩] := by
  simp [followed, found]

theorem followed_plain (found : lookup? defs pointer = some j) (r : Run defs) :
    followed source pointer before (r.table.referenceTo j, r) =
      [⟨.follow source j false, before.table⟩] := by
  simp [followed, found, r.table.referenceTo_ne_lazyReferenceTo j]

/-- Nothing is missing for a reference to a definition that is being generated or is finished. -/
theorem History.ready_eq (found : lookup? defs pointer = some j)
    (there : h.run.table.isProcessing j ∨ (h.run.table.generated? j).isSome) :
    h.ready history pointer = h := by
  have nothing : h.run.missing pointer = none := by
    rcases there with processing | finished
    · simp [Run.missing, found, processing]
    · simp [Run.missing, found, Option.isSome_iff_ne_none.1 finished]
  unfold ready
  rw [nothing]

theorem History.ready_new (found : lookup? defs pointer = some j)
    (idle : h.run.table.isProcessing j = false) (none : h.run.table.generated? j = none) :
    h.ready history pointer = ((history j).run h).2 := by
  have missing : h.run.missing pointer = some j := by simp [Run.missing, found, idle, none]
  unfold ready
  rw [missing]

theorem replays_historyReference (visits : ReplaysVisits path generate history visit)
    (replays : Replays path h l) (source : Fin defs.length) (pointer : String) (site : Site) :
    Replays path ((historyReference generate history source pointer site).run h).2
      (followPointer visit path source l pointer) := by
  rw [run_historyReference]
  cases found : lookup? defs pointer with
  | none =>
    rw [run_resolveWith_none site found]
    simpa [followPointer, followed, History.ready, Run.missing, found] using replays.silently _
  | some j =>
    rw [followPointer_some found]
    unfold Search.logFollow
    by_cases on : j ∈ path
    · have processing := (replays.processing j).2 on
      rw [run_resolveWith_lazy site found processing, if_pos (by simpa using on)]
      have moments : followed source pointer h.run
          ((h.run.table.markRecursive j).lazyReferenceTo j,
            { h.run with table := h.run.table.markRecursive j }) =
          [⟨.follow source j true, h.run.table⟩] :=
        followed_lazy found { h.run with table := h.run.table.markRecursive j }
      rw [moments, History.ready_eq found (.inl processing)]
      exact replays.closeCycle source j
    · have idle := replays.isProcessing_eq_false on
      rw [if_neg (by simpa using on)]
      by_cases gone : j ∈ l.search.left
      · have finished := (replays.generated j).2 gone
        rw [run_resolveWith_old site found idle finished, if_pos (by simpa using gone),
          followed_plain found, History.ready_eq found (.inr finished)]
        exact replays.noteFollow source j replays.marks
      · have none := replays.generated?_eq_none gone
        obtain ⟨visited, run⟩ := visits j h l on replays
        rw [run_resolveWith_new site found idle none, if_neg (by simpa using gone),
          followed_plain found, History.ready_new found idle none, ← run]
        exact visited.noteFollow source j replays.marks

end References

/-! ## Definitions -/

/-- What a search does at the edges of a definition, it does at the references of its schema. -/
theorem foldl_followPointer (visit : Fin defs.length → Logged defs.length → Logged defs.length)
    (path : List (Fin defs.length)) (i : Fin defs.length) (l : Logged defs.length) :
    (defs.get i).schema.references.foldl (followPointer visit path i) l =
      (referenced defs i).foldl (Search.logFollow visit path i) l := by
  unfold referenced
  rw [List.foldl_filterMap]
  congr 1
  funext l pointer
  unfold followPointer
  cases lookup? defs pointer <;> rfl

/-- The definitions whose schemas are compiled down to all of their references. -/
def Reaching (defs : List Definition) (maxDepth : Nat) : Prop :=
  ∀ d ∈ defs, d.schema.height ≤ maxDepth

theorem replays_historyDefinition (reaching : Reaching defs maxDepth) (fuel : Nat)
    {path : List (Fin defs.length)} {h : History defs} {l : Logged defs.length}
    (visits : ReplaysVisits path (generateWithin maxDepth fuel) (historyWithin maxDepth fuel)
      (Search.logVisit (referenced defs) fuel path))
    (i : Fin defs.length) (replays : Replays path h l) :
    Replays path ((historyDefinition maxDepth fuel i).run h).2
      ((referenced defs i).foldl
        (Search.logFollow (Search.logVisit (referenced defs) fuel path) path i) l) := by
  have room : (defs.get i).schema.height < roomAt maxDepth 0 := by
    have := reaching _ (List.get_mem _ i)
    unfold roomAt
    omega
  rw [← foldl_followPointer]
  refine related_compileWithin (R := Replays path) (fun pointer site h l replays => ?_)
    (fun name site h l replays => ?_) room _ replays
  · exact replays_historyReference visits replays i pointer site
  · exact replays.silently _

/-- Generating a definition replays a visit to it, with as much fuel. -/
theorem replaysVisits (reaching : Reaching defs maxDepth) (fuel : Nat)
    (path : List (Fin defs.length)) :
    ReplaysVisits path (generateWithin maxDepth fuel) (historyWithin maxDepth fuel)
      (Search.logVisit (referenced defs) fuel path) := by
  induction fuel generalizing path with
  | zero => exact fun j h l _ replays => ⟨replays, rfl⟩
  | succ fuel ih =>
    intro i h l new replays
    refine ⟨?_, historyWithin_run _ i h⟩
    rw [run_historyWithin fuel (replays.isProcessing_eq_false new), Search.logVisit]
    have compiled := replays_historyDefinition reaching fuel (ih (i :: path)) i (replays.enter i)
    exact compiled.leave new _

theorem replays_historyEach (reaching : Reaching defs maxDepth) (is : List (Fin defs.length))
    {h : History defs} {l : Logged defs.length} (replays : Replays [] h l) :
    Replays [] ((historyEach maxDepth is).run h).2
      (is.foldl (Search.logEnter (referenced defs)) l) := by
  induction is generalizing h l with
  | nil => exact replays
  | cons i is ih =>
    rw [List.foldl_cons]
    unfold Search.logEnter
    by_cases gone : i ∈ l.search.left
    · have finished := (replays.generated i).2 gone
      rw [run_historyEach_old is finished, if_pos (by simpa using gone)]
      exact ih replays
    · have none := replays.generated?_eq_none gone
      rw [run_historyEach_new is none, if_neg (by simpa using gone)]
      exact ih (replaysVisits reaching defs.length [] i h l (by simp) replays).1

/-! ## Whole runs -/

theorem replays_start (names : NameSupply) :
    Replays [] ⟨Run.start defs names, []⟩ ({} : Logged defs.length) where
  processing i := by simp [Run.start, Table.isProcessing_detectCycles_fresh]
  generated i := by simp [Run.start, Table.generated?_detectCycles_fresh]
  completed := by simp [Run.start, Table.completed_detectCycles_fresh]
  events := rfl
  marks := marksCycles_start names
  marked := by simp

/-- Generating all definitions of a root schema replays the search for cycles, if no definition is
higher than the limit: what happens is what has happened in the search, the definitions are finished
in the order in which the search has left them, and a definition to which a lazy reference is made
is recursive already. -/
theorem generateAll_replays (root : Schema) (reserved : List String) (maxDepth : Nat)
    (reaching : ∀ d ∈ (root.definitions reserved).1, d.schema.height ≤ maxDepth) :
    let defs := (root.definitions reserved).1
    let start := Run.initial root reserved
    let h := ((historyAll maxDepth).run ⟨start, []⟩).2
    let log := Search.log (referenced defs)
    (h.run = ((generateAll maxDepth).run start).2 ∧ log.search = Search.run (referenced defs)) ∧
    h.run.table.completed = log.search.left ∧
    h.moments.map Moment.event = log.events ∧
    ∀ m ∈ h.moments, ∀ i j, m.event = .follow i j true → m.table.markRecursive j = m.table := by
  intro defs start h log
  have replays : Replays [] h log :=
    replays_historyEach reaching (List.finRange _) (replays_start _)
  refine ⟨⟨historyAll_run _, Search.search_log _⟩, replays.completed, replays.events,
    fun m hm i j follow => ?_⟩
  have back : .follow i j true ∈ log.events := by
    rw [← replays.events, ← follow]
    exact List.mem_map_of_mem hm
  have cyclic : j ∈ Table.cyclic defs := Search.mem_cyclic_of_follow back
  exact Table.markRecursive_of_isRecursive (replays.marked m hm j cyclic)

namespace crossedCycles

theorem height_le : ∀ d ∈ (crossedCycles.definitions []).1, d.schema.height ≤ 1 := by
  have leaf : ∀ key, (toDefinition key).height ≤ 0 := fun key =>
    Schema.height_le_iff.2 fun x (hx : x ∈ []) => by simp at hx
  have inner : (Schema.object { allOf := some [toDefinition "B", toDefinition "C"] }).height ≤ 1 :=
    Schema.height_le_iff.2 fun x (hx : x ∈ [toDefinition "B", toDefinition "C"]) => by
      rcases List.mem_cons.1 hx with rfl | hx
      · exact Nat.lt_succ_of_le (leaf "B")
      · obtain rfl := List.mem_singleton.1 hx
        exact Nat.lt_succ_of_le (leaf "C")
  intro d hd
  obtain ⟨i, rfl⟩ := List.get_of_mem hd
  rcases cases_position i with rfl | rfl | rfl
  · exact inner
  · exact Nat.le_succ_of_le (leaf "A")
  · exact Nat.le_succ_of_le (leaf "B")

/-- `B` is finished when `C` is entered, so `C` refers to it by a plain reference. -/
theorem generateAll_replays_crossedCycles :
    (∀ d ∈ (crossedCycles.definitions []).1, d.schema.height ≤ 1) ∧
    let h := ((historyAll 1).run ⟨Run.initial crossedCycles [], []⟩).2
    h.run.table.completed = [position 1, position 2, position 0] ∧
    h.moments.map Moment.event = [
      .enter (position 0),
      .enter (position 1), .follow (position 1) (position 0) true, .leave (position 1),
      .follow (position 0) (position 1) false,
      .enter (position 2), .follow (position 2) (position 1) false, .leave (position 2),
      .follow (position 0) (position 2) false,
      .leave (position 0)] := by
  refine ⟨height_le, ?_⟩
  obtain ⟨_, completed, events, _⟩ := generateAll_replays crossedCycles [] 1 height_le
  rw [referenced_eq] at completed events
  refine ⟨completed.trans ?_, events.trans ?_⟩
  · decide +kernel
  · decide +kernel

end crossedCycles

end SchemaCompiler
