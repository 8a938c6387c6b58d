import SchemaCompiler.Proofs.Compile.Sightings
import SchemaCompiler.Proofs.Generate.Idle

/-!
# What is reported, and where

Compiling a schema meets its references and unknown type names in order. An unknown type name and a
reference to no definition are reported, with the pointer of the schema that has them; the first
reference to a definition that is idle has the definition generated, which reports what its own
schema leads to on the spot; any later reference to it reports nothing. `Reports` says so without a
compiler, as a relation between what is met and what is reported.

`finds_compile` says that a compilation appends just these reports, in any state. Each report comes
from a definition or from outside, and a definition that is generated has its reports once
(`Reports.of_origin`), so all of them are known after any calls (`diagnostics_exact`).
-/

namespace SchemaCompiler

variable {defs : List Definition} {maxDepth : Nat}

/-! ## Findings -/

/-- What there is to do about a reference or an unknown type name. -/
inductive Finding (n : Nat) where
  /-- The reference is to a definition. -/
  | definition (i : Fin n)
  | diagnostic (d : Diagnostic)

/-- A reference to no definition leads out of the document unless it begins with `#`. -/
def danglingKind (pointer : String) : DiagnosticKind :=
  if pointer.toList.head? = some '#' then .unresolvedReference else .unsupportedReference

/-- What there is to do about a subject of the schema under a path. -/
def Subject.finding (defs : List Definition) (path : List String) :
    Subject → Finding defs.length
  | .reference pointer =>
    match lookup? defs pointer with
    | some i => .definition i
    | none => .diagnostic ⟨danglingKind pointer, pointerText path,
        "cannot resolve `$ref` " ++ pointer ++ "; using v.any()"⟩
  | .unknownType name => .diagnostic ⟨.unknownType, pointerText path,
      "unknown type `" ++ name ++ "`; using v.any()"⟩

/-- All findings in a schema at a site, in order. -/
def Schema.findings (defs : List Definition) (maxDepth : Nat) (schema : Schema) (site : Site) :
    List (Finding defs.length) :=
  (schema.seenFrom maxDepth site).map fun (subject, site) => subject.finding defs site.path

/-- All findings in the schema of a definition. -/
def definitionFindings (maxDepth : Nat) (i : Fin defs.length) : List (Finding defs.length) :=
  (defs.get i).schema.findings defs maxDepth (.ofDefinition (defs.get i).pointer)

section Finding

variable {pointer : String} {site : Site}

theorem danglingReference_eq (pointer : String) (site : Site) :
    Diagnostic.danglingReference pointer site = ⟨danglingKind pointer, pointerText site.path,
      "cannot resolve `$ref` " ++ pointer ++ "; using v.any()"⟩ := by
  unfold Diagnostic.danglingReference danglingKind
  congr 1
  split
  next h => simp [h]
  next h =>
    rw [if_neg]
    intro head
    obtain ⟨rest, eq⟩ := List.head?_eq_some_iff.1 head
    exact h rest eq

theorem finding_reference_none (h : lookup? defs pointer = none) :
    (Subject.reference pointer).finding defs site.path =
      .diagnostic (.danglingReference pointer site) := by
  rw [danglingReference_eq]
  simp [Subject.finding, h]

theorem finding_reference_some {i : Fin defs.length} (h : lookup? defs pointer = some i) :
    (Subject.reference pointer).finding defs site.path = .definition i := by
  simp [Subject.finding, h]

theorem finding_unknownType (name : String) :
    (Subject.unknownType name).finding defs site.path = .diagnostic (.unknownType name site) := rfl

end Finding

/-! ## Reports -/

/-- A diagnostic, with the definition whose schema it is about if it is about one. -/
structure Report (n : Nat) where
  origin : Option (Fin n)
  diagnostic : Diagnostic

/-- What is reported while some findings are gone through that come from a definition or from
outside, where the definitions in one set have not been generated before and those in another have
not been afterwards. -/
inductive Reports {defs : List Definition} (maxDepth : Nat) :
    Option (Fin defs.length) → Finset (Fin defs.length) → List (Finding defs.length) →
      List (Report defs.length) → Finset (Fin defs.length) → Prop where
  | nil {origin idle} : Reports maxDepth origin idle [] [] idle
  | diagnostic {origin idle fs reports left} (d : Diagnostic)
      (rest : Reports maxDepth origin idle fs reports left) :
      Reports maxDepth origin idle (.diagnostic d :: fs) (⟨origin, d⟩ :: reports) left
  | known {origin idle fs reports left} {i : Fin defs.length} (old : i ∉ idle)
      (rest : Reports maxDepth origin idle fs reports left) :
      Reports maxDepth origin idle (.definition i :: fs) reports left
  | first {origin idle fs own between reports left} {i : Fin defs.length} (new : i ∈ idle)
      (inside : Reports maxDepth (some i) (idle.erase i) (definitionFindings maxDepth i) own
        between)
      (rest : Reports maxDepth origin between fs reports left) :
      Reports maxDepth origin idle (.definition i :: fs) (own ++ reports) left

namespace Reports

variable {origin : Option (Fin defs.length)} {idle between left left' : Finset (Fin defs.length)}
  {fs gs : List (Finding defs.length)} {reports reports' : List (Report defs.length)}

theorem append (h : Reports maxDepth origin idle fs reports between)
    (h' : Reports maxDepth origin between gs reports' left) :
    Reports maxDepth origin idle (fs ++ gs) (reports ++ reports') left := by
  induction h with
  | nil => exact h'
  | diagnostic d _ ih => exact .diagnostic d (ih h')
  | known old _ ih => exact .known old (ih h')
  | first new inside _ _ ih =>
    rw [List.append_assoc]
    exact .first new inside (ih h')

/-- What is reported, and which definitions are generated meanwhile, is determined. -/
theorem unique (h : Reports maxDepth origin idle fs reports left)
    (h' : Reports maxDepth origin idle fs reports' left') : reports = reports' ∧ left = left' := by
  induction h generalizing reports' left' with
  | nil =>
    cases h'
    exact ⟨rfl, rfl⟩
  | diagnostic d _ ih =>
    cases h' with | diagnostic _ rest =>
    obtain ⟨rfl, rfl⟩ := ih rest
    exact ⟨rfl, rfl⟩
  | known old _ ih =>
    cases h' with
    | known _ rest => exact ih rest
    | first new => exact absurd new old
  | first new _ _ ihInside ih =>
    cases h' with
    | known old => exact absurd new old
    | first _ inside rest =>
      obtain ⟨rfl, rfl⟩ := ihInside inside
      obtain ⟨rfl, rfl⟩ := ih rest
      exact ⟨rfl, rfl⟩

theorem left_subset (h : Reports maxDepth origin idle fs reports left) : left ⊆ idle := by
  induction h with
  | nil => exact Finset.Subset.refl _
  | diagnostic _ _ ih | known _ _ ih => exact ih
  | first _ _ _ ihInside ih => exact ih.trans (ihInside.trans (Finset.erase_subset _ _))

end Reports

/-! ## What runs report -/

/-- The definitions that have not been generated and are not being generated. -/
def Table.idle (t : Table defs) : Finset (Fin defs.length) := Finset.univ.filter fun i => t.isIdle i

theorem Table.mem_idle {t : Table defs} {i : Fin defs.length} : i ∈ t.idle ↔ t.isIdle i := by
  simp [Table.idle]

/-- From one state to another the reports about some findings have been appended, and the
definitions that were generated for them are not idle any more. -/
def Run.Finds (maxDepth : Nat) (origin : Option (Fin defs.length))
    (fs : List (Finding defs.length)) (r r' : Run defs) : Prop :=
  ∃ reports, Reports maxDepth origin r.table.idle fs reports r'.table.idle ∧
    r'.diagnostics = r.diagnostics ++ reports.map (·.diagnostic)

namespace Run.Finds

variable {origin : Option (Fin defs.length)} {fs gs : List (Finding defs.length)}
  {r r' r'' : Run defs} {i : Fin defs.length}

theorem nothing (r : Run defs) : r.Finds maxDepth origin [] r := ⟨[], .nil, by simp⟩

theorem append (h : r.Finds maxDepth origin fs r') (h' : r'.Finds maxDepth origin gs r'') :
    r.Finds maxDepth origin (fs ++ gs) r'' := by
  obtain ⟨reports, found, appended⟩ := h
  obtain ⟨reports', found', appended'⟩ := h'
  refine ⟨reports ++ reports', found.append found', ?_⟩
  rw [appended', appended, List.map_append, List.append_assoc]

theorem idleCount_le (h : r.Finds maxDepth origin fs r') : r'.idleCount ≤ r.idleCount := by
  obtain ⟨_, found, _⟩ := h
  exact Finset.card_le_card found.left_subset

theorem diagnostic (r : Run defs) (d : Diagnostic) :
    r.Finds maxDepth origin [.diagnostic d] { r with diagnostics := r.diagnostics ++ [d] } :=
  ⟨[⟨origin, d⟩], .diagnostic d .nil, rfl⟩

/-- Nothing is found at a definition that is not idle, whatever is done to its binding. -/
theorem known (hi : r.table.isIdle i = false) {t : Table defs}
    (idle : ∀ j, t.isIdle j = r.table.isIdle j) :
    r.Finds maxDepth origin [.definition i] { r with table := t } := by
  have same : t.idle = r.table.idle := by
    ext j
    rw [Table.mem_idle, Table.mem_idle, idle]
  refine ⟨[], ?_, by simp⟩
  rw [same]
  refine .known ?_ .nil
  rw [Table.mem_idle, hi]
  exact Bool.false_ne_true

/-- What is found at an idle definition is found after its generation has begun. -/
theorem first (hi : r.table.isIdle i)
    (inside : (r.enter i).Finds maxDepth (some i) (definitionFindings maxDepth i) r') :
    r.Finds maxDepth origin [.definition i] r' := by
  obtain ⟨reports, found, appended⟩ := inside
  have entered : (r.enter i).table.idle = r.table.idle.erase i := by
    ext j
    rw [Table.mem_idle, Run.enter, Table.isIdle_start, Finset.mem_erase, Table.mem_idle,
      Bool.and_eq_true, decide_eq_true_eq, ne_comm]
  rw [entered] at found
  have reported : Reports maxDepth origin r.table.idle [.definition i] (reports ++ [])
      r'.table.idle := .first (Table.mem_idle.2 hi) found .nil
  rw [List.append_nil] at reported
  exact ⟨reports, reported, appended⟩

end Run.Finds

/-! ## What compilations report -/

/-- Generating an idle definition finds what is in its schema, as long as there are no more idle
definitions than a bound. -/
def FindsInside (maxDepth bound : Nat) (generate : Fin defs.length → StateM (Run defs) Unit) :
    Prop :=
  ∀ i (r : Run defs), r.table.isIdle i → r.idleCount ≤ bound →
    (r.enter i).Finds maxDepth (some i) (definitionFindings maxDepth i) ((generate i).run r).2

section Compilations

variable {generate : Fin defs.length → StateM (Run defs) Unit} {bound : Nat} {r : Run defs}

/-- A reference or an unknown type name is one finding. -/
theorem finds_resolveWith (gen : FindsInside maxDepth bound generate)
    (origin : Option (Fin defs.length)) (pointer : String) (site : Site)
    (enough : r.idleCount ≤ bound) :
    r.Finds maxDepth origin [(Subject.reference pointer).finding defs site.path]
      ((resolveWith generate pointer site).run r).2 := by
  cases resolveWith_cases generate pointer site r with
  | dangling found run =>
    rw [finding_reference_none found, run]
    exact .diagnostic r _
  | lazy i found processing run =>
    rw [finding_reference_some found, run]
    have busy : r.table.isIdle i = false := by simp [Table.isIdle, processing]
    exact .known busy (Table.isIdle_markRecursive _ i)
  | new i found waiting missing run =>
    rw [finding_reference_some found, run]
    have idle : r.table.isIdle i := Table.isIdle_iff.2 ⟨waiting, missing⟩
    exact .first idle (gen i r idle enough)
  | old i found waiting finished run =>
    rw [finding_reference_some found, run]
    have done : r.table.isIdle i = false := by
      rw [Table.isIdle, Option.isNone_eq_false_iff.2 finished, Bool.and_false]
    exact .known done fun _ => rfl

theorem finds_unknownType (origin : Option (Fin defs.length)) (name : String) (site : Site) :
    r.Finds maxDepth origin [(Subject.unknownType name).finding defs site.path]
      ((compileUnknownType name site).run r).2 := by
  rw [finding_unknownType]
  exact .diagnostic r _

/-- Compiling a schema finds what is met in it. -/
theorem finds_compileWithin (gen : FindsInside maxDepth bound generate)
    (origin : Option (Fin defs.length)) (schema : Schema) (site : Site)
    (enough : r.idleCount ≤ bound) :
    r.Finds maxDepth origin (schema.findings defs maxDepth site)
      ((compileWithin (handlers generate) (roomAt maxDepth site.depth) schema site).run r).2 := by
  induction room : roomAt maxDepth site.depth generalizing schema site r with
  | zero =>
    unfold roomAt at room
    rw [Schema.findings, Schema.seenFrom_of_lt (by omega)]
    exact .nothing r
  | succ room' ih =>
    unfold roomAt at room
    have deeper : ∀ path, roomAt maxDepth (site.down path).depth = room' := by
      intro path
      simp only [roomAt, Site.down]
      omega
    rw [compileWithin, state_compileNode, Schema.findings, Schema.seenFrom_of_le (by omega)]
    generalize schema.visits = vs
    induction vs generalizing r with
    | nil => exact .nothing r
    | cons v vs ihVisits =>
      rw [run_performAll_cons, List.flatMap_cons, List.map_append]
      have first : r.Finds maxDepth origin
          ((v.seenFrom maxDepth site).map fun (subject, site) => subject.finding defs site.path)
          ((v.perform (handlers generate) (compileWithin (handlers generate) room') site).run
            r).2 := by
        cases v with
        | schema x path => exact ih x (site.down path) enough (deeper path)
        | reference pointer => exact finds_resolveWith gen origin pointer site enough
        | unknownType name => exact finds_unknownType origin name site
      exact first.append (ihVisits (first.idleCount_le.trans enough))

/-- There is fuel for the generation of all idle definitions. -/
theorem findsInside_generateWithin (fuel : Nat) :
    FindsInside maxDepth fuel
      (generateWithin maxDepth fuel : Fin defs.length → StateM (Run defs) Unit) := by
  induction fuel with
  | zero =>
    intro i r hi enough
    have : 0 < r.idleCount := Table.idleCount_pos hi
    omega
  | succ fuel ih =>
    intro i r hi enough
    have fewer := Run.idleCount_enter_lt hi
    rw [run_generateWithin maxDepth fuel (Table.isIdle_iff.1 hi).1]
    have found : (r.enter i).Finds maxDepth (some i) (definitionFindings maxDepth i)
        ((compileDefinition maxDepth fuel i).run (r.enter i)).2 :=
      finds_compileWithin ih (some i) _ _ (by omega)
    cases run : (compileDefinition maxDepth fuel i).run (r.enter i) with | mk v r' =>
    rw [run] at found
    obtain ⟨reports, reported, appended⟩ := found
    -- A definition that is being generated is not idle, nor is it when it is finished.
    have gone : r'.table.isIdle i = false := by
      rw [← Bool.not_eq_true, ← Table.mem_idle]
      intro mem
      have entered := Table.mem_idle.1 (reported.left_subset mem)
      rw [r.isIdle_enter i] at entered
      exact Bool.false_ne_true entered
    have same : (r'.leave i v).table.idle = r'.table.idle := by
      ext j
      rw [Table.mem_idle, Table.mem_idle, Run.leave, Table.isIdle_finish]
      by_cases e : i = j
      · simp [← e, gone]
      · simp [e]
    rw [← same] at reported
    exact ⟨reports, reported, appended⟩

theorem idleCount_le_length (r : Run defs) : r.idleCount ≤ defs.length := by
  have := Finset.card_le_univ r.table.idle
  rwa [Fintype.card_fin] at this

theorem findsInside_generate : FindsInside maxDepth defs.length
    (SchemaCompiler.generate maxDepth : Fin defs.length → StateM (Run defs) Unit) :=
  findsInside_generateWithin defs.length

/-- Compiling a schema, in any state. -/
theorem finds_compile (r : Run defs) (schema : Schema) (site : Site) :
    r.Finds maxDepth none (schema.findings defs maxDepth site)
      ((compile maxDepth schema site).run r).2 :=
  finds_compileWithin findsInside_generate none schema site (idleCount_le_length r)

theorem finds_generateEach (h : r.Sound maxDepth []) (is : List (Fin defs.length)) :
    r.Finds maxDepth none (is.map .definition) ((generateEach maxDepth is).run r).2 := by
  induction is generalizing r with
  | nil => exact .nothing r
  | cons i is ih =>
    rw [List.map_cons, ← List.singleton_append]
    cases generated : r.table.generated? i with
    | none =>
      have new : i ∉ r.table.completed := by simp [← h.generated i, generated]
      have idle : r.table.isIdle i :=
        Table.isIdle_iff.2 ⟨h.isProcessing_eq_false List.not_mem_nil, generated⟩
      have step := (generates_generate i r (.cons .nil (by simp) (by simp)) h new).1
      rw [run_generateEach_new is generated]
      exact .append (.first idle (findsInside_generate i r idle (idleCount_le_length r)))
        (ih step.sound)
    | some v =>
      have done : r.table.isIdle i = false := by simp [Table.isIdle, generated]
      rw [run_generateEach_old is (Option.isSome_of_eq_some generated)]
      exact .append (.known done fun _ => rfl) (ih h)

end Compilations

/-! ## What calls report -/

/-- What is found during a call. -/
def Call.findings (defs : List Definition) (maxDepth : Nat) : Call → List (Finding defs.length)
  | .generateAll => (List.finRange defs.length).map .definition
  | .compile schema site => schema.findings defs maxDepth site
  | .resolve pointer site => [(Subject.reference pointer).finding defs site.path]

section Calls

variable {r : Run defs}

theorem finds_run (h : r.Sound maxDepth []) (call : Call) :
    r.Finds maxDepth none (call.findings defs maxDepth) ((call.run maxDepth).run r).2 := by
  cases call with
  | generateAll => exact finds_generateEach h _
  | compile schema site => exact finds_compile r schema site
  | resolve pointer site =>
    exact finds_resolveWith findsInside_generate none pointer site (idleCount_le_length r)

theorem finds_after (h : r.Sound maxDepth []) (calls : List Call) :
    r.Finds maxDepth none (calls.flatMap (·.findings defs maxDepth)) (r.after maxDepth calls) := by
  induction calls generalizing r with
  | nil => exact .nothing r
  | cons call calls ih => exact (finds_run h call).append (ih (step_run h call).sound)

theorem idle_start (names : NameSupply) : (Run.start defs names).table.idle = Finset.univ := by
  refine Finset.filter_true_of_mem fun i _ => Table.isIdle_iff.2 ⟨?_, ?_⟩
  · exact Table.isProcessing_detectCycles_fresh names i
  · exact Table.generated?_detectCycles_fresh names i

end Calls

/-! ## Whose reports they are -/

def Finding.diagnostic? {n : Nat} : Finding n → Option Diagnostic
  | .definition _ => none
  | .diagnostic d => some d

/-- What is reported about one definition, or from outside. -/
def reportsFrom {n : Nat} (origin : Option (Fin n)) (reports : List (Report n)) :
    List Diagnostic := (reports.filter (·.origin = origin)).map (·.diagnostic)

/-- What is reported about one definition when it is generated. -/
def definitionReports (maxDepth : Nat) (i : Fin defs.length) : List Diagnostic :=
  (definitionFindings maxDepth i).filterMap Finding.diagnostic?

namespace Reports

variable {origin : Option (Fin defs.length)} {idle left : Finset (Fin defs.length)}
  {fs : List (Finding defs.length)} {reports : List (Report defs.length)} {i : Fin defs.length}

theorem reportsFrom_append {n : Nat} (origin : Option (Fin n)) (reports more : List (Report n)) :
    reportsFrom origin (reports ++ more) =
      reportsFrom origin reports ++ reportsFrom origin more := by
  simp [reportsFrom]

/-- Nothing is reported from where nothing is found and no definition is generated. -/
theorem reportsFrom_eq_nil (h : Reports maxDepth origin idle fs reports left)
    {other : Option (Fin defs.length)} (ne : other ≠ origin)
    (outside : ∀ i, other = some i → i ∉ idle) : reportsFrom other reports = [] := by
  induction h with
  | nil => rfl
  | diagnostic d _ ih =>
    have none := ih ne outside
    unfold reportsFrom at none ⊢
    rwa [List.filter_cons_of_neg (by simpa using ne.symm)]
  | known _ _ ih => exact ih ne outside
  | @first origin idle _ _ between _ _ i new inside _ ihInside ih =>
    have later : ∀ j, other = some j → j ∉ between := fun j e mem =>
      outside j e (Finset.erase_subset _ _ (inside.left_subset mem))
    have ne' : other ≠ some i := fun e => outside i e new
    rw [reportsFrom_append, ih ne later,
      ihInside ne' fun j e mem => outside j e (Finset.erase_subset _ _ mem)]
    rfl

/-- What is found from where it is reported are the diagnostics among the findings. -/
theorem reportsFrom_origin (h : Reports maxDepth origin idle fs reports left)
    (outside : ∀ i, origin = some i → i ∉ idle) :
    reportsFrom origin reports = fs.filterMap Finding.diagnostic? := by
  induction h with
  | nil => rfl
  | diagnostic d _ ih =>
    have rest := ih outside
    unfold reportsFrom at rest ⊢
    rw [List.filter_cons_of_pos (by simp), List.map_cons, rest]
    rfl
  | known _ _ ih => exact ih outside
  | @first origin idle _ _ between _ _ i new inside _ _ ih =>
    have later : ∀ j, origin = some j → j ∉ between := fun j e mem =>
      outside j e (Finset.erase_subset _ _ (inside.left_subset mem))
    have ne : origin ≠ some i := fun e => outside i e new
    have none := inside.reportsFrom_eq_nil ne
      fun j e mem => outside j e (Finset.erase_subset _ _ mem)
    rw [reportsFrom_append, none, ih later]
    rfl

/-- All that is found in another definition is reported once if it is generated meanwhile. -/
theorem reportsFrom_definition (h : Reports maxDepth origin idle fs reports left)
    (other : some i ≠ origin) :
    reportsFrom (some i) reports =
      if i ∈ idle ∧ i ∉ left then definitionReports maxDepth i else [] := by
  induction h with
  | @nil _ idle => rw [if_neg fun h => h.2 h.1, reportsFrom, List.filter_nil, List.map_nil]
  | diagnostic d _ ih =>
    have rest := ih other
    unfold reportsFrom at rest ⊢
    rwa [List.filter_cons_of_neg (by simpa using other.symm)]
  | known _ _ ih => exact ih other
  | @first origin idle _ _ between _ left j new inside rest ihInside ih =>
    rw [reportsFrom_append, ih other]
    by_cases e : i = j
    · subst e
      have gone : i ∉ between := fun mem => Finset.notMem_erase i idle (inside.left_subset mem)
      have own := inside.reportsFrom_origin fun j e => by
        obtain rfl := Option.some.inj e
        exact Finset.notMem_erase _ _
      rw [own, if_neg fun h => gone h.1, if_pos ⟨new, fun mem => gone (rest.left_subset mem)⟩,
        List.append_nil]
      rfl
    · -- It is generated inside, or after that, or not at all.
      rw [ihInside fun same => e (Option.some.inj same)]
      simp only [Finset.mem_erase, ne_eq, e, not_false_eq_true, true_and]
      by_cases waiting : i ∈ between
      · have idle : i ∈ idle := Finset.erase_subset _ _ (inside.left_subset waiting)
        simp [waiting, idle]
      · have generated : i ∉ left := fun mem => waiting (rest.left_subset mem)
        simp [waiting, generated]

end Reports

/-! ## All reports -/

/-- In any state, compiling a schema appends the diagnostics about what is met in the schema, and in
the definitions that are generated for it, one after the other; these and the definitions that are
idle afterwards are determined. After any calls from the start, the diagnostics are those about what
is met by the calls themselves and, once each, in the definitions that have been generated. -/
theorem diagnostics_exact (root : Schema) (reserved : List String) (maxDepth : Nat) :
    let defs := (root.definitions reserved).1
    (∀ (r : Run defs) (schema : Schema) (site : Site),
      let r' := ((compile maxDepth schema site).run r).2
      ∃ reports, r'.diagnostics = r.diagnostics ++ reports.map (·.diagnostic) ∧
        ∀ other left, Reports maxDepth none r.table.idle (schema.findings defs maxDepth site) other
          left ↔ other = reports ∧ left = r'.table.idle) ∧
    ∀ calls : List Call,
      let r := (Run.initial root reserved).after maxDepth calls
      let found := calls.flatMap (·.findings defs maxDepth)
      ∃ reports, r.diagnostics = reports.map (·.diagnostic) ∧
        Reports maxDepth none Finset.univ found reports r.table.idle ∧
        reportsFrom none reports = found.filterMap Finding.diagnostic? ∧
        ∀ i, reportsFrom (some i) reports =
          if (r.table.generated? i).isSome then definitionReports maxDepth i else [] := by
  intro defs
  constructor
  · intro r schema site r'
    have finds : r.Finds maxDepth none (schema.findings defs maxDepth site) r' :=
      finds_compile r schema site
    obtain ⟨reports, reported, appended⟩ := finds
    refine ⟨reports, appended, fun other left => ⟨fun h => ?_, ?_⟩⟩
    · obtain ⟨rfl, rfl⟩ := h.unique reported
      exact ⟨rfl, rfl⟩
    · rintro ⟨rfl, rfl⟩
      exact reported
  · intro calls r found
    have start : (Run.initial root reserved).Sound maxDepth [] := Run.sound_start _
    have sound : r.Sound maxDepth [] := (step_after start calls).sound
    obtain ⟨reports, reported, appended⟩ := finds_after start calls
    rw [Run.initial, idle_start] at reported
    refine ⟨reports, appended.trans (List.nil_append _), reported, ?_, fun i => ?_⟩
    · exact reported.reportsFrom_origin fun i e => nomatch e
    · have generated : i ∈ Finset.univ ∧ i ∉ r.table.idle ↔ (r.table.generated? i).isSome := by
        rw [Table.mem_idle, Table.isIdle_iff, and_iff_right (Finset.mem_univ i),
          sound.isProcessing_eq_false List.not_mem_nil, Option.isSome_iff_ne_none]
        simp
      rw [reported.reportsFrom_definition fun e => nomatch e]
      exact if_congr generated rfl rfl

end SchemaCompiler
