import SchemaCompiler.Error
import SchemaCompiler.Proofs.Definitions.Pointers
import SchemaCompiler.Proofs.Generate.Findings
import SchemaCompiler.Proofs.Module.Closed

/-!
# Where diagnostics lead

A definition is compiled at the site that its pointer is read as, and what is found in it is
reported with paths that begin there. Reading a written path drops its empty tokens, so the site is
that of the definition unless the key is empty (`site_of_pointer_iff`): then the reports lead in the
document to the schemas that they are about, as those about the root schema always do, and else they
begin at the keyword.
-/

namespace SchemaCompiler

variable {defs : List Definition} {maxDepth : Nat}

/-! ## Sites of definitions -/

theorem path_ofDefinition_pointer (site : Site) :
    (Site.ofDefinition site.pointer).path = site.path.filter (· ≠ "") :=
  pointerTokens_pointerText site.path

theorem path_ofDefinition_pointer_eq_iff (site : Site) :
    (Site.ofDefinition site.pointer).path = site.path ↔ "" ∉ site.path := by
  rw [path_ofDefinition_pointer, List.filter_eq_self]
  simp only [decide_eq_true_eq]
  exact ⟨fun h mem => h "" mem rfl, fun h token mem empty => h (empty ▸ mem)⟩

/-- The site of a pointer, whatever its text: the parts between slashes that are not empty, in each
of them `~1` replaced and then `~0`. -/
theorem path_ofDefinition_eq_replacePair (pointer : String) : (Site.ofDefinition pointer).path =
    ((splitAt '/' (pointer.toList.dropWhile (· == '#'))).filter (!·.isEmpty)).map fun part =>
      String.ofList (replacePair '~' '0' '~' (replacePair '~' '1' '/' part)) := by
  show pointerTokens pointer = _
  simp only [pointerTokens, unescapeToken_eq_replacePair]

theorem keyword_of_mem_definitionSites {root : Schema} {site : String × String × Schema}
    (h : site ∈ root.definitionSites) : site.1 ∈ ["definitions", "$defs"] := by
  cases root with
  | bool => cases h
  | object k =>
    obtain h | h := List.mem_append.1 h
    · obtain ⟨_, -, rfl⟩ := List.mem_map.1 h
      exact List.mem_cons_self
    · obtain ⟨_, -, rfl⟩ := List.mem_map.1 h
      exact List.mem_cons_of_mem _ List.mem_cons_self

/-- A definition is registered under the written path of its keyword and key. -/
theorem exists_definitionSite_pointer {root : Schema} {reserved : List String} {d : Definition}
    (h : d ∈ (root.definitions reserved).1) :
    ∃ keyword key, (keyword, key, d.schema) ∈ root.definitionSites ∧
      d.pointer = pointerText [keyword, key] := by
  have registered := List.mem_map_of_mem (f := fun d : Definition => (d.pointer, d.schema)) h
  rw [pointers_definitions] at registered
  obtain ⟨site, mem, same⟩ := List.mem_map.1 registered
  obtain ⟨pointer, schema⟩ := Prod.mk.inj same
  exact ⟨site.1, site.2.1, schema ▸ mem, pointer.symm⟩

/-- The tokens of a definition's pointer. -/
theorem path_ofDefinition_definition {keyword : String} (h : keyword ∈ ["definitions", "$defs"])
    (key : String) : (Site.ofDefinition (pointerText [keyword, key])).path =
      if key = "" then [keyword] else [keyword, key] := by
  have named : keyword ≠ "" := by
    rintro rfl
    exact absurd h (by decide)
  have path := path_ofDefinition_pointer ⟨0, [keyword, key]⟩
  rw [Site.pointer] at path
  rw [path]
  by_cases empty : key = ""
  · simp [named, empty]
  · simp [named, empty]

/-- The compilation of a definition begins at the pointer that it is registered under. -/
def Definition.ReadBack (d : Definition) : Prop :=
  (Site.ofDefinition d.pointer).pointer = d.pointer

theorem readBack_iff {d : Definition} {keyword key : String}
    (h : keyword ∈ ["definitions", "$defs"]) (pointer : d.pointer = pointerText [keyword, key]) :
    d.ReadBack ↔ key ≠ "" := by
  rw [Definition.ReadBack, pointer, Site.pointer, pointerText_inj, path_ofDefinition_definition h]
  split
  next empty => simp [empty]
  next some => simp [some]

/-! ## Diagnostics and the document -/

/-- The path of a diagnostic leads, in a value, to a schema that has in itself the reference or the
unknown type name that the diagnostic is about. -/
def Diagnostic.PointsInto (defs : List Definition) (value : Json) (d : Diagnostic) : Prop :=
  ∃ w x, value.atFragment? d.path = some w ∧ Schema.ofJson w = .ok x ∧
    ∃ subject path, subject.visit ∈ x.visits ∧ Subject.finding defs path subject = .diagnostic d

theorem path_of_finding {path : List String} {subject : Subject} {d : Diagnostic}
    (h : subject.finding defs path = .diagnostic d) : d.path = pointerText path := by
  cases subject with
  | reference pointer =>
    rw [Subject.finding] at h
    split at h
    next => cases h
    next =>
      cases h
      rfl
  | unknownType name =>
    cases h
    rfl

/-- What is found in a schema is reported with a path that leads to it, if the site does. -/
theorem pointsInto_of_mem_findings {value : Json} {schema : Schema} {site : Site} {d : Diagnostic}
    (h : value.HoldsSchema site.path schema)
    (mem : .diagnostic d ∈ schema.findings defs maxDepth site) : d.PointsInto defs value := by
  obtain ⟨⟨subject, at_⟩, seen, found⟩ := List.mem_map.1 mem
  obtain ⟨s, hs, same⟩ := List.mem_map.1 seen
  obtain ⟨rfl, rfl⟩ := Prod.mk.inj same
  obtain ⟨w, leads, proper, read⟩ := h
  obtain ⟨x, holds, own⟩ := Json.exists_of_mem_sightings proper read (List.mem_filter.1 hs).1
  obtain ⟨u, here, -, read⟩ := holds.below leads
  refine ⟨u, x, ?_, read, s.subject, (s.site site).path, own, found⟩
  rw [path_of_finding found, Json.atFragment?_pointerText]
  exact here

/-- What is found in a definition is reported with a path that leads to it, if its pointer is read
back. -/
theorem pointsInto_of_mem_definitionReports {value : Json} {root : Schema} {reserved : List String}
    {i : Fin (root.definitions reserved).1.length} {d : Diagnostic} (proper : value.proper)
    (read : Schema.ofJson value = .ok root) (back : ((root.definitions reserved).1.get i).ReadBack)
    (mem : d ∈ definitionReports maxDepth i) :
    d.PointsInto (root.definitions reserved).1 value := by
  obtain ⟨keyword, key, site, pointer⟩ := exists_definitionSite_pointer (List.get_mem _ i)
  have path : (Site.ofDefinition ((root.definitions reserved).1.get i).pointer).path =
      [keyword, key] := pointerText_inj.1 (back.trans pointer)
  obtain ⟨f, found, diagnostic⟩ := List.mem_filterMap.1 mem
  cases f with
  | definition j => cases diagnostic
  | diagnostic d' =>
    cases diagnostic
    refine pointsInto_of_mem_findings ?_ found
    rw [path]
    exact Json.holdsSchema_of_mem_definitionSites proper read site

/-- A report is about one of the findings or about a finding in a definition. -/
theorem Reports.mem_or {origin : Option (Fin defs.length)} {idle left : Finset (Fin defs.length)}
    {fs : List (Finding defs.length)} {reports : List (Report defs.length)}
    {report : Report defs.length} (h : Reports maxDepth origin idle fs reports left)
    (mem : report ∈ reports) : .diagnostic report.diagnostic ∈ fs ∨
      ∃ i : Fin defs.length, report.diagnostic ∈ definitionReports maxDepth i := by
  induction h with
  | nil => cases mem
  | diagnostic d _ ih =>
    obtain rfl | mem := List.mem_cons.1 mem
    · exact .inl List.mem_cons_self
    · exact (ih mem).imp_left (List.mem_cons_of_mem _)
  | known _ _ ih => exact (ih mem).imp_left (List.mem_cons_of_mem _)
  | @first _ _ _ _ _ _ _ i _ _ _ ihInside ih =>
    obtain mem | mem := List.mem_append.1 mem
    · refine .inr ((ihInside mem).elim (fun own => ⟨i, ?_⟩) id)
      exact List.mem_filterMap.2 ⟨_, own, rfl⟩
    · exact (ih mem).imp_left (List.mem_cons_of_mem _)

/-- The diagnostics of a conversion are about what is found in the root schema and in the
definitions. -/
theorem mem_or_of_mem_diagnostics {root : Schema} {o : Options} {d : Diagnostic}
    (h : d ∈ (convert root o).diagnostics) :
    .diagnostic d ∈ root.findings (root.definitions o.reserved).1 o.maxDepth .root ∨
      ∃ i : Fin (root.definitions o.reserved).1.length, d ∈ definitionReports o.maxDepth i := by
  have start : (Run.initial root o.reserved).Sound o.maxDepth [] := Run.sound_start _
  obtain ⟨reports, reported, appended⟩ := finds_after start [.generateAll, .compile root .root]
  have run : (convert root o).diagnostics = reports.map (·.diagnostic) := appended
  rw [run] at h
  obtain ⟨report, mem, rfl⟩ := List.mem_map.1 h
  obtain found | inDefinition := reported.mem_or mem
  · rw [List.flatMap_cons, List.flatMap_cons, List.flatMap_nil, List.append_nil] at found
    obtain generated | found := List.mem_append.1 found
    · obtain ⟨_, -, other⟩ := List.mem_map.1 generated
      cases other
    · exact .inl found
  · exact .inr inDefinition

/-- A pointer is read as the parts between its slashes, unescaped by two replacements, but for the
empty ones. So the site that a written path is read as has this path exactly if no token of it is
empty, and the compilation of a definition begins at its registered pointer exactly if its key is
not empty. Then what is reported about the definition leads, in the value that the root schema is
read from, to the schema that it is about; the only diagnostics of a conversion that may not do so
are about definitions whose key is empty. -/
theorem site_of_pointer_iff (site : Site) (root : Schema) (reserved : List String) :
    let defs := (root.definitions reserved).1
    ((Site.ofDefinition site.pointer).path = site.path.filter (· ≠ "") ∧
      ((Site.ofDefinition site.pointer).path = site.path ↔ "" ∉ site.path)) ∧
    (∀ pointer : String, (Site.ofDefinition pointer).path =
      ((splitAt '/' (pointer.toList.dropWhile (· == '#'))).filter (!·.isEmpty)).map fun part =>
        String.ofList (replacePair '~' '0' '~' (replacePair '~' '1' '/' part))) ∧
    (∀ d ∈ defs, ∃ keyword key, (keyword, key, d.schema) ∈ root.definitionSites ∧
      d.pointer = (Site.mk 0 [keyword, key]).pointer ∧
      (Site.ofDefinition d.pointer).path = (if key = "" then [keyword] else [keyword, key]) ∧
      (d.ReadBack ↔ key ≠ "")) ∧
    ∀ value : Json, value.proper → Schema.ofJson value = .ok root →
      (∀ (maxDepth : Nat) (i : Fin defs.length), (defs.get i).ReadBack →
        ∀ d ∈ definitionReports maxDepth i, d.PointsInto defs value) ∧
      ∀ o : Options, ∀ d ∈ (convert root o).diagnostics,
        d.PointsInto (root.definitions o.reserved).1 value ∨
          ∃ i : Fin (root.definitions o.reserved).1.length,
            ¬ ((root.definitions o.reserved).1.get i).ReadBack ∧
              d ∈ definitionReports o.maxDepth i := by
  intro defs
  refine ⟨⟨path_ofDefinition_pointer site, path_ofDefinition_pointer_eq_iff site⟩,
    path_ofDefinition_eq_replacePair, fun d hd => ?_,
    fun value proper read => ⟨fun _ _ back _ => pointsInto_of_mem_definitionReports proper read back,
      fun o d hd => ?_⟩⟩
  · obtain ⟨keyword, key, site, pointer⟩ := exists_definitionSite_pointer hd
    have known := keyword_of_mem_definitionSites site
    refine ⟨keyword, key, site, pointer, ?_, readBack_iff known pointer⟩
    rw [pointer]
    exact path_ofDefinition_definition known key
  · obtain found | ⟨i, found⟩ := mem_or_of_mem_diagnostics hd
    · have whole : value.HoldsSchema Site.root.path root := ⟨value, rfl, proper, read⟩
      exact .inl (pointsInto_of_mem_findings whole found)
    · by_cases back : ((root.definitions o.reserved).1.get i).ReadBack
      · exact .inl (pointsInto_of_mem_definitionReports proper read back found)
      · exact .inr ⟨i, back, found⟩

namespace slashedDefinition

/-- A document with a definition whose key is written with escapes, and an unknown type name in
it. -/
def value : Json := .object
  [("definitions", .object [("a/b", .object [("items", .object [("type", .string "text")]),
    ("type", .string "array")])])]

def root : Schema := .object
  { definitions := some [("a/b", .object
      { items := some (.all (.object { type := some (.one (.unknown "text")) }))
        type := some (.one .array) })] }

theorem site_of_pointer_iff_slashedDefinition :
    let defs := (root.definitions ["v", "schema", "schemaType"]).1
    value.proper ∧ Schema.ofJson value = .ok root ∧
    (convert root {}).diagnostics.map (·.path) = ["#/definitions/a~1b/items"] ∧
    (∀ (maxDepth : Nat) (i : Fin defs.length),
      ∀ d ∈ definitionReports maxDepth i, d.PointsInto defs value) ∧
    ∀ d ∈ (convert root {}).diagnostics, d.PointsInto defs value := by
  intro defs
  have proper : value.proper := by decide +kernel
  have read : Schema.ofJson value = .ok root := rfl
  have back : ∀ i : Fin defs.length, (defs.get i).ReadBack := by
    unfold Definition.ReadBack
    decide +kernel
  obtain ⟨inside, conversions⟩ := (site_of_pointer_iff .root root _).2.2.2 value proper read
  refine ⟨proper, read, by decide +kernel, fun maxDepth i => inside maxDepth i (back i),
    fun d hd => (conversions {} d hd).resolve_right ?_⟩
  rintro ⟨i, other, -⟩
  exact other (back i)

end slashedDefinition

namespace namelessDefinition

/-- A document with a definition whose key is empty, and an unknown type name in it. -/
def value : Json :=
  .object [("definitions", .object [("", .object [("type", .string "text")])])]

def root : Schema := .object
  { definitions := some [("", .object { type := some (.one (.unknown "text")) })] }

/-- The path of a property whose name is empty is not read back, nor is the pointer of a definition
whose key is empty: what is reported about it leads to the object of all definitions. -/
theorem pointer_not_readBack :
    let site := Site.root.member "properties" ""
    let defs := (root.definitions ["v", "schema", "schemaType"]).1
    site.path = ["properties", ""] ∧ (Site.ofDefinition site.pointer).path = ["properties"] ∧
    Schema.ofJson value = .ok root ∧ defs.map (·.pointer) = ["#/definitions/"] ∧
    (∀ d ∈ defs, (Site.ofDefinition d.pointer).pointer = "#/definitions" ∧ ¬ d.ReadBack) ∧
    (convert root {}).diagnostics.map (·.path) = ["#/definitions"] ∧
    ∀ d ∈ (convert root {}).diagnostics, ¬ d.PointsInto defs value := by
  intro site defs
  have paths : (convert root {}).diagnostics.map (·.path) = ["#/definitions"] := by decide +kernel
  refine ⟨by decide, by decide +kernel, rfl, by decide +kernel, ?_, paths, fun d hd => ?_⟩
  · unfold Definition.ReadBack
    decide +kernel
  · rintro ⟨w, x, leads, read, subject, -, own, -⟩
    have path : d.path = "#/definitions" := by
      have mem := List.mem_map_of_mem (f := Diagnostic.path) hd
      rw [paths] at mem
      exact List.mem_singleton.1 mem
    rw [path] at leads
    cases (show value.atFragment? "#/definitions" = some _ from rfl).symm.trans leads
    cases (show Schema.ofJson _ = .ok (.object {}) from rfl).symm.trans read
    cases own

end namelessDefinition

end SchemaCompiler
