import SchemaCompiler.Generate
import SchemaCompiler.Proofs.Compile.Sightings

/-!
# References that a compilation follows

`Handlers.noting` does what other handlers do and notes what it is given, and at which site. So a
compilation with it is the plain one with a log of its own references and unknown type names, apart
from those in definitions that are generated on demand. The log is what the schema is seen to have
from the site (`run_compileWithin_noting`), whatever is done about it: all of its references in
their order if they lie within the greatest depth, and some of them in this order if not
(`references_followed`).
-/

namespace SchemaCompiler

/-! ## References among sightings -/

def Subject.pointer? : Subject → Option String
  | .reference pointer => some pointer
  | .unknownType _ => none

/-- The references of a schema are the sightings of references. -/
theorem Schema.references_eq_filterMap_sightings (s : Schema) :
    s.references = s.sightings.filterMap (·.subject.pointer?) := by
  rw [references_eq, sightings_eq, List.filterMap_flatMap]
  refine List.flatMap_congr fun v hv => ?_
  cases v with
  | reference | unknownType => rfl
  | schema x path =>
    rw [Visit.references, Visit.sightings, List.filterMap_map,
      x.references_eq_filterMap_sightings]
    rfl
termination_by sizeOf s
decreasing_by exact sizeOf_lt_of_mem_visits hv

theorem Schema.depth_le_height {s : Schema} {seen : Sighting} (h : seen ∈ s.sightings) :
    seen.depth ≤ s.height := by
  rw [sightings_eq] at h
  obtain ⟨v, hv, h⟩ := List.mem_flatMap.1 h
  cases v with
  | reference | unknownType =>
    obtain rfl := List.mem_singleton.1 h
    exact Nat.zero_le _
  | schema x path =>
    obtain ⟨inner, inside, rfl⟩ := List.mem_map.1 h
    have deeper := depth_le_height inside
    have higher := height_lt_of_mem_visited (mem_visited hv)
    show inner.depth + 1 ≤ s.height
    omega
termination_by sizeOf s
decreasing_by exact sizeOf_lt_of_mem_visits hv

/-- From a site with room for the height of a schema, everything in it is seen. -/
theorem Schema.seenFrom_of_height_le {maxDepth : Nat} {schema : Schema} {site : Site}
    (h : site.depth + schema.height ≤ maxDepth) :
    schema.seenFrom maxDepth site = schema.sightings.map fun s => (s.subject, s.site site) := by
  have all : schema.sightings.filter (fun s => site.depth + s.depth ≤ maxDepth) =
      schema.sightings := by
    refine List.filter_eq_self.2 fun s hs => decide_eq_true ?_
    have := depth_le_height hs
    omega
  rw [seenFrom, all]

/-! ## Noting -/

section Noting

variable {σ : Type} {h : Handlers σ} {maxDepth : Nat} {schema : Schema} {site : Site}

/-- Handlers that do the same and note what they are given. -/
def Handlers.noting (h : Handlers σ) : Handlers (σ × List (Subject × Site)) where
  reference pointer site := fun s =>
    let out := (h.reference pointer site).run s.1
    (out.1, out.2, s.2 ++ [(.reference pointer, site)])
  unknownType name site := fun s =>
    let out := (h.unknownType name site).run s.1
    (out.1, out.2, s.2 ++ [(.unknownType name, site)])

/-- A compilation that notes what it meets is the plain one. -/
theorem run_compileWithin_fst (room : Nat) (schema : Schema) (site : Site)
    (s : σ × List (Subject × Site)) : (compileWithin h room schema site).run s.1 =
      Prod.map id Prod.fst ((compileWithin h.noting room schema site).run s) :=
  compileWithin_view Prod.fst (fun _ _ _ => rfl) (fun _ _ _ => rfl) room schema site s

/-- What is noted is what the schema is seen to have. -/
theorem run_compileWithin_noting (schema : Schema) (site : Site) (s : σ × List (Subject × Site)) :
    ((compileWithin h.noting (roomAt maxDepth site.depth) schema site).run s).2.2 =
      s.2 ++ schema.seenFrom maxDepth site := by
  induction room : roomAt maxDepth site.depth generalizing schema site s with
  | zero =>
    unfold roomAt at room
    rw [Schema.seenFrom_of_lt (by omega), List.append_nil]
    rfl
  | succ room' ih =>
    unfold roomAt at room
    have deeper : ∀ path, roomAt maxDepth (site.down path).depth = room' := by
      intro path
      simp only [roomAt, Site.down]
      omega
    rw [compileWithin, state_compileNode, Schema.seenFrom_of_le (by omega)]
    generalize schema.visits = vs
    induction vs generalizing s with
    | nil => exact (List.append_nil _).symm
    | cons v vs ihVisits =>
      have first : ((v.perform h.noting (compileWithin h.noting room') site).run s).2.2 =
          s.2 ++ v.seenFrom maxDepth site := by
        cases v with
        | schema x path => exact ih x (site.down path) s (deeper path)
        | reference | unknownType => rfl
      rw [run_performAll_cons, List.flatMap_cons, ← List.append_assoc, ← first]
      exact ihVisits _

end Noting

/-! ## References that are followed -/

/-- A compilation in any state, however definitions are generated on demand, compiles the references
that the schema itself is seen to have, in this order: from a site with room for its height those
that are collected from it, with their repetitions, and from any other site a part of them. -/
theorem references_followed {defs : List Definition} (maxDepth : Nat)
    (generate : Fin defs.length → StateM (Run defs) Unit) (schema : Schema) (site : Site)
    (r : Run defs) :
    let h := handlers generate
    let room := roomAt maxDepth site.depth
    let noted := (compileWithin h.noting room schema site).run (r, [])
    let followed := noted.2.2.filterMap (·.1.pointer?)
    (noted.1, noted.2.1) = (compileWithin h room schema site).run r ∧
    noted.2.2 = schema.seenFrom maxDepth site ∧
    (site.depth + schema.height ≤ maxDepth → followed = schema.references) ∧
    followed.Sublist schema.references := by
  intro h room noted followed
  have notes : noted.2.2 = schema.seenFrom maxDepth site :=
    run_compileWithin_noting schema site (r, [])
  refine ⟨(run_compileWithin_fst room schema site (r, [])).symm, notes, fun enough => ?_, ?_⟩
  · show noted.2.2.filterMap _ = _
    rw [notes, Schema.seenFrom_of_height_le enough, List.filterMap_map,
      schema.references_eq_filterMap_sightings]
    rfl
  · show (noted.2.2.filterMap _).Sublist _
    rw [notes, Schema.seenFrom, List.filterMap_map, schema.references_eq_filterMap_sightings]
    exact List.filter_sublist.filterMap _

namespace repeatedTypes

def toDefinition (name : String) : Schema :=
  .object { reference := some (pointerText ["definitions", name]) }

/-- A list of types, one of them twice. -/
def schema : Schema := .object
  { type := some (.many [.array, .object, .array])
    items := some (.all (toDefinition "A"))
    additionalProperties := some (toDefinition "B") }

def definition (name : String) : Definition :=
  ⟨pointerText ["definitions", name], name, .bool true⟩

def defs : List Definition := [definition "A", definition "B"]

def start : Run defs := .start defs ⟨[]⟩

theorem references_followed_repeatedTypes :
    let noted := (compileWithin (handlers (generate 1)).noting (roomAt 1 0) schema .root).run
      (start, [])
    Site.root.depth + schema.height ≤ 1 ∧
    noted.2.2.filterMap (·.1.pointer?) = ["#/definitions/A", "#/definitions/B", "#/definitions/A"] ∧
    noted.2.2.filterMap (·.1.pointer?) = schema.references := by
  have leaf : ∀ name, (toDefinition name).height ≤ 0 := fun name =>
    Schema.height_le_iff.2 fun _ h => by cases h
  have height : schema.height ≤ 1 := by
    refine Schema.height_le_iff.2 fun x hx => ?_
    have inner : x ∈ [toDefinition "A", toDefinition "B", toDefinition "A"] := hx
    simp only [List.mem_cons, List.not_mem_nil, or_false] at inner
    obtain rfl | rfl | rfl := inner <;> exact Nat.lt_succ_of_le (leaf _)
  have enough : Site.root.depth + schema.height ≤ 1 := by
    rwa [Site.root, Nat.zero_add]
  exact ⟨enough, by decide +kernel,
    (references_followed 1 (generate 1) schema .root start).2.2.1 enough⟩

end repeatedTypes

end SchemaCompiler
