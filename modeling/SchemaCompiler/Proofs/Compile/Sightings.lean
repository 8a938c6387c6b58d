import SchemaCompiler.Proofs.Compile.Whole

/-!
# What a schema says of references and types

A schema has references and unknown type names, in itself and in the schemas that are compiled as
part of it. `Schema.sightings` lists them in the order in which compiling meets them, each with the
number of schemas that it lies deeper and the path to the schema that has it. A type name that is
listed twice is met twice, and so is all below a schema that is compiled twice.

From a site, those at schemas within the greatest depth are met (`Schema.seenFrom`).
-/

namespace SchemaCompiler

/-! ## Sightings -/

/-- What a schema has that it does not settle by itself. -/
inductive Subject where
  | reference (pointer : String)
  | unknownType (name : String)

/-- A reference or an unknown type name, with the place of the schema that has it below another:
how many schemas deeper, and under which path. -/
structure Sighting where
  depth : Nat
  path : List String
  subject : Subject

namespace Sighting

/-- The same sighting below the schema that has the first one at a path. -/
def below (path : List String) (s : Sighting) : Sighting := ⟨s.depth + 1, path ++ s.path, s.subject⟩

/-- The site of the schema that has it, if the schema above is at a site. -/
def site (base : Site) (s : Sighting) : Site := ⟨base.depth + s.depth, base.path ++ s.path⟩

theorem site_below (base : Site) (path : List String) (s : Sighting) :
    (s.below path).site base = s.site (base.down path) := by
  simp [below, site, Site.down, Nat.add_assoc, Nat.add_comm 1]

end Sighting

/-- The sightings in a schema, in the order in which they are met. -/
def Schema.sightings (s : Schema) : List Sighting :=
  s.visits.attach.flatMap fun
    | ⟨.schema x path, _⟩ => x.sightings.map (.below path)
    | ⟨.reference pointer, _⟩ => [⟨0, [], .reference pointer⟩]
    | ⟨.unknownType name, _⟩ => [⟨0, [], .unknownType name⟩]
termination_by sizeOf s
decreasing_by exact sizeOf_lt_of_mem_visits ‹_›

/-- The sightings during a visit. -/
def Visit.sightings : Visit → List Sighting
  | .schema x path => x.sightings.map (.below path)
  | .reference pointer => [⟨0, [], .reference pointer⟩]
  | .unknownType name => [⟨0, [], .unknownType name⟩]

/-- The sightings in a schema are those during its visits, one after the other. -/
theorem Schema.sightings_eq (s : Schema) : s.sightings = s.visits.flatMap Visit.sightings := by
  rw [sightings]
  calc
    _ = s.visits.attach.flatMap fun v => v.1.sightings :=
      List.flatMap_congr fun v _ => by rcases v with ⟨_ | _ | _, _⟩ <;> rfl
    _ = (s.visits.attach.map Subtype.val).flatMap Visit.sightings := by rw [List.flatMap_map]
    _ = s.visits.flatMap Visit.sightings := by rw [List.attach_map_subtype_val]

/-! ## What is met from a site -/

/-- What is met in a schema at a site, with the site of the schema that has it, if schemas deeper
than `maxDepth` are not compiled. -/
def Schema.seenFrom (maxDepth : Nat) (schema : Schema) (site : Site) : List (Subject × Site) :=
  (schema.sightings.filter fun s => site.depth + s.depth ≤ maxDepth).map fun s =>
    (s.subject, s.site site)

/-- What is met during a visit to a part of a schema at a site. -/
def Visit.seenFrom (maxDepth : Nat) (site : Site) : Visit → List (Subject × Site)
  | .schema x path => x.seenFrom maxDepth (site.down path)
  | .reference pointer => [(.reference pointer, site)]
  | .unknownType name => [(.unknownType name, site)]

section SeenFrom

variable {maxDepth : Nat} {schema : Schema} {site : Site}

/-- Nothing is met too deep. -/
theorem Schema.seenFrom_of_lt (h : maxDepth < site.depth) :
    schema.seenFrom maxDepth site = [] := by
  have none : schema.sightings.filter (fun s => site.depth + s.depth ≤ maxDepth) = [] := by
    refine List.filter_eq_nil_iff.2 fun s _ => ?_
    simp only [decide_eq_true_eq]
    omega
  rw [seenFrom, none, List.map_nil]

theorem Visit.seenFrom_eq (h : site.depth ≤ maxDepth) (v : Visit) :
    v.seenFrom maxDepth site =
      (v.sightings.filter fun s => site.depth + s.depth ≤ maxDepth).map fun s =>
        (s.subject, s.site site) := by
  cases v with
  | reference | unknownType => simp [seenFrom, sightings, h, Sighting.site]
  | schema x path =>
    unfold seenFrom sightings Schema.seenFrom
    rw [List.filter_map, List.map_map]
    have deeper : ∀ s : Sighting, site.depth + (s.below path).depth =
        (site.down path).depth + s.depth := by
      intro s
      simp only [Sighting.below, Site.down]
      omega
    simp only [Function.comp_def, deeper, Sighting.site_below]
    rfl

/-- What is met in a schema is what is met during its visits. -/
theorem Schema.seenFrom_of_le (h : site.depth ≤ maxDepth) :
    schema.seenFrom maxDepth site = schema.visits.flatMap (Visit.seenFrom maxDepth site) := by
  rw [seenFrom, sightings_eq, List.filter_flatMap, List.map_flatMap]
  exact List.flatMap_congr fun v _ => (v.seenFrom_eq h).symm

end SeenFrom

end SchemaCompiler
