import SchemaCompiler.Proofs.Definitions.Operations
import SchemaCompiler.Proofs.Json.Equals
import SchemaCompiler.Proofs.Schema.Parts

/-!
# The pointers of definitions

A definition is registered under the pointer that is its keyword and its key, written. The keys
under one keyword are distinct, as they are in every schema that is read, and written paths are
distinct if the paths are: so each definition is found by its own pointer and by no other, and none
is registered in the place of another (`definitions_found`).
-/

namespace SchemaCompiler

/-- The keys of the definitions under one keyword are distinct. -/
def Schema.KeysDistinct : Schema → Prop
  | .bool _ => True
  | .object k =>
    ((k.definitions.getD []).map (·.1)).Nodup ∧ ((k.defs.getD []).map (·.1)).Nodup

instance : (root : Schema) → Decidable root.KeysDistinct
  | .bool _ => inferInstanceAs (Decidable True)
  | .object _ => inferInstanceAs (Decidable (_ ∧ _))

/-- The keys in a schema that is read are distinct. -/
theorem keysDistinct_of_readSchema {P : Type} {d : Document P} {root : Schema}
    (h : d.readSchema = .ok root) : root.KeysDistinct := by
  cases root with
  | bool => trivial
  | object k =>
    obtain ⟨b, ms, rfl, hk⟩ := Document.exists_readFrom h
    have distinct : ∀ {name : String} {fields : Option (List (String × Schema))},
        Held ms.entries name Document.readFields fields →
        ((fields.getD []).map (·.1)).Nodup := by
      intro name fields held
      cases fields with
      | none => exact List.nodup_nil
      | some fields =>
        obtain ⟨d, -, read⟩ := held fields rfl
        exact Document.nodup_of_readFields read
    exact ⟨distinct hk.definitions, distinct hk.defs⟩

/-! ## Registered pointers -/

section Pointers

variable {root : Schema} {defs : List Definition}

/-- The definitions are the ones under their keywords, in order, each under its written path. -/
theorem pointers_definitions (root : Schema) (reserved : List String) :
    (root.definitions reserved).1.map (fun d => (d.pointer, d.schema)) =
      root.definitionSites.map fun site => (pointerText [site.1, site.2.1], site.2.2) := by
  simp only [Schema.definitions, List.map_zipWith]
  refine List.ext_getElem ?_ fun i _ _ => by simp
  rw [List.length_zipWith, ← length_definitionSites_names, Nat.min_self, List.length_map]

theorem nodup_paths (distinct : root.KeysDistinct) :
    (root.definitionSites.map fun site => [site.1, site.2.1]).Nodup := by
  cases root with
  | bool => exact List.nodup_nil
  | object k =>
    have under : ∀ (keyword : String) {keys : List String}, keys.Nodup →
        (keys.map fun key => [keyword, key]).Nodup := by
      intro keyword keys nodup
      refine nodup.map fun key key' same => ?_
      exact (List.cons.inj (List.cons.inj same).2).1
    have definitions := under "definitions" distinct.1
    have defs := under "$defs" distinct.2
    rw [List.map_map] at definitions defs
    rw [Schema.definitionSites, List.map_append, List.map_map, List.map_map]
    refine definitions.append defs fun path mem mem' => ?_
    obtain ⟨_, -, rfl⟩ := List.mem_map.1 mem
    obtain ⟨_, -, same⟩ := List.mem_map.1 mem'
    have keywords : "$defs" = "definitions" := (List.cons.inj same).1
    exact absurd keywords (by decide)

theorem nodup_pointers (distinct : root.KeysDistinct) (reserved : List String) :
    ((root.definitions reserved).1.map (·.pointer)).Nodup := by
  have written : (root.definitions reserved).1.map (·.pointer) =
      (root.definitionSites.map fun site => [site.1, site.2.1]).map pointerText := by
    have pointers := congrArg (List.map Prod.fst) (pointers_definitions root reserved)
    rw [List.map_map, List.map_map] at pointers
    rw [List.map_map]
    exact pointers
  rw [written]
  exact (nodup_paths distinct).map fun _ _ same => pointerText_inj.1 same

/-- Of distinct pointers, each finds its own definition. -/
theorem lookup?_eq_some_iff (nodup : (defs.map (·.pointer)).Nodup) {pointer : String}
    {i : Fin defs.length} : lookup? defs pointer = some i ↔ (defs.get i).pointer = pointer := by
  rw [lookup?, List.findFinIdx?_eq_some_iff]
  refine ⟨fun h => beq_iff_eq.1 h.1, fun h => ⟨beq_iff_eq.2 h, fun j hj same => ?_⟩⟩
  have different : (defs.get j).pointer ≠ (defs.get i).pointer :=
    List.pairwise_iff_get.1 (List.pairwise_map.1 nodup) j i hj
  exact different ((beq_iff_eq.1 same).trans h.symm)

/-- What is registered for each definition, in order: its position under its pointer. -/
def registrations (defs : List Definition) : List (String × Fin defs.length) :=
  (List.finRange defs.length).map fun i => ((defs.get i).pointer, i)

/-- Of distinct pointers, each keeps what is registered under it, though a registration would take
the place of an earlier one. -/
theorem member?_registrations (nodup : (defs.map (·.pointer)).Nodup) (pointer : String) :
    member? pointer (distinctMembers (registrations defs)) = lookup? defs pointer := by
  have names : (registrations defs).map (·.1) = defs.map (·.pointer) := by
    rw [registrations, List.map_map]
    exact List.ext_getElem (by simp) fun n _ _ => by simp
  have nodup' : ((registrations defs).map (·.1)).Nodup := names ▸ nodup
  rw [distinctMembers_eq_self nodup']
  cases found : lookup? defs pointer with
  | none =>
    rw [member?_eq_none, names]
    rintro mem
    obtain ⟨d, hd, rfl⟩ := List.mem_map.1 mem
    exact List.findFinIdx?_eq_none_iff.1 found d hd (beq_self_eq_true _)
  | some i =>
    refine member?_of_mem nodup' (List.mem_map.2 ⟨i, List.mem_finRange i, ?_⟩)
    rw [(lookup?_eq_some_iff nodup).1 found]

/-- The written path of a definition: no character of its keyword is escaped. -/
theorem pointerText_definition {keyword : String} (h : keyword ∈ ["definitions", "$defs"])
    (key : String) : pointerText [keyword, key] = "#/" ++ keyword ++ "/" ++
      String.ofList (replaceChar '/' ['~', '1'] (replaceChar '~' ['~', '0'] key.toList)) := by
  have plain : escapeToken keyword.toList = keyword.toList := by
    obtain rfl | h := List.mem_cons.1 h
    · rfl
    · obtain rfl := List.mem_singleton.1 h
      rfl
  rw [← escapeToken_eq_replaceChar, ← String.toList_inj, toList_pointerText]
  simp [plain]

/-- The definitions are the schemas under `definitions` and then those under `$defs`, in order, each
under the pointer of its site. If the keys are distinct, as in every schema that is read, so are the
pointers: each finds the definition that it belongs to and nothing else does, and no registration
takes the place of another. -/
theorem definitions_found (root : Schema) (reserved : List String) :
    let defs := (root.definitions reserved).1
    (∀ accepts, root = .bool accepts → defs = []) ∧
    (∀ k, root = .object k → defs.map (fun d => (d.pointer, d.schema)) =
      (k.definitions.getD []).map (fun m => ((Site.mk 0 ["definitions", m.1]).pointer, m.2)) ++
      (k.defs.getD []).map fun m => ((Site.mk 0 ["$defs", m.1]).pointer, m.2)) ∧
    (∀ keyword ∈ ["definitions", "$defs"], ∀ key,
      (Site.mk 0 [keyword, key]).pointer = "#/" ++ keyword ++ "/" ++
        String.ofList (replaceChar '/' ['~', '1'] (replaceChar '~' ['~', '0'] key.toList))) ∧
    (root.KeysDistinct → (defs.map (·.pointer)).Nodup ∧
      (∀ pointer i, lookup? defs pointer = some i ↔ (defs.get i).pointer = pointer) ∧
      ∀ pointer, member? pointer (distinctMembers (registrations defs)) = lookup? defs pointer) ∧
    ∀ (P : Type) (d : Document P), d.readSchema = .ok root → root.KeysDistinct := by
  intro defs
  refine ⟨?_, ?_, fun keyword h key => pointerText_definition h key, fun distinct => ?_,
    fun _ _ read => keysDistinct_of_readSchema read⟩
  · rintro accepts rfl
    rfl
  · rintro k rfl
    rw [pointers_definitions, Schema.definitionSites, List.map_append, List.map_map, List.map_map]
    rfl
  · have nodup := nodup_pointers distinct reserved
    exact ⟨nodup, fun _ _ => lookup?_eq_some_iff nodup, member?_registrations nodup⟩

end Pointers

namespace escapedKeys

/-- Keys that are written with escapes, look like written ones, or are empty. -/
def root : Schema := .object
  { definitions := some [("", .bool true), ("a/b", .bool true), ("a~1b", .bool true)]
    defs := some [("a~01b", .bool true), ("a/b", .bool false), ("", .bool true)] }

theorem definitions_found_escapedKeys :
    let defs := (root.definitions []).1
    root.KeysDistinct ∧
    defs.map (·.pointer) = ["#/definitions/", "#/definitions/a~1b", "#/definitions/a~01b",
      "#/$defs/a~001b", "#/$defs/a~1b", "#/$defs/"] ∧
    (defs.map (·.pointer)).Nodup ∧
    (∀ pointer i, lookup? defs pointer = some i ↔ (defs.get i).pointer = pointer) ∧
    ∀ pointer, member? pointer (distinctMembers (registrations defs)) = lookup? defs pointer := by
  have distinct : root.KeysDistinct := by decide
  exact ⟨distinct, by decide +kernel, (definitions_found root []).2.2.2.1 distinct⟩

end escapedKeys

end SchemaCompiler
