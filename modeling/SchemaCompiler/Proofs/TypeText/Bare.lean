import SchemaCompiler.Proofs.Definitions.Declarable
import SchemaCompiler.Proofs.TypeText.Compiled

/-!
# Bare names in types

A type alias may refer to itself only from within a record with fields, an array or a tuple. What
stands outside of these is bare: the type itself, the members of unions and intersections, and the
argument of `Record<string, T>`. `bareNames` lists the names there.

Alike trees have the same bare names, so those of a text are those of the tree that it was written
from (`bareIn_text`), and each way of writing types says where they come from.
-/

namespace SchemaCompiler

variable {name type : String} {types : List String}

namespace TypeTree

variable {t u : TypeTree} {ts : List TypeTree}

mutual

/-- The words in a type that are in no record with fields, array or tuple. -/
def bareNames : TypeTree → List String
  | .word w => [w.text]
  | .string _ => []
  | .tuple _ => []
  | .array _ => []
  | .record [] (some t) => t.bareNames
  | .record _ _ => []
  | .intersection t ts => t.bareNames ++ bareNamesOfAll ts
  | .union t ts => t.bareNames ++ bareNamesOfAll ts
  | .orNull t => "null" :: t.bareNames

def bareNamesOfAll : List TypeTree → List String
  | [] => []
  | t :: ts => t.bareNames ++ bareNamesOfAll ts

end

theorem bareNamesOfAll_eq_flatMap (ts : List TypeTree) :
    bareNamesOfAll ts = ts.flatMap bareNames := by
  induction ts with
  | nil => rfl
  | cons t ts ih => rw [bareNamesOfAll, ih, List.flatMap_cons]

theorem bareNames_record {fields : List (String × Bool × TypeTree)} (h : fields ≠ [])
    (index : Option TypeTree) : (record fields index).bareNames = [] := by
  cases fields with
  | nil => exact absurd rfl h
  | cons f fields => cases index <;> rw [bareNames] <;> simp

theorem bareNames_unionOf (h : ts ≠ []) : (unionOf ts).bareNames = ts.flatMap bareNames := by
  rcases ts with _ | ⟨t, _ | ⟨u, ts⟩⟩
  · exact absurd rfl h
  · simp [unionOf]
  · simp [unionOf, bareNames, bareNamesOfAll_eq_flatMap]

theorem bareNames_intersectionOf (h : ts ≠ []) :
    (intersectionOf ts).bareNames = ts.flatMap bareNames := by
  rcases ts with _ | ⟨t, _ | ⟨u, ts⟩⟩
  · exact absurd rfl h
  · simp [intersectionOf]
  · simp [intersectionOf, bareNames, bareNamesOfAll_eq_flatMap]

/-- Alike trees have the same bare names. -/
theorem Alike.mem_bareNames (h : Alike t u) : name ∈ t.bareNames ↔ name ∈ u.bareNames := by
  induction h with
  | refl => exact .rfl
  | symm _ ih => exact ih.symm
  | trans _ _ ih ih' => exact ih.trans ih'
  | union_one t => simp [bareNames, bareNamesOfAll]
  | intersection_one t => simp [bareNames, bareNamesOfAll]
  | orNull t => simp [bareNames, unionOf, bareNamesOfAll, null, TypeWord.ofIdentifier, or_comm]
  | union_flat before members after nonempty =>
    rw [bareNames_unionOf (by simp), bareNames_unionOf (by simp [nonempty])]
    simp [bareNames_unionOf nonempty]
  | intersection_flat before members after nonempty =>
    rw [bareNames_intersectionOf (by simp), bareNames_intersectionOf (by simp [nonempty])]
    simp [bareNames_intersectionOf nonempty]
  | union_repeat before between after t =>
    rw [bareNames_unionOf (by simp), bareNames_unionOf (by simp)]
    simp only [List.flatMap_append, List.flatMap_cons, List.mem_append]
    tauto
  | in_union before after _ ih =>
    rw [bareNames_unionOf (by simp), bareNames_unionOf (by simp)]
    simp only [List.flatMap_append, List.flatMap_cons, List.mem_append, ih]
  | in_intersection before after _ ih =>
    rw [bareNames_intersectionOf (by simp), bareNames_intersectionOf (by simp)]
    simp only [List.flatMap_append, List.flatMap_cons, List.mem_append, ih]
  | in_tuple | in_array => exact .rfl
  | in_field => rw [bareNames_record (by simp), bareNames_record (by simp)]
  | in_index fields _ ih =>
    cases fields with
    | nil => exact ih
    | cons f fields => rw [bareNames_record (by simp), bareNames_record (by simp)]

end TypeTree

/-! ## Bare names of texts -/

/-- A name is bare in the type that a text is read as. -/
def BareIn (name type : String) : Prop :=
  ∃ u, TypeText.readType? type = some u ∧ name ∈ u.bareNames

theorem bareIn_text (t : TypeTree) : BareIn name t.text ↔ name ∈ t.bareNames := by
  obtain ⟨u, read, alike⟩ := TypeText.readType?_text t
  constructor
  · rintro ⟨v, read', mem⟩
    obtain rfl := Option.some.inj (read.symm.trans read')
    exact alike.mem_bareNames.1 mem
  · exact fun mem => ⟨u, read, alike.mem_bareNames.2 mem⟩

theorem bareIn_identifier {word : String} (h : isIdentifier word) :
    BareIn name word ↔ name = word :=
  (bareIn_text (.word (.ofIdentifier word h))).trans List.mem_singleton

theorem bareIn_trees (ts : List TypeTree) :
    name ∈ ts.flatMap TypeTree.bareNames ↔ ∃ type ∈ ts.map TypeTree.text, BareIn name type := by
  simp [bareIn_text]

theorem bareIn_unionType (nonempty : types ≠ []) (h : ∀ type ∈ types, IsTypeText type) :
    BareIn name (unionType types) ↔ ∃ type ∈ types, BareIn name type := by
  obtain ⟨ts, rfl⟩ := IsTypeText.exists_trees h
  cases ts with
  | nil => exact absurd rfl nonempty
  | cons t ts =>
    have text : unionType ((t :: ts).map TypeTree.text) = (TypeTree.union t ts).text := by
      rw [TypeTree.text, TypeTree.texts_eq_map, List.map_cons]
    rw [text, bareIn_text, TypeTree.bareNames, TypeTree.bareNamesOfAll_eq_flatMap,
      ← List.flatMap_cons, bareIn_trees]

theorem bareIn_intersectionType (nonempty : types ≠ []) (h : ∀ type ∈ types, IsTypeText type) :
    BareIn name (intersectionType types) ↔ ∃ type ∈ types, BareIn name type := by
  obtain ⟨ts, rfl⟩ := IsTypeText.exists_trees h
  cases ts with
  | nil => exact absurd rfl nonempty
  | cons t ts =>
    have text : intersectionType ((t :: ts).map TypeTree.text) =
        (TypeTree.intersection t ts).text := by
      rw [TypeTree.text, TypeTree.texts_eq_map, List.map_cons]
    rw [text, bareIn_text, TypeTree.bareNames, TypeTree.bareNamesOfAll_eq_flatMap,
      ← List.flatMap_cons, bareIn_trees]

theorem bareIn_orNull (h : IsTypeText type) :
    BareIn name (type ++ " | null") ↔ name = "null" ∨ BareIn name type := by
  obtain ⟨t, rfl⟩ := h
  have text : t.text ++ " | null" = (TypeTree.orNull t).text := by rw [TypeTree.text]
  rw [text, bareIn_text, bareIn_text, TypeTree.bareNames, List.mem_cons]

theorem not_bareIn_arrayType (h : IsTypeText type) : ¬ BareIn name (arrayType type) := by
  obtain ⟨t, rfl⟩ := h
  have text : arrayType t.text = (TypeTree.array t).text := by rw [TypeTree.text]
  rw [text, bareIn_text]
  simp [TypeTree.bareNames]

theorem bareIn_recordType {fields : List Field} {index : Option String}
    (hf : ∀ f ∈ fields, IsTypeText f.type) (hi : ∀ type ∈ index, IsTypeText type) :
    BareIn name (recordType fields index) ↔ fields = [] ∧ ∃ type ∈ index, BareIn name type := by
  obtain ⟨fs, rfl, t, rfl⟩ := IsTypeText.exists_record hf hi
  rw [← TypeTree.text_record, bareIn_text]
  cases fs with
  | nil => cases t <;> simp [TypeTree.bareNames, bareIn_text]
  | cons f fs => simp [TypeTree.bareNames_record]

/-! ## Names of definitions -/

section Declarable

variable (h : Declarable name)

include h

theorem Declarable.ne_reserved {word : String} (reserved : word ∈ reservedWords) : name ≠ word :=
  fun eq => h.unreserved (eq ▸ reserved)

theorem Declarable.not_bareIn_reserved {word : String}
    (reserved : word ∈ reservedWords ∧ isIdentifier word) : ¬ BareIn name word := by
  rw [bareIn_identifier reserved.2]
  exact h.ne_reserved reserved.1

theorem Declarable.ne_text (n : Number) : name ≠ n.text := by
  rintro rfl
  exact TypeWord.not_isIdentifier_text n h.identifier

/-- The type of a value has no names but those of values. -/
theorem Declarable.not_bareIn_literalType (v : Json) : ¬ BareIn name (literalType v) := by
  cases v with
  | null => exact h.not_bareIn_reserved (by decide : "null" ∈ _ ∧ _)
  | bool b =>
    cases b
    · exact h.not_bareIn_reserved (by decide : "false" ∈ _ ∧ _)
    · exact h.not_bareIn_reserved (by decide : "true" ∈ _ ∧ _)
  | number n =>
    rw [← TypeTree.text_ofValue, bareIn_text]
    exact fun mem => h.ne_text n (List.mem_singleton.1 mem)
  | string | array =>
    rw [← TypeTree.text_ofValue, bareIn_text]
    simp [TypeTree.ofValue, TypeTree.bareNames]
  | object members =>
    rw [← TypeTree.text_ofValue, bareIn_text, TypeTree.ofValue]
    generalize TypeTree.ofMembers members = fields
    cases fields <;> simp [TypeTree.bareNames]

end Declarable

end SchemaCompiler
