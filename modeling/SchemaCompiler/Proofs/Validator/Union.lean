import Mathlib.Data.List.Induction
import SchemaCompiler.Validator.Basic

/-!
# Unions of validators

`Validator.union` tells its members apart by their code and `unionType` by their types. If members
with the same code have the same type, leaving out repeated code leaves the union of the types as
it is (`unionType_distinctByCode`).
-/

namespace SchemaCompiler

/-! ## First occurrences -/

theorem firstOccurrences_concat (xs : List String) (x : String) :
    firstOccurrences (xs ++ [x]) =
      if (firstOccurrences xs).contains x then firstOccurrences xs
      else firstOccurrences xs ++ [x] := by
  rw [firstOccurrences, List.foldl_append]
  rfl

theorem mem_firstOccurrences {xs : List String} {x : String} :
    x ∈ firstOccurrences xs ↔ x ∈ xs := by
  induction xs using List.reverseRecOn generalizing x with
  | nil => rfl
  | append_singleton xs y ih =>
    rw [firstOccurrences_concat]
    split
    next seen =>
      have seen : y ∈ xs := ih.1 (by simpa using seen)
      simp only [ih, List.mem_append, List.mem_singleton]
      exact ⟨.inl, fun h => h.elim id fun e => e ▸ seen⟩
    next => simp [ih]

theorem unionType_singleton (x : String) : unionType [x] = x := by
  simp [unionType, firstOccurrences]

namespace Validator

variable {rs : List Validator}

theorem distinctByCode_concat (rs : List Validator) (r : Validator) :
    distinctByCode (rs ++ [r]) =
      if (distinctByCode rs).any (·.code == r.code) then distinctByCode rs
      else distinctByCode rs ++ [r] := by
  rw [distinctByCode, List.foldl_append]
  rfl

theorem distinctByCode_subset (rs : List Validator) : distinctByCode rs ⊆ rs := by
  induction rs using List.reverseRecOn with
  | nil => exact List.Subset.refl _
  | append_singleton rs r ih =>
    rw [distinctByCode_concat]
    split
    · exact fun s hs => List.mem_append_left _ (ih hs)
    · intro s hs
      rcases List.mem_append.1 hs with hs | hs
      · exact List.mem_append_left _ (ih hs)
      · exact List.mem_append_right _ hs

theorem distinctByCode_ne_nil (h : rs ≠ []) : distinctByCode rs ≠ [] := by
  induction rs using List.reverseRecOn with
  | nil => exact absurd rfl h
  | append_singleton rs r =>
    rw [distinctByCode_concat]
    split
    next seen =>
      obtain ⟨s, hs, _⟩ := List.any_eq_true.1 seen
      exact List.ne_nil_of_mem hs
    next => simp

/-- Leaving out repeated code leaves no code out. -/
theorem exists_mem_distinctByCode {r : Validator} (h : r ∈ rs) :
    ∃ s ∈ distinctByCode rs, s.code = r.code := by
  induction rs using List.reverseRecOn with
  | nil => simp at h
  | append_singleton rs last ih =>
    rw [distinctByCode_concat]
    by_cases seen : (distinctByCode rs).any (·.code == last.code)
    · rw [if_pos seen]
      rcases List.mem_append.1 h with h | h
      · exact ih h
      · obtain rfl := List.mem_singleton.1 h
        obtain ⟨s, hs, code⟩ := List.any_eq_true.1 seen
        exact ⟨s, hs, beq_iff_eq.1 code⟩
    · rw [if_neg seen]
      rcases List.mem_append.1 h with h | h
      · obtain ⟨s, hs, code⟩ := ih h
        exact ⟨s, List.mem_append_left _ hs, code⟩
      · exact ⟨r, List.mem_append_right _ h, rfl⟩

/-- Leaving out repeated code leaves no type out if code determines the type. -/
theorem firstOccurrences_distinctByCode
    (same : ∀ r ∈ rs, ∀ s ∈ rs, r.code = s.code → r.typeOrAny = s.typeOrAny) :
    firstOccurrences ((distinctByCode rs).map typeOrAny) = firstOccurrences (rs.map typeOrAny) := by
  induction rs using List.reverseRecOn with
  | nil => rfl
  | append_singleton rs r ih =>
    have ih := ih fun a ha b hb => same a (List.mem_append_left _ ha) b (List.mem_append_left _ hb)
    rw [List.map_append, List.map_singleton, firstOccurrences_concat, distinctByCode_concat]
    split
    next seen =>
      obtain ⟨s, hs, code⟩ := List.any_eq_true.1 seen
      have old : s ∈ rs := distinctByCode_subset rs hs
      have type := same s (List.mem_append_left _ old) r (by simp) (by simpa using code)
      have : r.typeOrAny ∈ firstOccurrences (rs.map typeOrAny) :=
        mem_firstOccurrences.2 (type ▸ List.mem_map_of_mem old)
      rw [ih, if_pos (by simpa using this)]
    next =>
      rw [List.map_append, List.map_singleton, firstOccurrences_concat, ih]

theorem unionType_distinctByCode
    (same : ∀ r ∈ rs, ∀ s ∈ rs, r.code = s.code → r.typeOrAny = s.typeOrAny) :
    unionType ((distinctByCode rs).map typeOrAny) = unionType (rs.map typeOrAny) := by
  rw [unionType, unionType, firstOccurrences_distinctByCode same]

/-! ## Types of unions -/

theorem type_eq_some_typeOrAny {r : Validator} (h : r.type.isSome) : r.type = some r.typeOrAny := by
  obtain ⟨type, h⟩ := Option.isSome_iff_exists.1 h
  simp [typeOrAny, h]

theorem knownTypes_eq (typed : ∀ r ∈ rs, r.type.isSome) :
    knownTypes rs = some (rs.map typeOrAny) := by
  induction rs with
  | nil => rfl
  | cons r rs ih =>
    obtain ⟨hr, hrs⟩ := List.forall_mem_cons.1 typed
    simp [knownTypes, type_eq_some_typeOrAny hr, ih hrs]

/-- The type of a union is that of the members with different code. -/
theorem type_union (typed : ∀ r ∈ rs, r.type.isSome) (nonempty : rs ≠ []) :
    (union rs).type = some (unionType ((distinctByCode rs).map typeOrAny)) := by
  have known : ∀ r ∈ distinctByCode rs, r.type.isSome :=
    fun r hr => typed r (distinctByCode_subset rs hr)
  have nonempty := distinctByCode_ne_nil nonempty
  unfold union
  generalize distinctByCode rs = kept at known nonempty
  split
  · exact absurd rfl nonempty
  next only =>
    rw [List.map_singleton, unionType_singleton]
    exact type_eq_some_typeOrAny (known only (by simp))
  · rw [ofMembers, knownTypes_eq known]
    rfl

end Validator

end SchemaCompiler
