import SchemaCompiler.Definitions.Table
import SchemaCompiler.Proofs.Definitions.Allocation

/-!
# Names of definitions

Sanitized keys are made of identifier characters only, and so are the names that a supply makes from
them, with which definitions and their bindings are called.
-/

namespace SchemaCompiler

/-! ## Identifier characters -/

theorem isDigit_of_isIdentifierStart {c : Char} (h : isIdentifierStart c) : c.isDigit = false := by
  unfold isIdentifierStart at h
  simp only [Bool.or_eq_true, beq_iff_eq] at h
  rcases h with (letter | rfl) | rfl
  · unfold Char.isAlpha Char.isUpper Char.isLower at letter
    unfold Char.isDigit
    simp only [Bool.or_eq_true, Bool.and_eq_true, decide_eq_true_eq, ge_iff_le,
      UInt32.le_iff_toNat_le, Bool.and_eq_false_iff, decide_eq_false_iff_not] at letter ⊢
    simp only [Char.reduceVal, UInt32.reduceToNat] at letter ⊢
    omega
  · decide
  · decide

/-- A text is made of characters that may stand in identifiers. -/
def Spelled (s : String) : Prop := ∀ c ∈ s.toList, isIdentifierChar c

theorem spelled_of_isIdentifier {s : String} (h : isIdentifier s) : Spelled s := by
  unfold isIdentifier at h
  intro c hc
  cases chars : s.toList with
  | nil => simp [chars] at hc
  | cons d ds =>
    simp only [chars, Bool.and_eq_true, List.all_eq_true, List.mem_cons] at h hc
    rcases hc with rfl | hc
    · simp [isIdentifierChar, h.1]
    · exact h.2 c hc

theorem Spelled.append {s t : String} (hs : Spelled s) (ht : Spelled t) : Spelled (s ++ t) := by
  intro c hc
  rw [String.toList_append, List.mem_append] at hc
  exact hc.elim (hs c) (ht c)

theorem Spelled.ite {p : Prop} [Decidable p] {s t : String} (hs : Spelled s) (ht : Spelled t) :
    Spelled (if p then s else t) := by
  split
  · exact hs
  · exact ht

theorem spelled_toString (n : Nat) : Spelled (toString n) := by
  intro c hc
  rw [Nat.toString_eq_repr, Nat.toList_repr] at hc
  have digit := Nat.isDigit_of_mem_toDigits (by decide) (by decide) hc
  simp [isIdentifierChar, digit]

theorem spelled_candidate {base : String} (h : Spelled base) (n : Nat) :
    Spelled (NameSupply.candidate base n) := by
  unfold NameSupply.candidate
  split
  · exact h
  · refine (h.append ?_).append (spelled_toString n)
    intro c hc
    obtain rfl : c = '_' := by simpa using hc
    decide

theorem spelled_sanitize (s : String) : Spelled (sanitize s) := by
  have clean : Spelled (String.ofList
      (s.toList.map fun c => if isIdentifierChar c then c else '_')) := by
    intro c hc
    rw [String.toList_ofList] at hc
    obtain ⟨d, _, rfl⟩ := List.mem_map.1 hc
    split
    next h => exact h
    next => decide
  have prefixed : Spelled (String.ofList
      ('_' :: s.toList.map fun c => if isIdentifierChar c then c else '_')) := by
    unfold Spelled at clean ⊢
    rw [String.toList_ofList] at clean ⊢
    exact List.forall_mem_cons.2 ⟨by decide, clean⟩
  exact prefixed.ite clean

theorem spelled_allocateAll (s : NameSupply) {bases : List String} (h : ∀ b ∈ bases, Spelled b) :
    ∀ name ∈ (s.allocateAll bases).1, Spelled name := by
  induction bases generalizing s with
  | nil => simp [NameSupply.allocateAll]
  | cons base bases ih =>
    obtain ⟨hb, hs⟩ := List.forall_mem_cons.1 h
    obtain ⟨n, hn⟩ := s.free_eq_candidate base
    exact List.forall_mem_cons.2 ⟨hn ▸ spelled_candidate hb n, ih _ hs⟩

/-- The schema of a definition is the one under its key. -/
theorem exists_definitionSite {root : Schema} {reserved : List String} {d : Definition}
    (h : d ∈ (root.definitions reserved).1) :
    ∃ site ∈ root.definitionSites, site.2.2 = d.schema := by
  obtain ⟨i, hi, rfl⟩ := List.mem_iff_getElem.1 h
  simp only [Schema.definitions, List.getElem_zipWith]
  exact ⟨_, List.getElem_mem _, rfl⟩

/-- The names of definitions are made of identifier characters. -/
theorem spelled_name {root : Schema} {reserved : List String} {d : Definition}
    (h : d ∈ (root.definitions reserved).1) : Spelled d.name := by
  obtain ⟨i, hi, rfl⟩ := List.mem_iff_getElem.1 h
  simp only [Schema.definitions, List.getElem_zipWith]
  refine spelled_allocateAll _ (fun b hb => ?_) _ (List.getElem_mem _)
  obtain ⟨site, _, rfl⟩ := List.mem_map.1 hb
  exact spelled_sanitize _

end SchemaCompiler
