import SchemaCompiler.Proofs.Definitions.Names

/-!
# Names that can be declared

A module can declare a name if it is an identifier and no reserved word. Sanitized texts are such
names (`declarable_sanitize`), and so is what is made from such a name by a suffix that is not all
in lower case (`Declarable.append`), since reserved words are: `_2`, `Schema`, `Type`.
-/

namespace SchemaCompiler

variable {s t : String} {c : Char}

/-! ## Reserved words -/

theorem isLower_reservedWords : reservedWords.all (fun w => w.toList.all Char.isLower) := by
  decide +kernel

theorem not_mem_reservedWords (hc : c ∈ s.toList) (upper : c.isLower = false) :
    s ∉ reservedWords := by
  intro reserved
  have lower := List.all_eq_true.1 (List.all_eq_true.1 isLower_reservedWords s reserved) c hc
  rw [upper] at lower
  exact absurd lower (by decide)

/-! ## Identifiers -/

theorem isIdentifierStart_of_isIdentifierChar (hc : isIdentifierChar c)
    (notDigit : c.isDigit = false) : isIdentifierStart c := by
  unfold isIdentifierChar at hc
  rwa [notDigit, Bool.or_false] at hc

theorem isIdentifier_ofList_cons {cs : List Char} (start : isIdentifierStart c)
    (rest : ∀ d ∈ cs, isIdentifierChar d) : isIdentifier (String.ofList (c :: cs)) := by
  unfold isIdentifier
  rw [String.toList_ofList]
  simp only [Bool.and_eq_true, List.all_eq_true]
  exact ⟨start, rest⟩

theorem isIdentifier_append (hs : isIdentifier s) (ht : Spelled t) : isIdentifier (s ++ t) := by
  unfold isIdentifier at hs ⊢
  rw [String.toList_append]
  cases chars : s.toList with
  | nil => simp [chars] at hs
  | cons c cs =>
    rw [chars] at hs
    simp only [List.cons_append, Bool.and_eq_true, List.all_eq_true] at hs ⊢
    obtain ⟨start, rest⟩ := hs
    refine ⟨start, fun d hd => ?_⟩
    rcases List.mem_append.1 hd with hd | hd
    · exact rest d hd
    · exact ht d hd

/-! ## Declarable names -/

/-- An identifier that is no reserved word. -/
structure Declarable (s : String) : Prop where
  identifier : isIdentifier s
  unreserved : s ∉ reservedWords

/-- A suffix of identifier characters that are not all in lower case. -/
theorem Declarable.append (h : Declarable s) (ht : Spelled t) (hc : c ∈ t.toList)
    (upper : c.isLower = false) : Declarable (s ++ t) where
  identifier := isIdentifier_append h.identifier ht
  unreserved := by
    refine not_mem_reservedWords (c := c) ?_ upper
    rw [String.toList_append]
    exact List.mem_append_right _ hc

theorem Declarable.appendNumber (h : Declarable s) (n : Nat) :
    Declarable (s ++ ("_" ++ toString n)) := by
  have underscore : Spelled "_" := by
    intro c hc
    obtain rfl : c = '_' := by simpa using hc
    decide
  refine h.append (underscore.append (spelled_toString n)) (c := '_') ?_ (by decide)
  rw [String.toList_append]
  exact List.mem_append_left _ (by decide)

theorem Declarable.candidate (h : Declarable s) (n : Nat) :
    Declarable (NameSupply.candidate s n) := by
  unfold NameSupply.candidate
  split
  · exact h
  · rw [String.append_assoc]
    exact h.appendNumber n

theorem Declarable.appendSchema (h : Declarable s) : Declarable (s ++ "Schema") := by
  have spelled : "Schema".toList.all isIdentifierChar := by decide
  exact h.append (List.all_eq_true.1 spelled) (c := 'S') (by decide) (by decide)

theorem Declarable.appendType (h : Declarable s) : Declarable (s ++ "Type") := by
  have spelled : "Type".toList.all isIdentifierChar := by decide
  exact h.append (List.all_eq_true.1 spelled) (c := 'T') (by decide) (by decide)

/-- A name that starts with `_` is no reserved word. -/
theorem declarable_underscore {cs : List Char} (rest : ∀ c ∈ cs, isIdentifierChar c) :
    Declarable (String.ofList ('_' :: cs)) where
  identifier := isIdentifier_ofList_cons (by decide) rest
  unreserved := by
    refine not_mem_reservedWords (c := '_') ?_ (by decide)
    rw [String.toList_ofList]
    exact List.mem_cons_self ..

theorem declarable_sanitize (s : String) : Declarable (sanitize s) := by
  have clean : ∀ c ∈ s.toList.map (fun c => if isIdentifierChar c then c else '_'),
      isIdentifierChar c := by
    intro c hc
    obtain ⟨d, _, rfl⟩ := List.mem_map.1 hc
    split
    next h => exact h
    next => decide
  unfold sanitize
  generalize s.toList.map (fun c => if isIdentifierChar c then c else '_') = cs at clean
  cases cs with
  | nil => exact declarable_underscore clean
  | cons c cs =>
    simp only
    split
    next => exact declarable_underscore clean
    next asIs =>
      rw [Bool.or_eq_true, not_or] at asIs
      obtain ⟨start, unreserved⟩ := asIs
      obtain ⟨first, rest⟩ := List.forall_mem_cons.1 clean
      refine ⟨isIdentifier_ofList_cons ?_ rest, by simpa using unreserved⟩
      exact isIdentifierStart_of_isIdentifierChar first (by simpa using start)

theorem declarable_allocateAll (supply : NameSupply) {bases : List String}
    (h : ∀ b ∈ bases, Declarable b) : ∀ name ∈ (supply.allocateAll bases).1, Declarable name := by
  induction bases generalizing supply with
  | nil => simp [NameSupply.allocateAll]
  | cons base bases ih =>
    obtain ⟨hb, hs⟩ := List.forall_mem_cons.1 h
    obtain ⟨n, hn⟩ := supply.free_eq_candidate base
    exact List.forall_mem_cons.2 ⟨hn ▸ hb.candidate n, ih _ hs⟩

end SchemaCompiler
