import SchemaCompiler.Proofs.Definitions.Declarable

/-!
# Sanitizing is a projection

Sanitizing leaves a text as it is if and only if it can be declared (`sanitize_eq_self_iff`), and
what it makes of any text can be declared. So it is a projection onto the names that can be
declared, and since these stay such names when a suffix of the module follows, no name in the module
is ever sanitized to another one: `sanitize_projects`.
-/

namespace SchemaCompiler

variable {s : String}

/-! ## What sanitizing leaves alone -/

/-- Identifier characters are kept. -/
theorem map_identifierChar_eq_self {cs : List Char} (h : ∀ c ∈ cs, isIdentifierChar c) :
    cs.map (fun c => if isIdentifierChar c then c else '_') = cs := by
  calc cs.map (fun c => if isIdentifierChar c then c else '_')
      = cs.map id := List.map_congr_left fun c hc => if_pos (h c hc)
    _ = cs := List.map_id cs

theorem sanitize_of_declarable (h : Declarable s) : sanitize s = s := by
  obtain ⟨identifier, unreserved⟩ := h
  unfold isIdentifier at identifier
  cases chars : s.toList with
  | nil => simp [chars] at identifier
  | cons c cs =>
    rw [chars] at identifier
    simp only [Bool.and_eq_true, List.all_eq_true] at identifier
    obtain ⟨start, rest⟩ := identifier
    have first : isIdentifierChar c := by
      unfold isIdentifierChar
      rw [start]
      rfl
    have same : String.ofList (c :: cs) = s := by rw [← chars, String.ofList_toList]
    unfold sanitize
    rw [chars, map_identifierChar_eq_self (List.forall_mem_cons.2 ⟨first, rest⟩)]
    simp only [isDigit_of_isIdentifierStart start, Bool.false_or, same]
    exact if_neg (by simpa using unreserved)

theorem sanitize_eq_self_iff : sanitize s = s ↔ Declarable s := by
  constructor
  · intro same
    rw [← same]
    exact declarable_sanitize s
  · exact sanitize_of_declarable

/-! ## Names with suffixes -/

/-- What a module appends to names: to that of a recursive definition, to that of the root schema,
and to a name that is taken. -/
inductive NameSuffix where
  | schema
  | type
  | number (n : Nat)

def NameSuffix.text : NameSuffix → String
  | .schema => "Schema"
  | .type => "Type"
  | .number n => "_" ++ toString n

theorem Declarable.appendSuffix (h : Declarable s) (suffix : NameSuffix) :
    Declarable (s ++ suffix.text) := by
  cases suffix with
  | schema => exact h.appendSchema
  | type => exact h.appendType
  | number n => exact h.appendNumber n

/-- Whatever the text, sanitizing makes a name of it that can be declared, an identifier that is no
reserved word, and leaves this name as it is from then on; texts that are left as they are at once
are those that can be declared. A suffix makes such a name of such a name again. -/
theorem sanitize_projects (s : String) :
    Declarable (sanitize s) ∧ sanitize (sanitize s) = sanitize s ∧
    (sanitize s = s ↔ isIdentifier s ∧ s ∉ reservedWords) ∧
    ∀ suffix : NameSuffix, Declarable (sanitize s ++ suffix.text) ∧
      sanitize (sanitize s ++ suffix.text) = sanitize s ++ suffix.text := by
  have declarable : Declarable (sanitize s) := declarable_sanitize s
  refine ⟨declarable, sanitize_of_declarable declarable, ?_, fun suffix => ?_⟩
  · apply sanitize_eq_self_iff.trans
    exact ⟨fun h => ⟨h.identifier, h.unreserved⟩, fun h => ⟨h.1, h.2⟩⟩
  · have longer : Declarable (sanitize s ++ suffix.text) := declarable.appendSuffix suffix
    exact ⟨longer, sanitize_of_declarable longer⟩

/-- A reserved word gets a `_`, and what has got one for another reason is no reserved word. -/
example : ["", "2fa", "class", "my-type\n", "_class", "Ünïon"].map sanitize =
    ["_", "_2fa", "_class", "my_type_", "_class", "_n_on"] := by decide +kernel

end SchemaCompiler
