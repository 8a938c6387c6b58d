import SchemaCompiler.Json.Number

/-!
# The characters of numbers

The text of a number is made of digits, signs, a point and an `e`, whatever the number. That of a
double has a point or a sign in it, and that of an integer starts with a digit or a sign.
-/

namespace SchemaCompiler

/-- A character that may stand in the text of a number. -/
def isNumberChar (c : Char) : Bool := c.isDigit || c == '-' || c == '+' || c == '.' || c == 'e'

theorem isNumberChar_of_isDigit {c : Char} (h : c.isDigit) : isNumberChar c := by
  simp [isNumberChar, h]

theorem isNumberChar_of_mem_toDigits {n : Nat} {c : Char} (h : c ∈ Nat.toDigits 10 n) :
    isNumberChar c :=
  isNumberChar_of_isDigit (Nat.isDigit_of_mem_toDigits (by decide) (by decide) h)

theorem isNumberChar_of_mem_replicate {n : Nat} {c : Char} (h : c ∈ List.replicate n '0') :
    isNumberChar c := by
  rw [(List.mem_replicate.1 h).2]
  rfl

namespace Decimal

variable {d : Decimal} {c : Char}

theorem isNumberChar_of_mem_significant (h : c ∈ d.significant) : isNumberChar c := by
  unfold significant at h
  rw [List.mem_reverse] at h
  have digit := (List.dropWhile_suffix _).subset h
  exact isNumberChar_of_mem_toDigits (List.mem_reverse.1 digit)

theorem isNumberChar_of_mem_positional (h : c ∈ d.positional) : isNumberChar c := by
  have point : isNumberChar '.' := rfl
  have zero : isNumberChar '0' := rfl
  unfold positional at h
  split at h
  · simp only [List.cons_append, List.mem_cons, List.mem_append] at h
    rcases h with rfl | rfl | h | h
    · exact zero
    · exact point
    · exact isNumberChar_of_mem_replicate h
    · exact isNumberChar_of_mem_significant h
  · simp only [List.append_assoc, List.mem_append, List.mem_cons] at h
    rcases h with h | h | rfl | h
    · exact isNumberChar_of_mem_significant (List.mem_of_mem_take h)
    · exact isNumberChar_of_mem_replicate h
    · exact point
    · split at h
      · rwa [List.mem_singleton.1 h]
      · exact isNumberChar_of_mem_significant (List.mem_of_mem_drop h)

theorem isNumberChar_of_mem_scientific (h : c ∈ d.scientific) : isNumberChar c := by
  have significant : ∀ c ∈ d.significant, isNumberChar c :=
    fun _ => isNumberChar_of_mem_significant
  unfold scientific at h
  simp only [List.mem_append, List.mem_cons] at h
  rcases h with h | rfl | rfl | h
  · split at h
    next first second rest digits =>
      simp only [List.mem_cons] at h
      rcases h with rfl | rfl | h
      · exact significant c (by simp [digits])
      · rfl
      · exact significant c (by simpa [digits] using .inr h)
    · exact significant c h
  · rfl
  · split <;> rfl
  · exact isNumberChar_of_mem_toDigits h

theorem isNumberChar_of_mem_text (h : c ∈ d.text) : isNumberChar c := by
  unfold text at h
  split at h
  · exact isNumberChar_of_mem_positional h
  · exact isNumberChar_of_mem_scientific h

end Decimal

theorem Binary64.isNumberChar_of_mem_text {x : Binary64} {c : Char} (h : c ∈ x.text.toList) :
    isNumberChar c := by
  have digits : ∀ c ∈ (if x.magnitude.isZero then ['0', '.', '0'] else x.magnitude.shortest.text),
      isNumberChar c := by
    intro c h
    split at h
    · exact List.all_eq_true.1 (by decide) c h
    · exact Decimal.isNumberChar_of_mem_text h
  unfold Binary64.text at h
  rw [String.toList_ofList] at h
  split at h
  · rcases List.mem_cons.1 h with rfl | h
    · rfl
    · exact digits c h
  · exact digits c h

theorem isNumberChar_of_mem_repr {i : Int} {c : Char} (h : c ∈ i.repr.toList) :
    isNumberChar c := by
  cases i with
  | ofNat n => exact isNumberChar_of_mem_toDigits (by simpa [Int.repr] using h)
  | negSucc n =>
    have : c = '-' ∨ c ∈ Nat.toDigits 10 n.succ := by simpa [Int.repr] using h
    rcases this with rfl | h
    · rfl
    · exact isNumberChar_of_mem_toDigits h

theorem Number.isNumberChar_of_mem_text {n : Number} {c : Char} (h : c ∈ n.text.toList) :
    isNumberChar c := by
  cases n with
  | integer i => exact isNumberChar_of_mem_repr h
  | double x => exact Binary64.isNumberChar_of_mem_text h

/-! ## Points and signs -/

theorem Decimal.exists_mem_text (d : Decimal) : ∃ c ∈ d.text, c ∈ ['.', '-', '+'] := by
  unfold text
  split
  · refine ⟨'.', ?_, by decide⟩
    unfold positional
    split <;> simp
  · by_cases negative : d.position < 0
    · exact ⟨'-', by simp [scientific, negative], by decide⟩
    · exact ⟨'+', by simp [scientific, negative], by decide⟩

/-- The text of a double has a point or a sign. -/
theorem Binary64.exists_mem_text (x : Binary64) : ∃ c ∈ x.text.toList, c ∈ ['.', '-', '+'] := by
  have digits : ∃ c ∈ (if x.magnitude.isZero then ['0', '.', '0'] else x.magnitude.shortest.text),
      c ∈ ['.', '-', '+'] := by
    split
    · exact ⟨'.', by decide, by decide⟩
    · exact Decimal.exists_mem_text _
  obtain ⟨c, hc, other⟩ := digits
  refine ⟨c, ?_, other⟩
  unfold Binary64.text
  rw [String.toList_ofList]
  split
  · exact List.mem_cons_of_mem _ hc
  · exact hc

/-- The text of an integer starts with a digit or a sign. -/
theorem head_repr (i : Int) : ∃ c cs, i.repr.toList = c :: cs ∧ (c.isDigit ∨ c = '-') := by
  cases i with
  | ofNat n =>
    cases digits : Nat.toDigits 10 n with
    | nil => exact absurd digits Nat.toDigits_ne_nil
    | cons c cs =>
      refine ⟨c, cs, by simp [Int.repr, digits], .inl ?_⟩
      exact Nat.isDigit_of_mem_toDigits (by decide) (by decide) (digits ▸ List.mem_cons_self ..)
  | negSucc n => exact ⟨'-', Nat.toDigits 10 n.succ, by simp [Int.repr], .inr rfl⟩

theorem Number.toList_text_ne_nil (n : Number) : n.text.toList ≠ [] := by
  cases n with
  | integer i =>
    obtain ⟨c, cs, text, _⟩ := head_repr i
    exact text ▸ List.cons_ne_nil c cs
  | double x =>
    obtain ⟨c, hc, _⟩ := x.exists_mem_text
    exact List.ne_nil_of_mem hc

end SchemaCompiler
