import SchemaCompiler.Proofs.Pattern.Scanned

/-!
# What escaping keeps of a pattern

`patternElements` reads a pattern as characters and escapes. The body of its literal is read as the
same elements, and is its own body (`regexLiteral_elements`).
-/

namespace SchemaCompiler

/-- What a pattern is made of: characters that stand for themselves and escaped ones. -/
inductive PatternElement where
  | char (c : Char)
  | escaped (c : Char)
  deriving DecidableEq, Repr

/-- The elements of a pattern. A slash and a line terminator are the same with and without a
backslash, a line terminator is also the same as its escape sequence, and a lone backslash at the
end is an escaped one. -/
def patternElements : List Char → List PatternElement
  | [] => []
  | ['\\'] => [.escaped '\\']
  | '\\' :: 'n' :: cs => .char '\n' :: patternElements cs
  | '\\' :: 'r' :: cs => .char '\r' :: patternElements cs
  | '\\' :: 'u' :: '2' :: '0' :: '2' :: '8' :: cs => .char '\u2028' :: patternElements cs
  | '\\' :: 'u' :: '2' :: '0' :: '2' :: '9' :: cs => .char '\u2029' :: patternElements cs
  | '\\' :: c :: cs =>
    (if c = '/' ∨ isLineTerminator c then .char c else .escaped c) :: patternElements cs
  | c :: cs => .char c :: patternElements cs

/-! ## Bodies of bodies -/

variable {c : Char} {cs : List Char}

theorem patternBody_pair (c : Char) (cs : List Char) :
    patternBody ('\\' :: c :: cs) = (lineEndEscape? c).getD ['\\', c] ++ patternBody cs := rfl

theorem patternBody_single (slash : c ≠ '/') (backslash : c ≠ '\\') (cs : List Char) :
    patternBody (c :: cs) = (lineEndEscape? c).getD [c] ++ patternBody cs := by
  rw [patternBody]
  · exact fun eq => absurd eq backslash
  · exact fun _ _ eq => absurd eq backslash
  · exact fun eq => absurd eq slash

/-- The escape of a line terminator is kept, and stands for the line terminator. -/
theorem escape_append {escape : List Char} (h : lineEndEscape? c = some escape) (cs : List Char) :
    patternBody (escape ++ cs) = escape ++ patternBody cs ∧
      patternElements (escape ++ cs) = .char c :: patternElements cs := by
  have all : ∀ e ∈ lineEndEscapes, patternBody (e.2 ++ cs) = e.2 ++ patternBody cs ∧
      patternElements (e.2 ++ cs) = .char e.1 :: patternElements cs := by
    simp only [lineEndEscapes, List.forall_mem_cons]
    exact ⟨⟨rfl, rfl⟩, ⟨rfl, rfl⟩, ⟨rfl, rfl⟩, ⟨rfl, rfl⟩, List.forall_mem_nil _⟩
  exact all _ (mem_lineEndEscapes h)

theorem patternBody_patternBody (cs : List Char) :
    patternBody (patternBody cs) = patternBody cs := by
  fun_induction patternBody cs with
  | case1 => rfl
  | case2 => rfl
  | case3 c rest ih =>
    cases escape : lineEndEscape? c with
    | none =>
      rw [Option.getD_none, List.cons_append, List.cons_append, List.nil_append, patternBody_pair,
        escape, ih]
      rfl
    | some cs => rw [Option.getD_some, (escape_append escape _).1, ih]
  | case4 rest ih => exact congrArg (['\\', '/'] ++ ·) ih
  | case5 c rest last pair slash ih =>
    have backslash : c ≠ '\\' := ne_backslash last pair
    cases escape : lineEndEscape? c with
    | none =>
      rw [Option.getD_none, List.singleton_append, patternBody_single slash backslash, escape, ih]
      rfl
    | some cs => rw [Option.getD_some, (escape_append escape _).1, ih]

/-! ## Elements of bodies -/

theorem patternElements_single (backslash : c ≠ '\\') (cs : List Char) :
    patternElements (c :: cs) = .char c :: patternElements cs := by
  rw [patternElements]
  all_goals
    intros
    contradiction

/-- A text that a body begins with is what the pattern begins with, if there is no backslash
in it. -/
theorem exists_of_patternBody_eq {text more : List Char} (noEscape : '\\' ∉ text)
    (h : patternBody cs = text ++ more) :
    ∃ rest, cs = text ++ rest ∧ more = patternBody rest := by
  induction text generalizing cs with
  | nil => exact ⟨cs, rfl, h.symm⟩
  | cons c text ih =>
    obtain ⟨first, others⟩ := not_or.1 (mt List.mem_cons.2 noEscape)
    have nonempty : cs ≠ [] := by
      rintro rfl
      cases h
    obtain ⟨e, tail, eq, rfl | ⟨-, rest, rfl, rfl⟩⟩ := exists_patternBody nonempty
    all_goals
      rw [eq, List.cons_append, List.cons.injEq] at h
      obtain ⟨rfl, h⟩ := h
    · exact absurd rfl first
    · obtain ⟨rest, rfl, body⟩ := ih others h
      exact ⟨rest, rfl, body⟩

theorem patternElements_patternBody (cs : List Char) :
    patternElements (patternBody cs) = patternElements cs := by
  fun_induction patternElements cs with
  | case1 => rfl
  | case2 => rfl
  | case3 cs ih => exact congrArg (PatternElement.char '\n' :: ·) ih
  | case4 cs ih => exact congrArg (PatternElement.char '\r' :: ·) ih
  | case5 cs ih => exact congrArg (PatternElement.char '\u2028' :: ·) ih
  | case6 cs ih => exact congrArg (PatternElement.char '\u2029' :: ·) ih
  | case7 c cs feed carriage separator paragraph ih =>
    rw [patternBody_pair]
    cases escape : lineEndEscape? c with
    | none =>
      -- The digits of an escape sequence are in the body only if the pattern has them there.
      have digits : ∀ d, d ≠ '\\' → (∀ rest, cs ≠ '2' :: '0' :: '2' :: d :: rest) →
          ∀ rest, patternBody cs ≠ '2' :: '0' :: '2' :: d :: rest := by
        intro d noEscape other rest eq
        obtain ⟨rest, same, -⟩ : ∃ more, cs = ['2', '0', '2', d] ++ more ∧ rest = patternBody more :=
          exists_of_patternBody_eq (by simpa using noEscape.symm) eq
        exact other rest same
      rw [Option.getD_none, List.cons_append, List.singleton_append, patternElements, ih]
      · exact feed
      · exact carriage
      · exact fun rest u => digits '8' (by decide) (fun rest => separator rest u) rest
      · exact fun rest u => digits '9' (by decide) (fun rest => paragraph rest u) rest
    | some e =>
      have line : isLineTerminator c := isLineTerminator_of_escape escape
      rw [Option.getD_some, (escape_append escape _).2, ih, if_pos (.inr line)]
  | case8 c cs last _ _ _ _ pair ih =>
    have backslash : c ≠ '\\' := ne_backslash last pair
    by_cases slash : c = '/'
    · subst slash
      exact congrArg (PatternElement.char '/' :: ·) ih
    rw [patternBody_single slash backslash]
    cases escape : lineEndEscape? c with
    | none => rw [Option.getD_none, List.singleton_append, patternElements_single backslash, ih]
    | some e => rw [Option.getD_some, (escape_append escape _).2, ih]

/-- The literal of a pattern is a body between slashes. The body has no line terminator in it, and
a slash only as the second character of a pair with a backslash; it has the elements of the pattern,
and the same literal as the pattern. -/
theorem regexLiteral_elements (pattern : String) :
    ∃ body, regexLiteral pattern = "/" ++ body ++ "/" ∧
      (∀ c ∈ body.toList, isLineTerminator c = false) ∧ LiteralBody '/' body.toList ∧
      patternElements body.toList = patternElements pattern.toList ∧
      regexLiteral body = regexLiteral pattern := by
  have body : (String.ofList (patternBody pattern.toList)).toList = patternBody pattern.toList :=
    String.toList_ofList
  refine ⟨String.ofList (patternBody pattern.toList), ?_, ?_⟩
  · apply String.toList_inj.1
    simp [toList_regexLiteral]
  · rw [body]
    refine ⟨fun c hc => isLineTerminator_of_mem_patternBody hc, .patternBody _,
      patternElements_patternBody _, ?_⟩
    rw [regexLiteral, body, patternBody_patternBody]
    rfl

end SchemaCompiler
