import SchemaCompiler.Text.Escape
import SchemaCompiler.Text.Quoted

/-!
# Quoted strings can be read back

The written form of a string ends where its closing quotation mark stands, and two strings are
written alike only if they are equal (`quote_append_inj`).
-/

namespace SchemaCompiler

/-- The character that a text between quotation marks starts with. -/
def firstQuoted? : List Char → Option Char
  | '\\' :: 'u' :: a :: b :: c :: d :: _ => (hexQuad? a b c d).map Char.ofNat
  | '\\' :: e :: _ => simpleEscape? e
  | c :: _ => some c
  | [] => none

theorem hexQuad?_hexDigit {n : Nat} (h : n < 32) :
    hexQuad? '0' '0' (hexDigit (n / 16)) (hexDigit (n % 16)) = some n := by
  have all : ∀ n < 32, hexQuad? '0' '0' (hexDigit (n / 16)) (hexDigit (n % 16)) = some n := by
    decide
  exact all n h

theorem firstQuoted?_quotedChar (c : Char) (rest : List Char) :
    firstQuoted? (quotedChar c ++ rest) = some c := by
  unfold quotedChar
  split
  · rfl
  · rfl
  · rfl
  · rfl
  · rfl
  · rfl
  · rfl
  next backslash _ _ _ _ _ =>
    split
    next control =>
      simp only [List.cons_append, List.nil_append, firstQuoted?, hexQuad?_hexDigit control]
      simp
    next =>
      rw [List.singleton_append, firstQuoted?]
      · exact fun _ _ _ _ _ h => absurd h backslash
      · exact fun _ _ h => absurd h backslash

theorem quotedChar_append_inj {c d : Char} {u v : List Char}
    (h : quotedChar c ++ u = quotedChar d ++ v) : c = d ∧ u = v := by
  have first := congrArg firstQuoted? h
  rw [firstQuoted?_quotedChar, firstQuoted?_quotedChar, Option.some.injEq] at first
  subst first
  exact ⟨rfl, List.append_cancel_left h⟩

theorem quotedChar_append_ne (c : Char) (u v : List Char) : quotedChar c ++ u ≠ '"' :: v := by
  unfold quotedChar
  split
  all_goals try simp
  next mark _ _ _ _ _ _ =>
    split
    · simp
    · simpa using fun h : c = '"' => absurd h mark

theorem quotedChars_append_inj {s t u v : List Char}
    (h : s.flatMap quotedChar ++ '"' :: u = t.flatMap quotedChar ++ '"' :: v) : s = t ∧ u = v := by
  induction s generalizing t with
  | nil =>
    cases t with
    | nil => exact ⟨rfl, by simpa using h⟩
    | cons d t =>
      rw [List.flatMap_cons, List.append_assoc] at h
      exact absurd h.symm (quotedChar_append_ne d _ _)
  | cons c s ih =>
    cases t with
    | nil =>
      rw [List.flatMap_cons, List.append_assoc] at h
      exact absurd h (quotedChar_append_ne c _ _)
    | cons d t =>
      rw [List.flatMap_cons, List.flatMap_cons, List.append_assoc, List.append_assoc] at h
      obtain ⟨rfl, tail⟩ := quotedChar_append_inj h
      obtain ⟨rfl, rest⟩ := ih tail
      exact ⟨rfl, rest⟩

theorem toList_quote (s : String) :
    (quote s).toList = '"' :: (s.toList.flatMap quotedChar ++ ['"']) := by
  rw [quote, String.toList_ofList]
  rfl

/-- A quoted string followed by anything else determines both. -/
theorem quote_append_inj {s t : String} {u v : List Char}
    (h : (quote s).toList ++ u = (quote t).toList ++ v) : s = t ∧ u = v := by
  simp only [toList_quote, List.cons_append, List.append_assoc, List.cons.injEq, true_and] at h
  obtain ⟨same, rest⟩ := quotedChars_append_inj h
  exact ⟨String.toList_inj.1 same, rest⟩

/-! ## Unquoting -/

/-- The text that is written so between quotation marks. -/
def unquoted? : List Char → Option (List Char)
  | [] => some []
  | '\\' :: 'u' :: a :: b :: c :: d :: rest => do
    return Char.ofNat (← hexQuad? a b c d) :: (← unquoted? rest)
  | '\\' :: e :: rest => do return (← simpleEscape? e) :: (← unquoted? rest)
  | c :: rest => do return c :: (← unquoted? rest)

theorem unquoted?_escape {e c : Char} (h : simpleEscape? e = some c) (rest : List Char) :
    unquoted? ('\\' :: e :: rest) = (unquoted? rest).map (c :: ·) := by
  rw [unquoted?, h]
  · cases unquoted? rest <;> rfl
  · rintro _ _ _ _ _ rfl
    cases h

theorem unquoted?_quotedChar (c : Char) (rest : List Char) :
    unquoted? (quotedChar c ++ rest) = (unquoted? rest).map (c :: ·) := by
  unfold quotedChar
  split
  case h_8 backslash _ _ _ _ _ =>
    split
    next control =>
      simp only [List.cons_append, List.nil_append, unquoted?, hexQuad?_hexDigit control]
      cases unquoted? rest <;> simp
    next =>
      rw [List.singleton_append, unquoted?]
      · cases unquoted? rest <;> rfl
      · exact fun _ _ _ _ _ h => absurd h backslash
      · exact fun _ _ h => absurd h backslash
  all_goals exact unquoted?_escape rfl rest

theorem unquoted?_quoted (cs : List Char) : unquoted? (cs.flatMap quotedChar) = some cs := by
  induction cs with
  | nil => rfl
  | cons c cs ih => rw [List.flatMap_cons, unquoted?_quotedChar, ih, Option.map_some]

end SchemaCompiler
