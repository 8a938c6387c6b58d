import SchemaCompiler.Json.Pointer
import SchemaCompiler.Proofs.Number.ReadBack
import SchemaCompiler.Proofs.Text.Split

/-!
# Pointers that are read back

Escaping a token loses nothing and leaves no slash in it, so the tokens of a path stand between the
slashes of its written form. Different paths are written differently (`pointerText_inj`), and
following a written path in a value is following its tokens (`Json.atFragment?_pointerText`).

`pointerTokens` reads a written path back but for the empty tokens, which it drops wherever they
stand (`pointerTokens_pointerText`).
-/

namespace SchemaCompiler

/-! ## Tokens -/

theorem unescapeToken_escapeToken (cs : List Char) : unescapeToken (escapeToken cs) = cs := by
  fun_induction escapeToken cs with
  | case1 => rfl
  | case2 cs ih => rw [unescapeToken, ih]
  | case3 cs ih => rw [unescapeToken, ih]
  | case4 c cs tilde slash ih =>
    rw [unescapeToken, ih]
    · exact fun _ eq => absurd eq tilde
    · exact fun _ eq => absurd eq tilde

theorem escapeToken_inj {cs ds : List Char} : escapeToken cs = escapeToken ds ↔ cs = ds := by
  refine ⟨fun h => ?_, congrArg escapeToken⟩
  rw [← unescapeToken_escapeToken cs, h, unescapeToken_escapeToken]

theorem escapeToken_eq_nil {cs : List Char} : escapeToken cs = [] ↔ cs = [] := by
  refine ⟨fun h => escapeToken_inj.1 h, ?_⟩
  rintro rfl
  rfl

theorem slash_not_mem_escapeToken (cs : List Char) : '/' ∉ escapeToken cs := by
  fun_induction escapeToken cs with
  | case1 => exact List.not_mem_nil
  | case2 cs ih => simpa using ih
  | case3 cs ih => simpa using ih
  | case4 c cs tilde slash ih => simpa [Ne.symm slash] using ih

/-- Replace each occurrence of a character by a text. -/
def replaceChar (c : Char) (text cs : List Char) : List Char :=
  cs.flatMap fun d => if d = c then text else [d]

theorem replaceChar_cons_of_ne {c d : Char} (h : d ≠ c) (text cs : List Char) :
    replaceChar c text (d :: cs) = d :: replaceChar c text cs := by
  rw [replaceChar, List.flatMap_cons, if_neg h]
  rfl

/-- Escaping is replacing `~` everywhere, and then `/`. -/
theorem escapeToken_eq_replaceChar (cs : List Char) :
    escapeToken cs = replaceChar '/' ['~', '1'] (replaceChar '~' ['~', '0'] cs) := by
  fun_induction escapeToken cs with
  | case1 => rfl
  | case2 cs ih | case3 cs ih =>
    rw [ih]
    rfl
  | case4 c cs tilde slash ih =>
    rw [replaceChar_cons_of_ne tilde, replaceChar_cons_of_ne slash, ih]

/-- Replace each pair of two characters by one. -/
def replacePair (a b c : Char) : List Char → List Char
  | x :: y :: cs =>
    if x = a ∧ y = b then c :: replacePair a b c cs else x :: replacePair a b c (y :: cs)
  | cs => cs

theorem replacePair_cons {a b c x : Char} {cs : List Char} (h : x = a → cs.head? ≠ some b) :
    replacePair a b c (x :: cs) = x :: replacePair a b c cs := by
  cases cs with
  | nil => rfl
  | cons y cs => rw [replacePair, if_neg fun eq => h eq.1 (congrArg some eq.2)]

theorem head?_replacePair {a b c d : Char} (other : d ≠ c) {cs : List Char}
    (h : (replacePair a b c cs).head? = some d) : cs.head? = some d := by
  fun_induction replacePair a b c cs with
  | case1 x y cs pair => exact absurd (Option.some.inj h).symm other
  | case2 x y cs pair => exact h
  | case3 => exact h

/-- Unescaping is replacing `~1` everywhere, and then `~0`. -/
theorem unescapeToken_eq_replacePair (cs : List Char) :
    unescapeToken cs = replacePair '~' '0' '~' (replacePair '~' '1' '/' cs) := by
  fun_induction unescapeToken cs with
  | case1 => rfl
  | case2 cs ih =>
    rw [replacePair_cons (by simp), replacePair_cons (x := '0') (by simp), replacePair,
      if_pos ⟨rfl, rfl⟩, ih]
  | case3 cs ih => rw [replacePair, if_pos ⟨rfl, rfl⟩, replacePair_cons (by simp), ih]
  | case4 c cs zero one ih =>
    -- Neither pair begins with the first character, nor does it after the first replacement.
    have notOne : c = '~' → cs.head? ≠ some '1' := fun tilde head => by
      obtain ⟨rest, rfl⟩ := List.head?_eq_some_iff.1 head
      exact one rest tilde rfl
    have notZero : c = '~' → (replacePair '~' '1' '/' cs).head? ≠ some '0' := fun tilde head => by
      obtain ⟨rest, rfl⟩ := List.head?_eq_some_iff.1 (head?_replacePair (by decide) head)
      exact zero rest tilde rfl
    rw [replacePair_cons notOne, replacePair_cons notZero, ih]

example : replacePair '~' '1' '/' (replacePair '~' '0' '~' ['~', '0', '1']) = ['/'] := by decide

/-! ## Paths -/

theorem toList_pointerText (path : List String) : (pointerText path).toList =
    '#' :: (path.map fun token => escapeToken token.toList).flatMap ('/' :: ·) := by
  rw [pointerText, String.toList_ofList, List.flatMap_map]

/-- The parts of a written path after the number sign. -/
theorem splitAt_tokens (path : List String) :
    splitAt '/' ((path.map fun token => escapeToken token.toList).flatMap ('/' :: ·)) =
      [] :: path.map fun token => escapeToken token.toList := by
  refine splitAt_separated List.not_mem_nil fun part mem => ?_
  obtain ⟨token, -, rfl⟩ := List.mem_map.1 mem
  exact slash_not_mem_escapeToken _

theorem pointerText_inj {path path' : List String} :
    pointerText path = pointerText path' ↔ path = path' := by
  refine ⟨fun h => ?_, congrArg pointerText⟩
  have chars := congrArg String.toList h
  rw [toList_pointerText, toList_pointerText] at chars
  have parts := congrArg (splitAt '/') (List.cons.inj chars).2
  rw [splitAt_tokens, splitAt_tokens] at parts
  refine List.map_injective_iff.2 (fun token token' same => ?_) (List.cons.inj parts).2
  exact String.toList_inj.1 (escapeToken_inj.1 same)

/-- A written path is read back without its empty tokens. -/
theorem pointerTokens_pointerText (path : List String) :
    pointerTokens (pointerText path) = path.filter (· ≠ "") := by
  have start : (pointerText path).toList.dropWhile (· == '#') =
      (path.map fun token => escapeToken token.toList).flatMap ('/' :: ·) := by
    rw [toList_pointerText]
    cases path <;> rfl
  have decoded : ((fun part => String.ofList (unescapeToken part)) ∘ fun token : String =>
      escapeToken token.toList) = id := by
    funext token
    simp [unescapeToken_escapeToken]
  have kept : ((fun part : List Char => !part.isEmpty) ∘ fun token : String =>
      escapeToken token.toList) = fun token => decide (token ≠ "") := by
    funext token
    by_cases empty : token = ""
    · rw [empty]
      rfl
    · simp [empty, escapeToken_eq_nil]
  rw [pointerTokens, start, splitAt_tokens]
  simp only [List.filter_cons_of_neg, List.isEmpty_nil, Bool.not_true, Bool.false_eq_true,
    not_false_eq_true, List.filter_map, List.map_map, decoded, kept, List.map_id]

/-! ## Following a path -/

theorem listIndex?_toString (i : Nat) : listIndex? (toString i).toList = some i := by
  rw [Nat.toString_eq_repr, Nat.toList_repr]
  by_cases zero : i = 0
  · rw [zero]
    rfl
  have digits : ∀ c ∈ Nat.toDigits 10 i, c.isDigit := fun c =>
    Nat.isDigit_of_mem_toDigits (by decide) (by decide)
  have value : (Nat.toDigits 10 i).foldl (fun n c => n * 10 + (c.toNat - '0'.toNat)) 0 = i := by
    simp only [Nat.mul_comm _ 10]
    exact Nat.ofDigitChars_toDigits (by decide) (by decide)
  have leading := head?_toDigits zero
  have some : Nat.toDigits 10 i ≠ [] := Nat.toDigits_ne_nil
  generalize Nat.toDigits 10 i = ds at digits value leading some
  have decimal : decimal? ds = .some i := by
    rw [decimal?, value, if_neg]
    simpa [some] using digits
  rw [listIndex?, decimal]
  · rintro rfl
    exact leading rfl
  · rintro rest rfl
    exact leading rfl

namespace Json

/-- The value at the end of a path of tokens. -/
def follow? (value : Json) (path : List String) : Option Json :=
  path.foldlM (fun target token => target.select? token.toList) value

theorem follow?_append {u v w : Json} {path more : List String} (h : u.follow? path = some v)
    (h' : v.follow? more = some w) : u.follow? (path ++ more) = some w := by
  unfold follow? at h h' ⊢
  rw [List.foldlM_append, h]
  exact h'

/-- The value that a written path leads to. -/
def atFragment? (value : Json) (fragment : String) : Option Json :=
  match fragment.toList with
  | '#' :: pointer => value.atPointer? (String.ofList pointer)
  | _ => none

theorem atFragment?_pointerText (value : Json) (path : List String) :
    value.atFragment? (pointerText path) = value.follow? path := by
  rw [atFragment?, toList_pointerText]
  show value.atPointer? (String.ofList _) = _
  rw [atPointer?, String.toList_ofList, follow?]
  cases path with
  | nil => rfl
  | cons token path =>
    have parts : splitAt '/' (escapeToken token.toList ++
        (path.map fun token => escapeToken token.toList).flatMap ('/' :: ·)) =
        (token :: path).map fun token => escapeToken token.toList := by
      exact (List.cons.inj (splitAt_tokens (token :: path))).2
    rw [List.map_cons, List.flatMap_cons, List.cons_append]
    simp only [parts, List.foldlM_map, unescapeToken_escapeToken]

end Json

end SchemaCompiler
