import Mathlib.Data.Set.Insert
import SchemaCompiler.Proofs.Definitions.Names
import SchemaCompiler.Proofs.Validator.Literal
import SchemaCompiler.Validator.Leaf

/-!
# The library functions that code calls

`calledSymbols` reads code character by character: a name `s` is called where an opening bracket
follows `v.s`, outside of strings and of the literals of regular expressions. What an emitter writes
is made of pieces with separators between them, so it is read piece by piece: `Accounts` says of a
piece that reading it starts and ends in code and which functions it calls, at most or exactly.
-/

namespace SchemaCompiler

/-! ## Reading code -/

/-- Where a reader of code stands. -/
inductive Place where
  /-- Outside of literals, after `path`: the identifier characters and dots read last. -/
  | code (path : List Char)
  | string
  | stringEscape
  | pattern
  | patternEscape
  deriving DecidableEq, Repr

namespace Place

/-- Read a character. -/
def next : Place → Char → Place
  | .code path, c =>
    if c = '"' then .string
    else if c = '/' then .pattern
    else if isIdentifierChar c || c == '.' then .code (path ++ [c])
    else .code []
  | .string, c => if c = '"' then .code [] else if c = '\\' then .stringEscape else .string
  | .stringEscape, _ => .string
  | .pattern, c => if c = '/' then .code [] else if c = '\\' then .patternEscape else .pattern
  | .patternEscape, _ => .pattern

/-- The library function whose call begins with a character. -/
def called : Place → Char → List String
  | .code ('v' :: '.' :: symbol), '(' => [String.ofList symbol]
  | _, _ => []

/-- Read a text. -/
def after (p : Place) (text : List Char) : Place := text.foldl next p

/-- The library functions that are called in a text, in order and with repeats. -/
def symbols : Place → List Char → List String
  | _, [] => []
  | p, c :: cs => p.called c ++ (p.next c).symbols cs

end Place

/-- The library functions that code calls. -/
def calledSymbols (code : String) : List String := (Place.code []).symbols code.toList

/-- All literals in code are closed. -/
def EndsInCode (code : String) : Prop :=
  ∃ path, (Place.code []).after code.toList = .code path

/-- Reading a text leads from one place to another and past calls of the given functions. -/
structure Reads (p : Place) (text : List Char) (symbols : List String) (q : Place) : Prop where
  after : p.after text = q
  symbols : p.symbols text = symbols

namespace Place

/-- A character that is neither part of a name nor begins a literal or an argument list. -/
def isSeparator (c : Char) : Bool :=
  !(isIdentifierChar c || c == '.' || c == '"' || c == '/' || c == '(')

variable {path : List Char} {c : Char}

theorem next_identifierChar (h : isIdentifierChar c) :
    (Place.code path).next c = .code (path ++ [c]) := by
  have quote : c ≠ '"' := by
    rintro rfl
    exact absurd h (by decide)
  have slash : c ≠ '/' := by
    rintro rfl
    exact absurd h (by decide)
  simp [next, quote, slash, h]

theorem next_separator (h : isSeparator c) : (Place.code path).next c = .code [] := by
  simp only [isSeparator, Bool.not_eq_true', Bool.or_eq_false_iff, beq_eq_false_iff_ne] at h
  obtain ⟨⟨⟨⟨name, dot⟩, quote⟩, slash⟩, _⟩ := h
  simp [next, quote, slash, name, dot]

/-- Only an opening bracket begins a call. -/
theorem called_eq_nil {p : Place} (h : c ≠ '(') : p.called c = [] := by
  unfold called
  split
  · exact absurd rfl h
  · rfl

theorem ne_of_isSeparator (h : isSeparator c) : c ≠ '(' := by
  rintro rfl
  exact absurd h (by decide)

theorem ne_of_isIdentifierChar (h : isIdentifierChar c) : c ≠ '(' := by
  rintro rfl
  exact absurd h (by decide)

end Place

namespace Reads

variable {p q r : Place} {a b path : List Char} {c : Char} {s t : List String}

theorem nil (p : Place) : Reads p [] [] p := ⟨rfl, rfl⟩

theorem cons (h : Reads (p.next c) a s q) : Reads p (c :: a) (p.called c ++ s) q where
  after := h.after
  symbols := by rw [Place.symbols, h.symbols]

/-- A character that begins no call. -/
theorem skip (h : Reads (p.next c) a s q) (none : p.called c = []) : Reads p (c :: a) s q := by
  have reads := h.cons
  rwa [none] at reads

theorem append (h : Reads p a s q) (h' : Reads q b t r) : Reads p (a ++ b) (s ++ t) r := by
  induction a generalizing p s with
  | nil =>
    obtain ⟨rfl, rfl⟩ := h
    exact h'
  | cons c a ih =>
    obtain ⟨after, rfl⟩ := h
    rw [Place.symbols, List.append_assoc]
    exact (ih ⟨after, rfl⟩).cons

/-- A name is put on the path. -/
theorem name (h : ∀ c ∈ a, isIdentifierChar c) (path : List Char) :
    Reads (.code path) a [] (.code (path ++ a)) := by
  induction a generalizing path with
  | nil =>
    rw [List.append_nil]
    exact .nil _
  | cons c a ih =>
    obtain ⟨first, rest⟩ := List.forall_mem_cons.1 h
    have next := ih rest (path ++ [c])
    rw [← Place.next_identifierChar first, List.append_assoc] at next
    exact next.skip (Place.called_eq_nil (Place.ne_of_isIdentifierChar first))

/-- What begins no literal and no argument list is read as code. -/
theorem quiet (h : ∀ c ∈ a, c ≠ '"' ∧ c ≠ '/' ∧ c ≠ '(') (path : List Char) :
    ∃ path', Reads (.code path) a [] (.code path') := by
  induction a generalizing path with
  | nil => exact ⟨path, .nil _⟩
  | cons c a ih =>
    obtain ⟨⟨quote, slash, bracket⟩, rest⟩ := List.forall_mem_cons.1 h
    have next : ∃ path', (Place.code path).next c = .code path' := by
      unfold Place.next
      simp only [if_neg quote, if_neg slash]
      split
      · exact ⟨_, rfl⟩
      · exact ⟨[], rfl⟩
    obtain ⟨path', next⟩ := next
    obtain ⟨last, reads⟩ := ih rest path'
    rw [← next] at reads
    exact ⟨last, reads.skip (Place.called_eq_nil bracket)⟩

/-- Separators lead back to an empty path. -/
theorem separator (first : Place.isSeparator c) (rest : ∀ d ∈ a, Place.isSeparator d)
    (path : List Char) : Reads (.code path) (c :: a) [] (.code []) := by
  induction a generalizing c path with
  | nil =>
    refine skip ?_ (Place.called_eq_nil (Place.ne_of_isSeparator first))
    rw [Place.next_separator first]
    exact .nil _
  | cons d a ih =>
    obtain ⟨second, rest⟩ := List.forall_mem_cons.1 rest
    refine skip ?_ (Place.called_eq_nil (Place.ne_of_isSeparator first))
    rw [Place.next_separator first]
    exact ih second rest []

/-! ### Literals -/

/-- A character that does not end a string or begin an escape is read inside it. -/
theorem stringChar (quote : c ≠ '"') (backslash : c ≠ '\\') (h : Reads .string a s q) :
    Reads .string (c :: a) s q := by
  have next : Place.string.next c = .string := by simp [Place.next, quote, backslash]
  refine skip ?_ rfl
  rwa [next]

/-- What is written for a character of a string is read inside the string. -/
theorem quotedChar (c : Char) : Reads .string (quotedChar c) [] .string := by
  have digits : ∀ n < 16, hexDigit n ≠ '"' ∧ hexDigit n ≠ '\\' := by decide
  unfold SchemaCompiler.quotedChar
  split
  case h_8 quote backslash _ _ _ _ _ =>
    split
    next control =>
      obtain ⟨quote₁, backslash₁⟩ := digits (c.toNat / 16) (by omega)
      obtain ⟨quote₂, backslash₂⟩ := digits (c.toNat % 16) (by omega)
      have escape : Reads .string ['\\', 'u', '0', '0'] [] .string := ⟨rfl, rfl⟩
      exact escape.append (stringChar quote₁ backslash₁ (stringChar quote₂ backslash₂ (nil _)))
    next => exact stringChar quote backslash (nil _)
  all_goals exact ⟨rfl, rfl⟩

theorem quote (s : String) : Reads (.code path) (quote s).toList [] (.code []) := by
  have body : Reads .string (s.toList.flatMap SchemaCompiler.quotedChar) [] .string := by
    induction s.toList with
    | nil => exact nil _
    | cons c cs ih =>
      rw [List.flatMap_cons]
      exact (quotedChar c).append ih
  have last : Reads .string ['"'] [] (.code []) := ⟨rfl, rfl⟩
  rw [toList_quote]
  exact skip (p := .code path) (c := '"') (body.append last) (Place.called_eq_nil (by decide))

theorem lineEndEscape {escape : List Char} (h : lineEndEscape? c = some escape) :
    Reads .pattern escape [] .pattern := by
  unfold lineEndEscape? at h
  split at h
  · obtain rfl := Option.some.inj h
    exact ⟨rfl, rfl⟩
  split at h
  · obtain rfl := Option.some.inj h
    exact ⟨rfl, rfl⟩
  split at h
  · obtain rfl := Option.some.inj h
    exact ⟨rfl, rfl⟩
  split at h
  · obtain rfl := Option.some.inj h
    exact ⟨rfl, rfl⟩
  · cases h

/-- A character of a pattern, as it is or as the escape of a line end. -/
theorem patternChar {plain : List Char} (h : Reads .pattern plain [] .pattern) (c : Char) :
    Reads .pattern ((lineEndEscape? c).getD plain) [] .pattern := by
  cases escape : lineEndEscape? c with
  | none => exact h
  | some cs => exact lineEndEscape escape

/-- What is written for a pattern is read inside the literal. -/
theorem patternBody (cs : List Char) : Reads .pattern (patternBody cs) [] .pattern := by
  fun_induction SchemaCompiler.patternBody cs with
  | case1 => exact nil _
  | case2 => exact ⟨rfl, rfl⟩
  | case3 c rest ih =>
    have escaped : Reads .pattern ['\\', c] [] .pattern := ⟨rfl, rfl⟩
    exact (patternChar escaped c).append ih
  | case4 rest ih =>
    have slash : Reads .pattern ['\\', '/'] [] .pattern := ⟨rfl, rfl⟩
    exact slash.append ih
  | case5 c rest last escape slash ih =>
    have backslash : c ≠ '\\' := by
      intro eq
      cases rest with
      | nil => exact last eq rfl
      | cons d rest => exact escape d rest eq rfl
    have next : Place.pattern.next c = .pattern := by
      simp only [Place.next, if_neg slash, if_neg backslash]
    have plain : Reads .pattern [c] [] .pattern := by
      refine skip ?_ rfl
      rw [next]
      exact nil _
    exact (patternChar plain c).append ih

theorem regexLiteral (pattern : String) :
    Reads (.code path) (regexLiteral pattern).toList [] (.code []) := by
  have last : Reads .pattern ['/'] [] (.code []) := ⟨rfl, rfl⟩
  unfold SchemaCompiler.regexLiteral
  rw [String.toList_ofList]
  exact skip (p := .code path) (c := '/') ((patternBody pattern.toList).append last)
    (Place.called_eq_nil (by decide))

/-! ### Shifted code -/

/-- Reading does not depend on how far lines are shifted. -/
theorem shifted (h : Reads p a s q) :
    Reads p (a.flatMap fun c => if c = '\n' then ['\n', ' ', ' '] else [c]) s q := by
  induction a generalizing p s with
  | nil => exact h
  | cons c a ih =>
    obtain ⟨after, rfl⟩ := h
    have rest := ih ⟨after, rfl⟩
    rw [List.flatMap_cons, Place.symbols]
    by_cases newline : c = '\n'
    · subst newline
      -- Spaces at the start of a line leave the reader where the line end has led it.
      have spaces : Reads p ['\n', ' ', ' '] (p.called '\n') (p.next '\n') := by
        cases p <;> exact ⟨rfl, by simp [Place.symbols, Place.called]⟩
      rw [if_pos rfl]
      exact spaces.append rest
    · have char : Reads p [c] (p.called c) (p.next c) := ⟨rfl, by simp [Place.symbols]⟩
      rw [if_neg newline]
      exact char.append rest

end Reads

/-! ## Pieces of code -/

/-- Reading a piece of code ends in code, and meets calls of the given functions only, and of all of
them if `exact` holds. -/
def Accounts (exact : Prop) (text : String) (symbols : Set String) : Prop :=
  ∃ called path, Reads (.code []) text.toList called (.code path) ∧
    (∀ s ∈ called, s ∈ symbols) ∧ (exact → ∀ s ∈ symbols, s ∈ called)

/-- A text of separators, at least one. -/
def Separates (sep : String) : Prop :=
  sep.toList ≠ [] ∧ ∀ c ∈ sep.toList, Place.isSeparator c

instance (sep : String) : Decidable (Separates sep) :=
  have := List.decidableBAll (fun c => Place.isSeparator c) sep.toList
  instDecidableAnd

theorem Separates.reads {sep : String} (h : Separates sep) (path : List Char) :
    Reads (.code path) sep.toList [] (.code []) := by
  obtain ⟨nonempty, separators⟩ := h
  cases chars : sep.toList with
  | nil => exact absurd chars nonempty
  | cons c cs =>
    rw [chars] at separators
    obtain ⟨first, rest⟩ := List.forall_mem_cons.1 separators
    exact .separator first rest path

namespace Accounts

variable {exact : Prop} {text sep a b symbol argument : String} {symbols s t : Set String}

theorem congr (h : Accounts exact text s) (same : ∀ x, x ∈ t ↔ x ∈ s) :
    Accounts exact text t := by
  rwa [Set.ext same]

/-- Without regard to what is missing, more may be accounted for. -/
theorem subset (h : Accounts exact text s) (le : s ⊆ t) (inexact : ¬ exact) :
    Accounts exact text t := by
  obtain ⟨called, path, reads, covers, _⟩ := h
  exact ⟨called, path, reads, fun x hx => le (covers x hx), fun h => absurd h inexact⟩

theorem of_reads {path : List Char} (h : Reads (.code []) text.toList [] (.code path)) :
    Accounts exact text ∅ :=
  ⟨[], path, h, fun _ mem => absurd mem List.not_mem_nil, fun _ _ mem => absurd mem (by simp)⟩

/-- A text that is read as code and calls nothing. -/
theorem fixed (after : (Place.code []).after text.toList = .code [])
    (symbols : calledSymbols text = []) : Accounts exact text ∅ := of_reads ⟨after, symbols⟩

theorem quiet (h : ∀ c ∈ text.toList, c ≠ '"' ∧ c ≠ '/' ∧ c ≠ '(') : Accounts exact text ∅ := by
  obtain ⟨path, reads⟩ := Reads.quiet h []
  exact of_reads reads

theorem spelled (h : Spelled text) : Accounts exact text ∅ := of_reads (Reads.name h [])

theorem quote (x : String) : Accounts exact (quote x) ∅ := of_reads (Reads.quote x)

theorem regexLiteral (pattern : String) : Accounts exact (regexLiteral pattern) ∅ :=
  of_reads (Reads.regexLiteral pattern)

/-- Two pieces with separators between them. -/
theorem append (ha : Accounts exact a s) (between : Separates sep) (hb : Accounts exact b t) :
    Accounts exact (a ++ sep ++ b) (s ∪ t) := by
  obtain ⟨called, path, reads, covers, covered⟩ := ha
  obtain ⟨called', path', reads', covers', covered'⟩ := hb
  refine ⟨called ++ called', path', ?_, fun x hx => ?_, fun h x hx => ?_⟩
  · rw [String.toList_append, String.toList_append]
    have whole := (reads.append (between.reads path)).append reads'
    rwa [List.append_nil] at whole
  · rcases List.mem_append.1 hx with hx | hx
    · exact .inl (covers x hx)
    · exact .inr (covers' x hx)
  · rcases hx with hx | hx
    · exact List.mem_append_left _ (covered h x hx)
    · exact List.mem_append_right _ (covered' h x hx)

/-- The call of a library function. -/
theorem call (h : Accounts exact argument s) (name : Spelled symbol) :
    Accounts exact (call symbol argument) (insert symbol s) := by
  obtain ⟨called, path, reads, covers, covered⟩ := h
  have library : Reads (.code []) ['v', '.'] [] (.code ['v', '.']) := ⟨rfl, rfl⟩
  have function : Reads (.code ('v' :: '.' :: symbol.toList)) ['('] [symbol] (.code []) := by
    refine ⟨rfl, ?_⟩
    simp [Place.symbols, Place.called]
  have last : Reads (.code path) [')'] [] (.code []) :=
    Reads.separator (by decide) (by simp) path
  have whole := ((library.append (Reads.name name ['v', '.'])).append function).append
    (reads.append last)
  refine ⟨symbol :: called, [], ?_, fun x hx => ?_, fun h x hx => ?_⟩
  · rw [toList_call]
    simpa using whole
  · rcases List.mem_cons.1 hx with rfl | hx
    · exact .inl rfl
    · exact .inr (covers x hx)
  · rcases hx with rfl | hx
    · exact List.mem_cons_self ..
    · exact List.mem_cons_of_mem _ (covered h x hx)

theorem shifted (h : Accounts exact text s) : Accounts exact (shifted text) s := by
  obtain ⟨called, path, reads, rest⟩ := h
  refine ⟨called, path, ?_, rest⟩
  rw [toList_shifted]
  exact reads.shifted

theorem empty : Accounts exact "" ∅ := of_reads (.nil _)

/-- A piece with separators around it. -/
theorem enclose (h : Accounts exact text s) (ha : Separates a) (hb : Separates b) :
    Accounts exact (a ++ text ++ b) s := by
  have whole := ((empty.append ha h).append hb empty)
  simpa using whole

/-! ### Lists of pieces -/

section Lists

variable {α : Type} {xs : List α} {piece : α → String} {parts : α → Set String}

theorem intercalate (h : ∀ x ∈ xs, Accounts exact (piece x) (parts x)) (between : Separates sep) :
    Accounts exact (sep.intercalate (xs.map piece)) {s | ∃ x ∈ xs, s ∈ parts x} := by
  induction xs with
  | nil => exact empty.congr (by simp)
  | cons x xs ih =>
    obtain ⟨first, rest⟩ := List.forall_mem_cons.1 h
    cases xs with
    | nil =>
      rw [List.map_singleton, String.intercalate_singleton]
      exact first.congr (by simp)
    | cons y ys =>
      rw [List.map_cons, List.map_cons, String.intercalate_cons_cons]
      exact (first.append between (ih rest)).congr (by simp)

/-- The call of a library function with a list. -/
theorem callWithList (h : ∀ x ∈ xs, Accounts exact (piece x) (parts x)) (name : Spelled symbol) :
    Accounts exact (callWithList symbol (xs.map piece))
      (insert symbol {s | ∃ x ∈ xs, s ∈ parts x}) :=
  call (enclose (intercalate h (by decide)) (by decide) (by decide)) name

/-- An object literal with quoted keys. -/
theorem objectLiteral (key : α → String) (h : ∀ x ∈ xs, Accounts exact (piece x) (parts x)) :
    Accounts exact (objectLiteral (xs.map fun x => (SchemaCompiler.quote (key x), piece x)))
      {s | ∃ x ∈ xs, s ∈ parts x} := by
  have entries : ∀ x ∈ xs,
      Accounts exact (entryText (SchemaCompiler.quote (key x), piece x)) (parts x) := by
    intro x hx
    have entry := (quote (key x)).append (by decide : Separates ": ") (h x hx).shifted
    have line := empty.append (by decide : Separates "  ") entry
    unfold entryText
    simpa [String.append_assoc] using line
  unfold SchemaCompiler.objectLiteral
  by_cases none : xs = []
  · subst none
    have braces : Accounts exact "\x7b\x7d" ∅ := fixed rfl rfl
    exact braces.congr (by simp)
  · rw [if_neg (by simpa using none), List.map_map]
    exact enclose (intercalate entries (by decide)) (by decide) (by decide)

end Lists

end Accounts

end SchemaCompiler
