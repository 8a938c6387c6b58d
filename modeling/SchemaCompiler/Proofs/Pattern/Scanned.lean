import SchemaCompiler.Proofs.Text.Tokens
import SchemaCompiler.Validator.Compound
import SchemaCompiler.Validator.Leaf

/-!
# Regular expression literals as they are scanned

`PatternScan` follows the lexical grammar of regular expression literals: an asterisk or a slash
after the opening slash begins a comment, a backslash takes the next character with it, a slash
inside a class does not end the literal, and no line terminator may stand in it.

The literal of a pattern is on one line and never ends early. It ends with its last slash unless the
pattern is empty, begins with an asterisk or leaves a class open (`regexLiteral_wellFormed_iff`).
-/

namespace SchemaCompiler

/-! ## The grammar -/

def isLineTerminator (c : Char) : Bool :=
  c == '\n' || c == '\r' || c == '\u2028' || c == '\u2029'

/-- Whether the reader is inside a class after a character. -/
def classAfter (inClass : Bool) (c : Char) : Bool :=
  if c = '[' then true else if c = ']' then false else inClass

/-- Where a reader of a regular expression literal stands before its end. -/
inductive PatternScan where
  /-- After the opening slash. -/
  | start
  | body (inClass : Bool)
  /-- After a backslash. -/
  | escaped (inClass : Bool)
  deriving DecidableEq, Repr

namespace PatternScan

/-- Read a character that is neither a line terminator nor after a backslash. -/
def plain (inClass : Bool) (c : Char) : PatternScan :=
  if c = '\\' then .escaped inClass else .body (classAfter inClass c)

/-- Read a character that does not end the literal. -/
def next? (s : PatternScan) (c : Char) : Option PatternScan :=
  if isLineTerminator c then none
  else match s with
    | .start => if c = '*' ∨ c = '/' then none else some (plain false c)
    | .body inClass => if c = '/' ∧ inClass = false then none else some (plain inClass c)
    | .escaped inClass => some (.body inClass)

/-- Read characters none of which ends the literal. -/
def reads? (s : PatternScan) (text : List Char) : Option PatternScan := text.foldlM next? s

/-- What follows the slash that ends the literal. -/
def rest? : PatternScan → List Char → Option (List Char)
  | _, [] => none
  | s, c :: cs =>
    if s = .body false ∧ c = '/' then some cs else (s.next? c).bind fun s => s.rest? cs

end PatternScan

/-- What follows a regular expression literal at the start of a text. -/
def afterRegexLiteral? : List Char → Option (List Char)
  | '/' :: cs => PatternScan.start.rest? cs
  | _ => none

/-- What stands between the slashes of a regular expression literal. -/
def IsPatternBody (body : List Char) : Prop := PatternScan.start.reads? body = some (.body false)

instance (body : List Char) : Decidable (IsPatternBody body) :=
  inferInstanceAs (Decidable (_ = _))

/-- Whether the end of a pattern is inside a class. -/
def endsInClass : Bool → List Char → Bool
  | inClass, [] => inClass
  | inClass, '\\' :: _ :: cs => endsInClass inClass cs
  | inClass, c :: cs => endsInClass (classAfter inClass c) cs

/-! ## Scanning -/

namespace PatternScan

variable {s t : PatternScan} {a b text rest : List Char} {c : Char}

@[simp] theorem reads?_nil : s.reads? [] = some s := rfl

@[simp] theorem reads?_cons : s.reads? (c :: text) = (s.next? c).bind fun s => s.reads? text := rfl

theorem reads?_append : s.reads? (a ++ b) = (s.reads? a).bind fun s => s.reads? b :=
  List.foldlM_append

theorem next?_plain (line : isLineTerminator c = false) (slash : c ≠ '/') (inClass : Bool) :
    (body inClass).next? c = some (plain inClass c) := by
  simp [next?, line, slash]

theorem next?_escaped (line : isLineTerminator c = false) (inClass : Bool) :
    (escaped inClass).next? c = some (.body inClass) := by
  simp [next?, line]

theorem next?_start (slash : c ≠ '/') (star : c ≠ '*') :
    start.next? c = (body false).next? c := by
  simp [next?, slash, star]

/-- What is read as part of the body does not end the literal. -/
theorem goesOn (h : s.next? c = some t) : ¬ (s = .body false ∧ c = '/') := by
  rintro ⟨rfl, rfl⟩
  cases h

/-- What has been read as part of the body is not looked at again. -/
theorem rest?_append (h : s.reads? a = some t) : s.rest? (a ++ b) = t.rest? b := by
  induction a generalizing s with
  | nil => rw [Option.some.inj h, List.nil_append]
  | cons c a ih =>
    obtain ⟨s', next, h⟩ := Option.bind_eq_some_iff.1 (reads?_cons ▸ h)
    rw [List.cons_append, rest?, if_neg (goesOn next), next, Option.bind_some, ih h]

theorem rest?_suffix (h : s.rest? text = some rest) : rest <:+ text.tail := by
  induction text generalizing s with
  | nil => cases h
  | cons c text ih =>
    rw [rest?] at h
    split at h
    · exact Option.some.inj h ▸ List.suffix_rfl
    · obtain ⟨s', -, h⟩ := Option.bind_eq_some_iff.1 h
      exact (ih h).trans (List.tail_suffix text)

/-- A reader that goes on has something left to read. -/
theorem rest?_ne_self (text : List Char) : s.rest? text ≠ some text := by
  intro h
  cases text with
  | nil => cases h
  | cons c text =>
    have length : (c :: text).length ≤ text.length := (rest?_suffix h).length_le
    exact absurd length (by simp)

end PatternScan

/-! ## The literals of patterns -/

theorem lineEndEscape?_eq_none_iff {c : Char} :
    lineEndEscape? c = none ↔ isLineTerminator c = false := by
  unfold lineEndEscape? isLineTerminator
  split_ifs <;> simp_all

/-- The line terminators, each with its escape. -/
def lineEndEscapes : List (Char × List Char) :=
  [('\n', ['\\', 'n']), ('\r', ['\\', 'r']), ('\u2028', ['\\', 'u', '2', '0', '2', '8']),
    ('\u2029', ['\\', 'u', '2', '0', '2', '9'])]

theorem mem_lineEndEscapes {c : Char} {escape : List Char} (h : lineEndEscape? c = some escape) :
    (c, escape) ∈ lineEndEscapes := by
  unfold lineEndEscape? at h
  split_ifs at h
  all_goals
    obtain rfl := Option.some.inj h
    simp_all [lineEndEscapes]

theorem isLineTerminator_of_escape {c : Char} {escape : List Char}
    (h : lineEndEscape? c = some escape) : isLineTerminator c := by
  have all : ∀ e ∈ lineEndEscapes, isLineTerminator e.1 := by decide
  exact all _ (mem_lineEndEscapes h)

theorem isLineTerminator_of_mem_escape {c d : Char} {escape : List Char}
    (h : lineEndEscape? c = some escape) (hd : d ∈ escape) : isLineTerminator d = false := by
  have all : ∀ e ∈ lineEndEscapes, e.2.all fun d => !isLineTerminator d := by decide
  simpa using List.all_eq_true.1 (all _ (mem_lineEndEscapes h)) d hd

/-- A character of a pattern, or the escape that stands for it, has no line terminator in it. -/
theorem isLineTerminator_of_mem_patternChar {c d : Char} {plain : List Char}
    (h : isLineTerminator c = false → ∀ d ∈ plain, isLineTerminator d = false)
    (hd : d ∈ (lineEndEscape? c).getD plain) : isLineTerminator d = false := by
  cases escape : lineEndEscape? c with
  | none => exact h (lineEndEscape?_eq_none_iff.1 escape) d (by simpa [escape] using hd)
  | some cs => exact isLineTerminator_of_mem_escape escape (by simpa [escape] using hd)

theorem isLineTerminator_of_mem_patternBody {c : Char} {cs : List Char}
    (h : c ∈ patternBody cs) : isLineTerminator c = false := by
  have backslash : isLineTerminator '\\' = false := by decide
  have slash : isLineTerminator '/' = false := by decide
  fun_induction patternBody cs with
  | case1 => cases h
  | case2 =>
    obtain rfl : c = '\\' := by simpa using h
    exact backslash
  | case3 e rest ih =>
    refine (List.mem_append.1 h).elim (isLineTerminator_of_mem_patternChar fun plain => ?_) ih
    exact List.forall_mem_cons.2 ⟨backslash, List.forall_mem_singleton.2 plain⟩
  | case4 rest ih =>
    obtain rfl | rfl | h := List.mem_cons.1 h |>.imp_right List.mem_cons.1
    · exact backslash
    · exact slash
    · exact ih h
  | case5 e rest _ _ _ ih =>
    refine (List.mem_append.1 h).elim (isLineTerminator_of_mem_patternChar fun plain => ?_) ih
    exact List.forall_mem_singleton.2 plain

namespace PatternScan

variable {c : Char} {cs : List Char}

/-- The escape of a line terminator leaves the reader where it is. -/
theorem reads?_escape {escape : List Char} (h : lineEndEscape? c = some escape) (inClass : Bool) :
    (body inClass).reads? escape = some (.body inClass) := by
  have all : ∀ e ∈ lineEndEscapes, (body inClass).reads? e.2 = some (.body inClass) := by
    cases inClass <;> decide
  exact all _ (mem_lineEndEscapes h)

/-- A character after a backslash leaves the reader where it is. -/
theorem reads?_pair (c : Char) (inClass : Bool) :
    (body inClass).reads? ((lineEndEscape? c).getD ['\\', c]) = some (.body inClass) := by
  cases escape : lineEndEscape? c with
  | none =>
    have backslash : (body inClass).next? '\\' = some (.escaped inClass) := rfl
    have plain := lineEndEscape?_eq_none_iff.1 escape
    simp [backslash, next?_escaped plain]
  | some cs => exact reads?_escape escape inClass

theorem reads?_single (slash : c ≠ '/') (backslash : c ≠ '\\') (inClass : Bool) :
    (body inClass).reads? ((lineEndEscape? c).getD [c]) =
      some (.body (classAfter inClass c)) := by
  cases escape : lineEndEscape? c with
  | none =>
    have line := lineEndEscape?_eq_none_iff.1 escape
    simp [next?_plain line slash, plain, backslash]
  | some cs =>
    have line : c ≠ '[' ∧ c ≠ ']' := by
      constructor
      all_goals
        rintro rfl
        cases escape
    rw [Option.getD_some, reads?_escape escape, classAfter, if_neg line.1, if_neg line.2]

/-- The body of a pattern leads where the pattern does. -/
theorem reads?_patternBody (cs : List Char) (inClass : Bool) :
    (body inClass).reads? (patternBody cs) = some (.body (endsInClass inClass cs)) := by
  fun_induction patternBody cs generalizing inClass with
  | case1 => rfl
  | case2 => exact reads?_pair '\\' inClass
  | case3 c rest ih =>
    rw [reads?_append, reads?_pair, endsInClass]
    exact ih inClass
  | case4 rest ih => exact ih inClass
  | case5 c rest last escape slash ih =>
    have backslash : c ≠ '\\' := ne_backslash last escape
    have plain : endsInClass inClass (c :: rest) = endsInClass (classAfter inClass c) rest := by
      rw [endsInClass]
      exact fun _ _ eq => absurd eq backslash
    rw [reads?_append, reads?_single slash backslash, plain]
    exact ih _

end PatternScan

/-- A body begins with a backslash or, if not with a slash, as its pattern does. -/
theorem exists_patternBody {cs : List Char} (h : cs ≠ []) :
    ∃ e more, patternBody cs = e :: more ∧
      (e = '\\' ∨ e ≠ '/' ∧ ∃ rest, cs = e :: rest ∧ more = patternBody rest) := by
  have escaped : ∀ {c : Char} {escape : List Char}, lineEndEscape? c = some escape →
      ∃ more, escape = '\\' :: more := by
    intro c escape h
    have all : ∀ e ∈ lineEndEscapes, e.2.head? = some '\\' := by decide
    exact List.head?_eq_some_iff.1 (all _ (mem_lineEndEscapes h))
  fun_cases patternBody cs with
  | case1 => exact absurd rfl h
  | case2 => exact ⟨'\\', _, rfl, .inl rfl⟩
  | case3 c rest =>
    cases escape : lineEndEscape? c with
    | none => exact ⟨'\\', _, rfl, .inl rfl⟩
    | some cs =>
      obtain ⟨more, rfl⟩ := escaped escape
      exact ⟨'\\', _, rfl, .inl rfl⟩
  | case4 rest => exact ⟨'\\', _, rfl, .inl rfl⟩
  | case5 c rest _ _ slash =>
    cases escape : lineEndEscape? c with
    | none => exact ⟨c, _, rfl, .inr ⟨slash, rest, rfl, rfl⟩⟩
    | some cs =>
      obtain ⟨more, rfl⟩ := escaped escape
      exact ⟨'\\', _, rfl, .inl rfl⟩

theorem PatternScan.start_reads?_patternBody {cs : List Char} (nonempty : cs ≠ [])
    (star : cs.head? ≠ some '*') :
    start.reads? (patternBody cs) = some (.body (endsInClass false cs)) := by
  obtain ⟨e, more, eq, first⟩ := exists_patternBody nonempty
  have same : start.next? e = (body false).next? e := by
    rcases first with rfl | ⟨slash, rest, rfl, -⟩
    · rfl
    · exact next?_start slash fun h => star (congrArg some h)
  rw [← reads?_patternBody cs false, eq, reads?_cons, reads?_cons, same]

/-- What is neither empty nor begins with an asterisk is read to the end of its body. -/
theorem PatternScan.reads?_or_fails (cs tail : List Char) :
    (cs ≠ [] ∧ cs.head? ≠ some '*' ∧
      start.reads? (patternBody cs) = some (.body (endsInClass false cs))) ∨
    (¬ (cs ≠ [] ∧ cs.head? ≠ some '*') ∧ start.rest? (patternBody cs ++ '/' :: tail) = none) := by
  by_cases nonempty : cs = []
  · subst nonempty
    exact .inr ⟨by simp, rfl⟩
  by_cases star : cs.head? = some '*'
  · obtain ⟨more, rfl⟩ := List.head?_eq_some_iff.1 star
    exact .inr ⟨by simp, rfl⟩
  exact .inl ⟨nonempty, star, start_reads?_patternBody nonempty star⟩

/-- A slash ends the literal outside of classes only. -/
theorem PatternScan.rest?_slash (tail : List Char) (inClass : Bool) :
    (body inClass).rest? ('/' :: tail) = if inClass then (body true).rest? tail else some tail := by
  cases inClass <;> rfl

/-! ## Literals in code -/

theorem toList_regexLiteral (pattern : String) :
    (regexLiteral pattern).toList = '/' :: (patternBody pattern.toList ++ ['/']) := by
  rw [regexLiteral, String.toList_ofList]
  rfl

theorem isLineTerminator_of_mem_regexLiteral {pattern : String} {c : Char}
    (h : c ∈ (regexLiteral pattern).toList) : isLineTerminator c = false := by
  have slash : isLineTerminator '/' = false := by decide
  rw [toList_regexLiteral, List.mem_cons, List.mem_append, List.mem_singleton] at h
  rcases h with rfl | h | rfl
  · exact slash
  · exact isLineTerminator_of_mem_patternBody h
  · exact slash

/-- The literal of a pattern is written on one line, and does not end before its last slash. It ends
there, whatever follows, unless the pattern is empty, begins with an asterisk or leaves a class
open; then it begins a comment or goes on in what follows. -/
theorem regexLiteral_wellFormed_iff (pattern : String) (following : List Char) :
    let literal := (regexLiteral pattern).toList
    (∀ c ∈ literal, isLineTerminator c = false) ∧
    (∀ rest, afterRegexLiteral? (literal ++ following) = some rest → rest <:+ following) ∧
    (afterRegexLiteral? (literal ++ following) = some following ↔
      pattern ≠ "" ∧ pattern.toList.head? ≠ some '*' ∧
        endsInClass false pattern.toList = false) := by
  intro literal
  have text : literal = '/' :: (patternBody pattern.toList ++ ['/']) := toList_regexLiteral pattern
  have empty : pattern ≠ "" ↔ pattern.toList ≠ [] := by simp
  have scan : afterRegexLiteral? (literal ++ following) =
      PatternScan.start.rest? (patternBody pattern.toList ++ '/' :: following) := by
    rw [text, List.cons_append, List.append_assoc]
    rfl
  refine ⟨fun c => isLineTerminator_of_mem_regexLiteral, ?_⟩
  rw [scan, empty]
  obtain ⟨nonempty, star, body⟩ | ⟨comment, none⟩ :=
    PatternScan.reads?_or_fails pattern.toList following
  · rw [PatternScan.rest?_append body, PatternScan.rest?_slash]
    cases endsInClass false pattern.toList with
    | false => simp [nonempty, star]
    | true =>
      refine ⟨fun rest h => (PatternScan.rest?_suffix h).trans (List.tail_suffix _), ?_⟩
      simpa using PatternScan.rest?_ne_self following
  · rw [none]
    exact ⟨nofun, ⟨nofun, fun h => absurd ⟨h.1, h.2.1⟩ comment⟩⟩

/-- An asterisk at the start of a pattern begins a comment, and a class that it leaves open takes in
the code that follows, here up to the slash in the next alternative. -/
theorem regexLiteral_comment_and_class :
    let string := fun pattern => Validator.string (S := Schema) { pattern := some pattern }
    (string "*").code = "v.pipe(v.string(), v.regex(/*/))" ∧
    afterRegexLiteral? (regexLiteral "*").toList = none ∧
    afterRegexLiteral? (regexLiteral "[").toList = none ∧
    (Validator.anyOf [string "[", string "]"]).code =
      "v.union([v.pipe(v.string(), v.regex(/[/)), v.pipe(v.string(), v.regex(/]/))])" ∧
    afterRegexLiteral? "/[/)), v.pipe(v.string(), v.regex(/]/))])".toList = some "))])".toList := by
  decide +kernel

end SchemaCompiler
