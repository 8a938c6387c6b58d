import Mathlib.Tactic.SplitIfs
import SchemaCompiler.Proofs.Text.Quoted
import SchemaCompiler.Validator.Pattern

/-!
# Tokens

`tokens` reads a text as tokens: words, single marks, and literals between quotation marks or
slashes, in which a backslash takes the next character with it. White space between tokens is left
out. Which characters form words is a parameter, since code and types differ in that.

A text after which the reader is outside of literals is `Closed`. It is read piece by piece, with a
separator after each piece (`tokens_append`). What stands inside of a literal is a `LiteralBody`, as
quoting a string and escaping a pattern make it.
-/

namespace SchemaCompiler

/-! ## Reading tokens -/

inductive LiteralKind where
  | string
  | pattern
  deriving DecidableEq, Repr

/-- What a literal begins and ends with. -/
def LiteralKind.mark : LiteralKind → Char
  | .string => '"'
  | .pattern => '/'

/-- A token; the body of a literal is what is written between its marks. -/
inductive TextToken where
  | word (text : String)
  | mark (c : Char)
  | literal (kind : LiteralKind) (body : String)
  deriving DecidableEq, Repr

/-- Where a reader of tokens stands. -/
inductive Scan where
  /-- Outside of literals, after the characters of a word. -/
  | outside (word : List Char)
  | inside (kind : LiteralKind) (body : List Char)
  /-- In a literal, after a backslash. -/
  | escaped (kind : LiteralKind) (body : List Char)
  deriving DecidableEq, Repr

/-- A word, if there is one. -/
def wordTokens (word : List Char) : List TextToken :=
  if word.isEmpty then [] else [.word (String.ofList word)]

/-- A mark, unless it is white space. -/
def markTokens (c : Char) : List TextToken := if c.isWhitespace then [] else [.mark c]

namespace Scan

section

variable (isWord : Char → Bool)

/-- Read a character. -/
def next : Scan → Char → Scan
  | .outside word, c =>
    if c.isWhitespace then .outside []
    else if c = '"' then .inside .string []
    else if c = '/' then .inside .pattern []
    else if isWord c then .outside (word ++ [c])
    else .outside []
  | .inside kind body, c =>
    if c = kind.mark then .outside []
    else if c = '\\' then .escaped kind (body ++ [c])
    else .inside kind (body ++ [c])
  | .escaped kind body, c => .inside kind (body ++ [c])

/-- The tokens that end with a character. -/
def emits : Scan → Char → List TextToken
  | .outside word, c =>
    if c.isWhitespace then wordTokens word
    else if c = '"' then wordTokens word
    else if c = '/' then wordTokens word
    else if isWord c then []
    else wordTokens word ++ [.mark c]
  | .inside kind body, c => if c = kind.mark then [.literal kind (String.ofList body)] else []
  | .escaped _ _, _ => []

/-- The tokens that the end of the text ends. -/
def rest : Scan → List TextToken
  | .outside word => wordTokens word
  | .inside kind body => [.literal kind (String.ofList body)]
  | .escaped kind body => [.literal kind (String.ofList body)]

/-- Read a text. -/
def after (s : Scan) (text : List Char) : Scan := text.foldl (next isWord) s

/-- The tokens that end in a text. -/
def emitted : Scan → List Char → List TextToken
  | _, [] => []
  | s, c :: cs => s.emits isWord c ++ (s.next isWord c).emitted cs

end

def isOutside : Scan → Bool
  | .outside _ => true
  | _ => false

end Scan

/-- The tokens of a text. -/
def tokens (isWord : Char → Bool) (text : List Char) : List TextToken :=
  (Scan.outside []).emitted isWord text ++ ((Scan.outside []).after isWord text).rest

/-- All literals in a text are closed. -/
def Closed (isWord : Char → Bool) (text : List Char) : Prop :=
  ((Scan.outside []).after isWord text).isOutside

instance (isWord : Char → Bool) (text : List Char) : Decidable (Closed isWord text) :=
  inferInstanceAs (Decidable (_ = true))

/-- A character that ends a word and begins no literal. -/
def isSeparator (isWord : Char → Bool) (c : Char) : Bool :=
  c.isWhitespace || !(c == '"' || c == '/' || isWord c)

variable {isWord : Char → Bool} {s t : Scan} {a b text word body : List Char} {c : Char}
  {kind : LiteralKind}

namespace Scan

@[simp] theorem after_nil : s.after isWord [] = s := rfl

@[simp] theorem after_cons :
    s.after isWord (c :: text) = (s.next isWord c).after isWord text := rfl

theorem after_append : s.after isWord (a ++ b) = (s.after isWord a).after isWord b :=
  List.foldl_append

theorem emitted_append :
    s.emitted isWord (a ++ b) = s.emitted isWord a ++ (s.after isWord a).emitted isWord b := by
  induction a generalizing s with
  | nil => rfl
  | cons c a ih => rw [List.cons_append, emitted, ih, emitted, after_cons, List.append_assoc]

theorem next_separator (h : isSeparator isWord c) :
    (outside word).next isWord c = outside [] := by
  simp only [next]
  cases blank : c.isWhitespace with
  | true => rfl
  | false =>
    simp only [isSeparator, blank, Bool.false_or, Bool.not_eq_true', Bool.or_eq_false_iff,
      beq_eq_false_iff_ne] at h
    simp [h]

theorem emits_separator (h : isSeparator isWord c) :
    (outside word).emits isWord c = wordTokens word ++ markTokens c := by
  simp only [emits, markTokens]
  cases blank : c.isWhitespace with
  | true => simp
  | false =>
    simp only [isSeparator, blank, Bool.false_or, Bool.not_eq_true', Bool.or_eq_false_iff,
      beq_eq_false_iff_ne] at h
    simp [h]

theorem exists_outside (h : s.isOutside) : ∃ word, s = .outside word := by
  cases s with
  | outside word => exact ⟨word, rfl⟩
  | inside | escaped => exact absurd h (by simp [isOutside])

/-! ### Reading from different places -/

/-- Two places with the same kind of literal around them, if there is one. -/
inductive Similar : Scan → Scan → Prop where
  | outside (word word' : List Char) : Similar (.outside word) (.outside word')
  | inside (kind : LiteralKind) (body body' : List Char) :
      Similar (.inside kind body) (.inside kind body')
  | escaped (kind : LiteralKind) (body body' : List Char) :
      Similar (.escaped kind body) (.escaped kind body')

theorem Similar.next {isWord' : Char → Bool} (h : Similar s t) (c : Char) :
    Similar (s.next isWord c) (t.next isWord' c) := by
  cases h with
  | outside word word' =>
    simp only [Scan.next]
    split_ifs <;> constructor
  | inside kind body body' =>
    simp only [Scan.next]
    split_ifs <;> constructor
  | escaped kind body body' => exact .inside kind _ _

theorem Similar.after {isWord' : Char → Bool} (h : Similar s t) (text : List Char) :
    Similar (s.after isWord text) (t.after isWord' text) := by
  induction text generalizing s t with
  | nil => exact h
  | cons c text ih => exact ih (h.next c)

theorem Similar.isOutside_eq (h : Similar s t) : s.isOutside = t.isOutside := by
  cases h <;> rfl

end Scan

/-! ## Pieces of texts -/

namespace Closed

theorem exists_after (h : Closed isWord text) (word : List Char) :
    ∃ word', (Scan.outside word).after isWord text = .outside word' := by
  have similar : ((Scan.outside []).after isWord text).Similar
      ((Scan.outside word).after isWord text) := (Scan.Similar.outside [] word).after text
  exact Scan.exists_outside (similar.isOutside_eq ▸ h)

/-- Which characters form words has no effect on where literals are. -/
theorem change (h : Closed isWord text) (isWord' : Char → Bool) : Closed isWord' text := by
  have similar : ((Scan.outside []).after isWord text).Similar
      ((Scan.outside []).after isWord' text) := (Scan.Similar.outside [] []).after text
  unfold Closed at h ⊢
  rwa [← similar.isOutside_eq]

theorem append (ha : Closed isWord a) (hb : Closed isWord b) : Closed isWord (a ++ b) := by
  obtain ⟨word, first⟩ := ha.exists_after []
  obtain ⟨word', second⟩ := hb.exists_after word
  unfold Closed
  rw [Scan.after_append, first, second]
  rfl

theorem nil : Closed isWord [] := rfl

theorem separator (h : isSeparator isWord c) : Closed isWord [c] := by
  unfold Closed
  rw [Scan.after_cons, Scan.next_separator h]
  rfl

/-- A text in which no literal begins. -/
theorem plain (h : ∀ c ∈ text, c ≠ '"' ∧ c ≠ '/') : Closed isWord text := by
  induction text with
  | nil => exact nil
  | cons c text ih =>
    obtain ⟨⟨quote, slash⟩, rest⟩ := List.forall_mem_cons.1 h
    have first : Closed isWord [c] := by
      unfold Closed
      simp only [Scan.after_cons, Scan.after_nil, Scan.next, if_neg quote, if_neg slash]
      split_ifs <;> rfl
    exact first.append (ih rest)

end Closed

/-- A closed text and what follows it are read one after the other. -/
theorem tokens_append (h : Closed isWord a) (sep : isSeparator isWord c) :
    tokens isWord (a ++ c :: b) = tokens isWord a ++ (markTokens c ++ tokens isWord b) := by
  obtain ⟨word, after⟩ := h.exists_after []
  unfold tokens
  rw [Scan.emitted_append, Scan.after_append, after, Scan.emitted, Scan.after_cons,
    Scan.emits_separator sep, Scan.next_separator sep]
  simp only [Scan.rest, List.append_assoc]

theorem tokens_cons (sep : isSeparator isWord c) :
    tokens isWord (c :: b) = markTokens c ++ tokens isWord b :=
  tokens_append (a := []) .nil sep

/-- A closed text is read apart from what follows it, if that begins with a separator. -/
theorem tokens_append_cons (h : Closed isWord a) (sep : isSeparator isWord c) :
    tokens isWord (a ++ c :: b) = tokens isWord a ++ tokens isWord (c :: b) := by
  rw [tokens_append h sep, tokens_cons sep]

/-- A word is read as one token. -/
theorem tokens_word (h : ∀ c ∈ word, c.isWhitespace = false ∧ c ≠ '"' ∧ c ≠ '/' ∧ isWord c) :
    tokens isWord word = wordTokens word := by
  have read : ∀ before : List Char, (Scan.outside before).emitted isWord word = [] ∧
      (Scan.outside before).after isWord word = .outside (before ++ word) := by
    induction word with
    | nil => exact fun before => ⟨rfl, by rw [List.append_nil]; rfl⟩
    | cons c word ih =>
      obtain ⟨⟨blank, quote, slash, char⟩, rest⟩ := List.forall_mem_cons.1 h
      intro before
      obtain ⟨emitted, after⟩ := ih rest (before ++ [c])
      simp [Scan.emitted, Scan.next, Scan.emits, blank, quote, slash, char, emitted, after]
  obtain ⟨emitted, after⟩ := read []
  rw [tokens, emitted, after]
  rfl

/-- Closed texts with commas between them, and white space after each comma. -/
theorem tokens_intercalate {blank : Char} (space : blank.isWhitespace)
    (comma : isSeparator isWord ',') {texts : List (List Char)}
    (h : ∀ text ∈ texts, Closed isWord text) :
    Closed isWord ([',', blank].intercalate texts) ∧
      tokens isWord ([',', blank].intercalate texts) =
        [TextToken.mark ','].intercalate (texts.map (tokens isWord)) := by
  have sep : isSeparator isWord blank := by simp [isSeparator, space]
  induction texts with
  | nil => exact ⟨.nil, rfl⟩
  | cons text more ih =>
    obtain ⟨first, rest⟩ := List.forall_mem_cons.1 h
    cases more with
    | nil => simpa using first
    | cons next more =>
      obtain ⟨closed, tokens⟩ := ih rest
      have between : Closed isWord [',', blank] := (Closed.separator comma).append (.separator sep)
      rw [List.intercalate_cons_cons, List.append_assoc]
      refine ⟨first.append (between.append closed), ?_⟩
      have marks : markTokens ',' = [.mark ','] ∧ markTokens blank = [] :=
        ⟨by decide, by simp [markTokens, space]⟩
      rw [List.cons_append, List.singleton_append, tokens_append first comma, tokens_cons sep,
        tokens, marks.1, marks.2]
      simp

/-! ## Literals -/

/-- A character that is no backslash at the end of a pattern or before another one is none. -/
theorem ne_backslash (last : c = '\\' → text = [] → False)
    (pair : ∀ d rest, c = '\\' → text = d :: rest → False) : c ≠ '\\' := by
  intro eq
  cases text with
  | nil => exact last eq rfl
  | cons d rest => exact pair d rest eq rfl

/-- A text in which a mark only stands after a backslash, and none stands after the last. -/
inductive LiteralBody (mark : Char) : List Char → Prop where
  | nil : LiteralBody mark []
  | plain {c : Char} {text : List Char} (ne : c ≠ mark) (noEscape : c ≠ '\\')
      (h : LiteralBody mark text) : LiteralBody mark (c :: text)
  | escape (c : Char) {text : List Char} (h : LiteralBody mark text) :
      LiteralBody mark ('\\' :: c :: text)

namespace LiteralBody

variable {mark : Char}

theorem append (ha : LiteralBody mark a) (hb : LiteralBody mark b) : LiteralBody mark (a ++ b) := by
  induction ha with
  | nil => exact hb
  | plain ne noEscape _ ih => exact .plain ne noEscape ih
  | escape c _ ih => exact .escape c ih

theorem quotedChar (c : Char) : LiteralBody '"' (quotedChar c) := by
  have digits : ∀ n < 16, hexDigit n ≠ '"' ∧ hexDigit n ≠ '\\' := by decide
  unfold SchemaCompiler.quotedChar
  split
  case h_8 quote backslash _ _ _ _ _ =>
    split
    next control =>
      obtain ⟨quote₁, backslash₁⟩ := digits (c.toNat / 16) (by omega)
      obtain ⟨quote₂, backslash₂⟩ := digits (c.toNat % 16) (by omega)
      refine .escape 'u' (.plain (by decide) (by decide) (.plain (by decide) (by decide) ?_))
      exact .plain quote₁ backslash₁ (.plain quote₂ backslash₂ .nil)
    next => exact .plain quote backslash .nil
  all_goals exact .escape _ .nil

theorem quoted (s : List Char) : LiteralBody '"' (s.flatMap SchemaCompiler.quotedChar) := by
  induction s with
  | nil => exact .nil
  | cons c s ih => exact (quotedChar c).append ih

/-- The escape of a line end. -/
theorem lineEndEscape {escape : List Char} (h : lineEndEscape? c = some escape) :
    LiteralBody '/' escape := by
  unfold lineEndEscape? at h
  split_ifs at h
  all_goals obtain rfl := Option.some.inj h
  · exact .escape 'n' .nil
  · exact .escape 'r' .nil
  all_goals
    refine .escape 'u' ?_
    repeat refine .plain (by decide) (by decide) ?_
    exact .nil

/-- A character of a pattern, as it is or as the escape of a line end. -/
theorem patternChar {plain : List Char} (h : LiteralBody '/' plain) (c : Char) :
    LiteralBody '/' ((lineEndEscape? c).getD plain) := by
  cases escape : lineEndEscape? c with
  | none => exact h
  | some cs => exact lineEndEscape escape

theorem patternBody (cs : List Char) : LiteralBody '/' (patternBody cs) := by
  fun_induction SchemaCompiler.patternBody cs with
  | case1 => exact .nil
  | case2 => exact .escape _ .nil
  | case3 c rest ih => exact (patternChar (.escape c .nil) c).append ih
  | case4 rest ih => exact .escape _ ih
  | case5 c rest last escape slash ih =>
    have backslash : c ≠ '\\' := ne_backslash last escape
    exact (patternChar (.plain slash backslash .nil) c).append ih

/-- The body of a literal is read inside the literal. -/
theorem read (h : LiteralBody kind.mark text) (body : List Char) :
    (Scan.inside kind body).after isWord text = .inside kind (body ++ text) ∧
      (Scan.inside kind body).emitted isWord text = [] := by
  have backslash : '\\' ≠ kind.mark := by cases kind <;> decide
  induction h generalizing body with
  | nil => exact ⟨by rw [List.append_nil]; rfl, rfl⟩
  | @plain c text ne noEscape _ ih =>
    obtain ⟨after, emitted⟩ := ih (body ++ [c])
    simp [Scan.next, Scan.emitted, Scan.emits, ne, noEscape, after, emitted]
  | @escape c text _ ih =>
    simpa [Scan.next, Scan.emitted, Scan.emits, backslash] using ih (body ++ ['\\', c])

/-- A literal is one token, and the reader is outside of it afterwards. -/
theorem literal (h : LiteralBody kind.mark body) :
    Closed isWord (kind.mark :: (body ++ [kind.mark])) ∧
      tokens isWord (kind.mark :: (body ++ [kind.mark])) =
        [.literal kind (String.ofList body)] := by
  obtain ⟨after, emitted⟩ : (Scan.inside kind []).after isWord body = .inside kind body ∧
      (Scan.inside kind []).emitted isWord body = [] := h.read []
  have first : (Scan.outside []).next isWord kind.mark = .inside kind [] ∧
      (Scan.outside []).emits isWord kind.mark = [] := by cases kind <;> exact ⟨rfl, rfl⟩
  have last : (Scan.inside kind body).next isWord kind.mark = .outside [] ∧
      (Scan.inside kind body).emits isWord kind.mark =
        [.literal kind (String.ofList body)] := by
    simp [Scan.next, Scan.emits]
  have ends : (Scan.outside []).after isWord (kind.mark :: (body ++ [kind.mark])) =
      .outside [] := by
    rw [Scan.after_cons, first.1, Scan.after_append, after, Scan.after_cons, last.1, Scan.after_nil]
  refine ⟨by rw [Closed, ends]; rfl, ?_⟩
  rw [tokens, ends, Scan.emitted, first.1, first.2, Scan.emitted_append, emitted, after,
    Scan.emitted, last.1, last.2]
  rfl

end LiteralBody

theorem closed_quote (s : String) : Closed isWord (quote s).toList := by
  have body : LiteralBody LiteralKind.string.mark (s.toList.flatMap quotedChar) := .quoted s.toList
  rw [toList_quote]
  exact body.literal.1

theorem tokens_quote (s : String) : tokens isWord (quote s).toList =
    [.literal .string (String.ofList (s.toList.flatMap quotedChar))] := by
  have body : LiteralBody LiteralKind.string.mark (s.toList.flatMap quotedChar) := .quoted s.toList
  rw [toList_quote]
  exact body.literal.2

theorem closed_regexLiteral (pattern : String) : Closed isWord (regexLiteral pattern).toList := by
  have body : LiteralBody LiteralKind.pattern.mark (patternBody pattern.toList) :=
    .patternBody pattern.toList
  unfold regexLiteral
  rw [String.toList_ofList]
  exact body.literal.1

theorem tokens_regexLiteral (pattern : String) : tokens isWord (regexLiteral pattern).toList =
    [.literal .pattern (String.ofList (patternBody pattern.toList))] := by
  have body : LiteralBody LiteralKind.pattern.mark (patternBody pattern.toList) :=
    .patternBody pattern.toList
  unfold regexLiteral
  rw [String.toList_ofList]
  exact body.literal.2

end SchemaCompiler
