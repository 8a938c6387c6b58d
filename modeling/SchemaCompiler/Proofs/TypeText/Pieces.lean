import SchemaCompiler.Proofs.TypeText.Operators
import SchemaCompiler.Proofs.TypeText.Reader

/-!
# Pieces of type texts

A text `Reads` as a value if a reader takes just its tokens, whatever else follows. Texts with a
separator between each two of them read as lists (`Joined.reads`), and so pieces make up a type by
precedence: an `Operand` has any number of `[]` after it, operands with `&` between them are
`Factored`, and `Alternatives` have `|` between them. Words, string literals, tuples, records and
what stands in parentheses are operands.
-/

namespace SchemaCompiler.TypeText

open TypeTree

/-! ## Pieces of tokens -/

/-- The tokens after a piece begin with one of some marks, if there are any. -/
def Follows (marks : List Char) (rest : List TextToken) : Prop :=
  ∀ t ∈ rest.head?, ∃ c ∈ marks, t = .mark c

/-- The marks that end a type. -/
def closingMarks : List Char := [')', ']', '\x7d', '>', ',', ';']

variable {α β : Type} {c : Char} {marks text : List Char} {rest : List TextToken}

namespace Follows

theorem nil : Follows marks [] := by simp [Follows]

theorem cons (h : c ∈ marks) : Follows marks (.mark c :: rest) := by
  simpa [Follows] using h

theorem mono {more : List Char} (h : Follows marks rest) (sub : marks ⊆ more) :
    Follows more rest := by
  intro t ht
  obtain ⟨c, hc, rfl⟩ := h t ht
  exact ⟨c, sub hc, rfl⟩

theorem expect_eq_none (h : Follows marks rest) (hc : c ∉ marks) : expect c rest = none := by
  cases rest with
  | nil => rfl
  | cons t rest =>
    obtain ⟨d, hd, rfl⟩ := h t rfl
    have ne : d ≠ c := fun eq => hc (eq ▸ hd)
    exact if_neg ne

end Follows

@[simp] theorem expect_mark : expect c (.mark c :: rest) = some rest := if_pos rfl

@[simp] theorem expectWord_word (w : String) : expectWord w (.word w :: rest) = some rest :=
  if_pos rfl

/-! ## Separators -/

/-- What stands between the parts of a type. -/
inductive Separator where
  | bar
  | ampersand
  | comma
  | semicolon

namespace Separator

def mark : Separator → Char
  | .bar => '|'
  | .ampersand => '&'
  | .comma => ','
  | .semicolon => ';'

def chars : Separator → List Char
  | .bar => " | ".toList
  | .ampersand => " & ".toList
  | .comma => ", ".toList
  | .semicolon => "; ".toList

theorem closed (s : Separator) : Closed isTypeChar s.chars := by cases s <;> decide

theorem tokens_append (s : Separator) {a b : List Char} (h : Closed isTypeChar a) :
    tokens isTypeChar (a ++ (s.chars ++ b)) =
      tokens isTypeChar a ++ .mark s.mark :: tokens isTypeChar b := by
  have space : isSeparator isTypeChar ' ' := by decide
  have between : ∀ c, isSeparator isTypeChar c → markTokens c = [.mark c] →
      tokens isTypeChar (c :: ' ' :: b) = .mark c :: tokens isTypeChar b := by
    intro c sep mark
    rw [tokens_cons sep, tokens_cons space, mark]
    rfl
  cases s with
  | bar =>
    exact (SchemaCompiler.tokens_append h space).trans
      (congrArg _ (between '|' (by decide) (by decide)))
  | ampersand =>
    exact (SchemaCompiler.tokens_append h space).trans
      (congrArg _ (between '&' (by decide) (by decide)))
  | comma =>
    exact (tokens_append_cons h (by decide)).trans
      (congrArg _ (between ',' (by decide) (by decide)))
  | semicolon =>
    exact (tokens_append_cons h (by decide)).trans
      (congrArg _ (between ';' (by decide) (by decide)))

end Separator

/-! ## Brackets -/

/-- What stands around the parts of a type. -/
inductive Bracket where
  | round
  | square
  | curly
  deriving DecidableEq

namespace Bracket

def opening : Bracket → Char
  | .round => '('
  | .square => '['
  | .curly => '\x7b'

def closing : Bracket → Char
  | .round => ')'
  | .square => ']'
  | .curly => '\x7d'

/-- A text between brackets. -/
def enclose (b : Bracket) (text : List Char) : List Char := b.opening :: (text ++ [b.closing])

theorem isSeparator (b : Bracket) :
    isSeparator isTypeChar b.opening ∧ isSeparator isTypeChar b.closing := by
  cases b <;> decide

theorem closed (b : Bracket) (h : Closed isTypeChar text) :
    Closed isTypeChar (b.enclose text) :=
  (Closed.separator b.isSeparator.1).append (h.append (.separator b.isSeparator.2))

theorem tokens_enclose (b : Bracket) (h : Closed isTypeChar text) :
    tokens isTypeChar (b.enclose text) =
      .mark b.opening :: (tokens isTypeChar text ++ [.mark b.closing]) := by
  have marks : markTokens b.opening = [.mark b.opening] ∧
      markTokens b.closing = [.mark b.closing] := by cases b <;> decide
  rw [enclose, tokens_cons b.isSeparator.1, tokens_append h b.isSeparator.2, marks.1, marks.2]
  rfl

theorem passes (b : Bracket) {op : Char} {least : Int} (h : Passes op (least + 1) text) :
    Passes op least (b.enclose text) :=
  h.enclosed (by cases b <;> decide) (by cases b <;> decide)

end Bracket

/-! ## Pieces that are read -/

/-- A text from which `read` reads a value, where one of some marks or nothing follows, if it has
fuel for all tokens of the text. -/
structure Reads (read : Nat → Reader α) (marks : List Char) (text : List Char) (x : α) :
    Prop where
  closed : Closed isTypeChar text
  eq : ∀ {fuel rest}, (tokens isTypeChar text).length ≤ fuel → Follows marks rest →
    read fuel (tokens isTypeChar text ++ rest) = some (x, rest)

namespace Joined

variable {s : Separator} {read : Nat → Reader α} {xs : List α}

theorem closed (h : Joined s.chars (Reads read marks) text xs) : Closed isTypeChar text := by
  induction h with
  | one h => exact h.closed
  | cons h _ ih => exact h.closed.append (s.closed.append ih)

theorem length_le (h : Joined s.chars (Reads read marks) text xs) :
    xs.length ≤ (tokens isTypeChar text).length + 1 := by
  induction h with
  | one => simp
  | cons h _ ih =>
    rw [s.tokens_append h.closed]
    simp only [List.length_cons, List.length_append]
    omega

theorem readSeparated (h : Joined s.chars (Reads read (s.mark :: marks)) text xs)
    (other : s.mark ∉ marks) {fuel bound : Nat} (enough : (tokens isTypeChar text).length ≤ fuel)
    (long : xs.length ≤ bound) (follows : Follows marks rest) :
    readSeparated (read fuel) s.mark bound (tokens isTypeChar text ++ rest) = some (xs, rest) := by
  induction h generalizing bound with
  | one h =>
    obtain ⟨bound, rfl⟩ : ∃ n, bound = n + 1 := Nat.exists_eq_add_one.2 long
    have item := h.eq enough (follows.mono (List.subset_cons_self _ _))
    simp [TypeText.readSeparated, item, follows.expect_eq_none other]
  | @cons text more x xs h _ ih =>
    obtain ⟨bound, rfl⟩ : ∃ n, bound = n + 1 := Nat.exists_eq_add_one.2 (Nat.zero_lt_of_lt long)
    rw [s.tokens_append h.closed] at enough ⊢
    simp only [List.length_cons, List.length_append] at enough long
    have item : read fuel (tokens isTypeChar text ++
        .mark s.mark :: (tokens isTypeChar more ++ rest)) =
          some (x, .mark s.mark :: (tokens isTypeChar more ++ rest)) :=
      h.eq (by omega) (.cons (List.mem_cons_self ..))
    have others := ih (by omega) (Nat.le_of_succ_le_succ long)
    rw [List.append_assoc, List.cons_append]
    simp [TypeText.readSeparated, item, others]

/-- Joined pieces are read to what is built from all of them. -/
theorem reads (h : Joined s.chars (Reads read (s.mark :: marks)) text xs) (other : s.mark ∉ marks)
    (build : List α → β) :
    Reads (fun fuel ts => do
      let (xs, rest) ← TypeText.readSeparated (read fuel) s.mark (ts.length + 1) ts
      return (build xs, rest)) marks text (build xs) where
  closed := h.closed
  eq enough follows := by
    have long := h.length_le
    rw [h.readSeparated other enough (by simp; omega) follows]
    rfl

theorem readList (h : Joined s.chars (Reads read (s.mark :: marks)) text xs) (other : s.mark ∉ marks)
    {close : Char} (hc : close ∈ marks) {fuel : Nat}
    (enough : (tokens isTypeChar text).length ≤ fuel) :
    readList (read fuel) s.mark close (tokens isTypeChar text ++ .mark close :: rest) =
      some (xs, rest) := by
  have long := h.length_le
  rw [TypeText.readList, h.readSeparated other enough (by simp; omega) (.cons hc)]
  simp

end Joined

theorem readList_nil {item : Reader α} {close : Char}
    (h : item (.mark close :: rest) = none) :
    readList item c close (.mark close :: rest) = some ([], rest) := by
  simp [readList, readSeparated, h]

theorem Reads.mono {read : Nat → Reader α} {more : List Char} {x : α}
    (h : Reads read more text x) (sub : marks ⊆ more) : Reads read marks text x where
  closed := h.closed
  eq enough follows := h.eq enough (follows.mono sub)

/-! ## Types by precedence -/

/-- A text that is read as an operand, with any number of `[]` after it, and in which no operator
stands at the top. -/
structure Operand (text : List Char) (t : TypeTree) : Prop where
  closed : Closed isTypeChar text
  passes : ∀ op ∈ ['|', '&'], Passes op 0 text
  read : ∀ {fuel rest}, (tokens isTypeChar text).length ≤ fuel →
    Follows ('[' :: '&' :: '|' :: closingMarks) rest →
      readOperand (readTypeWithin fuel) (tokens isTypeChar text ++ rest) =
        some (readSuffix t rest)

/-- Operands with `&` between them, which stand for their intersection. -/
def Factored (text : List Char) (t : TypeTree) : Prop :=
  ∃ factors, Joined Separator.ampersand.chars Operand text factors ∧ t = intersectionOf factors

/-- The alternatives of a type text, which have `|` between them. -/
def Alternatives : List Char → List TypeTree → Prop := Joined Separator.bar.chars Factored

variable {t : TypeTree} {ts : List TypeTree} {op : Char}

theorem readSuffix_of_follows (h : Follows marks rest) (other : '[' ∉ marks) (t : TypeTree) :
    readSuffix t rest = (t, rest) := by
  unfold readSuffix
  split
  · obtain ⟨c, hc, eq⟩ := h _ rfl
    cases eq
    exact absurd hc other
  · rfl

theorem Operand.reads (h : Operand text t) :
    Reads (fun fuel => readOperand (readTypeWithin fuel)) ('&' :: '|' :: closingMarks) text t where
  closed := h.closed
  eq enough follows := by
    rw [h.read enough (follows.mono (List.subset_cons_self _ _)),
      readSuffix_of_follows follows (by decide)]

theorem Joined.mono {sep : List Char} {R R' : List Char → α → Prop} {xs : List α}
    (h : Joined sep R text xs) (imp : ∀ text x, R text x → R' text x) : Joined sep R' text xs := by
  induction h with
  | one h => exact .one (imp _ _ h)
  | cons h _ ih => exact .cons (imp _ _ h) ih

theorem Factored.reads (h : Factored text t) :
    Reads (fun fuel => readIntersection (readTypeWithin fuel)) ('|' :: closingMarks) text t := by
  obtain ⟨factors, joined, rfl⟩ := h
  exact Joined.reads (s := .ampersand) (joined.mono fun _ _ => Operand.reads) (by decide)
    intersectionOf

theorem Alternatives.reads (h : Alternatives text ts) :
    Reads (fun fuel => readTypeWithin (fuel + 1)) closingMarks text (unionOf ts) :=
  Joined.reads (s := .bar) (h.mono fun _ _ => Factored.reads) (by decide) unionOf

/-! ### Operators at the top -/

theorem Separator.passes (s : Separator) : Passes op 1 s.chars := by
  refine .opened ?_ Int.one_pos
  cases s <;> decide

theorem Factored.passes_bar (h : Factored text t) : Passes '|' 0 text := by
  obtain ⟨factors, joined, _⟩ := h
  exact joined.passes (fun _ _ h => h.passes _ (by decide)) (.clear (by decide))

theorem Factored.passes (h : Factored text t) (hop : op ∈ ['|', '&']) : Passes op 1 text := by
  obtain ⟨factors, joined, _⟩ := h
  exact joined.passes (fun _ _ h => (h.passes _ hop).mono (by decide)) (Separator.passes .ampersand)

theorem Alternatives.passes (h : Alternatives text ts) (hop : op ∈ ['|', '&']) : Passes op 1 text :=
  Joined.passes (fun _ _ h => h.passes hop) (Separator.passes .bar) h

/-- A union has `|` at its top, and nothing else has. -/
theorem Alternatives.occursAtTop_bar (h : Alternatives text ts) :
    occursAtTop '|' .outside 0 text = false ∧ (∃ t, ts = [t] ∧ Factored text t) ∨
      occursAtTop '|' .outside 0 text = true := by
  rcases ts with _ | ⟨t, _ | ⟨u, ts⟩⟩
  · exact absurd rfl h.ne_nil
  · cases h with
    | one h => exact .inl ⟨h.passes_bar.hasTopLevel_eq_false, t, rfl, h⟩
    | cons _ rest => exact absurd rfl rest.ne_nil
  · exact .inr (h.occursAtTop_cons_cons (by decide) (by decide) fun _ _ h => h.passes_bar)

/-- What is no union has `&` at its top if it is an intersection, and not otherwise. -/
theorem Factored.occursAtTop_ampersand (h : Factored text t) :
    occursAtTop '&' .outside 0 text = false ∧ Operand text t ∨
      occursAtTop '&' .outside 0 text = true := by
  obtain ⟨factors, joined, rfl⟩ := h
  rcases factors with _ | ⟨t, _ | ⟨u, factors⟩⟩
  · exact absurd rfl joined.ne_nil
  · cases joined with
    | one h => exact .inl ⟨(h.passes _ (by decide)).hasTopLevel_eq_false, h⟩
    | cons _ rest => exact absurd rfl rest.ne_nil
  · exact .inr (joined.occursAtTop_cons_cons (by decide) (by decide)
      fun _ _ h => h.passes _ (by decide))

/-! ## Operands -/

theorem Operand.alternatives (h : Operand text t) : Alternatives text [t] :=
  .one ⟨[t], .one h, rfl⟩

theorem not_special_of_isTypeChar (h : isTypeChar c) :
    (c.isWhitespace = false ∧ c ≠ '"' ∧ c ≠ '/') ∧ isEnclosing c = false ∧ c ∉ ['|', '&'] := by
  have special : [' ', '\t', '\r', '\n', '"', '/', '(', '[', '\x7b', '<', ')', ']', '\x7d',
      '>', '|', '&'].all fun d => !isTypeChar d := by decide
  have other : c ∉ [' ', '\t', '\r', '\n', '"', '/', '(', '[', '\x7b', '<', ')', ']', '\x7d',
      '>', '|', '&'] := fun mem => by
    simpa [h] using List.all_eq_true.1 special c mem
  simp only [List.mem_cons, List.not_mem_nil, or_false, not_or] at other
  simp [Char.isWhitespace, isEnclosing, other]

theorem tokens_typeWord (w : TypeWord) :
    Closed isTypeChar w.text.toList ∧ tokens isTypeChar w.text.toList = [.word w.text] := by
  have plain := fun c hc => not_special_of_isTypeChar (w.typeChars c hc)
  refine ⟨.plain fun c hc => (plain c hc).1.2, ?_⟩
  rw [tokens_word fun c hc => ⟨(plain c hc).1.1, (plain c hc).1.2.1, (plain c hc).1.2.2,
    w.typeChars c hc⟩, wordTokens, List.isEmpty_eq_false_iff.2 w.nonempty]
  simp

theorem operand_word (w : TypeWord) : Operand w.text.toList (.word w) where
  closed := (tokens_typeWord w).1
  passes op hop := .plain fun c hc => by
    obtain ⟨_, enclosing, operator⟩ := not_special_of_isTypeChar (w.typeChars c hc)
    exact ⟨enclosing, fun eq => absurd (eq ▸ hop) operator⟩
  read := by
    intro fuel rest _ follows
    have name : expect '<' rest = none := follows.expect_eq_none (by decide)
    rw [(tokens_typeWord w).2]
    simp [readOperand, readPrimary, name, TypeWord.ofString?_text]

theorem operand_string (s : String) : Operand (quote s).toList (.string s) where
  closed := closed_quote s
  passes op _ := .quote s
  read := by
    intro fuel rest _ _
    rw [tokens_quote]
    simp [readOperand, readPrimary, unquoted?_quoted]

/-- An array of an operand. -/
theorem Operand.array (h : Operand text t) : Operand (text ++ ['[', ']']) (.array t) where
  closed := h.closed.append (Bracket.square.closed .nil)
  passes op hop := (h.passes op hop).append (Bracket.square.passes .nil)
  read := by
    intro fuel rest enough follows
    have tokens : tokens isTypeChar (text ++ ['[', ']']) =
        tokens isTypeChar text ++ [.mark '[', .mark ']'] := tokens_append_cons h.closed (by decide)
    rw [tokens, List.length_append] at enough
    rw [tokens, List.append_assoc, List.cons_append, List.singleton_append,
      h.read (by omega) (.cons (by decide))]
    rfl

/-- What is read between brackets is an operand. -/
theorem Bracket.operand (b : Bracket) (closed : Closed isTypeChar text)
    (passes : ∀ op ∈ ['|', '&'], Passes op 1 text)
    (read : ∀ {fuel rest}, (tokens isTypeChar text).length ≤ fuel →
      readPrimary (readTypeWithin (fuel + 1))
        (.mark b.opening :: (tokens isTypeChar text ++ .mark b.closing :: rest)) = some (t, rest)) :
    Operand (b.enclose text) t where
  closed := b.closed closed
  passes op hop := b.passes (passes op hop)
  read := by
    intro fuel rest enough _
    rw [b.tokens_enclose closed] at enough ⊢
    simp only [List.length_cons, List.length_append] at enough
    obtain ⟨fuel, rfl⟩ : ∃ n, fuel = n + 1 := Nat.exists_eq_add_one.2 (by omega)
    rw [List.cons_append, List.append_assoc, List.singleton_append, readOperand,
      read (by omega)]
    rfl

theorem Alternatives.operand (h : Alternatives text ts) :
    Operand (Bracket.round.enclose text) (unionOf ts) := by
  refine Bracket.round.operand h.reads.closed (fun _ => h.passes) fun {fuel rest} enough => ?_
  have inner : readTypeWithin (fuel + 1) (tokens isTypeChar text ++ .mark ')' :: rest) =
      some (unionOf ts, .mark ')' :: rest) := h.reads.eq enough (.cons (by decide))
  simp [readPrimary, Bracket.opening, Bracket.closing, inner]

/-! ### Tuples -/

/-- A text that is read as a type. -/
def Written (text : List Char) (t : TypeTree) : Prop := ∃ ts, Alternatives text ts ∧ t = unionOf ts

namespace Written

theorem reads (h : Written text t) :
    Reads (fun fuel => readTypeWithin (fuel + 1)) closingMarks text t := by
  obtain ⟨ts, alternatives, rfl⟩ := h
  exact alternatives.reads

theorem passes (h : Written text t) (hop : op ∈ ['|', '&']) : Passes op 1 text := by
  obtain ⟨ts, alternatives, _⟩ := h
  exact alternatives.passes hop

end Written

theorem readTypeWithin_square (fuel : Nat) : readTypeWithin fuel (.mark ']' :: rest) = none := by
  cases fuel with
  | zero => rfl
  | succ fuel =>
    simp [readTypeWithin, readUnion, readIntersection, readOperand, readSeparated, readPrimary]

theorem readPrimary_square {inner : Reader TypeTree} {tokens : List TextToken}
    (h : readList inner ',' ']' tokens = some (ts, rest)) :
    readPrimary inner (.mark '[' :: tokens) = some (.tuple ts, rest) := by
  simp [readPrimary, h]

theorem operand_tuple {texts : List (List Char)} (h : List.Forall₂ Written texts ts) :
    Operand (Bracket.square.enclose (Separator.comma.chars.intercalate texts)) (.tuple ts) := by
  cases texts with
  | nil =>
    cases h
    refine Bracket.square.operand .nil (fun _ _ => .nil) fun _ => ?_
    exact readPrimary_square (readList_nil (readTypeWithin_square _))
  | cons first texts =>
    have written : Joined Separator.comma.chars Written _ ts :=
      .of_forall₂ h (List.cons_ne_nil _ _)
    have joined : Joined Separator.comma.chars
        (Reads (fun fuel => readTypeWithin (fuel + 1)) [',', ']']) _ ts :=
      written.mono fun _ _ h => h.reads.mono (by decide)
    refine Bracket.square.operand joined.closed (fun op hop => ?_) fun enough => ?_
    · exact written.passes (fun _ _ h => h.passes hop) (Separator.passes .comma)
    · have last : ']' ∈ [']'] := List.mem_cons_self ..
      exact readPrimary_square (joined.readList (s := .comma) (by decide) last enough)

/-! ### Records -/

/-- A text that is read as an entry of a record type. -/
structure EntryText (text : List Char) (entry : RecordEntry) : Prop where
  passes : ∀ op ∈ ['|', '&'], Passes op 1 text
  reads : Reads (fun fuel => readEntry (readTypeWithin (fuel + 1))) [';', '\x7d'] text entry

/-- The key of a record type is read as the name that it stands for. -/
theorem recordKey_reads (name : String) :
    Closed isTypeChar (recordKey name).toList ∧
      (∀ op ∈ ['|', '&'], Passes op 1 (recordKey name).toList) ∧
      ∀ inner rest, readEntry inner (tokens isTypeChar (recordKey name).toList ++ rest) =
        readField inner name rest := by
  unfold recordKey
  split
  next identifier =>
    have word := operand_word (.ofIdentifier name identifier)
    refine ⟨word.closed, fun op hop => (word.passes op hop).mono (by decide), fun inner rest => ?_⟩
    have name : tokens isTypeChar name.toList = [.word name] :=
      (tokens_typeWord (.ofIdentifier name identifier)).2
    rw [name]
    rfl
  next =>
    refine ⟨closed_quote name, fun _ _ => .quote name, fun inner rest => ?_⟩
    rw [tokens_quote]
    simp [readEntry, unquoted?_quoted]

/-- A type after a colon. -/
theorem tokens_colon (type : List Char) {a : List Char} (h : Closed isTypeChar a) :
    tokens isTypeChar (a ++ ':' :: ' ' :: type) =
      tokens isTypeChar a ++ .mark ':' :: tokens isTypeChar type := by
  rw [tokens_append h (by decide), tokens_cons (by decide)]
  rfl

theorem entryText_field {type : String} (h : Written type.toList t) (name : String)
    (optional : Bool) : EntryText (Field.text ⟨name, type, optional⟩).toList
      (.field (name, optional, t)) := by
  obtain ⟨closed, passes, key⟩ := recordKey_reads name
  have mark : Closed isTypeChar (if optional then ['?'] else []) ∧
      ∀ op, Passes op 1 (if optional then ['?'] else []) := by
    cases optional
    · exact ⟨.nil, fun op => .nil⟩
    · exact ⟨by decide, fun op => .opened (by decide) Int.one_pos⟩
  have text : (Field.text ⟨name, type, optional⟩).toList =
      (recordKey name).toList ++ (if optional then ['?'] else []) ++ ':' :: ' ' :: type.toList := by
    cases optional <;> simp [Field.text]
  have tokens : tokens isTypeChar (Field.text ⟨name, type, optional⟩).toList =
      tokens isTypeChar (recordKey name).toList ++
        ((if optional then [.mark '?'] else []) ++ .mark ':' :: tokens isTypeChar type.toList) := by
    rw [text, tokens_colon _ (closed.append mark.1)]
    cases optional
    · simp
    · simp only [if_pos]
      rw [tokens_append_cons closed (by decide), List.append_assoc]
      rfl
  refine ⟨fun op hop => ?_, ?_, fun {fuel rest} enough follows => ?_⟩
  · rw [text]
    have colon : Passes op 1 [':', ' '] := .opened (by decide) Int.one_pos
    exact ((passes op hop).append (mark.2 op)).append (colon.append (h.passes hop))
  · rw [text]
    exact (closed.append mark.1).append
      (.append (a := [':', ' ']) (by decide) h.reads.closed)
  · rw [tokens] at enough ⊢
    have type : readTypeWithin (fuel + 1) (SchemaCompiler.tokens isTypeChar type.toList ++ rest) =
        some (t, rest) :=
      h.reads.eq (by simp at enough; omega) (follows.mono (by decide))
    rw [List.append_assoc, key]
    cases optional <;> simp [readField, expect, type]

theorem entryText_index {type : String} (h : Written type.toList t) :
    EntryText ("[key: string]: " ++ type).toList (.index t) := by
  have closed : Closed isTypeChar "[key: string]".toList := by decide
  have text : ("[key: string]: " ++ type).toList =
      "[key: string]".toList ++ ':' :: ' ' :: type.toList := by simp
  have tokens : tokens isTypeChar ("[key: string]: " ++ type).toList =
      [.mark '[', .word "key", .mark ':', .word "string", .mark ']', .mark ':'] ++
        tokens isTypeChar type.toList := by
    rw [text, tokens_colon _ closed]
    rfl
  refine ⟨fun op hop => ?_, ?_, fun {fuel rest} enough follows => ?_⟩
  · have key : Passes op (1 + 1) "key: string".toList := .opened (by decide) (by decide)
    have colon : Passes op 1 [':', ' '] := .opened (by decide) Int.one_pos
    rw [text]
    exact (Bracket.square.passes key).append (colon.append (h.passes hop))
  · rw [text]
    exact closed.append (.append (a := [':', ' ']) (by decide) h.reads.closed)
  · rw [tokens] at enough ⊢
    have type : readTypeWithin (fuel + 1) (SchemaCompiler.tokens isTypeChar type.toList ++ rest) =
        some (t, rest) :=
      h.reads.eq (by simp at enough; omega) (follows.mono (by decide))
    rw [List.append_assoc]
    simp [readEntry, type]

theorem collect?_eq {fields : List (String × Bool × TypeTree)} (h : fields ≠ [])
    (index : Option TypeTree) :
    RecordEntry.collect? (fields.map .field ++ (index.map .index).toList) =
      some (fields, index) := by
  induction fields with
  | nil => exact absurd rfl h
  | cons f fields ih =>
    cases fields with
    | nil => cases index <;> rfl
    | cons g fields =>
      have others := ih (List.cons_ne_nil _ _)
      simp only [List.map_cons, List.cons_append] at others ⊢
      rw [RecordEntry.collect?, others]
      · rfl
      · simp

theorem readEntry_curly (inner : Reader TypeTree) :
    readEntry inner (.mark '\x7d' :: rest) = none := rfl

theorem readPrimary_curly {inner : Reader TypeTree} {tokens : List TextToken}
    {entries : List RecordEntry} {fields : List (String × Bool × TypeTree)}
    {index : Option TypeTree} (h : readList (readEntry inner) ';' '\x7d' tokens = some (entries, rest))
    (collect : RecordEntry.collect? entries = some (fields, index)) :
    readPrimary inner (.mark '\x7b' :: tokens) = some (.record fields index, rest) := by
  simp [readPrimary, h, collect]

theorem operand_nothing : Operand "\x7b\x7d".toList (.record [] none) := by
  refine Bracket.curly.operand .nil (fun _ _ => .nil) fun _ => ?_
  exact readPrimary_curly (readList_nil (readEntry_curly _)) rfl

/-- A record type with fields. -/
theorem operand_entries {texts : List (List Char)} {fields : List (String × Bool × TypeTree)}
    {index : Option TypeTree} (nonempty : fields ≠ [])
    (h : List.Forall₂ EntryText texts (fields.map .field ++ (index.map .index).toList)) :
    Operand (Bracket.curly.enclose (' ' :: (Separator.semicolon.chars.intercalate texts ++ [' '])))
      (.record fields index) := by
  have some : texts ≠ [] := by
    rintro rfl
    have none := List.forall₂_nil_left_iff.1 h
    simp [nonempty] at none
  have entries : Joined Separator.semicolon.chars EntryText _ _ := .of_forall₂ h some
  have joined : Joined Separator.semicolon.chars
      (Reads (fun fuel => readEntry (readTypeWithin (fuel + 1))) [';', '\x7d']) _ _ :=
    entries.mono fun _ _ h => h.reads
  generalize Separator.semicolon.chars.intercalate texts = text at entries joined
  have tokens : tokens isTypeChar (' ' :: (text ++ [' '])) = tokens isTypeChar text := by
    rw [tokens_cons (by decide), tokens_append joined.closed (by decide)]
    simp [markTokens, SchemaCompiler.tokens, Scan.emitted, Scan.rest, wordTokens]
  have closed : Closed isTypeChar ([' '] ++ (text ++ [' '])) :=
    Closed.append (by decide) (joined.closed.append (by decide))
  refine Bracket.curly.operand closed (fun op hop => ?_) fun {fuel rest} enough => ?_
  · have blank : Passes op 1 [' '] := .opened (by decide) Int.one_pos
    have inside : Passes op 1 text :=
      entries.passes (fun _ _ h => h.passes op hop) (Separator.passes .semicolon)
    exact blank.append (inside.append blank)
  · rw [tokens] at enough ⊢
    have last : '\x7d' ∈ ['\x7d'] := List.mem_cons_self ..
    exact readPrimary_curly (joined.readList (s := .semicolon) (by decide) last enough)
      (collect?_eq nonempty index)

/-- A record type without fields but with a type of further keys. -/
theorem operand_dictionary {type : String} (h : Written type.toList t) :
    Operand ("Record<string, " ++ type ++ ">").toList (.record [] (some t)) := by
  have text : ("Record<string, " ++ type ++ ">").toList =
      "Record<string".toList ++ ',' :: ' ' :: (type.toList ++ ['>']) := by simp
  have first : Closed isTypeChar "Record<string".toList := by decide
  have tokens : tokens isTypeChar ("Record<string, " ++ type ++ ">").toList =
      .word "Record" :: .mark '<' :: .word "string" :: .mark ',' ::
        (tokens isTypeChar type.toList ++ [.mark '>']) := by
    rw [text, tokens_append first (by decide), tokens_cons (by decide),
      tokens_append h.reads.closed (by decide)]
    rfl
  refine ⟨?_, fun op hop => ?_, fun {fuel rest} enough _ => ?_⟩
  · rw [text]
    have blank : Closed isTypeChar [',', ' '] := by decide
    exact first.append (blank.append (h.reads.closed.append (by decide)))
  · have name : Passes op 0 "Record".toList := by
      simp only [List.mem_cons, List.not_mem_nil, or_false] at hop
      rcases hop with rfl | rfl
      · exact .clear (by decide)
      · exact .clear (by decide)
    have argument : Passes op 1 "string, ".toList := .opened (by decide) Int.one_pos
    have brackets : Passes op 0 ('<' :: ("string, ".toList ++ type.toList ++ ['>'])) :=
      .enclosed (by decide) (by decide) (argument.append (h.passes hop))
    simpa [text] using name.append brackets
  · rw [tokens] at enough ⊢
    simp only [List.length_cons, List.length_append] at enough
    obtain ⟨fuel, rfl⟩ : ∃ n, fuel = n + 1 := Nat.exists_eq_add_one.2 (by omega)
    have inner : readTypeWithin (fuel + 1)
        (SchemaCompiler.tokens isTypeChar type.toList ++ .mark '>' :: rest) =
          some (t, .mark '>' :: rest) := h.reads.eq (by omega) (.cons (by decide))
    simp [readOperand, readPrimary, inner]

end SchemaCompiler.TypeText
