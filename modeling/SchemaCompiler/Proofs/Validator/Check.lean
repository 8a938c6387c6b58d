import SchemaCompiler.Proofs.Json.Equals
import SchemaCompiler.Proofs.Number.ReadBack
import SchemaCompiler.Proofs.TypeText.Pieces
import SchemaCompiler.Proofs.Validator.Layout

/-!
# What code checks

`Check` is what the code of given values calls of the library, and `Check.Accepts` which values pass
it. `readCheck?` reads code as a check, by recursive descent over its tokens: a numeral is one word,
and so is the name of a library function. Line ends do not count, so the object literals of nested
code are read as if each was written in one line (`tokens_objectLiteral`).
-/

namespace SchemaCompiler

/-! ## Checks -/

/-- A call of the library, and what it is given. -/
inductive Check where
  | null
  | literal (value : Json)
  | picklist (values : List Json)
  | strictTuple (elements : List Check)
  | strictObject (entries : List (String × Check))
  | union (alternatives : List Check)

namespace Check

mutual

/-- A value passes a check: `null` and `literal` if it is equal to the one given, `picklist` if it
is equal to one of those given, `strictTuple` if it is an array of as many elements as there are
checks and each passes its own, `strictObject` if it is an object with just the listed keys and the
value of each passes its entry, and `union` if it passes some alternative. -/
def Accepts : Check → Json → Prop
  | .null, x => Json.null.Equals x
  | .literal v, x => v.Equals x
  | .picklist vs, x => ∃ v ∈ vs, v.Equals x
  | .strictTuple cs, .array xs => EachAccepts cs xs
  | .strictObject es, .object ms => EntriesAccept es ms ∧ ∀ m ∈ ms, m.1 ∈ es.map (·.1)
  | .union cs, x => SomeAccepts cs x
  | _, _ => False

def EachAccepts : List Check → List Json → Prop
  | [], [] => True
  | c :: cs, x :: xs => c.Accepts x ∧ EachAccepts cs xs
  | _, _ => False

def EntriesAccept : List (String × Check) → List (String × Json) → Prop
  | [], _ => True
  | (name, c) :: es, ms => (∃ x, member? name ms = some x ∧ c.Accepts x) ∧ EntriesAccept es ms

def SomeAccepts : List Check → Json → Prop
  | [], _ => False
  | c :: cs, x => c.Accepts x ∨ SomeAccepts cs x

end

theorem someAccepts_iff {cs : List Check} {x : Json} :
    SomeAccepts cs x ↔ ∃ c ∈ cs, c.Accepts x := by
  induction cs with
  | nil => simp [SomeAccepts]
  | cons c cs ih => simp [SomeAccepts, ih]

end Check

/-! ## Reading checks -/

open TypeText

/-- A value that is written as a single word. -/
def scalarWord? (w : String) : Option Json :=
  match readNumber? w.toList with
  | some n => some (.number n)
  | none =>
    if w = "true" then some (.bool true)
    else if w = "false" then some (.bool false)
    else none

def readScalar : TypeText.Reader Json
  | .word w :: ts => do return (← scalarWord? w, ts)
  | .literal .string body :: ts => do
    return (.string (String.ofList (← unquoted? body.toList)), ts)
  | _ => none

/-- Items between brackets, with commas between them. -/
def readEnclosed {α : Type} (b : TypeText.Bracket) (item : TypeText.Reader α) :
    TypeText.Reader (List α) := fun ts => do
  readList item ',' b.closing (← expect b.opening ts)

section Inner

variable (inner : TypeText.Reader Check)

/-- A quoted key and the code behind it. -/
def readMember : TypeText.Reader (String × Check)
  | .literal .string body :: ts => do
    let name ← unquoted? body.toList
    let (c, rest) ← inner (← expect ':' ts)
    return ((String.ofList name, c), rest)
  | _ => none

/-- What a library function is called with. -/
def readArgument (function : String) : TypeText.Reader Check := fun ts =>
  match function with
  | "v.null_" => some (.null, ts)
  | "v.literal" => (readScalar ts).map (.map .literal id)
  | "v.picklist" => (readEnclosed .square readScalar ts).map (.map .picklist id)
  | "v.strictTuple" => (readEnclosed .square inner ts).map (.map .strictTuple id)
  | "v.strictObject" => (readEnclosed .curly (readMember inner) ts).map (.map .strictObject id)
  | "v.union" => (readEnclosed .square inner ts).map (.map .union id)
  | _ => none

def readCall : TypeText.Reader Check
  | .word function :: ts => do
    let (c, rest) ← readArgument inner function (← expect '(' ts)
    return (c, ← expect ')' rest)
  | _ => none

end Inner

/-- A check in which calls are nested no deeper than `fuel`. -/
def readCheckWithin : (fuel : Nat) → TypeText.Reader Check
  | 0, _ => none
  | fuel + 1, ts => readCall (readCheckWithin fuel) ts

/-- The check that code stands for. Calls in it cannot be nested deeper than it is long. -/
def readCheck? (code : String) : Option Check :=
  let ts := tokens isTypeChar code.toList
  match readCheckWithin (ts.length + 1) ts with
  | some (c, []) => some c
  | _ => none

/-! ## Scalars -/

variable {marks : List Char}

theorem reads_number {n : Number} (proper : n.Proper) :
    TypeText.Reads (fun _ => readScalar) marks n.text.toList (.number n) where
  closed := (tokens_typeWord (.ofNumber n)).1
  eq := by
    intro _ rest _ _
    have word : tokens isTypeChar n.text.toList = [.word n.text] :=
      (tokens_typeWord (.ofNumber n)).2
    rw [word]
    simp [readScalar, scalarWord?, readNumber?_text proper]

theorem reads_string (s : String) :
    TypeText.Reads (fun _ => readScalar) marks (quote s).toList (.string s) where
  closed := closed_quote s
  eq := by
    intro _ rest _ _
    rw [tokens_quote]
    simp [readScalar, unquoted?_quoted]

theorem reads_bool (b : Bool) :
    TypeText.Reads (fun _ => readScalar) marks (Json.bool b).text.toList (.bool b) where
  closed := by cases b <;> decide
  eq := by
    intro _ rest _ _
    have word : tokens isTypeChar (Json.bool b).text.toList = [.word (Json.bool b).text] ∧
        scalarWord? (Json.bool b).text = some (.bool b) := by cases b <;> exact ⟨by decide, by rfl⟩
    rw [word.1]
    simp [readScalar, word.2]

/-! ## Lists between brackets -/

theorem TypeText.Reads.enclosed {α : Type} {read : Nat → TypeText.Reader α}
    {texts : List (List Char)} {xs : List α} (b : TypeText.Bracket)
    (ends : ∀ fuel rest, read fuel (.mark b.closing :: rest) = none)
    (h : List.Forall₂ (TypeText.Reads read [',', b.closing]) texts xs) :
    TypeText.Reads (fun fuel => readEnclosed b (read fuel)) marks
      (b.enclose (Separator.comma.chars.intercalate texts)) xs := by
  by_cases empty : texts = []
  · subst empty
    cases h
    refine ⟨b.closed .nil, fun {fuel rest} _ _ => ?_⟩
    have nothing : readList (read fuel) ',' b.closing (.mark b.closing :: rest) = some ([], rest) :=
      readList_nil (ends fuel rest)
    rw [List.intercalate_nil, b.tokens_enclose .nil]
    show readEnclosed b (read fuel) (.mark b.opening :: .mark b.closing :: rest) = _
    simp [readEnclosed, nothing]
  · have joined : Joined Separator.comma.chars _ _ xs := .of_forall₂ h empty
    refine ⟨b.closed joined.closed, fun {fuel rest} enough _ => ?_⟩
    rw [b.tokens_enclose joined.closed] at enough ⊢
    simp only [List.length_cons, List.length_append] at enough
    have other : Separator.comma.mark ∉ [b.closing] := by cases b <;> decide
    have items : readList (read fuel) ',' b.closing
        (tokens isTypeChar (Separator.comma.chars.intercalate texts) ++ .mark b.closing :: rest) =
          some (xs, rest) :=
      joined.readList (s := .comma) other (List.mem_singleton.2 rfl) (by omega)
    simpa [readEnclosed] using items

/-! ## Object literals -/

section Tokens

variable {isWord : Char → Bool}

/-- Shifting code moves no token. -/
theorem LaidOut.tokens_shifted {code : String} (h : LaidOut code) :
    Closed isWord (shifted code).toList ∧
      tokens isWord (shifted code).toList = tokens isWord code.toList := by
  have closed : Closed isWord (shifted code).toList := by
    rw [toList_shifted]
    exact h.orderly.shifted.1.closed.change isWord
  have lines : (Scan.outside []).LinesOutside isWord code.toList :=
    h.orderly.lines.similar (.outside [] [])
  obtain ⟨-, emitted, after⟩ := lines.shifted
  refine ⟨closed, ?_⟩
  rw [tokens, tokens, toList_shifted, emitted, after]

theorem tokens_blank {blank : Char} (space : blank.isWhitespace) (text : List Char) :
    tokens isWord (blank :: text) = tokens isWord text := by
  rw [tokens_cons (by simp [isSeparator, space])]
  simp [markTokens, space]

end Tokens

/-- A key and its code, in one line. -/
def inlineEntry (e : String × String) : List Char :=
  (quote e.1).toList ++ ':' :: ' ' :: e.2.toList

theorem tokens_entryText {e : String × String} (h : LaidOut e.2) :
    Closed isTypeChar (entryText (quote e.1, e.2)).toList ∧
      tokens isTypeChar (entryText (quote e.1, e.2)).toList =
        tokens isTypeChar (inlineEntry e) := by
  obtain ⟨closed, same⟩ : Closed isTypeChar (shifted e.2).toList ∧
      tokens isTypeChar (shifted e.2).toList = tokens isTypeChar e.2.toList := h.tokens_shifted
  have blank : Closed isTypeChar [' ', ' '] := by decide
  have colon : Closed isTypeChar [':', ' '] := by decide
  have text : (entryText (quote e.1, e.2)).toList =
      [' ', ' '] ++ ((quote e.1).toList ++ ([':', ' '] ++ (shifted e.2).toList)) := by
    rw [Validator.toList_entryText]
    simp only [List.cons_append, List.nil_append]
  refine ⟨text ▸ blank.append ((closed_quote e.1).append (colon.append closed)), ?_⟩
  rw [Validator.toList_entryText, inlineEntry, tokens_blank (by decide), tokens_blank (by decide),
    tokens_colon _ (closed_quote e.1), tokens_colon _ (closed_quote e.1), same]

theorem closed_inlineEntry {e : String × String} (h : LaidOut e.2) :
    Closed isTypeChar (inlineEntry e) := by
  have colon : Closed isTypeChar [':', ' '] := by decide
  exact (closed_quote e.1).append (colon.append (h.orderly.closed.change _))

/-- An object literal has the tokens of one that is written in one line. -/
theorem tokens_objectLiteral {entries : List (String × String)} (h : ∀ e ∈ entries, LaidOut e.2) :
    let literal := objectLiteral (entries.map fun e => (quote e.1, e.2))
    Closed isTypeChar literal.toList ∧
      tokens isTypeChar literal.toList = tokens isTypeChar (TypeText.Bracket.curly.enclose
        (Separator.comma.chars.intercalate (entries.map inlineEntry))) := by
  intro literal
  by_cases empty : entries = []
  · subst empty
    exact ⟨by decide, by decide⟩
  · have text : literal.toList = '\x7b' :: '\n' :: ([',', '\n'].intercalate
        (entries.map fun e => (entryText (quote e.1, e.2)).toList) ++ ['\n', '\x7d']) := by
      rw [Validator.toList_objectLiteral (by simpa using empty), List.map_map]
      rfl
    have lines : ∀ text ∈ entries.map fun e => (entryText (quote e.1, e.2)).toList,
        Closed isTypeChar text := by
      intro text ht
      obtain ⟨e, he, rfl⟩ := List.mem_map.1 ht
      exact (tokens_entryText (h e he)).1
    have inline : ∀ text ∈ entries.map inlineEntry, Closed isTypeChar text := by
      intro text ht
      obtain ⟨e, he, rfl⟩ := List.mem_map.1 ht
      exact closed_inlineEntry (h e he)
    have feed : '\n'.isWhitespace := by decide
    have space : ' '.isWhitespace := by decide
    obtain ⟨closed, onLines⟩ := tokens_intercalate feed (by decide) lines
    obtain ⟨closedInline, inOne⟩ := tokens_intercalate space (by decide) inline
    have same : (entries.map fun e => (entryText (quote e.1, e.2)).toList).map
        (tokens isTypeChar) = (entries.map inlineEntry).map (tokens isTypeChar) := by
      rw [List.map_map, List.map_map]
      exact List.map_congr_left fun e he => (tokens_entryText (h e he)).2
    have first : Closed isTypeChar ['\x7b', '\n'] := by decide
    have last : Closed isTypeChar ['\n', '\x7d'] := by decide
    rw [text]
    refine ⟨first.append (closed.append last), ?_⟩
    rw [tokens_cons (by decide), tokens_blank feed, tokens_append closed (by decide), onLines, same,
      ← inOne]
    exact (Bracket.tokens_enclose .curly closedInline).symm

/-! ## Calls -/

/-- Code that is read as a check, whatever follows it. -/
def ReadsCheck (code : String) (c : Check) : Prop :=
  ∀ marks, TypeText.Reads (fun fuel => readCheckWithin (fuel + 1)) marks code.toList c

theorem ReadsCheck.readCheck? {code : String} {c : Check} (h : ReadsCheck code c) :
    readCheck? code = some c := by
  have read := (h []).eq (Nat.le_refl _) .nil
  rw [List.append_nil] at read
  simp [SchemaCompiler.readCheck?, read]

/-- The name of a library function. -/
def IsFunction (symbol : String) : Prop := ("v." ++ symbol).toList.all isTypeChar

instance (symbol : String) : Decidable (IsFunction symbol) :=
  inferInstanceAs (Decidable (_ = true))

/-- A call is read if what the function is called with is. -/
theorem readsCheck_call {α : Type} {item : Nat → TypeText.Reader α} {build : α → Check}
    {symbol argument : String} {x : α} (name : IsFunction symbol)
    (argued : ∀ fuel ts, readArgument (readCheckWithin (fuel + 1)) ("v." ++ symbol) ts =
      (item fuel ts).map (.map build id))
    (h : TypeText.Reads item [')'] argument.toList x) :
    ReadsCheck (call symbol argument) (build x) := by
  intro marks
  have text : (call symbol argument).toList =
      ("v." ++ symbol).toList ++ TypeText.Bracket.round.enclose argument.toList := by
    simp [toList_call, Bracket.enclose, Bracket.opening, Bracket.closing]
  obtain ⟨closedName, word⟩ := tokens_typeWord
    ⟨"v." ++ symbol, by simp, fun c hc => List.all_eq_true.1 name c hc⟩
  have tokens : tokens isTypeChar (call symbol argument).toList =
      .word ("v." ++ symbol) :: .mark '(' ::
        (tokens isTypeChar argument.toList ++ [.mark ')']) := by
    rw [text, Bracket.enclose, tokens_append_cons closedName (by decide), word]
    exact congrArg _ (Bracket.tokens_enclose .round h.closed)
  refine ⟨text ▸ closedName.append (Bracket.closed .round h.closed), fun {fuel rest} enough _ => ?_⟩
  rw [tokens] at enough ⊢
  simp only [List.length_cons, List.length_append] at enough
  obtain ⟨fuel, rfl⟩ : ∃ n, fuel = n + 1 := Nat.exists_eq_add_one.2 (by omega)
  have inner : item fuel (SchemaCompiler.tokens isTypeChar argument.toList ++ .mark ')' :: rest) =
      some (x, .mark ')' :: rest) := h.eq (by omega) (.cons (List.mem_cons_self ..))
  show readCall (readCheckWithin (fuel + 1)) _ = _
  simp [readCall, argued, inner]

end SchemaCompiler
