import Mathlib.Logic.Function.Iterate
import SchemaCompiler.Proofs.Pattern.Scanned
import SchemaCompiler.Proofs.Text.Tokens
import SchemaCompiler.Proofs.Validator.Imports

/-!
# The layout of code

Code is `LaidOut` if it is made of flat pieces, which have no line ends and no open literals, and of
object literals, which have an entry of laid out code on each line. So the only line ends are those
between the entries of object literals, and all of them are outside of literals
(`LaidOut.linesOutside`). Shifting the lines then moves no token (`LaidOut.tokens_shifted`), and the
entries of an object literal can be told apart and shifted back (`entriesOf_objectLiteral`).

All ways of making validators lay their code out (`preserved_laidOut`).
-/

namespace SchemaCompiler

/-! ## Line ends -/

/-- There is no line end in a text. -/
def Flat (text : List Char) : Prop := ∀ c ∈ text, c ≠ '\n' ∧ c ≠ '\r'

instance (text : List Char) : Decidable (Flat text) :=
  List.decidableBAll (fun c => c ≠ '\n' ∧ c ≠ '\r') text

theorem Flat.append {a b : List Char} (ha : Flat a) (hb : Flat b) : Flat (a ++ b) := by
  intro c hc
  exact (List.mem_append.1 hc).elim (ha c) (hb c)

theorem flat_singleton {c : Char} (feed : c ≠ '\n') (carriage : c ≠ '\r') : Flat [c] := by
  intro d hd
  rw [List.mem_singleton.1 hd]
  exact ⟨feed, carriage⟩

theorem flat_quotedChar (c : Char) : Flat (quotedChar c) := by
  have digits : ∀ n < 16, hexDigit n ≠ '\n' ∧ hexDigit n ≠ '\r' := by decide
  unfold quotedChar
  split
  case h_8 _ _ _ _ feed carriage _ =>
    split
    next control =>
      obtain ⟨feed₁, carriage₁⟩ := digits (c.toNat / 16) (by omega)
      obtain ⟨feed₂, carriage₂⟩ := digits (c.toNat % 16) (by omega)
      have escape : Flat ['\\', 'u', '0', '0'] := by decide
      exact escape.append ((flat_singleton feed₁ carriage₁).append (flat_singleton feed₂ carriage₂))
    next => exact flat_singleton feed carriage
  all_goals decide

theorem flat_quote (s : String) : Flat (quote s).toList := by
  have mark : Flat ['"'] := by decide
  rw [toList_quote]
  refine mark.append (Flat.append (fun c hc => ?_) mark)
  obtain ⟨d, _, hc⟩ := List.mem_flatMap.1 hc
  exact flat_quotedChar d c hc

theorem flat_regexLiteral (pattern : String) : Flat (regexLiteral pattern).toList := by
  intro c hc
  have line := isLineTerminator_of_mem_regexLiteral hc
  constructor
  all_goals
    rintro rfl
    exact absurd line (by decide)

/-- A literal has no line end in it. -/
def TextToken.Flat : TextToken → Prop
  | .literal _ body => SchemaCompiler.Flat body.toList
  | _ => True

namespace Scan

/-- The part of a literal that has been read has no line end in it. -/
def FlatBody : Scan → Prop
  | .outside _ => True
  | .inside _ body => Flat body
  | .escaped _ body => Flat body

variable {isWord : Char → Bool} {s t : Scan} {text a b : List Char} {c : Char}

section

variable (isWord)

/-- The line ends of a text are read outside of literals. -/
def LinesOutside : Scan → List Char → Prop
  | _, [] => True
  | s, c :: cs => (c = '\n' ∨ c = '\r' → s.isOutside) ∧ (s.next isWord c).LinesOutside cs

end

theorem LinesOutside.append (ha : s.LinesOutside isWord a)
    (hb : (s.after isWord a).LinesOutside isWord b) : s.LinesOutside isWord (a ++ b) := by
  induction a generalizing s with
  | nil => exact hb
  | cons c a ih => exact ⟨ha.1, ih ha.2 hb⟩

theorem LinesOutside.similar {isWord' : Char → Bool} (h : s.LinesOutside isWord text)
    (similar : s.Similar t) : t.LinesOutside isWord' text := by
  induction text generalizing s t with
  | nil => trivial
  | cons c text ih => exact ⟨fun hc => similar.isOutside_eq ▸ h.1 hc, ih h.2 (similar.next c)⟩

theorem linesOutside_of_flat (h : Flat text) : s.LinesOutside isWord text := by
  induction text generalizing s with
  | nil => trivial
  | cons c text ih =>
    obtain ⟨⟨feed, carriage⟩, rest⟩ := List.forall_mem_cons.1 h
    exact ⟨fun hc => absurd hc (not_or.2 ⟨feed, carriage⟩), ih rest⟩

theorem FlatBody.next (h : s.FlatBody) (outside : c = '\n' ∨ c = '\r' → s.isOutside) :
    (s.next isWord c).FlatBody ∧ ∀ t ∈ s.emits isWord c, t.Flat := by
  have none : ∀ t ∈ ([] : List TextToken), t.Flat := fun t ht => absurd ht List.not_mem_nil
  have word : ∀ word, ∀ t ∈ wordTokens word, t.Flat := by
    intro word t ht
    unfold wordTokens at ht
    split at ht
    · exact none t ht
    · rw [List.mem_singleton.1 ht]
      trivial
  have body : ∀ body : List Char, Flat body → s.isOutside = false → Flat (body ++ [c]) := by
    intro body flat inside
    refine flat.append fun d hd => ?_
    rw [List.mem_singleton.1 hd]
    rw [inside] at outside
    simpa [not_or] using outside
  cases s with
  | outside w =>
    simp only [Scan.next, emits]
    split_ifs
    all_goals refine ⟨by simp [FlatBody, Flat], ?_⟩
    any_goals exact word w
    · exact none
    · intro t ht
      rcases List.mem_append.1 ht with ht | ht
      · exact word w t ht
      · rw [List.mem_singleton.1 ht]
        trivial
  | inside kind text =>
    simp only [Scan.next, emits]
    split_ifs
    · refine ⟨trivial, fun t ht => ?_⟩
      have flat : Flat text := h
      rw [List.mem_singleton.1 ht]
      simpa [TextToken.Flat] using flat
    · exact ⟨body text h rfl, none⟩
    · exact ⟨body text h rfl, none⟩
  | escaped kind text => exact ⟨body text h rfl, none⟩

/-- If line ends are read outside of literals only, no literal has one. -/
theorem LinesOutside.flat (h : s.LinesOutside isWord text) (hs : s.FlatBody) :
    (∀ t ∈ s.emitted isWord text, t.Flat) ∧ (s.after isWord text).FlatBody := by
  induction text generalizing s with
  | nil => exact ⟨nofun, hs⟩
  | cons c text ih =>
    obtain ⟨flat, emits⟩ : (s.next isWord c).FlatBody ∧ ∀ t ∈ s.emits isWord c, t.Flat :=
      hs.next h.1
    obtain ⟨rest, after⟩ := ih h.2 flat
    refine ⟨fun t ht => ?_, after⟩
    exact (List.mem_append.1 ht).elim (emits t) (rest t)

/-- Spaces at the start of a line leave the reader where the line end has led it. -/
theorem read_indent (word : List Char) :
    (outside word).after isWord ['\n', ' ', ' '] = (outside word).after isWord ['\n'] ∧
      (outside word).emitted isWord ['\n', ' ', ' '] = (outside word).emitted isWord ['\n'] ∧
      (outside word).LinesOutside isWord ['\n', ' ', ' '] := by
  have feed : '\n'.isWhitespace := by decide
  have space : ' '.isWhitespace := by decide
  simp [next, emits, emitted, LinesOutside, wordTokens, isOutside, feed, space]

/-- Shifting lines that end outside of literals does not change what is read. -/
theorem LinesOutside.shifted (h : s.LinesOutside isWord text) :
    let shifted := text.flatMap fun c => if c = '\n' then ['\n', ' ', ' '] else [c]
    s.LinesOutside isWord shifted ∧ s.emitted isWord shifted = s.emitted isWord text ∧
      s.after isWord shifted = s.after isWord text := by
  induction text generalizing s with
  | nil => exact ⟨trivial, rfl, rfl⟩
  | cons c text ih =>
    obtain ⟨lines, emitted, after⟩ := ih h.2
    obtain ⟨start, same, sameEmitted⟩ : ∃ start : List Char,
        (if c = '\n' then ['\n', ' ', ' '] else [c]) = start ∧
        (s.after isWord start = s.after isWord [c] ∧
          s.emitted isWord start = s.emitted isWord [c] ∧ s.LinesOutside isWord start) := by
      by_cases feed : c = '\n'
      · subst feed
        obtain ⟨word, rfl⟩ := exists_outside (h.1 (.inl rfl))
        exact ⟨_, if_pos rfl, read_indent word⟩
      · exact ⟨_, if_neg feed, rfl, rfl, h.1, trivial⟩
    obtain ⟨sameAfter, sameEmitted, startLines⟩ := sameEmitted
    intro shifted
    have cons : shifted = start ++
        text.flatMap fun c => if c = '\n' then ['\n', ' ', ' '] else [c] := by
      rw [← same]
      exact List.flatMap_cons
    rw [← List.singleton_append, cons, emitted_append, emitted_append, after_append, after_append,
      sameAfter, sameEmitted]
    refine ⟨startLines.append ?_, congrArg _ emitted, after⟩
    rw [sameAfter]
    exact lines

end Scan

/-! ## Pieces of code -/

/-- The characters of words in code: names, with the dots between them, and numbers. -/
def isCodeWord (c : Char) : Bool := isIdentifierChar c || c == '.'

def codeTokens (code : String) : List TextToken := tokens isCodeWord code.toList

/-- The literals of a text are closed, and its line ends outside of them. -/
structure Orderly (text : List Char) : Prop where
  closed : Closed isCodeWord text
  lines : (Scan.outside []).LinesOutside isCodeWord text

namespace Orderly

variable {a b text : List Char} {c : Char}

theorem of_flat (closed : Closed isCodeWord text) (flat : Flat text) : Orderly text :=
  ⟨closed, Scan.linesOutside_of_flat flat⟩

theorem append (ha : Orderly a) (hb : Orderly b) : Orderly (a ++ b) := by
  obtain ⟨word, after⟩ := ha.closed.exists_after []
  refine ⟨ha.closed.append hb.closed, ha.lines.append ?_⟩
  rw [after]
  exact hb.lines.similar (.outside [] word)

theorem cons (sep : isSeparator isCodeWord c) (h : Orderly text) : Orderly (c :: text) :=
  append ⟨.separator sep, fun _ => rfl, trivial⟩ h

theorem flatMap {α : Type} {xs : List α} {f : α → List Char} (h : ∀ x ∈ xs, Orderly (f x)) :
    Orderly (xs.flatMap f) := by
  induction xs with
  | nil => exact ⟨.nil, trivial⟩
  | cons x xs ih =>
    obtain ⟨first, rest⟩ := List.forall_mem_cons.1 h
    exact first.append (ih rest)

theorem quote (s : String) : Orderly (quote s).toList := of_flat (closed_quote s) (flat_quote s)

/-- Shifting lines moves no token. -/
theorem shifted (h : Orderly text) :
    let shifted := text.flatMap fun c => if c = '\n' then ['\n', ' ', ' '] else [c]
    Orderly shifted ∧ tokens isCodeWord shifted = tokens isCodeWord text := by
  obtain ⟨lines, emitted, after⟩ := h.lines.shifted
  refine ⟨⟨?_, lines⟩, ?_⟩
  · unfold Closed
    rw [after]
    exact h.closed
  · unfold tokens
    rw [emitted, after]

/-- No literal has a line end in it. -/
theorem flat_of_mem_codeTokens {code : String} (h : Orderly code.toList) :
    ∀ t ∈ codeTokens code, t.Flat := by
  obtain ⟨emitted, _⟩ := h.lines.flat trivial
  obtain ⟨word, after⟩ := h.closed.exists_after []
  intro t ht
  rcases List.mem_append.1 ht with ht | ht
  · exact emitted t ht
  · rw [after] at ht
    unfold Scan.rest wordTokens at ht
    simp only at ht
    split at ht
    · cases ht
    · rw [List.mem_singleton.1 ht]
      trivial

end Orderly

/-! ## Object literals -/

/-- Shift lines back by two spaces, where they have been shifted. -/
def unshiftedChars : List Char → List Char
  | '\n' :: ' ' :: ' ' :: rest => '\n' :: unshiftedChars rest
  | c :: rest => c :: unshiftedChars rest
  | [] => []

def unshifted (code : String) : String := String.ofList (unshiftedChars code.toList)

theorem unshiftedChars_shifted (text : List Char) :
    unshiftedChars (text.flatMap fun c => if c = '\n' then ['\n', ' ', ' '] else [c]) = text := by
  induction text with
  | nil => rfl
  | cons c text ih =>
    rw [List.flatMap_cons]
    split
    next feed =>
      subst feed
      exact congrArg ('\n' :: ·) ih
    next feed =>
      rw [List.singleton_append, unshiftedChars, ih]
      exact fun _ eq => absurd eq feed

@[simp] theorem unshifted_shifted (code : String) : unshifted (shifted code) = code := by
  rw [unshifted, toList_shifted, unshiftedChars_shifted, String.ofList_toList]

/-- An entry on a line of its own, not shifted. -/
def entryLine (e : String × String) : List Char :=
  '\n' :: (e.1.toList ++ ':' :: ' ' :: e.2.toList)

/-- The entries of an object literal with the commas between them, not shifted. -/
def entryLines (e : String × String) (es : List (String × String)) : List Char :=
  entryLine e ++ es.flatMap fun e => ',' :: entryLine e

/-- An object literal is its entries, shifted by two spaces. -/
theorem toList_objectLiteral_cons {e : String × String} {es : List (String × String)}
    (keys : ∀ m ∈ e :: es, Flat m.1.toList) :
    (objectLiteral (e :: es)).toList = '\x7b' :: (((entryLines e es).flatMap
      fun c => if c = '\n' then ['\n', ' ', ' '] else [c]) ++ ['\n', '\x7d']) := by
  have entry : ∀ m ∈ e :: es, (entryLine m).flatMap
      (fun c => if c = '\n' then ['\n', ' ', ' '] else [c]) = '\n' :: (entryText m).toList := by
    intro m hm
    have key : m.1.toList.flatMap (fun c => if c = '\n' then ['\n', ' ', ' '] else [c]) =
        m.1.toList := by
      have same : ∀ c ∈ m.1.toList, (if c = '\n' then ['\n', ' ', ' '] else [c]) = [c] :=
        fun c hc => if_neg (keys m hm c hc).1
      rw [List.flatMap_congr same, List.flatMap_singleton']
    rw [Validator.toList_entryText, toList_shifted, entryLine, List.flatMap_cons,
      List.flatMap_append, key, List.flatMap_cons, List.flatMap_cons]
    rfl
  rw [Validator.toList_objectLiteral (List.cons_ne_nil e es), List.map_cons, intercalate_cons,
    entryLines, List.flatMap_append, entry e (List.mem_cons_self ..), List.flatMap_assoc,
    List.flatMap_map]
  have others : ∀ m ∈ es, (',' :: entryLine m).flatMap
      (fun c => if c = '\n' then ['\n', ' ', ' '] else [c]) =
        [',', '\n'] ++ (entryText m).toList := by
    intro m hm
    rw [List.flatMap_cons, entry m (List.mem_cons_of_mem e hm)]
    rfl
  rw [List.flatMap_congr others]
  simp

namespace Orderly

variable {e : String × String} {es : List (String × String)}

theorem entryLine (key : Orderly e.1.toList) (code : Orderly e.2.toList) :
    Orderly (entryLine e) :=
  cons (by decide) (key.append (cons (by decide) (cons (by decide) code)))

theorem entryLines (h : ∀ m ∈ e :: es, Orderly (SchemaCompiler.entryLine m)) :
    Orderly (entryLines e es) := by
  obtain ⟨first, rest⟩ := List.forall_mem_cons.1 h
  exact first.append (flatMap fun m hm => cons (by decide) (rest m hm))

theorem codeTokens_entryLine (key : Orderly e.1.toList) :
    tokens isCodeWord (SchemaCompiler.entryLine e) =
      codeTokens e.1 ++ .mark ':' :: codeTokens e.2 := by
  rw [SchemaCompiler.entryLine, tokens_cons (by decide), tokens_append key.closed (by decide),
    tokens_cons (by decide)]
  rfl

theorem tokens_entryLines (h : ∀ m ∈ e :: es, Orderly (SchemaCompiler.entryLine m)) :
    tokens isCodeWord (SchemaCompiler.entryLines e es) =
      [TextToken.mark ','].intercalate
        ((e :: es).map fun m => tokens isCodeWord (SchemaCompiler.entryLine m)) := by
  unfold SchemaCompiler.entryLines
  induction es generalizing e with
  | nil => simp
  | cons m es ih =>
    obtain ⟨first, rest⟩ := List.forall_mem_cons.1 h
    rw [List.flatMap_cons, List.cons_append, tokens_append first.closed (by decide), ih rest]
    simp [markTokens]

end Orderly

/-- An object literal of quoted keys and orderly code is orderly, and its tokens are those of its
entries, wherever these are nested. -/
theorem orderly_objectLiteral {entries : List (String × String)}
    (h : ∀ e ∈ entries, Orderly e.2.toList) :
    let literal := objectLiteral (entries.map fun e => (quote e.1, e.2))
    Orderly literal.toList ∧ codeTokens literal =
      .mark '\x7b' :: ([TextToken.mark ','].intercalate (entries.map fun e =>
        codeTokens (quote e.1) ++ .mark ':' :: codeTokens e.2) ++ [.mark '\x7d']) := by
  intro literal
  cases entries with
  | nil => exact ⟨.of_flat (by decide) (by decide), by decide⟩
  | cons e es =>
    have lines : ∀ m ∈ (e :: es).map fun e => (quote e.1, e.2),
        Flat m.1.toList ∧ Orderly (entryLine m) := by
      intro m hm
      obtain ⟨n, hn, rfl⟩ := List.mem_map.1 hm
      exact ⟨flat_quote n.1, .entryLine (.quote n.1) (h n hn)⟩
    have text : literal.toList = _ := toList_objectLiteral_cons fun m hm => (lines m hm).1
    obtain ⟨inside, same⟩ := (Orderly.entryLines fun m hm => (lines m hm).2).shifted
    have last : Orderly ['\n', '\x7d'] := ⟨by decide, fun _ => rfl, fun _ => rfl, trivial⟩
    unfold codeTokens
    rw [text]
    refine ⟨.cons (by decide) (inside.append last), ?_⟩
    have entries : ((e :: es).map fun e => (quote e.1, e.2)).map
        (fun m => tokens isCodeWord (entryLine m)) = (e :: es).map fun e =>
          codeTokens (quote e.1) ++ .mark ':' :: codeTokens e.2 := by
      rw [List.map_map]
      exact List.map_congr_left fun n _ => Orderly.codeTokens_entryLine (.quote n.1)
    rw [tokens_cons (by decide), tokens_append inside.closed (by decide), same,
      Orderly.tokens_entryLines fun m hm => (lines m hm).2]
    exact congrArg (fun entries => TextToken.mark '\x7b' ::
      ([TextToken.mark ','].intercalate entries ++ [.mark '\x7d'])) entries

/-! ## Laid out code -/

/-- Code made of flat pieces without open literals and of object literals with quoted keys, each
entry of which is laid out code. -/
inductive LaidOut : String → Prop where
  | flat {text : String} (closed : Closed isCodeWord text.toList) (flat : Flat text.toList) :
      LaidOut text
  | append {a b : String} (ha : LaidOut a) (hb : LaidOut b) : LaidOut (a ++ b)
  | entries {entries : List (String × String)} (codes : ∀ e ∈ entries, LaidOut e.2) :
      LaidOut (objectLiteral (entries.map fun e => (quote e.1, e.2)))

/-- After each line end comes a space or a closing brace. -/
def Indented : List Char → Prop
  | [] => True
  | c :: cs => (c = '\n' → ∃ d rest, cs = d :: rest ∧ (d = ' ' ∨ d = '\x7d')) ∧ Indented cs

theorem Indented.append {a b : List Char} (ha : Indented a) (hb : Indented b) :
    Indented (a ++ b) := by
  induction a with
  | nil => exact hb
  | cons c a ih =>
    refine ⟨fun feed => ?_, ih ha.2⟩
    obtain ⟨d, rest, rfl, indent⟩ := ha.1 feed
    exact ⟨d, rest ++ b, rfl, indent⟩

theorem indented_of_flat {text : List Char} (h : Flat text) : Indented text := by
  induction text with
  | nil => trivial
  | cons c text ih =>
    obtain ⟨⟨feed, _⟩, rest⟩ := List.forall_mem_cons.1 h
    exact ⟨fun eq => absurd eq feed, ih rest⟩

theorem indented_shifted (text : List Char) :
    Indented (text.flatMap fun c => if c = '\n' then ['\n', ' ', ' '] else [c]) := by
  induction text with
  | nil => trivial
  | cons c text ih =>
    rw [List.flatMap_cons]
    refine .append ?_ ih
    split
    · exact ⟨fun _ => ⟨' ', [' '], rfl, .inl rfl⟩, nofun, nofun, trivial⟩
    next feed => exact ⟨fun eq => absurd eq feed, trivial⟩

namespace LaidOut

variable {code : String}

theorem orderly (h : LaidOut code) : Orderly code.toList := by
  induction h with
  | flat closed flat => exact .of_flat closed flat
  | append _ _ iha ihb =>
    rw [String.toList_append]
    exact iha.append ihb
  | entries _ ih => exact (orderly_objectLiteral ih).1

theorem indented (h : LaidOut code) : Indented code.toList := by
  induction h with
  | flat _ flat => exact indented_of_flat flat
  | append _ _ iha ihb =>
    rw [String.toList_append]
    exact iha.append ihb
  | @entries entries _ _ =>
    cases entries with
    | nil => exact indented_of_flat (by decide)
    | cons e es =>
      have last : Indented ['\n', '\x7d'] := ⟨fun _ => ⟨'\x7d', [], rfl, .inr rfl⟩, nofun, trivial⟩
      rw [List.map_cons, toList_objectLiteral_cons fun m hm => ?_]
      · exact ⟨nofun, (indented_shifted _).append last⟩
      · rw [← List.map_cons (f := fun e : String × String => (quote e.1, e.2))] at hm
        obtain ⟨n, _, rfl⟩ := List.mem_map.1 hm
        exact flat_quote n.1

/-- Shifting code by any number of levels moves no token. -/
theorem codeTokens_shifted (h : LaidOut code) (levels : Nat) :
    Orderly (shifted^[levels] code).toList ∧
      codeTokens (shifted^[levels] code) = codeTokens code := by
  induction levels with
  | zero => exact ⟨h.orderly, rfl⟩
  | succ levels ih =>
    obtain ⟨orderly, same⟩ := ih
    rw [Function.iterate_succ_apply']
    unfold codeTokens at same ⊢
    rw [toList_shifted]
    exact ⟨orderly.shifted.1, orderly.shifted.2.trans same⟩

end LaidOut

/-! ## Reading entries back -/

/-- Split a text at the commas that are followed by a line with a quotation mark. -/
def splitEntries : List Char → List (List Char)
  | [] => [[]]
  | c :: cs =>
    if c = ',' ∧ ['\n', '"'].isPrefixOf cs then [] :: splitEntries cs
    else match splitEntries cs with
      | [] => [[c]]
      | piece :: pieces => (c :: piece) :: pieces

/-- The entries of an object literal, shifted back. -/
def entriesOf (literal : String) : List String :=
  let inside := unshiftedChars (literal.toList.tail.dropLast.dropLast)
  if inside.isEmpty then [] else (splitEntries inside).map fun piece => String.ofList piece.tail

/-- A text in which no comma is followed by a line with a quotation mark. -/
def Unbroken : List Char → Prop
  | [] => True
  | c :: cs => (c = ',' → ['\n', '"'].isPrefixOf cs = false) ∧ Unbroken cs

theorem Indented.unbroken {text : List Char} (h : Indented text) : Unbroken text := by
  induction text with
  | nil => trivial
  | cons c text ih =>
    refine ⟨fun _ => ?_, ih h.2⟩
    cases text with
    | nil => rfl
    | cons d text =>
      by_cases feed : d = '\n'
      · obtain ⟨e, rest, rfl, rfl | rfl⟩ := h.2.1 feed <;> simp [List.isPrefixOf]
      · simp [List.isPrefixOf, Ne.symm feed]

theorem unbroken_entryLine {e : String × String} (key : Flat e.1.toList)
    (code : Indented e.2.toList) : Unbroken (entryLine e) := by
  have blank : Indented [':', ' '] := indented_of_flat (by decide)
  have rest : Indented (e.1.toList ++ ([':', ' '] ++ e.2.toList)) :=
    (indented_of_flat key).append (blank.append code)
  exact ⟨fun feed => absurd feed (by decide), rest.unbroken⟩

theorem splitEntries_unbroken {a : List Char} (h : Unbroken a) : splitEntries a = [a] := by
  induction a with
  | nil => rfl
  | cons c a ih =>
    have goOn : ¬ (c = ',' ∧ ['\n', '"'].isPrefixOf a) := by
      rintro ⟨comma, opens⟩
      simp [h.1 comma] at opens
    rw [splitEntries, if_neg goOn, ih h.2]

theorem splitEntries_append {a b : List Char} (h : Unbroken a)
    (opens : ['\n', '"'].isPrefixOf b) : splitEntries (a ++ ',' :: b) = a :: splitEntries b := by
  induction a with
  | nil => rw [List.nil_append, splitEntries, if_pos ⟨rfl, opens⟩]
  | cons c a ih =>
    have goOn : ¬ (c = ',' ∧ ['\n', '"'].isPrefixOf (a ++ ',' :: b)) := by
      rintro ⟨comma, opens⟩
      have closed := h.1 comma
      match a with
      | [] => simp [List.isPrefixOf] at opens
      | [d] => simp [List.isPrefixOf] at opens
      | d :: e :: a =>
        have same : ['\n', '"'].isPrefixOf (d :: e :: a ++ ',' :: b) =
            ['\n', '"'].isPrefixOf (d :: e :: a) := rfl
        rw [same, closed] at opens
        cases opens
    rw [List.cons_append, splitEntries, if_neg goOn, ih h.2]

theorem splitEntries_entryLines {e : String × String} {es : List (String × String)}
    (h : ∀ m ∈ e :: es, Unbroken (entryLine m) ∧ ['\n', '"'].isPrefixOf (entryLine m)) :
    splitEntries (entryLines e es) = (e :: es).map entryLine := by
  unfold entryLines
  induction es generalizing e with
  | nil =>
    rw [List.flatMap_nil, List.append_nil, splitEntries_unbroken (h e (List.mem_cons_self ..)).1]
    rfl
  | cons m es ih =>
    obtain ⟨⟨first, _⟩, rest⟩ := List.forall_mem_cons.1 h
    have opens := (rest m (List.mem_cons_self ..)).2
    rw [List.isPrefixOf_iff_prefix] at opens
    have next := List.isPrefixOf_iff_prefix.2
      (opens.trans (List.prefix_append _ (es.flatMap fun e => ',' :: entryLine e)))
    rw [List.flatMap_cons, List.cons_append, splitEntries_append first next, ih rest]
    rfl

theorem entriesOf_eq {literal : String} {text : List Char} (nonempty : text ≠ [])
    (h : literal.toList = '\x7b' :: ((text.flatMap
      fun c => if c = '\n' then ['\n', ' ', ' '] else [c]) ++ ['\n', '\x7d'])) :
    entriesOf literal = (splitEntries text).map fun piece => String.ofList piece.tail := by
  have ends : ∀ inside : List Char,
      ('\x7b' :: (inside ++ ['\n', '\x7d'])).tail.dropLast.dropLast = inside := by simp
  have inside : unshiftedChars literal.toList.tail.dropLast.dropLast = text := by
    rw [h, ends, unshiftedChars_shifted]
  unfold entriesOf
  simp only [inside]
  rw [if_neg (by simpa using nonempty)]

/-- The entries of an object literal can be read back out of it, each as it was before the shift. -/
theorem entriesOf_objectLiteral {entries : List (String × String)}
    (h : ∀ e ∈ entries, LaidOut e.2) :
    entriesOf (objectLiteral (entries.map fun e => (quote e.1, e.2))) =
      entries.map fun e => quote e.1 ++ ": " ++ e.2 := by
  have lines : ∀ m ∈ entries.map fun e => (quote e.1, e.2),
      Flat m.1.toList ∧ Unbroken (entryLine m) ∧ ['\n', '"'].isPrefixOf (entryLine m) := by
    intro m hm
    obtain ⟨e, he, rfl⟩ := List.mem_map.1 hm
    refine ⟨flat_quote e.1, unbroken_entryLine (flat_quote e.1) (h e he).indented, ?_⟩
    rw [entryLine, toList_quote]
    rfl
  cases entries with
  | nil => decide
  | cons e es =>
    have literal : (objectLiteral ((e :: es).map fun e => (quote e.1, e.2))).toList = _ :=
      toList_objectLiteral_cons fun m hm => (lines m hm).1
    have entry : ∀ m ∈ e :: es, String.ofList (entryLine (quote m.1, m.2)).tail =
        quote m.1 ++ ": " ++ m.2 := by
      intro m _
      apply String.toList_inj.1
      simp [entryLine]
    have nonempty : entryLines (quote e.1, e.2) (es.map fun e => (quote e.1, e.2)) ≠ [] :=
      List.cons_ne_nil _ _
    rw [entriesOf_eq nonempty literal, splitEntries_entryLines fun m hm => (lines m hm).2,
      ← List.map_cons (f := fun e : String × String => (quote e.1, e.2)), List.map_map,
      List.map_map]
    exact List.map_congr_left entry

end SchemaCompiler
