import SchemaCompiler.Proofs.TypeText.Pieces
import SchemaCompiler.Proofs.Validator.Script

/-!
# Expressions

`Expression` is the grammar of the code that validators are made of: names, numerals, literals,
calls of library functions, lists, object literals with quoted keys, and a few functions. Such code
is laid out (`Expression.laidOut`). Its brackets match, and no comma, colon or semicolon stands
outside of them (`Expression.balanced`), so it can be told apart from what follows it.
-/

namespace SchemaCompiler

/-! ## Matching brackets -/

/-- The closing brackets that are awaited after a token, where some are before it. Nothing is if
another one is closed, or if what separates expressions stands outside of all brackets. -/
def awaitedAfter (awaited : List Char) : TextToken → Option (List Char)
  | .mark '(' => some (')' :: awaited)
  | .mark '[' => some (']' :: awaited)
  | .mark '\x7b' => some ('\x7d' :: awaited)
  | .mark c =>
    if c ∈ [')', ']', '\x7d'] then
      if awaited.head? = some c then some awaited.tail else none
    else if c ∈ [',', ':', ';'] ∧ awaited = [] then none
    else some awaited
  | _ => some awaited

/-- Brackets match, and what separates expressions stands inside of them. -/
def Balanced (ts : List TextToken) : Prop :=
  ∀ awaited, ts.foldlM awaitedAfter awaited = some awaited

/-- Brackets match, and what separates expressions may stand between them. -/
def Enclosed (ts : List TextToken) : Prop :=
  ∀ c awaited, ts.foldlM awaitedAfter (c :: awaited) = some (c :: awaited)

/-- A word, or a mark other than brackets and what separates expressions. -/
def IsNeutral : TextToken → Prop
  | .word _ => True
  | .mark c => c ∉ ['(', ')', '[', ']', '\x7b', '\x7d', ',', ':', ';']
  | .literal _ _ => False

theorem awaitedAfter_neutral {t : TextToken} (h : IsNeutral t) (awaited : List Char) :
    awaitedAfter awaited t = some awaited := by
  cases t with
  | word => rfl
  | literal => cases h
  | mark c =>
    simp only [IsNeutral, List.mem_cons, List.not_mem_nil, or_false, not_or] at h
    obtain ⟨round, round', square, square', curly, curly', comma, colon, semicolon⟩ := h
    simp [awaitedAfter, round', square', curly', comma, colon, semicolon]

variable {as bs ts : List TextToken}

namespace Balanced

theorem append (ha : Balanced as) (hb : Balanced bs) : Balanced (as ++ bs) := by
  intro awaited
  rw [List.foldlM_append, ha awaited]
  exact hb awaited

theorem literal (kind : LiteralKind) (body : String) : Balanced [.literal kind body] :=
  fun _ => rfl

theorem neutral (h : ∀ t ∈ ts, IsNeutral t) : Balanced ts := by
  intro awaited
  induction ts with
  | nil => rfl
  | cons t ts ih =>
    obtain ⟨first, rest⟩ := List.forall_mem_cons.1 h
    rw [List.foldlM_cons, awaitedAfter_neutral first]
    exact ih rest

theorem enclosed (h : Balanced ts) : Enclosed ts := fun c awaited => h (c :: awaited)

end Balanced

namespace Enclosed

theorem append (ha : Enclosed as) (hb : Enclosed bs) : Enclosed (as ++ bs) := by
  intro c awaited
  rw [List.foldlM_append, ha c awaited]
  exact hb c awaited

theorem separator {c : Char} (h : c ∈ [',', ':', ';']) : Enclosed [.mark c] := by
  intro close awaited
  simp only [List.mem_cons, List.not_mem_nil, or_false] at h
  obtain rfl | rfl | rfl := h <;> rfl

theorem intercalate {tss : List (List TextToken)} (h : ∀ ts ∈ tss, Enclosed ts) :
    Enclosed ([TextToken.mark ','].intercalate tss) := by
  have comma : Enclosed [.mark ','] := separator (by decide)
  induction tss with
  | nil => exact fun c awaited => rfl
  | cons ts tss ih =>
    obtain ⟨first, rest⟩ := List.forall_mem_cons.1 h
    cases tss with
    | nil => simpa using first
    | cons next tss =>
      rw [List.intercalate_cons_cons]
      exact (first.append comma).append (ih rest)

theorem brackets (h : Enclosed ts) (b : TypeText.Bracket) :
    Balanced (.mark b.opening :: (ts ++ [.mark b.closing])) := by
  intro awaited
  have opened : awaitedAfter awaited (.mark b.opening) = some (b.closing :: awaited) := by
    cases b <;> rfl
  have closed : awaitedAfter (b.closing :: awaited) (.mark b.closing) = some awaited := by
    cases b <;> rfl
  simp [opened, h b.closing awaited, closed]

end Enclosed

/-! ## Bare texts -/

/-- The characters that divide code into its parts. -/
def dividingChars : List Char :=
  [' ', '\t', '\r', '\n', '"', '/', '(', ')', '[', ']', '\x7b', '\x7d', ',', ':', ';']

/-- A text in one piece, such as a name or a numeral. -/
def Bare (text : List Char) : Prop := ∀ c ∈ text, c ∉ dividingChars

instance (text : List Char) : Decidable (Bare text) :=
  List.decidableBAll (fun c => c ∉ dividingChars) text

variable {text : List Char}

theorem Bare.append {a b : List Char} (ha : Bare a) (hb : Bare b) : Bare (a ++ b) := by
  intro c hc
  exact (List.mem_append.1 hc).elim (ha c) (hb c)

theorem bare_of_forall {p : Char → Bool} (dividing : dividingChars.all fun c => !p c)
    (h : ∀ c ∈ text, p c) : Bare text := by
  intro c hc mem
  have excluded := List.all_eq_true.1 dividing c mem
  exact absurd (h c hc) (by simpa using excluded)

theorem bare_of_spelled {s : String} (h : Spelled s) : Bare s.toList :=
  bare_of_forall (by decide) h

theorem bare_number (n : Number) : Bare n.text.toList :=
  bare_of_forall (by decide) fun _ hc => Number.isNumberChar_of_mem_text hc

theorem Bare.closed (h : Bare text) (isWord : Char → Bool) : Closed isWord text := by
  refine .plain fun c hc => ⟨?_, ?_⟩
  all_goals
    rintro rfl
    exact h _ hc (by decide)

theorem Bare.flat (h : Bare text) : Flat text := by
  refine fun c hc => ⟨?_, ?_⟩
  all_goals
    rintro rfl
    exact h _ hc (by decide)

theorem isNeutral_of_mem_wordTokens {word : List Char} {t : TextToken} (h : t ∈ wordTokens word) :
    IsNeutral t := by
  unfold wordTokens at h
  split at h
  · cases h
  · rw [List.mem_singleton.1 h]
    trivial

/-- A bare text is read as words and neutral marks, after the characters of a word, too. -/
theorem Bare.emitted (h : Bare text) (word : List Char) :
    let ts := (Scan.outside word).emitted isCodeWord text ++
      ((Scan.outside word).after isCodeWord text).rest
    (∀ t ∈ ts, IsNeutral t) ∧ (word ≠ [] ∨ text ≠ [] → ts ≠ []) := by
  induction text generalizing word with
  | nil =>
    refine ⟨fun t => isNeutral_of_mem_wordTokens, fun nonempty => ?_⟩
    have word : word ≠ [] := nonempty.elim id fun ne => absurd rfl ne
    simpa [Scan.emitted, Scan.rest, wordTokens] using word
  | cons c text ih =>
    obtain ⟨first, rest⟩ := List.forall_mem_cons.1 h
    have blank : c.isWhitespace = false := by
      cases blank : c.isWhitespace with
      | false => rfl
      | true =>
        simp only [Char.isWhitespace, Bool.or_eq_true, decide_eq_true_eq] at blank
        obtain ((rfl | rfl) | rfl) | rfl := blank <;> exact absurd (by decide) first
    have noLiteral : c ≠ '"' ∧ c ≠ '/' := by
      constructor
      all_goals
        rintro rfl
        exact first (by decide)
    simp only [Scan.emitted, Scan.after_cons, Scan.next, Scan.emits, blank, Bool.false_eq_true,
      if_false, if_neg noLiteral.1, if_neg noLiteral.2]
    by_cases wordChar : isCodeWord c
    · -- The word goes on, so it is not empty any more.
      obtain ⟨neutral, nonempty⟩ := ih rest (word ++ [c])
      rw [if_pos wordChar, if_pos wordChar, List.nil_append]
      exact ⟨neutral, fun _ => nonempty (.inl (by simp))⟩
    · obtain ⟨neutral, -⟩ := ih rest []
      have mark : IsNeutral (.mark c) := fun mem => first (by simp_all [dividingChars])
      rw [if_neg wordChar, if_neg wordChar, List.append_assoc, List.append_assoc]
      refine ⟨fun t ht => ?_, fun _ => by simp⟩
      rcases List.mem_append.1 ht with ht | ht
      · exact isNeutral_of_mem_wordTokens ht
      · rcases List.mem_append.1 ht with ht | ht
        · exact List.mem_singleton.1 ht ▸ mark
        · exact neutral t ht

theorem Bare.codeTokens {code : String} (h : Bare code.toList) :
    (∀ t ∈ codeTokens code, IsNeutral t) ∧ (code ≠ "" → codeTokens code ≠ []) := by
  obtain ⟨neutral, some⟩ := h.emitted []
  exact ⟨neutral, fun nonempty => some (.inr (by simpa using nonempty))⟩

/-! ## The grammar -/

/-- What functions in code begin with. -/
def functionHeads : List String := ["() => ", "(input) => !"]

/-- The code that validators are made of. Which names and which patterns it holds is left open. -/
inductive Expression (IsName IsPattern : String → Prop) : String → Prop where
  | name {code : String} (h : IsName code) : Expression IsName IsPattern code
  | bare {code : String} (h : Bare code.toList) (nonempty : code ≠ "") :
      Expression IsName IsPattern code
  | string (s : String) : Expression IsName IsPattern (quote s)
  | pattern {s : String} (h : IsPattern s) : Expression IsName IsPattern (regexLiteral s)
  | call {symbol : String} {arguments : List String} (name : Spelled symbol)
      (h : ∀ code ∈ arguments, Expression IsName IsPattern code) :
      Expression IsName IsPattern (call symbol (", ".intercalate arguments))
  | list {elements : List String} (h : ∀ code ∈ elements, Expression IsName IsPattern code) :
      Expression IsName IsPattern ("[" ++ ", ".intercalate elements ++ "]")
  | object {entries : List (String × String)} (h : ∀ e ∈ entries, Expression IsName IsPattern e.2) :
      Expression IsName IsPattern (objectLiteral (entries.map fun e => (quote e.1, e.2)))
  | function {head body : String} (h : head ∈ functionHeads)
      (hb : Expression IsName IsPattern body) : Expression IsName IsPattern (head ++ body)
  | distinct : Expression IsName IsPattern "(input) => new Set(input).size === input.length"

/-! ## Layout -/

namespace LaidOut

variable {code symbol argument : String}

theorem bare (h : Bare code.toList) : LaidOut code := .flat (h.closed isCodeWord) h.flat

theorem quote (s : String) : LaidOut (quote s) := .flat (closed_quote s) (flat_quote s)

theorem regexLiteral (pattern : String) : LaidOut (regexLiteral pattern) :=
  .flat (closed_regexLiteral pattern) (flat_regexLiteral pattern)

theorem call (h : LaidOut argument) (name : Spelled symbol) : LaidOut (call symbol argument) := by
  have library : LaidOut "v." := .flat (by decide) (by decide)
  have opened : LaidOut "(" := .flat (by decide) (by decide)
  have closed : LaidOut ")" := .flat (by decide) (by decide)
  exact (((library.append (.bare (bare_of_spelled name))).append opened).append h).append closed

theorem intercalate {codes : List String} (h : ∀ code ∈ codes, LaidOut code) :
    LaidOut (", ".intercalate codes) := by
  have sep : LaidOut ", " := .flat (by decide) (by decide)
  induction codes with
  | nil => exact .flat (by decide) (by decide)
  | cons code codes ih =>
    obtain ⟨first, rest⟩ := List.forall_mem_cons.1 h
    cases codes with
    | nil =>
      rw [String.intercalate_singleton]
      exact first
    | cons next codes =>
      rw [String.intercalate_cons_cons]
      exact (first.append sep).append (ih rest)

theorem functionHead {head : String} (h : head ∈ functionHeads) : LaidOut head := by
  have flat : ∀ head ∈ functionHeads, Closed isCodeWord head.toList ∧ Flat head.toList := by
    decide
  exact .flat (flat head h).1 (flat head h).2

end LaidOut

namespace Expression

variable {IsName IsPattern : String → Prop} {code : String}

theorem laidOut (spelled : ∀ s, IsName s → Spelled s) (h : Expression IsName IsPattern code) :
    LaidOut code := by
  induction h with
  | name h => exact .bare (bare_of_spelled (spelled _ h))
  | bare h => exact .bare h
  | string s => exact .quote s
  | pattern => exact .regexLiteral _
  | call name _ ih => exact (LaidOut.intercalate ih).call name
  | list _ ih =>
    have opened : LaidOut "[" := .flat (by decide) (by decide)
    have closed : LaidOut "]" := .flat (by decide) (by decide)
    exact (opened.append (.intercalate ih)).append closed
  | object _ ih => exact .entries ih
  | function head _ ih => exact (LaidOut.functionHead head).append ih
  | distinct => exact .flat (by decide) (by decide)

end Expression

/-! ## Tokens -/

variable {symbol argument : String}

theorem codeTokens_brackets (b : TypeText.Bracket) {text : List Char}
    (closed : Closed isCodeWord text) :
    Closed isCodeWord (b.enclose text) ∧ tokens isCodeWord (b.enclose text) =
      .mark b.opening :: (tokens isCodeWord text ++ [.mark b.closing]) := by
  have marks : isSeparator isCodeWord b.opening ∧ isSeparator isCodeWord b.closing ∧
      markTokens b.opening = [.mark b.opening] ∧ markTokens b.closing = [.mark b.closing] := by
    cases b <;> decide
  obtain ⟨opens, closes, opening, closing⟩ := marks
  refine ⟨(Closed.separator opens).append (closed.append (.separator closes)), ?_⟩
  rw [TypeText.Bracket.enclose, tokens_cons opens, tokens_append closed closes, opening, closing]
  rfl

theorem bare_function (name : Spelled symbol) : Bare ("v." ++ symbol).toList := by
  have library : Bare "v.".toList := by decide
  rw [String.toList_append]
  exact library.append (bare_of_spelled name)

theorem codeTokens_call (name : Spelled symbol) (closed : Closed isCodeWord argument.toList) :
    codeTokens (call symbol argument) =
      codeTokens ("v." ++ symbol) ++ .mark '(' :: (codeTokens argument ++ [.mark ')']) := by
  have function := (bare_function name).closed isCodeWord
  have text : (call symbol argument).toList =
      ("v." ++ symbol).toList ++ TypeText.Bracket.round.enclose argument.toList := by
    simp [call, TypeText.Bracket.enclose, TypeText.Bracket.opening, TypeText.Bracket.closing]
  rw [codeTokens, text, TypeText.Bracket.enclose, tokens_append_cons function (by decide),
    ← TypeText.Bracket.enclose, (codeTokens_brackets .round closed).2]
  rfl

theorem codeTokens_list (closed : Closed isCodeWord argument.toList) :
    codeTokens ("[" ++ argument ++ "]") = .mark '[' :: (codeTokens argument ++ [.mark ']']) := by
  have text : ("[" ++ argument ++ "]").toList =
      TypeText.Bracket.square.enclose argument.toList := by
    simp [TypeText.Bracket.enclose, TypeText.Bracket.opening, TypeText.Bracket.closing]
  rw [codeTokens, text, (codeTokens_brackets .square closed).2]
  rfl

theorem codeTokens_intercalate {codes : List String}
    (closed : ∀ code ∈ codes, Closed isCodeWord code.toList) :
    Closed isCodeWord (", ".intercalate codes).toList ∧ codeTokens (", ".intercalate codes) =
      [TextToken.mark ','].intercalate (codes.map codeTokens) := by
  have space : ' '.isWhitespace := by decide
  have texts : ∀ text ∈ codes.map String.toList, Closed isCodeWord text := by
    intro text ht
    obtain ⟨code, hc, rfl⟩ := List.mem_map.1 ht
    exact closed code hc
  obtain ⟨whole, tokens⟩ := tokens_intercalate space (by decide) texts
  rw [codeTokens, String.toList_intercalate]
  rw [List.map_map] at tokens
  exact ⟨whole, tokens⟩

/-- A function is read as its head and its body. -/
theorem codeTokens_function {head : String} (h : head ∈ functionHeads) (body : String) :
    codeTokens (head ++ body) = codeTokens head ++ codeTokens body := by
  obtain ⟨text, c, eq, closed, sep⟩ : ∃ text c, head.toList = text ++ [c] ∧
      Closed isCodeWord text ∧ isSeparator isCodeWord c := by
    simp only [functionHeads, List.mem_cons, List.not_mem_nil, or_false] at h
    obtain rfl | rfl := h
    · exact ⟨"() =>".toList, ' ', rfl, by decide, by decide⟩
    · exact ⟨"(input) => ".toList, '!', rfl, by decide, by decide⟩
  have nothing : tokens isCodeWord [] = [] := rfl
  unfold codeTokens
  rw [String.toList_append, eq, List.append_assoc, List.singleton_append, tokens_append closed sep,
    tokens_append closed sep, nothing, List.append_nil, List.append_assoc]

/-! ## Expressions among other tokens -/

namespace Expression

variable {IsName IsPattern : String → Prop} {code : String}

theorem closed (spelled : ∀ s, IsName s → Spelled s) (h : Expression IsName IsPattern code) :
    Closed isCodeWord code.toList := (h.laidOut spelled).orderly.closed

/-- The tokens of lists and of what functions are called with. -/
theorem enclosed_intercalate {codes : List String}
    (h : ∀ code ∈ codes, Closed isCodeWord code.toList ∧ Balanced (codeTokens code)) :
    Enclosed (codeTokens (", ".intercalate codes)) := by
  rw [(codeTokens_intercalate fun code hc => (h code hc).1).2]
  refine .intercalate fun ts ht => ?_
  obtain ⟨code, hc, rfl⟩ := List.mem_map.1 ht
  exact (h code hc).2.enclosed

theorem tokens_functionHead {head : String} (h : head ∈ functionHeads) :
    codeTokens head ≠ [] ∧ Balanced (codeTokens head) ∧ ∀ t ∈ codeTokens head, t.WellFormed := by
  simp only [functionHeads, List.mem_cons, List.not_mem_nil, or_false] at h
  obtain rfl | rfl := h
  · have tokens : codeTokens "() => " = [.mark '(', .mark ')', .mark '=', .mark '>'] := by decide
    rw [tokens]
    exact ⟨List.cons_ne_nil _ _, fun awaited => rfl, by decide⟩
  · have tokens : codeTokens "(input) => !" =
        [.mark '(', .word "input", .mark ')', .mark '=', .mark '>', .mark '!'] := by decide
    rw [tokens]
    exact ⟨List.cons_ne_nil _ _, fun awaited => rfl, by decide⟩

theorem tokens_distinct :
    let ts := codeTokens "(input) => new Set(input).size === input.length"
    ts ≠ [] ∧ Balanced ts ∧ ∀ t ∈ ts, t.WellFormed := by
  have tokens : codeTokens "(input) => new Set(input).size === input.length" =
      [.mark '(', .word "input", .mark ')', .mark '=', .mark '>', .word "new", .word "Set",
        .mark '(', .word "input", .mark ')', .word ".size", .mark '=', .mark '=', .mark '=',
        .word "input.length"] := by decide +kernel
  rw [tokens]
  exact ⟨List.cons_ne_nil _ _, fun awaited => rfl, by decide⟩

/-- An expression has tokens, its brackets match, and nothing that separates expressions stands
outside of them. -/
theorem balanced (names : ∀ s, IsName s → isIdentifier s) (h : Expression IsName IsPattern code) :
    codeTokens code ≠ [] ∧ Balanced (codeTokens code) := by
  have spelled : ∀ s, IsName s → Spelled s := fun s hs => spelled_of_isIdentifier (names s hs)
  induction h with
  | name h =>
    obtain ⟨neutral, some⟩ := (bare_of_spelled (spelled _ h)).codeTokens
    refine ⟨some ?_, .neutral neutral⟩
    rintro rfl
    cases names _ h
  | bare h nonempty => exact ⟨h.codeTokens.2 nonempty, .neutral h.codeTokens.1⟩
  | string s =>
    rw [codeTokens, tokens_quote]
    exact ⟨List.cons_ne_nil _ _, .literal _ _⟩
  | pattern =>
    rw [codeTokens, tokens_regexLiteral]
    exact ⟨List.cons_ne_nil _ _, .literal _ _⟩
  | @call symbol arguments name h ih =>
    have closed : ∀ code ∈ arguments, Closed isCodeWord code.toList :=
      fun code hc => (h code hc).closed spelled
    have inside : Enclosed (codeTokens (", ".intercalate arguments)) :=
      enclosed_intercalate fun code hc => ⟨closed code hc, (ih code hc).2⟩
    have function : Balanced (codeTokens ("v." ++ symbol)) :=
      .neutral (bare_function name).codeTokens.1
    rw [codeTokens_call name (codeTokens_intercalate closed).1]
    exact ⟨by simp, function.append (inside.brackets .round)⟩
  | @list elements h ih =>
    have closed : ∀ code ∈ elements, Closed isCodeWord code.toList :=
      fun code hc => (h code hc).closed spelled
    have inside : Enclosed (codeTokens (", ".intercalate elements)) :=
      enclosed_intercalate fun code hc => ⟨closed code hc, (ih code hc).2⟩
    rw [codeTokens_list (codeTokens_intercalate closed).1]
    exact ⟨List.cons_ne_nil _ _, inside.brackets .square⟩
  | @object entries h ih =>
    have orderly : ∀ e ∈ entries, Orderly e.2.toList :=
      fun e he => ((h e he).laidOut spelled).orderly
    rw [(orderly_objectLiteral orderly).2]
    refine ⟨List.cons_ne_nil _ _, Enclosed.brackets (.intercalate fun ts ht => ?_) .curly⟩
    obtain ⟨e, he, rfl⟩ := List.mem_map.1 ht
    have key : Enclosed (codeTokens (quote e.1)) := by
      rw [codeTokens, tokens_quote]
      exact (Balanced.literal _ _).enclosed
    have colon : Enclosed [.mark ':'] := .separator (by decide)
    exact key.append (colon.append (ih e he).2.enclosed)
  | @function head body mem _ ih =>
    obtain ⟨some, head, -⟩ := tokens_functionHead mem
    rw [codeTokens_function mem]
    exact ⟨by simp [some], head.append ih.2⟩
  | distinct => exact ⟨tokens_distinct.1, tokens_distinct.2.1⟩

theorem wellFormed_neutral {t : TextToken} (h : IsNeutral t) : t.WellFormed := by
  cases t with
  | word | mark => trivial
  | literal => cases h

theorem wellFormed_commas {tss : List (List TextToken)}
    (h : ∀ ts ∈ tss, ∀ t ∈ ts, t.WellFormed) :
    ∀ t ∈ [TextToken.mark ','].intercalate tss, t.WellFormed := by
  induction tss with
  | nil => exact nofun
  | cons ts tss ih =>
    obtain ⟨first, rest⟩ := List.forall_mem_cons.1 h
    cases tss with
    | nil => simpa using first
    | cons next tss =>
      rw [List.intercalate_cons_cons]
      simp only [List.forall_mem_append]
      exact ⟨⟨first, List.forall_mem_singleton.2 trivial⟩, ih rest⟩

theorem wellFormed_intercalate {codes : List String}
    (h : ∀ code ∈ codes, Closed isCodeWord code.toList ∧ ∀ t ∈ codeTokens code, t.WellFormed) :
    ∀ t ∈ codeTokens (", ".intercalate codes), t.WellFormed := by
  rw [(codeTokens_intercalate fun code hc => (h code hc).1).2]
  refine wellFormed_commas fun ts ht => ?_
  obtain ⟨code, hc, rfl⟩ := List.mem_map.1 ht
  exact (h code hc).2

theorem wellFormed_objectLiteral {entries : List (String × String)}
    (orderly : ∀ e ∈ entries, Orderly e.2.toList)
    (h : ∀ e ∈ entries, ∀ t ∈ codeTokens e.2, t.WellFormed) :
    ∀ t ∈ codeTokens (objectLiteral (entries.map fun e => (quote e.1, e.2))), t.WellFormed := by
  have mark : ∀ c, (TextToken.mark c).WellFormed := fun _ => trivial
  rw [(orderly_objectLiteral orderly).2]
  simp only [List.forall_mem_append, List.forall_mem_cons]
  refine ⟨mark _, wellFormed_commas fun ts ht => ?_, mark _, List.forall_mem_nil _⟩
  obtain ⟨e, he, rfl⟩ := List.mem_map.1 ht
  rw [codeTokens, tokens_quote]
  simp only [List.forall_mem_append, List.forall_mem_cons]
  exact ⟨⟨trivial, List.forall_mem_nil _⟩, mark _, h e he⟩

/-- The regular expressions in an expression are well-formed if its patterns make such ones. -/
theorem wellFormed (spelled : ∀ s, IsName s → Spelled s)
    (patterns : ∀ s, IsPattern s → IsPatternBody (patternBody s.toList))
    (h : Expression IsName IsPattern code) : ∀ t ∈ codeTokens code, t.WellFormed := by
  have mark : ∀ c, (TextToken.mark c).WellFormed := fun _ => trivial
  induction h with
  | name h =>
    exact fun t ht => wellFormed_neutral ((bare_of_spelled (spelled _ h)).codeTokens.1 t ht)
  | bare h => exact fun t ht => wellFormed_neutral (h.codeTokens.1 t ht)
  | string s =>
    rw [codeTokens, tokens_quote]
    exact List.forall_mem_singleton.2 trivial
  | pattern h =>
    rw [codeTokens, tokens_regexLiteral]
    refine List.forall_mem_singleton.2 ?_
    simpa [TextToken.WellFormed] using patterns _ h
  | @call symbol arguments name h ih =>
    have closed : ∀ code ∈ arguments, Closed isCodeWord code.toList :=
      fun code hc => (h code hc).closed spelled
    have function := (bare_function name).codeTokens.1
    rw [codeTokens_call name (codeTokens_intercalate closed).1]
    simp only [List.forall_mem_append, List.forall_mem_cons]
    refine ⟨fun t ht => wellFormed_neutral (function t ht), mark _, ?_, mark _, List.forall_mem_nil _⟩
    exact wellFormed_intercalate fun code hc => ⟨closed code hc, ih code hc⟩
  | @list elements h ih =>
    have closed : ∀ code ∈ elements, Closed isCodeWord code.toList :=
      fun code hc => (h code hc).closed spelled
    rw [codeTokens_list (codeTokens_intercalate closed).1]
    simp only [List.forall_mem_append, List.forall_mem_cons]
    refine ⟨mark _, ?_, mark _, List.forall_mem_nil _⟩
    exact wellFormed_intercalate fun code hc => ⟨closed code hc, ih code hc⟩
  | @object entries h ih =>
    have orderly : ∀ e ∈ entries, Orderly e.2.toList :=
      fun e he => ((h e he).laidOut spelled).orderly
    exact wellFormed_objectLiteral orderly ih
  | @function head body mem _ ih =>
    rw [codeTokens_function mem, List.forall_mem_append]
    exact ⟨(tokens_functionHead mem).2.2, ih⟩
  | distinct => exact tokens_distinct.2.2

end Expression

end SchemaCompiler
