import SchemaCompiler.Proofs.Validator.Layout

/-!
# Code as a script is scanned

`scriptTokens?` reads code by the lexical grammar of scripts: a string literal ends at the next
quotation mark and not in another line, and a regular expression literal where `PatternScan` has it
end. No comments are read, and every slash outside of literals begins a regular expression, as code
does not divide.

`codeTokens` takes any slash after no backslash for the end of a regular expression. Both read
orderly code alike if the regular expressions in it are well-formed (`scriptTokens?_of_orderly`),
and a script never has others (`wellFormed_of_mem_scriptTokens?`).
-/

namespace SchemaCompiler

/-! ## Scanning -/

/-- Where a reader of a script stands. -/
inductive ScriptScan where
  /-- Outside of literals, after the characters of a word. -/
  | outside (word : List Char)
  | string (escaped : Bool) (body : List Char)
  | pattern (spot : PatternScan) (body : List Char)
  deriving DecidableEq, Repr

namespace ScriptScan

/-- Read a character. -/
def next? : ScriptScan → Char → Option ScriptScan
  | .outside word, c =>
    if c.isWhitespace then some (.outside [])
    else if c = '"' then some (.string false [])
    else if c = '/' then some (.pattern .start [])
    else if isCodeWord c then some (.outside (word ++ [c]))
    else some (.outside [])
  | .string true body, c => some (.string false (body ++ [c]))
  | .string false body, c =>
    if c = '\n' ∨ c = '\r' then none
    else if c = '"' then some (.outside [])
    else some (.string (c = '\\') (body ++ [c]))
  | .pattern spot body, c =>
    if spot = .body false ∧ c = '/' then some (.outside [])
    else (spot.next? c).map fun spot => .pattern spot (body ++ [c])

/-- The tokens that end with a character. -/
def emits : ScriptScan → Char → List TextToken
  | .outside word, c => (Scan.outside word).emits isCodeWord c
  | .string true _, _ => []
  | .string false body, c => if c = '"' then [.literal .string (String.ofList body)] else []
  | .pattern spot body, c =>
    if spot = .body false ∧ c = '/' then [.literal .pattern (String.ofList body)] else []

/-- The tokens of a text that ends outside of literals. -/
def tokens? : ScriptScan → List Char → Option (List TextToken)
  | .outside word, [] => some (wordTokens word)
  | _, [] => none
  | s, c :: cs => (s.next? c).bind fun t => (t.tokens? cs).map (s.emits c ++ ·)

end ScriptScan

/-- The tokens of a script. -/
def scriptTokens? (code : String) : Option (List TextToken) :=
  (ScriptScan.outside []).tokens? code.toList

/-- A regular expression literal is one by the grammar. -/
def TextToken.WellFormed : TextToken → Prop
  | .literal .pattern body => IsPatternBody body.toList
  | _ => True

instance (t : TextToken) : Decidable t.WellFormed :=
  match t with
  | .literal .pattern body => inferInstanceAs (Decidable (IsPatternBody body.toList))
  | .literal .string _ | .word _ | .mark _ => inferInstanceAs (Decidable True)

/-! ## Well-formed literals -/

namespace Scan

variable {isWord : Char → Bool} {s : Scan} {text body : List Char} {c : Char} {kind : LiteralKind}

theorem next_inside (other : c ≠ kind.mark) (isWord : Char → Bool) (body : List Char) :
    (inside kind body).next isWord c = .inside kind (body ++ [c]) ∨
      (inside kind body).next isWord c = .escaped kind (body ++ [c]) := by
  rw [next, if_neg other]
  by_cases backslash : c = '\\'
  · exact .inr (if_pos backslash)
  · exact .inl (if_neg backslash)

/-- A literal in which a reader stands is one of the tokens of the text. -/
theorem exists_literal (closed : (s.after isWord text).isOutside)
    (inside : s = .inside kind body ∨ s = .escaped kind body) :
    ∃ more, .literal kind (String.ofList (body ++ more)) ∈ s.emitted isWord text := by
  induction text generalizing s body with
  | nil => rcases inside with rfl | rfl <;> cases closed
  | cons c text ih =>
    have later : s.next isWord c = .inside kind (body ++ [c]) ∨
        s.next isWord c = .escaped kind (body ++ [c]) →
        ∃ more, .literal kind (String.ofList (body ++ more)) ∈ s.emitted isWord (c :: text) := by
      intro next
      obtain ⟨more, mem⟩ := ih closed next
      refine ⟨c :: more, List.mem_append_right _ ?_⟩
      rwa [← List.singleton_append, ← List.append_assoc]
    rcases inside with rfl | rfl
    · by_cases mark : c = kind.mark
      · refine ⟨[], List.mem_append_left _ ?_⟩
        simp [emits, mark]
      · exact later (next_inside mark isWord body)
    · exact later (.inl rfl)

/-- What has been read of a regular expression can begin one by the grammar. -/
def Readable (s : Scan) : Prop :=
  ∀ body, s = .inside .pattern body ∨ s = .escaped .pattern body →
    ∃ spot, PatternScan.start.reads? body = some spot

theorem readable_of_wellFormed (closed : (s.after isWord text).isOutside)
    (wellFormed : ∀ t ∈ s.emitted isWord text, t.WellFormed) : s.Readable := by
  intro body inside
  obtain ⟨more, mem⟩ := exists_literal closed inside
  have whole : PatternScan.start.reads? (body ++ more) = some (.body false) := by
    simpa [TextToken.WellFormed, IsPatternBody] using wellFormed _ mem
  rw [PatternScan.reads?_append] at whole
  obtain ⟨spot, first, -⟩ := Option.bind_eq_some_iff.1 whole
  exact ⟨spot, first⟩

end Scan

/-! ## Reading alike -/

namespace ScriptScan

variable {s : Scan} {t : ScriptScan} {text : List Char} {c : Char}

/-- A reader of a script stands where a reader of tokens does. -/
inductive Matches : Scan → ScriptScan → Prop where
  | outside (word : List Char) : Matches (.outside word) (.outside word)
  | string (body : List Char) : Matches (.inside .string body) (.string false body)
  | escaped (body : List Char) : Matches (.escaped .string body) (.string true body)
  | pattern {s : Scan} {spot : PatternScan} {body : List Char}
      (inside : s = .inside .pattern body ∨ s = .escaped .pattern body)
      (reads : PatternScan.start.reads? body = some spot) : Matches s (.pattern spot body)

/-- A regular expression goes on with a character that it can go on with. -/
theorem Matches.next_pattern {spot : PatternScan} {body : List Char} {s' : Scan}
    (next : s' = .inside .pattern (body ++ [c]) ∨ s' = .escaped .pattern (body ++ [c]))
    (reads : PatternScan.start.reads? body = some spot) (readable : s'.Readable) :
    ∃ u, (ScriptScan.pattern spot body).next? c = some u ∧ Matches s' u ∧
      (ScriptScan.pattern spot body).emits c = [] := by
  obtain ⟨spot', more⟩ := readable _ next
  have goesOn : spot.next? c = some spot' := by
    rw [PatternScan.reads?_append, reads] at more
    simpa using more
  have noEnd := PatternScan.goesOn goesOn
  refine ⟨.pattern spot' (body ++ [c]), ?_, .pattern next more, if_neg noEnd⟩
  rw [next?, if_neg noEnd, goesOn]
  rfl

/-- Both readers take a character alike where it is no line end in a literal, what they have read of
a regular expression can begin one, and no other ends. -/
theorem Matches.next (h : Matches s t) (line : c = '\n' ∨ c = '\r' → s.isOutside)
    (readable : (s.next isCodeWord c).Readable)
    (wellFormed : ∀ token ∈ s.emits isCodeWord c, token.WellFormed) :
    ∃ u, t.next? c = some u ∧ Matches (s.next isCodeWord c) u ∧
      t.emits c = s.emits isCodeWord c := by
  cases h with
  | outside word =>
    simp only [next?, Scan.next]
    split_ifs
    · exact ⟨_, rfl, .outside [], rfl⟩
    · exact ⟨_, rfl, .string [], rfl⟩
    · exact ⟨_, rfl, .pattern (.inl rfl) rfl, rfl⟩
    · exact ⟨_, rfl, .outside _, rfl⟩
    · exact ⟨_, rfl, .outside [], rfl⟩
  | string body =>
    have inside : ¬ (c = '\n' ∨ c = '\r') := fun ends => by cases line ends
    by_cases quote : c = LiteralKind.string.mark
    · subst quote
      exact ⟨.outside [], rfl, .outside [], rfl⟩
    have read : (ScriptScan.string false body).next? c =
        some (.string (c = '\\') (body ++ [c])) := (if_neg inside).trans (if_neg quote)
    refine ⟨_, read, ?_, (if_neg quote).trans (if_neg quote).symm⟩
    rw [Scan.next, if_neg quote]
    by_cases backslash : c = '\\'
    · subst backslash
      exact .escaped _
    · rw [if_neg backslash, decide_eq_false backslash]
      exact .string _
  | escaped body => exact ⟨_, rfl, .string _, rfl⟩
  | @pattern s spot body inside reads =>
    rcases inside with rfl | rfl
    · by_cases slash : c = '/'
      · subst slash
        have whole : PatternScan.start.reads? body = some (.body false) := by
          simpa [Scan.emits, LiteralKind.mark, TextToken.WellFormed, IsPatternBody]
            using wellFormed
        obtain rfl := Option.some.inj (reads.symm.trans whole)
        exact ⟨.outside [], rfl, .outside [], rfl⟩
      · have none : (Scan.inside .pattern body).emits isCodeWord c = [] := if_neg slash
        rw [none]
        exact next_pattern (Scan.next_inside slash isCodeWord body) reads readable
    · exact next_pattern (.inl rfl) reads readable

/-- From places that match, both readers read a text alike if its line ends are outside of literals
and the regular expressions in it are well-formed. -/
theorem Matches.tokens? (h : Matches s t) (closed : (s.after isCodeWord text).isOutside)
    (lines : s.LinesOutside isCodeWord text)
    (wellFormed : ∀ token ∈ s.emitted isCodeWord text, token.WellFormed) :
    t.tokens? text = some (s.emitted isCodeWord text ++ (s.after isCodeWord text).rest) := by
  induction text generalizing s t with
  | nil =>
    cases h with
    | outside word => rfl
    | string | escaped => cases closed
    | pattern inside => rcases inside with rfl | rfl <;> cases closed
  | cons c text ih =>
    have first : ∀ token ∈ s.emits isCodeWord c, token.WellFormed :=
      fun token mem => wellFormed token (List.mem_append_left _ mem)
    have rest : ∀ token ∈ (s.next isCodeWord c).emitted isCodeWord text, token.WellFormed :=
      fun token mem => wellFormed token (List.mem_append_right _ mem)
    obtain ⟨u, next, place, emits⟩ := h.next lines.1 (Scan.readable_of_wellFormed closed rest) first
    rw [ScriptScan.tokens?, next, Option.bind_some, ih place closed lines.2 rest, emits,
      Scan.emitted, List.append_assoc]
    rfl

end ScriptScan

/-- A script reads orderly code as it is, if the regular expressions in it are well-formed. -/
theorem scriptTokens?_of_orderly {code : String} (h : Orderly code.toList)
    (wellFormed : ∀ t ∈ codeTokens code, t.WellFormed) :
    scriptTokens? code = some (codeTokens code) :=
  (ScriptScan.Matches.outside []).tokens? h.closed h.lines
    fun t mem => wellFormed t (List.mem_append_left _ mem)

/-! ## Scripts have well-formed literals only -/

theorem wellFormed_of_mem_wordTokens {word : List Char} {token : TextToken}
    (mem : token ∈ wordTokens word) : token.WellFormed := by
  unfold wordTokens at mem
  split at mem
  · cases mem
  · rw [List.mem_singleton.1 mem]
    trivial

/-- Outside of literals words and marks end. -/
theorem Scan.wellFormed_of_mem_emits {word : List Char} {c : Char} {token : TextToken}
    (mem : token ∈ (outside word).emits isCodeWord c) : token.WellFormed := by
  simp only [emits] at mem
  split_ifs at mem
  · exact wellFormed_of_mem_wordTokens mem
  · exact wellFormed_of_mem_wordTokens mem
  · exact wellFormed_of_mem_wordTokens mem
  · cases mem
  · rcases List.mem_append.1 mem with mem | mem
    · exact wellFormed_of_mem_wordTokens mem
    · rw [List.mem_singleton.1 mem]
      trivial

namespace ScriptScan

variable {t u : ScriptScan} {text : List Char} {c : Char} {ts : List TextToken}

/-- What has been read of a regular expression has led to where the reader is. -/
def Proper : ScriptScan → Prop
  | .pattern spot body => PatternScan.start.reads? body = some spot
  | _ => True

theorem Proper.next (h : t.Proper) (next : t.next? c = some u) :
    u.Proper ∧ ∀ token ∈ t.emits c, token.WellFormed := by
  match t with
  | .outside word =>
    refine ⟨?_, fun token => Scan.wellFormed_of_mem_emits⟩
    simp only [next?] at next
    split_ifs at next
    all_goals
      obtain rfl := Option.some.inj next
      trivial
  | .string true body =>
    obtain rfl := Option.some.inj next
    exact ⟨trivial, nofun⟩
  | .string false body =>
    simp only [next?] at next
    simp only [emits]
    split_ifs at next ⊢
    all_goals
      obtain rfl := Option.some.inj next
      refine ⟨trivial, ?_⟩
    · exact List.forall_mem_singleton.2 trivial
    · exact nofun
  | .pattern spot body =>
    simp only [next?] at next
    simp only [emits]
    split_ifs at next ⊢ with ends
    · obtain rfl := Option.some.inj next
      refine ⟨trivial, List.forall_mem_singleton.2 ?_⟩
      have whole : PatternScan.start.reads? body = some spot := h
      simpa [TextToken.WellFormed, IsPatternBody, ends.1] using whole
    · obtain ⟨spot', goesOn, rfl⟩ := Option.map_eq_some_iff.1 next
      refine ⟨?_, nofun⟩
      have before : PatternScan.start.reads? body = some spot := h
      simp [Proper, PatternScan.reads?_append, before, goesOn]

theorem Proper.tokens? (h : t.Proper) (read : t.tokens? text = some ts) :
    ∀ token ∈ ts, token.WellFormed := by
  induction text generalizing t ts with
  | nil =>
    match t with
    | .outside word =>
      obtain rfl := Option.some.inj read
      exact fun token => wellFormed_of_mem_wordTokens
    | .string _ _ | .pattern _ _ => cases read
  | cons c text ih =>
    rw [ScriptScan.tokens?] at read
    obtain ⟨u, next, later⟩ := Option.bind_eq_some_iff.1 read
    obtain ⟨rest, others, rfl⟩ := Option.map_eq_some_iff.1 later
    obtain ⟨proper, emitted⟩ := h.next next
    intro token mem
    exact (List.mem_append.1 mem).elim (emitted token) (ih proper others token)

end ScriptScan

/-- All regular expressions in a script are well-formed. -/
theorem wellFormed_of_mem_scriptTokens? {code : String} {ts : List TextToken}
    (h : scriptTokens? code = some ts) : ∀ t ∈ ts, t.WellFormed := by
  have start : (ScriptScan.outside []).Proper := trivial
  exact start.tokens? h

end SchemaCompiler
