import SchemaCompiler.Proofs.Json.Places
import SchemaCompiler.Proofs.Validator.Expression

/-!
# Object literals as they are evaluated

`entries?` reads an object literal as a script does: quoted keys, each with a colon and the tokens
of an expression after it, and commas between them. `ownProperties?` is what the object made from it
has: the last of equal keys counts, and `__proto__` is no property but sets the prototype.

The literal that is written for some entries is read as just these if their regular expressions are
well-formed, and as something else or not at all if not (`KeysRead`).
-/

namespace SchemaCompiler

open TypeText

/-! ## Reading -/

/-- The tokens up to where an expression ends, and the others. -/
def splitExpression? : List Char → List TextToken → Option (List TextToken × List TextToken)
  | awaited, [] => if awaited = [] then some ([], []) else none
  | awaited, t :: ts =>
    match awaitedAfter awaited t with
    | some awaited => (splitExpression? awaited ts).map fun (first, rest) => (t :: first, rest)
    | none => if awaited = [] then some ([], t :: ts) else none

/-- The tokens of an expression, one at least. -/
def readExpression : TypeText.Reader (List TextToken) := fun ts => do
  let (first, rest) ← splitExpression? [] ts
  if first.isEmpty then none else some (first, rest)

/-- A quoted key and the tokens of the expression behind it. -/
def readProperty : TypeText.Reader (String × List TextToken)
  | .literal .string body :: ts => do
    let name ← unquoted? body.toList
    let (value, rest) ← readExpression (← expect ':' ts)
    return ((String.ofList name, value), rest)
  | _ => none

/-- What an object literal holds and nothing else. -/
def readObject? (ts : List TextToken) : Option (List (String × List TextToken)) := do
  let (entries, rest) ← readList readProperty ',' '\x7d' (← expect '\x7b' ts)
  if rest.isEmpty then some entries else none

/-- The keys of an object literal and the tokens bound to them. -/
def entries? (literal : String) : Option (List (String × List TextToken)) :=
  (scriptTokens? literal).bind readObject?

/-- The own properties of the object that an object literal makes. -/
def ownProperties? (literal : String) : Option (List (String × List TextToken)) :=
  (entries? literal).map fun entries =>
    distinctMembers (entries.filter fun e => e.1 ≠ "__proto__")

/-! ## Reading what is written -/

variable {α ι : Type} {c : Char} {ts first rest : List TextToken}

/-- The marks that end an entry of an object literal. -/
def entryEnds : List Char := [',', '\x7d']

theorem splitExpression?_append {awaited awaited' : List Char}
    (h : ts.foldlM awaitedAfter awaited = some awaited') :
    splitExpression? awaited (ts ++ rest) =
      (splitExpression? awaited' rest).map fun r => (ts ++ r.1, r.2) := by
  induction ts generalizing awaited with
  | nil =>
    rw [Option.some.inj h]
    simp
  | cons t ts ih =>
    obtain ⟨next, step, h⟩ := Option.bind_eq_some_iff.1 h
    rw [List.cons_append, splitExpression?, step]
    simp [ih h, Function.comp_def]

/-- An expression is read up to a mark that ends an entry. -/
theorem readExpression_append (nonempty : ts ≠ []) (balanced : Balanced ts) (ends : c ∈ entryEnds)
    (rest : List TextToken) :
    readExpression (ts ++ .mark c :: rest) = some (ts, .mark c :: rest) := by
  have stop : splitExpression? [] (.mark c :: rest) = some ([], .mark c :: rest) := by
    simp only [entryEnds, List.mem_cons, List.not_mem_nil, or_false] at ends
    obtain rfl | rfl := ends <;> rfl
  rw [readExpression, splitExpression?_append (balanced []), stop]
  simp [nonempty]

/-- The tokens of an entry. -/
def entryTokens (e : String × List TextToken) : List TextToken :=
  codeTokens (quote e.1) ++ .mark ':' :: e.2

theorem readProperty_append {e : String × List TextToken} (nonempty : e.2 ≠ [])
    (balanced : Balanced e.2) (ends : c ∈ entryEnds) (rest : List TextToken) :
    readProperty (entryTokens e ++ .mark c :: rest) = some (e, .mark c :: rest) := by
  have value : readExpression (e.2 ++ .mark c :: rest) = some (e.2, .mark c :: rest) :=
    readExpression_append nonempty balanced ends rest
  rw [entryTokens, codeTokens, tokens_quote]
  simp [readProperty, unquoted?_quoted, value]

theorem readSeparated_intercalate {item : TypeText.Reader α} {tokensOf : α → List TextToken}
    {xs : List α} (read : ∀ x ∈ xs, ∀ c ∈ entryEnds, ∀ rest,
      item (tokensOf x ++ .mark c :: rest) = some (x, .mark c :: rest))
    (nonempty : xs ≠ []) {bound : Nat} (long : xs.length ≤ bound) (rest : List TextToken) :
    readSeparated item ',' bound
        ([TextToken.mark ','].intercalate (xs.map tokensOf) ++ .mark '\x7d' :: rest) =
      some (xs, .mark '\x7d' :: rest) := by
  induction xs generalizing bound with
  | nil => exact absurd rfl nonempty
  | cons x xs ih =>
    obtain ⟨first, others⟩ := List.forall_mem_cons.1 read
    obtain ⟨bound, rfl⟩ : ∃ n, bound = n + 1 := Nat.exists_eq_add_one.2 (Nat.zero_lt_of_lt long)
    have more : xs.length ≤ bound := Nat.le_of_succ_le_succ long
    cases xs with
    | nil => simp [readSeparated, first '\x7d' (by decide), expect]
    | cons y xs =>
      have rest := ih others (List.cons_ne_nil _ _) more
      simp only [List.map_cons, List.intercalate_cons_cons] at rest ⊢
      simp [readSeparated, first ',' (by decide), rest]

theorem length_le_commas (tss : List (List TextToken)) :
    tss.length ≤ ([TextToken.mark ','].intercalate tss).length + 1 := by
  induction tss with
  | nil => simp
  | cons ts tss ih =>
    cases tss with
    | nil => simp
    | cons next tss =>
      rw [List.intercalate_cons_cons]
      simp only [List.length_append, List.length_cons] at ih ⊢
      omega

theorem readObject?_written {entries : List (String × List TextToken)}
    (h : ∀ e ∈ entries, e.2 ≠ [] ∧ Balanced e.2) :
    readObject? (.mark '\x7b' ::
      ([TextToken.mark ','].intercalate (entries.map entryTokens) ++ [.mark '\x7d'])) =
        some entries := by
  have item : ∀ e ∈ entries, ∀ c ∈ entryEnds, ∀ rest,
      readProperty (entryTokens e ++ .mark c :: rest) = some (e, .mark c :: rest) :=
    fun e he c hc rest => readProperty_append (h e he).1 (h e he).2 hc rest
  by_cases empty : entries = []
  · subst empty
    rfl
  have long := length_le_commas (entries.map entryTokens)
  rw [List.length_map] at long
  have all := readSeparated_intercalate item empty (Nat.le_succ_of_le long) []
  rw [readObject?, expect_mark]
  simp [readList, all]

/-- The object literal of some entries, with the keys quoted. -/
def quotedLiteral (entries : List (String × String)) : String :=
  objectLiteral (entries.map fun e => (quote e.1, e.2))

/-- An object literal of expressions with well-formed regular expressions is read as its entries. -/
theorem entries?_objectLiteral {IsName IsPattern : String → Prop}
    (names : ∀ s, IsName s → isIdentifier s) {entries : List (String × String)}
    (h : ∀ e ∈ entries, Expression IsName IsPattern e.2)
    (wellFormed : ∀ e ∈ entries, ∀ t ∈ codeTokens e.2, t.WellFormed) :
    entries? (quotedLiteral entries) = some (entries.map fun e => (e.1, codeTokens e.2)) := by
  have spelled : ∀ s, IsName s → Spelled s := fun s hs => spelled_of_isIdentifier (names s hs)
  have codes : ∀ e ∈ entries, Orderly e.2.toList :=
    fun e he => ((h e he).laidOut spelled).orderly
  obtain ⟨orderly, tokens⟩ := orderly_objectLiteral codes
  have values : ∀ e ∈ entries.map fun e => (e.1, codeTokens e.2), e.2 ≠ [] ∧ Balanced e.2 := by
    intro e he
    obtain ⟨source, mem, rfl⟩ := List.mem_map.1 he
    exact (h source mem).balanced names
  have read := readObject?_written values
  rw [List.map_map] at read
  rw [entries?, quotedLiteral, scriptTokens?_of_orderly orderly
    (Expression.wellFormed_objectLiteral codes wellFormed), tokens]
  exact read

/-! ## What is read is well-formed -/

theorem splitExpression?_eq {awaited : List Char}
    (h : splitExpression? awaited ts = some (first, rest)) : ts = first ++ rest := by
  induction ts generalizing awaited first with
  | nil =>
    rw [splitExpression?] at h
    split at h <;> cases h
    rfl
  | cons t ts ih =>
    rw [splitExpression?] at h
    split at h
    · obtain ⟨⟨inner, others⟩, split, eq⟩ := Option.map_eq_some_iff.1 h
      cases eq
      rw [ih split, List.cons_append]
    · split at h <;> cases h
      rfl

theorem expect_eq_some (h : expect c ts = some rest) : ts = .mark c :: rest := by
  unfold expect at h
  split at h
  · split at h
    next same =>
      cases h
      rw [same]
    next => cases h
  · cases h

theorem readExpression_eq (h : readExpression ts = some (first, rest)) : ts = first ++ rest := by
  obtain ⟨⟨inner, others⟩, split, h⟩ := Option.bind_eq_some_iff.1 h
  obtain ⟨-, same⟩ := Option.ite_none_left_eq_some.1 h
  cases same
  exact splitExpression?_eq split

variable {e : String × List TextToken} {es : List (String × List TextToken)}

theorem readProperty_subset (h : readProperty ts = some (e, rest)) : e.2 ⊆ ts ∧ rest ⊆ ts := by
  unfold readProperty at h
  split at h
  · obtain ⟨name, -, h⟩ := Option.bind_eq_some_iff.1 h
    obtain ⟨afterColon, colon, h⟩ := Option.bind_eq_some_iff.1 h
    obtain ⟨⟨value, others⟩, read, h⟩ := Option.bind_eq_some_iff.1 h
    cases h
    rw [expect_eq_some colon, readExpression_eq read]
    exact ⟨fun t ht => by simp [ht], fun t ht => by simp [ht]⟩
  · cases h

theorem readSeparated_subset {bound : Nat}
    (h : readSeparated readProperty c bound ts = some (es, rest)) : ∀ e ∈ es, e.2 ⊆ ts := by
  induction bound generalizing ts es rest with
  | zero => cases h
  | succ bound ih =>
    obtain ⟨⟨e, others⟩, read, h⟩ := Option.bind_eq_some_iff.1 h
    obtain ⟨value, later⟩ := readProperty_subset read
    cases separator : expect c others with
    | none =>
      simp only [separator] at h
      cases h
      exact List.forall_mem_singleton.2 value
    | some more =>
      simp only [separator] at h
      obtain ⟨⟨es, left⟩, items, h⟩ := Option.bind_eq_some_iff.1 h
      cases h
      have tail : more ⊆ ts := by
        rw [expect_eq_some separator] at later
        exact fun t ht => later (List.mem_cons_of_mem _ ht)
      exact List.forall_mem_cons.2 ⟨value, fun e he => List.Subset.trans (ih items e he) tail⟩

/-- All tokens that are bound to keys are tokens of the literal. -/
theorem readObject?_subset (h : readObject? ts = some es) : ∀ e ∈ es, e.2 ⊆ ts := by
  obtain ⟨inside, opened, h⟩ := Option.bind_eq_some_iff.1 h
  obtain ⟨⟨entries, left⟩, list, h⟩ := Option.bind_eq_some_iff.1 h
  obtain ⟨-, same⟩ := Option.ite_none_right_eq_some.1 h
  cases same
  rw [expect_eq_some opened]
  unfold readList at list
  split at list
  next items =>
    obtain ⟨closed, -, list⟩ := Option.bind_eq_some_iff.1 list
    cases list
    exact fun e he =>
      List.Subset.trans (readSeparated_subset items e he) (List.subset_cons_self _ _)
  next =>
    obtain ⟨closed, -, list⟩ := Option.bind_eq_some_iff.1 list
    cases list
    exact nofun

theorem wellFormed_of_entries? {literal : String} (h : entries? literal = some es) :
    ∀ e ∈ es, ∀ t ∈ e.2, t.WellFormed := by
  obtain ⟨ts, scanned, read⟩ := Option.bind_eq_some_iff.1 h
  intro e he t ht
  exact wellFormed_of_mem_scriptTokens? scanned t (readObject?_subset read e he ht)

/-! ## Which keys survive -/

/-- The object literal of some entries. If their regular expressions are well-formed, a script reads
just these entries; then the object has all keys but `__proto__` as its own, each bound to the code
that is written for it. It has all of them if and only if `__proto__` is none, too. -/
structure KeysRead (entries : List (String × String)) : Prop where
  entries_iff :
    entries? (quotedLiteral entries) = some (entries.map fun e => (e.1, codeTokens e.2)) ↔
      ∀ e ∈ entries, ∀ t ∈ codeTokens e.2, t.WellFormed
  own (distinct : (entries.map (·.1)).Nodup)
      (wellFormed : ∀ e ∈ entries, ∀ t ∈ codeTokens e.2, t.WellFormed) :
    ownProperties? (quotedLiteral entries) =
      some ((entries.filter fun e => e.1 ≠ "__proto__").map fun e => (e.1, codeTokens e.2))
  own_iff :
    ownProperties? (quotedLiteral entries) = some (entries.map fun e => (e.1, codeTokens e.2)) ↔
      (entries.map (·.1)).Nodup ∧ "__proto__" ∉ entries.map (·.1) ∧
        ∀ e ∈ entries, ∀ t ∈ codeTokens e.2, t.WellFormed

theorem keysRead_of_expressions {IsName IsPattern : String → Prop}
    (names : ∀ s, IsName s → isIdentifier s) {entries : List (String × String)}
    (h : ∀ e ∈ entries, Expression IsName IsPattern e.2) : KeysRead entries := by
  have read := entries?_objectLiteral names h
  have keys : (entries.map fun e => (e.1, codeTokens e.2)).map (·.1) = entries.map (·.1) := by
    rw [List.map_map]
    rfl
  have own : (entries.map (·.1)).Nodup → (∀ e ∈ entries, ∀ t ∈ codeTokens e.2, t.WellFormed) →
      ownProperties? (quotedLiteral entries) =
        some ((entries.filter fun e => e.1 ≠ "__proto__").map fun e => (e.1, codeTokens e.2)) := by
    intro distinct wellFormed
    have nodup : (((entries.filter fun e => e.1 ≠ "__proto__").map
        fun e => (e.1, codeTokens e.2)).map (·.1)).Nodup := by
      rw [List.map_map]
      exact distinct.sublist (List.filter_sublist.map _)
    rw [ownProperties?, read wellFormed, Option.map_some, List.filter_map]
    exact congrArg some (distinctMembers_eq_self nodup)
  refine ⟨⟨fun same e he => ?_, read⟩, own, fun same => ?_, fun ⟨distinct, proto, wellFormed⟩ => ?_⟩
  · exact wellFormed_of_entries? same _ (List.mem_map_of_mem he)
  · obtain ⟨es, found, same⟩ := Option.map_eq_some_iff.1 same
    obtain ⟨nodup, sub⟩ := distinctMembers_spec (es.filter fun e => e.1 ≠ "__proto__")
    rw [same] at nodup sub
    rw [keys] at nodup
    refine ⟨nodup, fun mem => ?_, fun e he => ?_⟩
    · obtain ⟨e, he, name⟩ := List.mem_map.1 mem
      have kept := (List.mem_filter.1 (sub (List.mem_map_of_mem he))).2
      simp [name] at kept
    · have kept := (List.mem_filter.1 (sub (List.mem_map_of_mem he))).1
      exact wellFormed_of_entries? found _ kept
  · have all : (entries.filter fun e => e.1 ≠ "__proto__") = entries := by
      refine List.filter_eq_self.2 fun e he => ?_
      have other : e.1 ≠ "__proto__" := fun name => proto (name ▸ List.mem_map_of_mem he)
      simpa using other
    rw [own distinct wellFormed, all]

end SchemaCompiler
