import SchemaCompiler.Proofs.Compile.Layout
import SchemaCompiler.Proofs.Compile.Visits
import SchemaCompiler.Proofs.Generate.Operations
import SchemaCompiler.Proofs.Generate.Sustained

/-!
# Shifting lines only changes the layout

Whatever has been done to the table of definitions, schemas compile to laid out code: references
compile to bindings, which are made of identifier characters. So no literal has a line end in it,
the lines of nested code can be shifted and shifted back, and the tokens of an object literal are
those of its entries (`line_ends_are_layout`).
-/

namespace SchemaCompiler

variable {defs : List Definition} {maxDepth : Nat}

/-! ## References -/

theorem expression_lazyReferenceTo {IsName IsPattern : String → Prop} (t : Table defs)
    (i : Fin defs.length) (h : IsName (t.binding i)) :
    Expression IsName IsPattern (t.lazyReferenceTo i).code := by
  have reference : Expression IsName IsPattern (t.binding i) := .name h
  exact .unary (by decide : Spelled "lazy") (.function (by decide) reference)

/-- Compiled code is made of expressions and bindings. -/
theorem yields_expression {IsName : String → Prop} {I : Run defs → Prop}
    (sustains : Sustains I fun v => Expression IsName (fun _ => True) v.code) (schema : Schema)
    (site : Site) : Yields I (fun v => Expression IsName (fun _ => True) v.code)
      (compile maxDepth schema site) :=
  sustains.yields_compile Validator.preserved_expression
    (fun objectShaped _ _ h => Validator.expression_allOf objectShaped h) schema site

theorem yields_laidOut (names : ∀ d ∈ defs, Spelled d.name) (schema : Schema) (site : Site) :
    Yields (fun r : Run defs => r.table.OwnBindings) (fun v => LaidOut v.code)
      (compile maxDepth schema site) := by
  have sustains : Sustains (fun r : Run defs => r.table.OwnBindings)
      fun v => Expression Spelled (fun _ => True) v.code :=
    sustains_ownBindings names (fun _ _ h => .name h) expression_lazyReferenceTo
  have compiled : Yields _ _ (compile maxDepth schema site) :=
    yields_expression sustains schema site
  intro r own
  obtain ⟨kept, expression⟩ := compiled r own
  exact ⟨kept, expression.laidOut fun _ h => h⟩

/-! ## Embedded code -/

/-- Code holds the object literal of some entries: the tokens of the literal are those of the
entries, between those of the code around it, and each entry can be read back out of it, shifted
back. -/
structure Embeds (entries : List (String × String)) (code : String) : Prop where
  together : ∃ before after,
    code = before ++ objectLiteral (entries.map fun e => (quote e.1, e.2)) ++ after ∧
    codeTokens code = codeTokens before ++ (.mark '\x7b' :: ([TextToken.mark ','].intercalate
      (entries.map fun e => codeTokens (quote e.1) ++ .mark ':' :: codeTokens e.2) ++
        .mark '\x7d' :: codeTokens after))
  readBack : entriesOf (objectLiteral (entries.map fun e => (quote e.1, e.2))) =
    entries.map fun e => quote e.1 ++ ": " ++ e.2
  each : ∀ e ∈ entries, unshifted (shifted e.2) = e.2 ∧ codeTokens (shifted e.2) = codeTokens e.2

theorem toList_objectLiteral_eq (entries : List (String × String)) :
    ∃ rest, (objectLiteral entries).toList = '\x7b' :: rest := by
  cases entries with
  | nil => exact ⟨['\x7d'], rfl⟩
  | cons e es => exact ⟨_, Validator.toList_objectLiteral (List.cons_ne_nil e es)⟩

theorem embeds_of_laidOut {entries : List (String × String)} (h : ∀ e ∈ entries, LaidOut e.2)
    (before after : String) (closed : Closed isCodeWord before.toList)
    (next : ∃ c rest, after.toList = c :: rest ∧ isSeparator isCodeWord c) :
    Embeds entries (before ++ objectLiteral (entries.map fun e => (quote e.1, e.2)) ++ after) where
  together := by
    refine ⟨before, after, rfl, ?_⟩
    obtain ⟨c, rest, next, sep⟩ := next
    obtain ⟨orderly, literal⟩ := orderly_objectLiteral fun e he => (h e he).orderly
    obtain ⟨inside, first⟩ := toList_objectLiteral_eq (entries.map fun e => (quote e.1, e.2))
    have start : codeTokens (before ++ objectLiteral (entries.map fun e => (quote e.1, e.2))) =
        codeTokens before ++
          codeTokens (objectLiteral (entries.map fun e => (quote e.1, e.2))) := by
      unfold codeTokens
      rw [String.toList_append, first, tokens_append_cons closed (by decide)]
    have whole := closed.append orderly.closed
    rw [← String.toList_append] at whole
    rw [codeTokens, String.toList_append, next, tokens_append_cons whole sep, ← next]
    refine (congrArg (· ++ codeTokens after) start).trans ?_
    rw [literal, List.append_assoc, List.cons_append, List.append_assoc]
    rfl
  readBack := entriesOf_objectLiteral h
  each e he := ⟨unshifted_shifted e.2, ((h e he).codeTokens_shifted 1).2⟩

/-! ## Objects and given values -/

theorem embeds_object {properties : List Validator.Property} {rest : Validator.Rest}
    (h : ∀ p ∈ properties, LaidOut p.value.code) (nonempty : properties ≠ []) :
    Embeds (properties.map fun p => (p.name, p.code)) (Validator.object properties rest).code := by
  have codes : ∀ e ∈ properties.map fun p => (p.name, p.code), LaidOut e.2 := by
    intro e he
    obtain ⟨p, hp, rfl⟩ := List.mem_map.1 he
    exact Validator.laidOut_property (h p hp)
  have literal : (properties.map fun p => (p.name, p.code)).map (fun e => (quote e.1, e.2)) =
      properties.map fun p => (quote p.name, p.code) := List.map_map
  have embeds := embeds_of_laidOut codes
  rw [literal] at embeds
  unfold Validator.object
  cases rest with
  | free declared => exact embeds "v.object(" ")" (by decide) ⟨_, _, rfl, by decide⟩
  | closed => exact embeds "v.strictObject(" ")" (by decide) ⟨_, _, rfl, by decide⟩
  | constrained extra =>
    have some : properties.isEmpty = false := by simpa using nonempty
    simp only [some, Bool.false_eq_true, if_false]
    have code : ∀ literal : String, call "objectWithRest" (literal ++ ", " ++ extra.code) =
        "v.objectWithRest(" ++ literal ++ (", " ++ extra.code ++ ")") := by
      intro literal
      apply String.toList_inj.1
      simp [call]
    rw [code]
    refine embeds _ _ (by decide) ⟨',', ' ' :: (extra.code.toList ++ [')']), ?_, by decide⟩
    simp

theorem embeds_const (members : List (String × Json)) :
    Embeds (members.map fun m => (m.1, (Validator.const m.2).code))
      (Validator.const (.object members)).code := by
  have codes : ∀ e ∈ members.map fun m => (m.1, (Validator.const m.2).code), LaidOut e.2 := by
    intro e he
    obtain ⟨m, _, rfl⟩ := List.mem_map.1 he
    exact Validator.laidOut_const m.2
  have literal : (members.map fun m => (m.1, (Validator.const m.2).code)).map
      (fun e => (quote e.1, e.2)) =
        members.map fun m => (quote m.1, (Validator.const m.2).code) := List.map_map
  have embeds := embeds_of_laidOut codes "v.strictObject(" ")" (by decide) ⟨_, _, rfl, by decide⟩
  rw [literal] at embeds
  rw [Validator.code_const]
  exact embeds

/-! ## Compiled code -/

/-- Where there is room for a schema, it is compiled as a node of compiled schemas. -/
theorem run_compile_of_depth_le {schema : Schema} {site : Site} (depth : site.depth ≤ maxDepth)
    (r : Run defs) : (compile maxDepth schema site).run r =
      (compileNode (handlers (generate maxDepth)) (compile maxDepth) schema site).run r := by
  have room : roomAt maxDepth site.depth = roomAt maxDepth (site.depth + 1) + 1 := by
    unfold roomAt
    omega
  rw [compile, room, compileWithin]
  refine compileNode_congr (P := fun _ => True) (fun v _ s _ => ?_) (fun _ _ _ _ => trivial) trivial
  cases v with
  | schema x path => rfl
  | reference | unknownType => rfl

theorem compileProperties_ne_nil {compile : Schema → Site → StateM (Run defs) Validator}
    {k : Keywords Schema} {site : Site} {fields : List (String × Schema)} (h : fields ≠ [])
    (r : Run defs) : ((compileProperties compile k site fields).run r).1 ≠ [] := by
  cases fields with
  | nil => exact absurd rfl h
  | cons p ps => exact List.cons_ne_nil _ _

/-- Whatever the site and the state of the table of definitions, no literal of the code that a
schema compiles to has a line end in it; the lines of the code are those of object literals, and
shifting them by any number of levels moves no token and can be undone. In particular the code of
the type `object` embeds that of the properties, and the code of a given object that of its members,
on whatever level either stands. -/
theorem line_ends_are_layout (root : Schema) (reserved : List String)
    (ops : List (Table.Operation (root.definitions reserved).1.length))
    (diagnostics : List Diagnostic) (maxDepth : Nat) (schema : Schema) (site : Site) :
    let defs := (root.definitions reserved).1
    let r : Run defs :=
      ⟨(Table.fresh defs (root.definitions reserved).2).applyAll ops, diagnostics⟩
    let code := ((compile maxDepth schema site).run r).1.code
    (LaidOut code ∧ ∀ t ∈ codeTokens code, t.Flat) ∧
    (∀ levels, codeTokens (shifted^[levels] code) = codeTokens code ∧
      unshifted^[levels] (shifted^[levels] code) = code) ∧
    (∀ k : Keywords Schema, k.fields ≠ [] →
      let properties := ((compileProperties (compile maxDepth) k site k.fields).run r).1
      let object := compileTag (handlers (generate maxDepth)) (compile maxDepth) k site .object
      Embeds (properties.map fun p => (p.name, p.code)) (object.run r).1.code ∧
      (schema.shape = .typed k → k.typeShape = .one .object → site.depth ≤ maxDepth →
        code = (object.run r).1.code)) ∧
    ∀ members, Embeds (members.map fun m => (m.1, (Validator.const m.2).code))
      (Validator.const (.object members)).code := by
  intro defs r code
  have own : r.table.OwnBindings := (Table.ownBindings_fresh _).applyAll ops
  have laidOut : LaidOut code := (yields_laidOut (fun _ => spelled_name) schema site r own).2
  refine ⟨⟨laidOut, laidOut.orderly.flat_of_mem_codeTokens⟩, fun levels => ?_, fun k some => ?_,
    embeds_const⟩
  · exact ⟨(laidOut.codeTokens_shifted levels).2,
      Function.LeftInverse.iterate unshifted_shifted levels code⟩
  · intro properties object
    have yields : Yields (fun r : Run defs => r.table.OwnBindings)
        (fun ps => ∀ p ∈ ps, LaidOut p.value.code)
        (compileProperties (compile maxDepth) k site k.fields) :=
      Validator.Preserved.yields_compileProperties fun p _ site =>
        yields_laidOut (fun _ => spelled_name) p.2 site
    refine ⟨embeds_object (yields r own).2 (compileProperties_ne_nil some r),
      fun shape type depth => ?_⟩
    show ((compile maxDepth schema site).run r).1.code = _
    rw [run_compile_of_depth_le depth, compileNode, shape]
    simp only [compileTyped, type]
    rfl

namespace nestedLines

/-- An object in an object, with line ends in keys, in a pattern and in a given value. -/
def keywords : Keywords Schema :=
  { type := some (.one .object)
    properties := some [
      ("a\nb", .object {
        type := some (.one .object)
        properties := some [("p", .object { type := some (.one .string), pattern := some "\n" })]
        required := some ["p"] }),
      ("c", .object { const := some (.object [("k", .string "\r\n")]) })] }

/-- Each property is embedded with its own lines, which are shifted by one level more. -/
theorem line_ends_are_layout_nestedLines :
    let schema := Schema.object keywords
    let r : Run (schema.definitions []).1 :=
      ⟨(Table.fresh (schema.definitions []).1 (schema.definitions []).2).applyAll [], []⟩
    let code := ((compile 10 schema .root).run r).1.code
    (keywords.fields ≠ [] ∧ schema.shape = .typed keywords ∧ keywords.typeShape = .one .object ∧
      Site.root.depth ≤ 10) ∧
    code = "v.object(\x7b\n  \"a\\nb\": v.optional(v.object(\x7b\n    \"p\": " ++
      "v.pipe(v.string(), v.regex(/\\n/))\n  \x7d)),\n  \"c\": " ++
      "v.optional(v.strictObject(\x7b\n    \"k\": v.literal(\"\\r\\n\")\n  \x7d))\n\x7d)" ∧
    Embeds [
      ("a\nb", "v.optional(v.object(\x7b\n  \"p\": v.pipe(v.string(), v.regex(/\\n/))\n\x7d))"),
      ("c", "v.optional(v.strictObject(\x7b\n  \"k\": v.literal(\"\\r\\n\")\n\x7d))")] code := by
  intro schema r code
  obtain ⟨some, shape, type, depth⟩ : keywords.fields ≠ [] ∧ schema.shape = .typed keywords ∧
      keywords.typeShape = .one .object ∧ Site.root.depth ≤ 10 :=
    ⟨List.cons_ne_nil _ _, rfl, rfl, Nat.zero_le _⟩
  obtain ⟨-, -, objects, -⟩ := line_ends_are_layout schema [] [] [] 10 schema .root
  obtain ⟨embeds, same⟩ := objects keywords some
  rw [← same shape type depth] at embeds
  refine ⟨⟨some, shape, type, depth⟩, by decide +kernel, ?_⟩
  have properties : ((compileProperties (compile 10) keywords .root keywords.fields).run
      r).1.map (fun p => (p.name, p.code)) = [
      ("a\nb", "v.optional(v.object(\x7b\n  \"p\": v.pipe(v.string(), v.regex(/\\n/))\n\x7d))"),
      ("c", "v.optional(v.strictObject(\x7b\n  \"k\": v.literal(\"\\r\\n\")\n\x7d))")] := by
    decide +kernel
  rw [← properties]
  exact embeds

end nestedLines

end SchemaCompiler
