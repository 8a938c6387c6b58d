import SchemaCompiler.Proofs.Generate.Layout
import SchemaCompiler.Proofs.Validator.ObjectLiteral

/-!
# Which declared keys survive

Compiled code is made of expressions whose names are identifiers, whatever has been done to the
table of definitions. So the object literals of objects and of given values are read as their
entries: each declared key but `__proto__` comes back unchanged and with its own code, as long as
the patterns in the code make regular expressions that end where they are closed
(`declared_keys_read`).
-/

namespace SchemaCompiler

/-! ## Names in code -/

theorem Table.binding_mem_identifiers {defs : List Definition} (t : Table defs)
    (i : Fin defs.length) : t.binding i ∈ t.identifiers := by
  refine mem_identifiers.2 ?_
  unfold binding
  cases own : (t.progress.get i).ownBinding with
  | none => exact .inl ⟨defs.get i, List.get_mem defs i, rfl⟩
  | some b => exact .inr ⟨i, own⟩

variable {root : Schema} {reserved : List String} {maxDepth : Nat}

/-- Compiled code is made of expressions in which references are identifiers. -/
theorem yields_identifiers (schema : Schema) (site : Site) :
    Yields (fun r : Run (root.definitions reserved).1 => r.table.OwnBindings)
      (fun v => Expression (fun s => isIdentifier s) (fun _ => True) v.code)
      (compile maxDepth schema site) := by
  have names : ∀ t : Table (root.definitions reserved).1, t.OwnBindings →
      ∀ i, isIdentifier (t.binding i) :=
    fun t own i => (own.declarable (t.binding_mem_identifiers i)).identifier
  have sustains : Sustains (fun r : Run (root.definitions reserved).1 => r.table.OwnBindings)
      fun v => Expression (fun s => isIdentifier s) (fun _ => True) v.code :=
    sustains_bindings names (fun _ _ h => .name h) expression_lazyReferenceTo
  exact yields_expression sustains schema site

/-! ## Objects -/

theorem names_compileProperties {σ : Type} (compile : Schema → Site → StateM σ Validator)
    (k : Keywords Schema) (site : Site) (fields : List (String × Schema)) (s : σ) :
    ((compileProperties compile k site fields).run s).1.map (·.name) = fields.map (·.1) := by
  induction fields generalizing s with
  | nil => rfl
  | cons p ps ih => exact congrArg (p.1 :: ·) (ih _)

/-- The code of an object with properties calls a function with their object literal, and maybe with
the code of what further keys are bound to. -/
theorem exists_code_object {properties : List Validator.Property} (nonempty : properties ≠ [])
    (rest : Validator.Rest) :
    let literal := quotedLiteral (properties.map fun p => (p.name, p.code))
    ∃ function, (Validator.object properties rest).code = call function literal ∨
      ∃ extra, (Validator.object properties rest).code =
        call function (literal ++ ", " ++ extra) := by
  intro literal
  have same : literal = objectLiteral (properties.map fun p => (quote p.name, p.code)) :=
    congrArg objectLiteral List.map_map
  rw [same]
  unfold Validator.object
  cases rest with
  | free declared => exact ⟨"object", .inl rfl⟩
  | closed => exact ⟨"strictObject", .inl rfl⟩
  | constrained extra =>
    have some : properties.isEmpty = false := by simpa using nonempty
    simp only [some, Bool.false_eq_true, if_false]
    exact ⟨"objectWithRest", .inr ⟨extra.code, rfl⟩⟩

/-- Whatever the site and the state of the table of definitions, the properties of an object are
the declared ones, its code holds the object literal of them, and a script reads that as `KeysRead`
says: all keys but `__proto__` survive if the regular expressions are well-formed. So do all keys of
a given object but `__proto__`, as there are no regular expressions in its code. -/
theorem declared_keys_read (root : Schema) (reserved : List String)
    (ops : List (Table.Operation (root.definitions reserved).1.length))
    (diagnostics : List Diagnostic) (maxDepth : Nat) (site : Site) (k : Keywords Schema)
    (members : List (String × Json)) :
    let defs := (root.definitions reserved).1
    let r : Run defs :=
      ⟨(Table.fresh defs (root.definitions reserved).2).applyAll ops, diagnostics⟩
    let properties := ((compileProperties (compile maxDepth) k site k.fields).run r).1
    let object := compileTag (handlers (generate maxDepth)) (compile maxDepth) k site .object
    let declared := properties.map fun p => (p.name, p.code)
    let given := members.map fun m => (m.1, (Validator.const m.2).code)
    (declared.map (·.1) = k.fields.map (·.1) ∧
      (k.fields ≠ [] → ∃ function,
        (object.run r).1.code = call function (quotedLiteral declared) ∨
        ∃ extra, (object.run r).1.code =
          call function (quotedLiteral declared ++ ", " ++ extra)) ∧
      KeysRead declared) ∧
    (Validator.const (.object members)).code = call "strictObject" (quotedLiteral given) ∧
    KeysRead given ∧ ∀ e ∈ given, ∀ t ∈ codeTokens e.2, t.WellFormed := by
  intro defs r properties object declared given
  have own : r.table.OwnBindings := (Table.ownBindings_fresh _).applyAll ops
  have values : ∀ e ∈ given, Expression (fun _ => False) (fun _ => False) e.2 := by
    intro e he
    obtain ⟨m, -, rfl⟩ := List.mem_map.1 he
    exact Validator.expression_const m.2
  have codes : ∀ e ∈ declared, Expression (fun s => isIdentifier s) (fun _ => True) e.2 := by
    have yields : Yields (fun r : Run defs => r.table.OwnBindings)
        (fun ps => ∀ p ∈ ps, Expression (fun s => isIdentifier s) (fun _ => True) p.value.code)
        (compileProperties (compile maxDepth) k site k.fields) :=
      Validator.Preserved.yields_compileProperties fun p _ site => yields_identifiers p.2 site
    intro e he
    obtain ⟨p, hp, rfl⟩ := List.mem_map.1 he
    exact Validator.expression_property ((yields r own).2 p hp)
  refine ⟨⟨?_, fun some => ?_, keysRead_of_expressions (fun _ h => h) codes⟩, ?_,
    keysRead_of_expressions nofun values, fun e he => (values e he).wellFormed nofun nofun⟩
  · rw [List.map_map]
    exact names_compileProperties (compile maxDepth) k site k.fields r
  · exact exists_code_object (compileProperties_ne_nil some r) _
  · have literal : quotedLiteral given =
        objectLiteral (members.map fun m => (quote m.1, (Validator.const m.2).code)) :=
      congrArg objectLiteral List.map_map
    rw [Validator.code_const, literal]
    rfl

namespace hardKeys

/-- Keys made of what divides code, one of them empty, with values that hold the like. -/
def keywords : Keywords Schema :=
  { properties := some [
      ("\": \x7b,\n\x7d", .object {
        type := some (.one .object)
        properties := some [("", .object { type := some (.one .string), pattern := some "[/]\x7d" })]
        required := some [""] }),
      ("constructor", .object { const := some (.object [("'\\", .string "\x7d,\n  \"x\": 1")]) })]
    required := some ["\": \x7b,\n\x7d", "constructor"] }

/-- All of these keys survive, on both levels. -/
theorem declared_keys_read_hardKeys :
    let schema := Schema.object keywords
    let r : Run (schema.definitions []).1 :=
      ⟨(Table.fresh (schema.definitions []).1 (schema.definitions []).2).applyAll [], []⟩
    let properties := ((compileProperties (compile 10) keywords .root keywords.fields).run r).1
    let declared := properties.map fun p => (p.name, p.code)
    let object := ((compileTag (handlers (generate 10)) (compile 10) keywords .root .object).run r).1
    keywords.fields ≠ [] ∧ declared = [
      ("\": \x7b,\n\x7d",
        "v.object(\x7b\n  \"\": v.pipe(v.string(), v.regex(/[\\/]\x7d/))\n\x7d)"),
      ("constructor",
        "v.strictObject(\x7b\n  \"'\\\\\": v.literal(\"\x7d,\\n  \\\"x\\\": 1\")\n\x7d)")] ∧
    (∃ function, object.code = call function (quotedLiteral declared) ∨
      ∃ extra, object.code = call function (quotedLiteral declared ++ ", " ++ extra)) ∧
    ownProperties? (quotedLiteral declared) =
      some (declared.map fun e => (e.1, codeTokens e.2)) := by
  intro schema r properties declared object
  have some : keywords.fields ≠ [] := List.cons_ne_nil _ _
  have codes : declared = [
      ("\": \x7b,\n\x7d",
        "v.object(\x7b\n  \"\": v.pipe(v.string(), v.regex(/[\\/]\x7d/))\n\x7d)"),
      ("constructor",
        "v.strictObject(\x7b\n  \"'\\\\\": v.literal(\"\x7d,\\n  \\\"x\\\": 1\")\n\x7d)")] := by
    decide +kernel
  obtain ⟨⟨-, code, read⟩, -⟩ := declared_keys_read schema [] [] [] 10 .root keywords []
  refine ⟨some, codes, code some, read.own_iff.2 ?_⟩
  show (declared.map (·.1)).Nodup ∧ "__proto__" ∉ declared.map (·.1) ∧
    ∀ e ∈ declared, ∀ t ∈ codeTokens e.2, t.WellFormed
  rw [codes]
  decide +kernel

end hardKeys

namespace lostKeys

/-- The key `__proto__` is read, but defines no property, neither in an object nor in a given one.
An open class in a pattern binds another key to other code than was written for it. -/
theorem keys_lost :
    let string : Keywords Schema := { type := some (.one .string) }
    let pattern := fun p => Schema.object { string with pattern := some p }
    let fields := [("__proto__", Schema.object string),
      ("a", .object { anyOf := some [pattern "[", pattern "]"] })]
    let schema : Schema := .object {
      type := some (.one .object), properties := some fields, required := some ["__proto__", "a"] }
    let r : Run (schema.definitions []).1 := ⟨Table.fresh _ (schema.definitions []).2, []⟩
    let literal := "\x7b\n  \"__proto__\": v.string(),\n" ++
      "  \"a\": v.union([v.pipe(v.string(), v.regex(/[/)), v.pipe(v.string(), v.regex(/]/))])\n\x7d"
    ((compile 10 schema .root).run r).1.code = call "object" literal ∧
    (ownProperties? literal).map (·.map (·.1)) = some ["a"] ∧
    (∃ value ∈ (ownProperties? literal).getD [],
      TextToken.literal .pattern "[/)), v.pipe(v.string(), v.regex(/]" ∈ value.2) ∧
    (Validator.const (.object [("__proto__", .number (.integer 1))])).code =
      call "strictObject" "\x7b\n  \"__proto__\": v.literal(1)\n\x7d" ∧
    ownProperties? "\x7b\n  \"__proto__\": v.literal(1)\n\x7d" = some [] := by
  decide +kernel

end lostKeys

end SchemaCompiler
