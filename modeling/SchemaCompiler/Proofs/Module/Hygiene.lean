import SchemaCompiler.Proofs.Definitions.Detected
import SchemaCompiler.Proofs.Definitions.Sanitized
import SchemaCompiler.Proofs.Module.Declared

/-!
# Identifiers with a fixed meaning

Emitted code uses some identifiers in a meaning of its own: the library is `v`, the checks of a
negation and of distinct elements bind `input`, the latter creates a `Set`, the type of further keys
is a `Record`, and modules of one style `require` the library and fill `module`. A name that a
module declares in the same spelling takes that meaning away.

Such an identifier is never made by sanitizing another text or by a suffix, since it is `Verbatim`:
it is declared only where the name of the root schema or the key of a definition is that very word.
But then it is declared, unless it is the key `v`, since only `v` is kept from definitions
(`declares_fixedName_iff`). A definition that is called `input` is captured by the check of a
negation around a reference to it (`negatedInput.input_captured`).
-/

namespace SchemaCompiler

variable {s w base : String} {n : Nat}

/-! ## Words that are declared only as they are given -/

/-- A name that can be declared and is not made from another text by replacing characters or by
adding a suffix. -/
structure Verbatim (w : String) : Prop where
  declarable : Declarable w
  noUnderscore : '_' ∉ w.toList
  noType : ¬ "Type".toList <:+ w.toList
  noSchema : ¬ "Schema".toList <:+ w.toList

/-- The identifiers that emitted code uses in a meaning of its own. -/
def ModuleStyle.fixedNames : ModuleStyle → List String
  | .cjs => ["v", "input", "Set", "Record", "require", "module"]
  | _ => ["v", "input", "Set", "Record"]

theorem verbatim_of_mem_fixedNames {style : ModuleStyle} (h : w ∈ style.fixedNames) :
    Verbatim w := by
  have all : ∀ w ∈ ["v", "input", "Set", "Record", "require", "module"],
      (isIdentifier w ∧ w ∉ reservedWords) ∧ '_' ∉ w.toList ∧
        ¬ "Type".toList <:+ w.toList ∧ ¬ "Schema".toList <:+ w.toList := by
    decide +kernel
  have mem : w ∈ ["v", "input", "Set", "Record", "require", "module"] := by
    cases style with
    | cjs => exact h
    | esm | none =>
      have first : w ∈ ["v", "input", "Set", "Record"] ++ ["require", "module"] :=
        List.mem_append_left _ h
      exact first
  obtain ⟨⟨identifier, unreserved⟩, noUnderscore, noType, noSchema⟩ := all w mem
  exact ⟨⟨identifier, unreserved⟩, noUnderscore, noType, noSchema⟩

/-! ## Sanitized names -/

theorem sanitize_eq_or (s : String) :
    let cs := s.toList.map fun c => if isIdentifierChar c then c else '_'
    sanitize s = String.ofList ('_' :: cs) ∨ sanitize s = String.ofList cs := ite_eq_or_eq _ _ _

/-- Only the word itself is sanitized to it. -/
theorem sanitize_eq_iff (h : Verbatim w) : sanitize s = w ↔ s = w := by
  constructor
  · intro eq
    have chars : s.toList.map (fun c => if isIdentifierChar c then c else '_') = w.toList := by
      rcases sanitize_eq_or s with prefixed | asIs
      · refine absurd ?_ h.noUnderscore
        rw [← eq, prefixed, String.toList_ofList]
        exact List.mem_cons_self ..
      · rw [← eq, asIs, String.toList_ofList]
    have spelled : ∀ c ∈ s.toList, isIdentifierChar c := by
      intro c hc
      by_contra other
      have mapped := List.mem_map_of_mem (f := fun c => if isIdentifierChar c then c else '_') hc
      rw [chars, if_neg other] at mapped
      exact h.noUnderscore mapped
    rw [map_identifierChar_eq_self spelled] at chars
    exact String.toList_inj.1 chars
  · rintro rfl
    exact sanitize_of_declarable h.declarable

/-! ## Allocated names -/

namespace NameSupply

/-- A numbered candidate has a `_`. -/
theorem eq_of_candidate_eq (h : Verbatim w) (eq : candidate base n = w) : base = w := by
  unfold candidate at eq
  split at eq
  · exact eq
  · refine absurd ?_ h.noUnderscore
    rw [← eq, String.toList_append, String.toList_append]
    exact List.mem_append_left _ (List.mem_append_right _ (List.mem_cons_self ..))

theorem free_of_not_mem {s : NameSupply} (h : base ∉ s.taken) : s.free base = base :=
  (s.allocates_allocate base).same h

theorem free_eq_iff (h : Verbatim w) {s : NameSupply} :
    s.free base = w ↔ base = w ∧ w ∉ s.taken := by
  constructor
  · intro eq
    obtain ⟨n, candidate⟩ := s.free_eq_candidate base
    have free := s.free_not_mem_taken base
    rw [eq] at candidate free
    exact ⟨eq_of_candidate_eq h candidate.symm, free⟩
  · rintro ⟨rfl, free⟩
    exact free_of_not_mem free

/-- A word is allocated if it is asked for and has not been taken before. -/
theorem mem_allocateAll_iff (h : Verbatim w) (s : NameSupply) (bases : List String) :
    w ∈ (s.allocateAll bases).1 ↔ w ∈ bases ∧ w ∉ s.taken := by
  induction bases generalizing s with
  | nil => simp [allocateAll]
  | cons base bases ih =>
    rw [allocateAll_cons, List.mem_cons, ih]
    show w = s.free base ∨ w ∈ bases ∧ w ∉ s.free base :: s.taken ↔ w ∈ base :: bases ∧ w ∉ s.taken
    constructor
    · rintro (now | ⟨later, free⟩)
      · obtain ⟨rfl, free⟩ := (free_eq_iff h).1 now.symm
        exact ⟨List.mem_cons_self .., free⟩
      · exact ⟨List.mem_cons_of_mem _ later, fun taken => free (List.mem_cons_of_mem _ taken)⟩
    · rintro ⟨mem, free⟩
      by_cases now : w = s.free base
      · exact .inl now
      · rcases List.mem_cons.1 mem with rfl | later
        · exact absurd ((free_eq_iff h).2 ⟨rfl, free⟩).symm now
        · exact .inr ⟨later, List.not_mem_cons_of_ne_of_not_mem now free⟩

end NameSupply

/-! ## Names of definitions -/

/-- A definition has the name `w` if that is a key and not reserved. -/
theorem exists_name_eq_iff (h : Verbatim w) (root : Schema) (reserved : List String) :
    (∃ d ∈ (root.definitions reserved).1, d.name = w) ↔
      (∃ site ∈ root.definitionSites, site.2.1 = w) ∧ w ∉ reserved := by
  rw [← List.mem_map, names_definitions, NameSupply.mem_allocateAll_iff h, List.mem_map]
  simp only [sanitize_eq_iff h]

namespace Table

variable {defs : List Definition} {t : Table defs}

theorem OwnBindings.ne (own : t.OwnBindings) (h : Verbatim w) (i : Fin defs.length) :
    (t.progress.get i).ownBinding ≠ some w := by
  intro eq
  obtain ⟨n, candidate⟩ := own i w eq
  refine h.noSchema ⟨(defs.get i).name.toList, ?_⟩
  rw [← String.toList_append, NameSupply.eq_of_candidate_eq h candidate.symm]

/-- Code refers to a definition as `w` if that is its name and it has no binding of its own. -/
theorem OwnBindings.binding_eq_iff (own : t.OwnBindings) (h : Verbatim w) (i : Fin defs.length) :
    t.binding i = w ↔ (defs.get i).name = w ∧ t.isRecursive i = false := by
  cases recursive : t.isRecursive i with
  | false =>
    rw [binding_eq_name recursive]
    exact (and_iff_left rfl).symm
  | true =>
    obtain ⟨b, hb⟩ := isRecursive_iff.1 recursive
    rw [binding_of_ownBinding hb]
    have different : b ≠ w := by
      rintro rfl
      exact own.ne h i hb
    simp [different]

theorem OwnBindings.mem_identifiers_iff (own : t.OwnBindings) (h : Verbatim w) :
    w ∈ t.identifiers ↔ ∃ d ∈ defs, d.name = w := by
  rw [mem_identifiers]
  refine or_iff_left ?_
  rintro ⟨i, eq⟩
  exact own.ne h i eq

/-- If all definitions are finished, all identifiers of a table are declared. -/
theorem mem_flatMap_declarations {is : List (Fin defs.length)} (all : ∀ i, i ∈ is) :
    w ∈ is.flatMap t.declarations ↔ w ∈ t.identifiers := by
  refine ⟨mem_identifiers_of_mem_flatMap, fun mem => ?_⟩
  rw [List.mem_flatMap]
  rcases mem_identifiers.1 mem with ⟨d, hd, name⟩ | ⟨i, own⟩
  · obtain ⟨i, rfl⟩ := List.get_of_mem hd
    exact ⟨i, all i, mem_declarations.2 (.inl name)⟩
  · exact ⟨i, all i, mem_declarations.2 (.inr own)⟩

end Table

namespace Options

variable {o : Options}

theorem rootName_eq_iff (h : Verbatim w) : o.rootName = w ↔ o.name = w := sanitize_eq_iff h

theorem rootTypeName_ne (h : Verbatim w) : o.rootTypeName ≠ w := by
  rintro rfl
  refine h.noType ⟨o.rootName.toList, ?_⟩
  rw [← String.toList_append]
  rfl

theorem mem_rootDeclarations_iff (h : Verbatim w) : w ∈ o.rootDeclarations ↔ o.name = w := by
  rw [← rootName_eq_iff h]
  constructor
  · intro mem
    rcases List.mem_cons.1 (o.rootDeclarations_subset mem) with rfl | type
    · rfl
    · exact absurd (List.mem_singleton.1 type).symm (rootTypeName_ne h)
  · rintro rfl
    exact List.mem_cons_self ..

theorem mem_reserved_iff (h : Verbatim w) : w ∈ o.reserved ↔ w = "v" ∨ o.name = w := by
  unfold reserved
  rw [← rootName_eq_iff h]
  simp only [List.mem_cons, List.not_mem_nil, or_false]
  have noType : w ≠ o.rootTypeName := (rootTypeName_ne h).symm
  simp [noType, eq_comm (a := w) (b := o.rootName)]

end Options

/-! ## Modules -/

/-- When a module declares an identifier to which its code gives a meaning of its own: if the root
schema is called so, or if it is the key of a definition and not the name of the library. Code
refers to a definition by such an identifier if it has that name and is not recursive. -/
theorem declares_fixedName_iff (schema : Schema) (o : Options) :
    let c := compileRoot (schema.definitions o.reserved).1 (schema.definitions o.reserved).2
      o.maxDepth schema
    let m := c.module o schema
    (convert schema o).code = m.text ∧
    ∀ w ∈ o.style.fixedNames,
      (w ∈ m.declared ↔
        o.name = w ∨ w ≠ "v" ∧ ∃ site ∈ schema.definitionSites, site.2.1 = w) ∧
      ∀ i, c.run.table.binding i = w ↔
        ((schema.definitions o.reserved).1.get i).name = w ∧
          c.run.table.isRecursive i = false := by
  intro c m
  obtain ⟨sound, all⟩ := compileRoot_finished (schema.definitions o.reserved).1
    (schema.definitions o.reserved).2 o.maxDepth schema
  have generated : ∀ i, ∃ v, c.run.table.generated? i = some v := fun i =>
    Option.isSome_iff_exists.1 ((sound.generated i).2 (all i))
  choose code hcode using generated
  refine ⟨rfl, fun w fixed => ?_⟩
  have h : Verbatim w := verbatim_of_mem_fixedNames fixed
  refine ⟨?_, sound.ownBindings.binding_eq_iff h⟩
  rw [c.declared_module o schema hcode, List.mem_append, Table.mem_flatMap_declarations all,
    sound.ownBindings.mem_identifiers_iff h, exists_name_eq_iff h,
    Options.mem_rootDeclarations_iff h, Options.mem_reserved_iff h]
  by_cases root : o.name = w
  · simp [root]
  · simp [root, and_comm]

/-! ## A name that is captured -/

/-- The negation of a reference to a definition that is called `input`. -/
def negatedInput : Schema :=
  .object
    { not := some (toDefinition "input")
      definitions := some [("input", .object { type := some (.one .string) })] }

namespace negatedInput

theorem start_eq (reserved : List String) :
    Run.start (negatedInput.definitions reserved).1 (negatedInput.definitions reserved).2 =
      ⟨.fresh (negatedInput.definitions reserved).1 (negatedInput.definitions reserved).2, []⟩ := by
  refine Run.start_eq_fresh fun site mem => ?_
  obtain rfl : site = ("definitions", "input", .object { type := some (.one .string) }) :=
    List.mem_singleton.1 mem
  rw [Schema.references_eq]
  rfl

/-- Inside the check `input` is the value that is checked, not the definition. -/
theorem input_captured :
    let o : Options := {}
    let c := compileRoot (negatedInput.definitions o.reserved).1
      (negatedInput.definitions o.reserved).2 o.maxDepth negatedInput
    "input" ∈ o.style.fixedNames ∧ "input" ∈ (c.module o negatedInput).declared ∧
      c.root.code =
        "v.custom((input) => !v.is(input, input), \"Value must not match the specified schema\")" := by
  intro o c
  unfold c compileRoot
  rw [start_eq]
  decide +kernel

end negatedInput

end SchemaCompiler
