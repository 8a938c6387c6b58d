import Mathlib.Logic.Relation
import SchemaCompiler.Proofs.Definitions.Detected
import SchemaCompiler.Proofs.Generate.Operations
import SchemaCompiler.Proofs.Projection.Agreement

/-!
# Compositions and references

What accepts nothing makes an `allOf` accept nothing and is left out of an `anyOf` or `oneOf`; what
accepts everything does not count in an `allOf`. Members are told apart by their code, though, and
the code of a reference is the binding of its definition, which is neither `v.never()` nor `v.any()`
whatever the definition accepts.

`Table.ResolvesTo` follows code through such bindings. A composition sees through its references if
the policies hold of what its members resolve to, and `compositions_seeThrough_iff` says when: in an
`allOf`, if some member is `v.never()` itself once some member resolves to that, and if otherwise
the first member that is not `v.any()` does not resolve to it; in an `anyOf` or a `oneOf`, if all
members that resolve to `v.never()` are just that. None of it has to be
(`composedReferences.not_seenThrough`).
-/

namespace SchemaCompiler

open Relation

variable {defs : List Definition} {t : Table defs} {maxDepth : Nat} {rs : List Validator}

/-! ## Code behind references -/

namespace Table

/-- Code is the binding of a definition that is not recursive, and the definition has that code. -/
def StandsFor (t : Table defs) (binding code : String) : Prop :=
  ∃ i r, t.isRecursive i = false ∧ t.binding i = binding ∧ t.generated? i = some r ∧ r.code = code

/-- References lead from the code of a validator to some code. -/
def ResolvesTo (t : Table defs) (r : Validator) (code : String) : Prop :=
  ReflTransGen t.StandsFor r.code code

theorem resolvesTo_self (t : Table defs) (r : Validator) : t.ResolvesTo r r.code := .refl

theorem ResolvesTo.congr {r s : Validator} {code : String} (h : t.ResolvesTo r code)
    (same : r.code = s.code) : t.ResolvesTo s code := by
  unfold ResolvesTo at h ⊢
  rwa [← same]

theorem resolvesTo_never {r : Validator} (h : r.isNever) : t.ResolvesTo r "v.never()" := by
  have code : r.code = "v.never()" := beq_iff_eq.1 h
  exact code ▸ t.resolvesTo_self r

theorem resolvesTo_any {r : Validator} (h : r.isAny) : t.ResolvesTo r "v.any()" := by
  have code : r.code = "v.any()" := beq_iff_eq.1 h
  exact code ▸ t.resolvesTo_self r

end Table

/-! ## Code of compositions -/

namespace Validator

/-- The members of an `anyOf` or a `oneOf` that are part of the union. -/
def alternatives (members : List Validator) : List Validator :=
  distinctByCode (members.filter (!·.isNever))

/-- The code of a union of alternatives. -/
def unionCode : List Validator → String
  | [] => "v.never()"
  | [only] => only.code
  | distinct => callWithList "union" (distinct.map (·.code))

theorem code_anyOf (members : List Validator) :
    (anyOf members).code = unionCode (alternatives members) := by
  unfold anyOf alternatives
  cases survivors : members.filter (!·.isNever) with
  | nil => rfl
  | cons r rest =>
    have some : distinctByCode (r :: rest) ≠ [] := distinctByCode_ne_nil (List.cons_ne_nil r rest)
    simp only [List.isEmpty_cons, Bool.false_eq_true, if_false]
    unfold union
    match h : distinctByCode (r :: rest) with
    | [] => exact absurd h some
    | [only] => rfl
    | _ :: _ :: _ => rfl

theorem mem_of_mem_alternatives {r : Validator} (h : r ∈ alternatives rs) :
    r ∈ rs ∧ r.isNever = false := by
  obtain ⟨mem, never⟩ := List.mem_filter.1 (distinctByCode_subset _ h)
  exact ⟨mem, by simpa using never⟩

/-- A member that is not `v.never()` is part of the union, or one with the same code is. -/
theorem exists_mem_alternatives {r : Validator} (h : r ∈ rs) (never : r.isNever = false) :
    ∃ s ∈ alternatives rs, s.code = r.code :=
  exists_mem_distinctByCode (List.mem_filter.2 ⟨h, by simp [never]⟩)

/-- An `allOf` of a mixed list is `v.never()` if one of its members is. -/
theorem code_allOf_eq_never_iff :
    (allOf false rs).code = "v.never()" ↔ ∃ r ∈ rs, r.isNever := by
  unfold allOf
  simp only [Bool.false_eq_true, if_false]
  by_cases never : rs.any isNever
  · rw [if_pos never]
    exact ⟨fun _ => List.any_eq_true.1 never, fun _ => code_never⟩
  · rw [if_neg never]
    have none : ¬ ∃ r ∈ rs, r.isNever := fun h => never (List.any_eq_true.2 h)
    refine ⟨fun code => ?_, fun h => absurd h none⟩
    cases found : rs.find? (!·.isAny) with
    | none =>
      rw [found] at code
      exact absurd (code_any.symm.trans code) (by decide)
    | some first =>
      rw [found] at code
      exact ⟨first, List.mem_of_find?_eq_some found, beq_iff_eq.2 code⟩

/-- Without `v.never()` it is the first member that is not `v.any()`. -/
theorem code_allOf_of_find? {first : Validator} (never : ¬ ∃ r ∈ rs, r.isNever)
    (found : rs.find? (!·.isAny) = some first) : (allOf false rs).code = first.code := by
  unfold allOf
  have none : rs.any isNever = false := by
    rw [← Bool.not_eq_true]
    exact fun h => never (List.any_eq_true.1 h)
  simp [none, found]

end Validator

/-! ## Seeing through references -/

/-- The policies of a mixed `allOf` hold of what its members resolve to. -/
structure AllOfSeesThrough (t : Table defs) (rs : List Validator) : Prop where
  never : (∃ r ∈ rs, t.ResolvesTo r "v.never()") → (Validator.allOf false rs).code = "v.never()"
  any : (∀ r ∈ rs, ¬ t.ResolvesTo r "v.never()") → (∃ r ∈ rs, ¬ t.ResolvesTo r "v.any()") →
    ∀ r ∈ rs, t.ResolvesTo r "v.any()" → (Validator.allOf false rs).code ≠ r.code

/-- The policy of an `anyOf` or a `oneOf` holds of what its members resolve to. -/
def AnyOfSeesThrough (t : Table defs) (rs : List Validator) : Prop :=
  ∀ r ∈ Validator.alternatives rs, ¬ t.ResolvesTo r "v.never()"

theorem allOfSeesThrough_iff :
    AllOfSeesThrough t rs ↔
      ((∃ r ∈ rs, t.ResolvesTo r "v.never()") → ∃ r ∈ rs, r.isNever) ∧
      ((∀ r ∈ rs, ¬ t.ResolvesTo r "v.never()") → (∃ r ∈ rs, ¬ t.ResolvesTo r "v.any()") →
        ∀ first, rs.find? (!·.isAny) = some first → ¬ t.ResolvesTo first "v.any()") := by
  have code : ∀ first, (∀ r ∈ rs, ¬ t.ResolvesTo r "v.never()") →
      rs.find? (!·.isAny) = some first → (Validator.allOf false rs).code = first.code := by
    intro first none found
    refine Validator.code_allOf_of_find? ?_ found
    rintro ⟨r, hr, never⟩
    exact none r hr (Table.resolvesTo_never never)
  constructor
  · rintro ⟨never, any⟩
    refine ⟨fun h => Validator.code_allOf_eq_never_iff.1 (never h), ?_⟩
    intro none some first found resolves
    exact any none some first (List.mem_of_find?_eq_some found) resolves (code first none found)
  · rintro ⟨never, any⟩
    refine ⟨fun h => Validator.code_allOf_eq_never_iff.2 (never h), ?_⟩
    rintro none ⟨s, hs, other⟩ r hr resolves same
    obtain ⟨first, found⟩ : ∃ first, rs.find? (!·.isAny) = some first := by
      rw [← Option.isSome_iff_exists, List.find?_isSome]
      refine ⟨s, hs, ?_⟩
      by_contra isAny
      exact other (Table.resolvesTo_any (by simpa using isAny))
    rw [code first none found] at same
    exact any none ⟨s, hs, other⟩ first found (resolves.congr same.symm)

theorem anyOfSeesThrough_iff :
    AnyOfSeesThrough t rs ↔ ∀ r ∈ rs, t.ResolvesTo r "v.never()" → r.isNever := by
  constructor
  · intro h r hr resolves
    by_contra other
    obtain ⟨s, hs, code⟩ := Validator.exists_mem_alternatives hr (by simpa using other)
    exact h s hs (resolves.congr code.symm)
  · intro h r hr resolves
    obtain ⟨mem, other⟩ := Validator.mem_of_mem_alternatives hr
    have never := h r mem resolves
    rw [other] at never
    exact absurd never (by decide)

/-! ## Compiled compositions -/

theorem compileMembers_congr {σ : Type} {f g : Schema → Site → StateM σ Validator}
    {keyword : String} {site : Site}
    (h : ∀ x i, f x (site.item keyword i) = g x (site.item keyword i)) (i : Nat) (members : List Schema) :
    compileMembers f keyword site i members = compileMembers g keyword site i members := by
  induction members generalizing i with
  | nil => rfl
  | cons x xs ih => rw [compileMembers, compileMembers, h, ih]

/-- The validators of the members of a composition, and the run after they have been compiled. -/
def runMembers (maxDepth : Nat) (keyword : String) (site : Site) (members : List Schema)
    (r : Run defs) : List Validator × Run defs :=
  (compileMembers (compile maxDepth) keyword site 0 members).run r

section Compiled

variable {schema x y : Schema} {rest : List Schema} (site : Site) (extra : Nat) (r : Run defs)

/-- Members are compiled with the room that is left one schema further in. -/
theorem compileWithin_item (x : Schema) (keyword : String) (i : Nat) :
    (compileWithin (handlers (generate (site.depth + extra))) extra x (site.item keyword i) :
        StateM (Run defs) Validator) =
      compile (site.depth + extra) x (site.item keyword i) := by
  have room : roomAt (site.depth + extra) (site.item keyword i).depth = extra := by
    show site.depth + extra + 1 - (site.depth + 1) = extra
    omega
  rw [compile, room]

theorem run_map_compileMembers (keyword : String) (f : List Validator → Validator)
    (members : List Schema) :
    (f <$> compileMembers (compileWithin (handlers (generate (site.depth + extra))) extra) keyword
        site 0 members).run r =
      Prod.map f id (runMembers (site.depth + extra) keyword site members r) := by
  rw [compileMembers_congr fun x i => compileWithin_item site extra x keyword i, StateT.run_map]
  rfl

theorem compile_eq_compileNode (schema : Schema) :
    (compile (site.depth + extra) schema site : StateM (Run defs) Validator) =
      compileNode (handlers (generate (site.depth + extra)))
        (compileWithin (handlers (generate (site.depth + extra))) extra) schema site := by
  have room : roomAt (site.depth + extra) site.depth = extra + 1 := by
    show site.depth + extra + 1 - site.depth = extra + 1
    omega
  rw [compile, room, compileWithin]

theorem run_compile_allOf (shape : schema.shape = .allOf (x :: y :: rest)) :
    (compile (site.depth + extra) schema site).run r =
      Prod.map (Validator.allOf ((x :: y :: rest).all Schema.isObjectShaped)) id
        (runMembers (site.depth + extra) "allOf" site (x :: y :: rest) r) := by
  rw [compile_eq_compileNode, compileNode, shape]
  exact run_map_compileMembers site extra r "allOf" _ _

theorem run_compile_anyOf (shape : schema.shape = .anyOf (x :: y :: rest)) :
    (compile (site.depth + extra) schema site).run r =
      Prod.map Validator.anyOf id
        (runMembers (site.depth + extra) "anyOf" site (x :: y :: rest) r) := by
  rw [compile_eq_compileNode, compileNode, shape]
  exact run_map_compileMembers site extra r "anyOf" _ _

theorem run_compile_oneOf (shape : schema.shape = .oneOf (x :: y :: rest)) :
    (compile (site.depth + extra) schema site).run r =
      Prod.map Validator.anyOf id
        (runMembers (site.depth + extra) "oneOf" site (x :: y :: rest) r) := by
  rw [compile_eq_compileNode, compileNode, shape]
  exact run_map_compileMembers site extra r "oneOf" _ _

end Compiled

theorem reaches_compileMembers (maxDepth : Nat) (keyword : String) (site : Site) (i : Nat)
    (members : List Schema) (r : Run defs) :
    r.Reaches ((compileMembers (compile maxDepth) keyword site i members).run r).2 := by
  induction members generalizing i r with
  | nil => exact .refl r
  | cons x xs ih =>
    have first : r.Reaches ((compile maxDepth x (site.item keyword i)).run r).2 :=
      reaches_compileWithin (reaches_generateWithin _) _ x _ r
    exact first.trans (ih (i + 1) _)

/-- The binding of a definition is made of identifier characters, unlike a call. -/
theorem Table.OwnBindings.isNever_referenceTo (h : t.OwnBindings)
    (names : ∀ d ∈ defs, Spelled d.name) (i : Fin defs.length) :
    (t.referenceTo i).isNever = false ∧ (t.referenceTo i).isAny = false := by
  have spelled : Spelled (t.referenceTo i).code := h.spelled names i
  have noCall : '(' ∉ (t.referenceTo i).code.toList := fun mem =>
    absurd (spelled '(' mem) (by decide)
  constructor
  · rw [← Bool.not_eq_true]
    intro never
    rw [beq_iff_eq.1 never] at noCall
    exact noCall (by decide)
  · rw [← Bool.not_eq_true]
    intro any
    rw [beq_iff_eq.1 any] at noCall
    exact noCall (by decide)

/-- When a composition of two or more members sees through its references, in whatever state of the
table of definitions it is compiled. References to definitions are never taken for `v.never()` or
`v.any()`. So a mixed `allOf` needs a member that is `v.never()` itself if any member resolves to
it, and else, if not all members resolve to `v.any()`, the first that is not `v.any()` must not
resolve to it either; and of the members of an `anyOf` or a `oneOf`, all that resolve to `v.never()`
must be it. -/
theorem compositions_seeThrough_iff (root : Schema) (reserved : List String)
    (ops : List (Table.Operation (root.definitions reserved).1.length))
    (diagnostics : List Diagnostic) (site : Site) (extra : Nat) (x y : Schema)
    (rest : List Schema) :
    let t := (Table.fresh (root.definitions reserved).1 (root.definitions reserved).2).applyAll ops
    let members := x :: y :: rest
    let maxDepth := site.depth + extra
    let compiled := fun keyword => runMembers maxDepth keyword site members ⟨t, diagnostics⟩
    (∀ schema : Schema,
      (schema.shape = .allOf members →
        (compile maxDepth schema site).run ⟨t, diagnostics⟩ =
          (compiled "allOf").map (.allOf (members.all Schema.isObjectShaped)) id) ∧
      (schema.shape = .anyOf members →
        (compile maxDepth schema site).run ⟨t, diagnostics⟩ = (compiled "anyOf").map .anyOf id) ∧
      (schema.shape = .oneOf members →
        (compile maxDepth schema site).run ⟨t, diagnostics⟩ = (compiled "oneOf").map .anyOf id)) ∧
    ∀ keyword,
      let rs := (compiled keyword).1
      let t := (compiled keyword).2.table
      (Validator.anyOf rs).code = Validator.unionCode (Validator.alternatives rs) ∧
      (∀ i, (t.referenceTo i).isNever = false ∧ (t.referenceTo i).isAny = false) ∧
      (AllOfSeesThrough t rs ↔
        ((∃ r ∈ rs, t.ResolvesTo r "v.never()") → ∃ r ∈ rs, r.isNever) ∧
        ((∀ r ∈ rs, ¬ t.ResolvesTo r "v.never()") → (∃ r ∈ rs, ¬ t.ResolvesTo r "v.any()") →
          ∀ first, rs.find? (!·.isAny) = some first → ¬ t.ResolvesTo first "v.any()")) ∧
      (AnyOfSeesThrough t rs ↔ ∀ r ∈ rs, t.ResolvesTo r "v.never()" → r.isNever) := by
  intro t members maxDepth compiled
  refine ⟨fun schema => ?_, fun keyword => ?_⟩
  · exact ⟨run_compile_allOf site extra ⟨t, diagnostics⟩,
      run_compile_anyOf site extra ⟨t, diagnostics⟩, run_compile_oneOf site extra ⟨t, diagnostics⟩⟩
  · intro rs t'
    have own : t.OwnBindings := (Table.ownBindings_fresh _).applyAll ops
    have ownBindings : t'.OwnBindings :=
      (reaches_compileMembers maxDepth keyword site 0 members ⟨t, diagnostics⟩).ownBindings own
    exact ⟨Validator.code_anyOf rs, ownBindings.isNever_referenceTo fun _ => spelled_name,
      allOfSeesThrough_iff, anyOfSeesThrough_iff⟩

/-! ## References that are not seen through -/

/-- Compositions of a string and a reference to a definition that accepts everything or nothing. -/
def composedReferences (accepts : Bool) (allOf anyOf : Option (List Schema)) : Schema :=
  .object { allOf, anyOf, definitions := some [("D", .bool accepts)] }

namespace composedReferences

/-- What is compiled for such a document. -/
def compiled (accepts : Bool) (allOf anyOf : Option (List Schema)) :
    Compilation ((composedReferences accepts allOf anyOf).definitions []).1 :=
  let root := composedReferences accepts allOf anyOf
  compileRoot (root.definitions []).1 (root.definitions []).2 10 root

/-- The bindings and validators of all definitions that are not recursive. -/
def plain (c : Compilation defs) : List (String × Validator) :=
  (c.run.table.finished.filter fun (i, _) => !c.run.table.isRecursive i).map fun (i, r) =>
    (c.run.table.binding i, r)

def string : Schema := .object { type := some (.one .string) }

theorem start_eq (accepts : Bool) (allOf anyOf : Option (List Schema)) :
    Run.start ((composedReferences accepts allOf anyOf).definitions []).1
        ((composedReferences accepts allOf anyOf).definitions []).2 =
      ⟨.fresh _ ((composedReferences accepts allOf anyOf).definitions []).2, []⟩ := by
  refine Run.start_eq_fresh fun site mem => ?_
  obtain rfl : site = ("definitions", "D", .bool accepts) := List.mem_singleton.1 mem
  exact Schema.references_bool accepts

/-- A mixed `allOf` with a reference to a definition that is `v.never()` accepts strings, and one
with a reference to a definition that is `v.any()` accepts everything; an `anyOf` keeps a reference
to a definition that is `v.never()`. -/
theorem not_seenThrough :
    let impossible := compiled false (some [string, toDefinition "D"]) none
    let unconstrained := compiled true (some [toDefinition "D", string]) none
    let union := compiled false none (some [toDefinition "D", string])
    (plain impossible = [("D", .never)] ∧ impossible.root.code = "v.string()") ∧
    (plain unconstrained = [("D", .any)] ∧ unconstrained.root.code = "D") ∧
    (plain union = [("D", .never)] ∧ union.root.code = "v.union([D, v.string()])") := by
  unfold compiled compileRoot
  simp only [start_eq]
  decide +kernel

end composedReferences

end SchemaCompiler
