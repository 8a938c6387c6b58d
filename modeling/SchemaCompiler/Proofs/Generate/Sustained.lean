import SchemaCompiler.Proofs.Compile.Preserved
import SchemaCompiler.Proofs.Generate.Calls

/-!
# What all results of a compilation have

A property of validators that the ways of making them keep holds of whatever schemas and references
compile to if references have it, in the states that are reached. `Sustains` ties such a property to
an invariant of states: each step keeps the invariant, where a definition may only be finished with
a result that has the property, and references have the property where the invariant holds.
`yields_compile` and `sustains_after` carry both through compilations and calls.
-/

namespace SchemaCompiler

variable {defs : List Definition} {maxDepth : Nat}

/-- The steps of a run keep an invariant, given that results have a property, and references have
the property, given the invariant. -/
structure Sustains (I : Run defs → Prop) (P : Validator → Prop) : Prop where
  report : ∀ {r : Run defs} (d : Diagnostic), I r → I { r with diagnostics := r.diagnostics ++ [d] }
  markRecursive : ∀ {r : Run defs} (i : Fin defs.length), I r →
    I { r with table := r.table.markRecursive i }
  enter : ∀ {r : Run defs} (i : Fin defs.length), I r → I (r.enter i)
  leave : ∀ {r : Run defs} (i : Fin defs.length) {v : Validator}, I r → P v → I (r.leave i v)
  plain : ∀ {r : Run defs} (i : Fin defs.length), I r → P (r.table.referenceTo i)
  lazy : ∀ {r : Run defs} (i : Fin defs.length), I r → P (r.table.lazyReferenceTo i)

namespace Sustains

variable {I : Run defs → Prop} {P : Validator → Prop}
  {generate : Fin defs.length → StateM (Run defs) Unit}

/-! ## References -/

theorem yields_resolveWith (sustains : Sustains I P) (any : P .any)
    (generates : ∀ i r, I r → I ((generate i).run r).2) (pointer : String) (site : Site) :
    Yields I P (resolveWith generate pointer site) := by
  intro r hr
  cases resolveWith_cases generate pointer site r with
  | dangling found run =>
    rw [run]
    exact ⟨sustains.report _ hr, any⟩
  | lazy i found processing run =>
    rw [run]
    have marked := sustains.markRecursive i hr
    have result := sustains.lazy i marked
    exact ⟨marked, result⟩
  | new i found waiting missing run =>
    rw [run]
    have done := generates i r hr
    have result := sustains.plain i done
    exact ⟨done, result⟩
  | old i found waiting finished run =>
    rw [run]
    exact ⟨hr, sustains.plain i hr⟩

/-! ## Compilations -/

/-- An `allOf` of two or more members keeps a property. -/
def KeepsAllOf (P : Validator → Prop) : Prop :=
  ∀ (objectShaped : Bool) (rs : List Validator), rs ≠ [] → (∀ r ∈ rs, P r) →
    P (.allOf objectShaped rs)

variable (sustains : Sustains I P) (keeps : Validator.Preserved P) (allOf : KeepsAllOf P)

include sustains keeps allOf

theorem yields_compileWithin (generates : ∀ i r, I r → I ((generate i).run r).2) (room : Nat)
    (schema : Schema) (site : Site) :
    Yields I P (compileWithin (handlers generate) room schema site) := by
  have references : ∀ pointer site, Yields I P ((handlers generate).reference pointer site) :=
    sustains.yields_resolveWith keeps.any generates
  have types : ∀ name site, Yields I P ((handlers generate).unknownType name site) :=
    fun name site _ hr => ⟨sustains.report (.unknownType name site) hr, keeps.any⟩
  exact keeps.yields_compileWithin (fun _ _ => True) references types
    (fun _ _ _ _ _ => trivial) (fun _ _ _ _ _ _ => allOf _) trivial site

theorem generateWithin (fuel : Nat) (i : Fin defs.length) (r : Run defs) (hr : I r) :
    I ((generateWithin maxDepth fuel i).run r).2 := by
  induction fuel generalizing i r with
  | zero => exact hr
  | succ fuel ih =>
    by_cases processing : r.table.isProcessing i
    · have reported : ((SchemaCompiler.generateWithin maxDepth (fuel + 1) i).run r).2 =
          { r with diagnostics := r.diagnostics ++
            [.reentrantDefinition (defs.get i).pointer (.ofDefinition (defs.get i).pointer)] } := by
        simp [SchemaCompiler.generateWithin, processing]
        rfl
      rw [reported]
      exact sustains.report _ hr
    · rw [run_generateWithin maxDepth fuel (by simpa using processing)]
      obtain ⟨kept, result⟩ := yields_compileWithin sustains keeps allOf ih (roomAt maxDepth 0)
        (defs.get i).schema (.ofDefinition (defs.get i).pointer) (r.enter i) (sustains.enter i hr)
      exact sustains.leave i kept result

theorem yields_compile (schema : Schema) (site : Site) :
    Yields I P (compile maxDepth schema site) :=
  yields_compileWithin sustains keeps allOf (generateWithin sustains keeps allOf _) _ schema site

theorem generateEach (is : List (Fin defs.length)) {r : Run defs} (hr : I r) :
    I ((generateEach maxDepth is).run r).2 := by
  induction is generalizing r with
  | nil => exact hr
  | cons i is ih =>
    cases generated : r.table.generated? i with
    | none =>
      rw [run_generateEach_new is generated]
      exact ih (generateWithin sustains keeps allOf _ i r hr)
    | some v =>
      rw [run_generateEach_old is (Option.isSome_of_eq_some generated)]
      exact ih hr

theorem run_call (call : Call) {r : Run defs} (hr : I r) : I ((call.run maxDepth).run r).2 := by
  cases call with
  | generateAll => exact generateEach sustains keeps allOf _ hr
  | compile schema site => exact (yields_compile sustains keeps allOf schema site r hr).1
  | resolve pointer site =>
    exact (sustains.yields_resolveWith keeps.any (generateWithin sustains keeps allOf _) pointer
      site r hr).1

/-- The invariant holds after any calls. -/
theorem after (calls : List Call) {r : Run defs} (hr : I r) : I (r.after maxDepth calls) := by
  induction calls generalizing r with
  | nil => exact hr
  | cons call calls ih => exact ih (run_call sustains keeps allOf call hr)

end Sustains

/-! ## Bindings -/

/-- A property that references have as long as bindings are names of a kind. -/
theorem sustains_bindings {IsName : String → Prop}
    (names : ∀ t : Table defs, t.OwnBindings → ∀ i, IsName (t.binding i)) {P : Validator → Prop}
    (plain : ∀ (t : Table defs) i, IsName (t.binding i) → P (t.referenceTo i))
    (lazy : ∀ (t : Table defs) i, IsName (t.binding i) → P (t.lazyReferenceTo i)) :
    Sustains (fun r : Run defs => r.table.OwnBindings) P where
  report _ own := own
  markRecursive i own := own.markRecursive i
  enter i own := own.start i
  leave i v own _ := own.finish i v
  plain i own := plain _ i (names _ own i)
  lazy i own := lazy _ i (names _ own i)

/-- A property that references have as long as bindings are made of identifier characters. -/
theorem sustains_ownBindings (names : ∀ d ∈ defs, Spelled d.name) {P : Validator → Prop}
    (plain : ∀ (t : Table defs) i, Spelled (t.binding i) → P (t.referenceTo i))
    (lazy : ∀ (t : Table defs) i, Spelled (t.binding i) → P (t.lazyReferenceTo i)) :
    Sustains (fun r : Run defs => r.table.OwnBindings) P :=
  sustains_bindings (fun _ own => own.spelled names) plain lazy

end SchemaCompiler
