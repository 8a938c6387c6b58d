import SchemaCompiler.Proofs.Compile.Assemble
import SchemaCompiler.Proofs.Compile.Preserved
import SchemaCompiler.Proofs.Validator.Imports

/-!
# Compiling keeps imports up with calls

Compiling a schema puts validators together, each of which imports what its code calls, in whatever
state and however that changes, as long as references compile to such validators
(`yields_compileWithin`). They import nothing else if no mixed `allOf` is met on the way down
(`Schema.Unmixed`).
-/

namespace SchemaCompiler

open Validator (Accounted)

/-! ## Mixed compositions -/

/-- An `allOf` of two or more members that are not all object-shaped. -/
def Shape.isMixed : Shape → Bool
  | .allOf members => 2 ≤ members.length && !members.all Schema.isObjectShaped
  | _ => false

theorem Validator.preserved_accounted {exact : Prop} : Preserved (Accounted exact) where
  any := accounted_any
  never := accounted_never
  string k := accounted_string k
  number k integer := accounted_number k integer
  boolean := accounted_boolean
  null := accounted_null
  array k _ h := accounted_array k h
  object h hr := accounted_object h hr
  union h := accounted_union h
  anyOf h := accounted_anyOf h
  not h := accounted_not h
  nullable h := accounted_nullable h
  const v := accounted_const v
  enum values := accounted_enum values

/-! ## Whole schemas -/

namespace Schema

/-- As far as there is room, neither a schema nor those that are compiled as part of it have a mixed
`allOf`. -/
def Unmixed : (room : Nat) → Schema → Prop
  | 0, _ => True
  | room + 1, s => s.shape.isMixed = false ∧ ∀ x ∈ s.children, x.Unmixed room

instance decidableUnmixed : (room : Nat) → (s : Schema) → Decidable (s.Unmixed room)
  | 0, _ => inferInstanceAs (Decidable True)
  | room + 1, s =>
    have := decidableUnmixed room
    inferInstanceAs (Decidable (s.shape.isMixed = false ∧ ∀ x ∈ s.children, x.Unmixed room))

end Schema

/-- If references and unknown type names compile to validators that import what they call, schemas
do. -/
theorem yields_compileWithin {σ : Type} {I : σ → Prop} {exact : Prop} {h : Handlers σ}
    (references : ∀ pointer site, Yields I (Accounted exact) (h.reference pointer site))
    (types : ∀ name site, Yields I (Accounted exact) (h.unknownType name site)) (room : Nat)
    {schema : Schema} (unmixed : exact → schema.Unmixed room) (site : Site) :
    Yields I (Accounted exact) (compileWithin h room schema site) := by
  refine Validator.preserved_accounted.yields_compileWithin
    (fun room s => exact → s.Unmixed room) references types
    (fun room s met x hx h => (met h).2 x hx) (fun room s met members shape two rs _ hrs => ?_)
    unmixed site
  refine Validator.accounted_allOf (fun h => ?_) hrs
  have shaped := (met h).1
  rw [shape] at shaped
  simpa [Shape.isMixed, two] using shaped

theorem accounted_assembleWithin {exact : Prop} {reference : String → Validator}
    (references : ∀ pointer, (reference pointer).Accounted exact) (room : Nat) {schema : Schema}
    (unmixed : exact → schema.Unmixed room) :
    (assembleWithin reference room schema).Accounted exact := by
  have yields : Yields (fun _ => True) (Accounted exact)
      (compileWithin (.pure reference) room schema .root) :=
    yields_compileWithin (fun pointer _ => yields_pure (references pointer))
      (fun _ _ => yields_pure Validator.accounted_any) room unmixed .root
  rw [compileWithin_pure] at yields
  exact (yields () trivial).2

end SchemaCompiler
