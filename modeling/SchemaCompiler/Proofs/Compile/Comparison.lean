import SchemaCompiler.Compile
import SchemaCompiler.Schema.References

/-!
# Two compilations side by side

A compilation touches its state only through its handlers, and which of them it calls next never
depends on what the last one returned. So two compilations of one schema keep every relation
between their states that their handlers keep (`Comparison.alike_compileWithin`).

A `Comparison` names that relation and how both states may move on together. Results are compared
only where the states that are reached in the end are `Settled`: a result may refer to things that
are completed later.
-/

namespace SchemaCompiler

/-- What is compared of two compilations with states of types `σ` and `τ`. -/
structure Comparison (σ τ : Type) where
  /-- Sites at which both may stand. -/
  Sites : Site → Site → Prop
  under : ∀ {a b : Site} (keyword : String), Sites a b → Sites (a.under keyword) (b.under keyword)
  member : ∀ {a b : Site} (keyword name : String), Sites a b →
    Sites (a.member keyword name) (b.member keyword name)
  /-- The states in which both may be. -/
  Related : σ → τ → Prop
  /-- How the states may change together. -/
  Moves : σ × τ → σ × τ → Prop
  refl : ∀ p, Moves p p
  trans : ∀ {p q r}, Moves p q → Moves q r → Moves p r
  /-- The states up to which all results were the same. -/
  Settled : σ × τ → Prop
  settled_of_moves : ∀ {p q}, Moves p q → Settled q → Settled p

namespace Comparison

variable {σ τ α β γ : Type} (c : Comparison σ τ)

/-- Two steps that keep states related, move them on together and return the same if the states
reached are settled. -/
def Alike (m : StateM σ α) (n : StateM τ α) : Prop :=
  ∀ s t, c.Related s t → c.Related (m.run s).2 (n.run t).2 ∧
    c.Moves (s, t) ((m.run s).2, (n.run t).2) ∧
    (c.Settled ((m.run s).2, (n.run t).2) → (m.run s).1 = (n.run t).1)

variable {c}

theorem alike_pure (a : α) : c.Alike (pure a) (pure a) := fun _ _ h => ⟨h, c.refl _, fun _ => rfl⟩

theorem Alike.map {m : StateM σ α} {n : StateM τ α} (h : c.Alike m n) (f : α → β) :
    c.Alike (f <$> m) (f <$> n) := by
  intro s t hst
  obtain ⟨related, moves, same⟩ := h s t hst
  exact ⟨related, moves, fun settled => congrArg f (same settled)⟩

/-- Two steps in a row of which the second does not look at the result of the first. -/
theorem Alike.map₂ {m : StateM σ α} {n : StateM τ α} {m' : StateM σ β} {n' : StateM τ β}
    (h : c.Alike m n) (h' : c.Alike m' n') (f : α → β → γ) :
    c.Alike (do let a ← m; let b ← m'; return f a b) (do let a ← n; let b ← n'; return f a b) := by
  intro s t hst
  obtain ⟨related, moves, same⟩ := h s t hst
  obtain ⟨related', moves', same'⟩ := h' _ _ related
  refine ⟨related', c.trans moves moves', fun settled => ?_⟩
  exact congr (congrArg f (same (c.settled_of_moves moves' settled))) (same' settled)

/-! ## Nodes -/

section Node

variable {h₁ : Handlers σ} {h₂ : Handlers τ} {compile₁ : Schema → Site → StateM σ Validator}
  {compile₂ : Schema → Site → StateM τ Validator}

theorem alike_compileMembers {keyword : String} {a b : Site} (hab : c.Sites a b)
    {members : List Schema} (h : ∀ x ∈ members, ∀ a b, c.Sites a b →
      c.Alike (compile₁ x a) (compile₂ x b)) (i : Nat) :
    c.Alike (compileMembers compile₁ keyword a i members)
      (compileMembers compile₂ keyword b i members) := by
  induction members generalizing i with
  | nil => exact alike_pure _
  | cons x xs ih =>
    refine (h x (by simp) _ _ (c.member _ _ hab)).map₂ (ih (fun y hy => h y ?_) (i + 1)) _
    exact List.mem_cons_of_mem _ hy

theorem alike_compileProperties {k : Keywords Schema} {a b : Site} (hab : c.Sites a b)
    {fields : List (String × Schema)} (h : ∀ p ∈ fields, ∀ a b, c.Sites a b →
      c.Alike (compile₁ p.2 a) (compile₂ p.2 b)) :
    c.Alike (compileProperties compile₁ k a fields) (compileProperties compile₂ k b fields) := by
  induction fields with
  | nil => exact alike_pure _
  | cons p ps ih =>
    refine (h p (by simp) _ _ (c.member _ _ hab)).map₂ (ih fun q hq => h q ?_)
      fun r ps => ⟨p.1, k.requires p.1, r⟩ :: ps
    exact List.mem_cons_of_mem _ hq

theorem alike_compileRest {k : Keywords Schema} {a b : Site} (hab : c.Sites a b)
    (h : ∀ x ∈ k.additionalProperties, ∀ a b, c.Sites a b →
      c.Alike (compile₁ x a) (compile₂ x b)) :
    c.Alike (compileRest compile₁ k a) (compileRest compile₂ k b) := by
  unfold compileRest
  split
  · exact alike_pure _
  · exact alike_pure _
  · exact alike_pure _
  next x _ _ hx => exact (h x hx _ _ (c.under _ hab)).map _

theorem alike_compileElement {k : Keywords Schema} {a b : Site} (hab : c.Sites a b)
    (h : ∀ x ∈ k.elementSchema?, ∀ a b, c.Sites a b → c.Alike (compile₁ x a) (compile₂ x b)) :
    c.Alike (compileElement compile₁ k a) (compileElement compile₂ k b) := by
  unfold compileElement
  split
  next x hx => exact h x (by simp [Keywords.elementSchema?, hx]) _ _ (c.under _ hab)
  next x _ hx => exact h x (by simp [Keywords.elementSchema?, hx]) _ _ (c.member _ _ hab)
  · exact alike_pure _

/-- Both handlers treat an unknown type name alike. -/
def AlikeOnTypes (c : Comparison σ τ) (h₁ : Handlers σ) (h₂ : Handlers τ) : Prop :=
  ∀ name a b, c.Sites a b → c.Alike (h₁.unknownType name a) (h₂.unknownType name b)

/-- Both handlers treat a reference alike. -/
def AlikeOn (c : Comparison σ τ) (h₁ : Handlers σ) (h₂ : Handlers τ) (pointer : String) : Prop :=
  ∀ a b, c.Sites a b → c.Alike (h₁.reference pointer a) (h₂.reference pointer b)

theorem alike_compileTag (types : c.AlikeOnTypes h₁ h₂) {k : Keywords Schema} {a b : Site}
    (hab : c.Sites a b) {tag : TypeTag} (h : ∀ x ∈ k.tagSchemas tag, ∀ a b, c.Sites a b →
      c.Alike (compile₁ x a) (compile₂ x b)) :
    c.Alike (compileTag h₁ compile₁ k a tag) (compileTag h₂ compile₂ k b tag) := by
  cases tag with
  | null | boolean | number | integer | string => exact alike_pure _
  | unknown name => exact types name a b hab
  | array =>
    refine (alike_compileElement hab fun x hx => h x ?_).map _
    simpa [Keywords.tagSchemas] using hx
  | object =>
    refine (alike_compileProperties hab fun p hp => h p.2 ?_).map₂
      (alike_compileRest hab fun x hx => h x ?_) Validator.object
    · exact List.mem_append_left _ (List.mem_map_of_mem hp)
    · exact List.mem_append_right _ (Option.mem_toList.2 hx)

theorem alike_compileTags (types : c.AlikeOnTypes h₁ h₂) {k : Keywords Schema} {a b : Site}
    (hab : c.Sites a b) {tags : List TypeTag} (h : ∀ x ∈ tags.flatMap k.tagSchemas, ∀ a b,
      c.Sites a b → c.Alike (compile₁ x a) (compile₂ x b)) :
    c.Alike (compileTags h₁ compile₁ k a tags) (compileTags h₂ compile₂ k b tags) := by
  induction tags with
  | nil => exact alike_pure _
  | cons tag tags ih =>
    rw [List.flatMap_cons] at h
    exact (alike_compileTag types hab fun x hx => h x (List.mem_append_left _ hx)).map₂
      (ih fun x hx => h x (List.mem_append_right _ hx)) _

theorem alike_compileTyped (types : c.AlikeOnTypes h₁ h₂) {k : Keywords Schema} {a b : Site}
    (hab : c.Sites a b) (h : ∀ x ∈ k.typeSchemas, ∀ a b, c.Sites a b →
      c.Alike (compile₁ x a) (compile₂ x b)) :
    c.Alike (compileTyped h₁ compile₁ k a) (compileTyped h₂ compile₂ k b) := by
  unfold Keywords.typeSchemas at h
  unfold compileTyped
  cases shape : k.typeShape <;> rw [shape] at h
  case one tag => exact alike_compileTag types hab h
  case many tags => exact (alike_compileTags types hab h).map _
  case untyped => exact alike_pure _

theorem alike_compileAllOf {members : List Schema} {a b : Site} (hab : c.Sites a b)
    (h : ∀ x ∈ members, ∀ a b, c.Sites a b → c.Alike (compile₁ x a) (compile₂ x b)) :
    c.Alike (compileAllOf compile₁ members a) (compileAllOf compile₂ members b) := by
  unfold compileAllOf
  split
  · exact alike_pure _
  next x => exact h x (by simp) _ _ (c.member _ _ hab)
  · exact (alike_compileMembers hab h 0).map _

theorem alike_compileAnyOf {keyword : String} {members : List Schema} {a b : Site}
    (hab : c.Sites a b)
    (h : ∀ x ∈ members, ∀ a b, c.Sites a b → c.Alike (compile₁ x a) (compile₂ x b)) :
    c.Alike (compileAnyOf compile₁ keyword members a)
      (compileAnyOf compile₂ keyword members b) := by
  unfold compileAnyOf
  split
  · exact alike_pure _
  next x => exact h x (by simp) _ _ (c.member _ _ hab)
  · exact (alike_compileMembers hab h 0).map _

theorem alike_compileNode (types : c.AlikeOnTypes h₁ h₂) {schema : Schema} {a b : Site}
    (hab : c.Sites a b)
    (references : ∀ pointer, schema.shape = .reference pointer → c.AlikeOn h₁ h₂ pointer)
    (h : ∀ x ∈ schema.children, ∀ a b, c.Sites a b → c.Alike (compile₁ x a) (compile₂ x b)) :
    c.Alike (compileNode h₁ compile₁ schema a) (compileNode h₂ compile₂ schema b) := by
  unfold Schema.children at h
  unfold compileNode
  cases shape : schema.shape <;> rw [shape] at h
  case bool accepts => cases accepts <;> exact alike_pure _
  case reference pointer => exact references pointer shape a b hab
  case allOf => exact alike_compileAllOf hab h
  case anyOf => exact alike_compileAnyOf hab h
  case oneOf => exact alike_compileAnyOf hab h
  case not x => exact (h x (by simp [Shape.children]) _ _ (c.under _ hab)).map _
  case const => exact alike_pure _
  case enum => exact alike_pure _
  case nullable => exact (alike_compileTyped types hab h).map _
  case typed => exact alike_compileTyped types hab h

end Node

end Comparison

/-! ## Whole schemas -/

/-- Compilations of a schema are alike if handlers treat its references and unknown type names
alike. -/
theorem Comparison.alike_compileWithin {σ τ : Type} {c : Comparison σ τ} {h₁ : Handlers σ}
    {h₂ : Handlers τ} (types : c.AlikeOnTypes h₁ h₂) (room : Nat) {schema : Schema}
    (references : ∀ pointer ∈ schema.references, c.AlikeOn h₁ h₂ pointer) {a b : Site}
    (hab : c.Sites a b) :
    c.Alike (compileWithin h₁ room schema a) (compileWithin h₂ room schema b) := by
  induction room generalizing schema a b with
  | zero => exact alike_pure _
  | succ room ih =>
    refine alike_compileNode types hab (fun pointer shape => ?_) fun x hx a b hab => ?_
    · exact references pointer (by simp [Schema.references_of_shape shape])
    · exact ih (fun p hp => references p (Schema.references_subset_of_mem_children hx hp)) hab

end SchemaCompiler
