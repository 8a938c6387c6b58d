import SchemaCompiler.Compile

/-!
# What compiling a schema visits

Which sub-schemas, references and unknown type names a schema has, and in which order they are
compiled, does not depend on a state nor on what the ones before compiled to: `Schema.visits` lists
them. Compiling a schema is to perform its visits one after the other and to put together what they
return (`exists_run_compileNode`). So what all visits keep, the compilation keeps, and where all
visits do the same, so does the compilation.
-/

namespace SchemaCompiler

/-! ## Visits -/

/-- A sub-schema that is compiled, with its path from the schema; a reference or an unknown type
name in the schema itself. -/
inductive Visit where
  | schema (x : Schema) (path : List String)
  | reference (pointer : String)
  | unknownType (name : String)

/-- The visits to the members of a composition from position `i` on. -/
def memberVisits (keyword : String) : (i : Nat) → List Schema → List Visit
  | _, [] => []
  | i, x :: xs => .schema x [keyword, toString i] :: memberVisits keyword (i + 1) xs

namespace Keywords

def fieldVisits (k : Keywords Schema) : List Visit :=
  k.fields.map fun (name, x) => .schema x ["properties", name]

/-- What further properties are is compiled only if it is a schema object. -/
def restVisits (k : Keywords Schema) : List Visit :=
  match k.additionalProperties with
  | none => []
  | some (.bool _) => []
  | some extra => [.schema extra ["additionalProperties"]]

def elementVisits (k : Keywords Schema) : List Visit :=
  match k.items with
  | some (.all x) => [.schema x ["items"]]
  | some (.each (x :: _)) => [.schema x ["items", toString 0]]
  | _ => []

def tagVisits (k : Keywords Schema) : TypeTag → List Visit
  | .array => k.elementVisits
  | .object => k.fieldVisits ++ k.restVisits
  | .unknown name => [.unknownType name]
  | _ => []

/-- The visits for the type; once for each name in a list of types. -/
def typeVisits (k : Keywords Schema) : List Visit :=
  match k.typeShape with
  | .one tag => k.tagVisits tag
  | .many tags => tags.flatMap k.tagVisits
  | .untyped => []

end Keywords

/-- What compiling a schema visits, in order. -/
def Schema.visits (s : Schema) : List Visit :=
  match s.shape with
  | .reference pointer => [.reference pointer]
  | .allOf members => memberVisits "allOf" 0 members
  | .anyOf members => memberVisits "anyOf" 0 members
  | .oneOf members => memberVisits "oneOf" 0 members
  | .not negated => [.schema negated ["not"]]
  | .nullable k => k.typeVisits
  | .typed k => k.typeVisits
  | _ => []

/-! ## Performing visits -/

/-- One schema further in. -/
def Site.down (s : Site) (path : List String) : Site := ⟨s.depth + 1, s.path ++ path⟩

section Perform

variable {σ : Type} (h : Handlers σ) (compile : Schema → Site → StateM σ Validator) (site : Site)

def Visit.perform : Visit → StateM σ Validator
  | .schema x path => compile x (site.down path)
  | .reference pointer => h.reference pointer site
  | .unknownType name => h.unknownType name site

def performAll : List Visit → StateM σ (List Validator)
  | [] => pure []
  | v :: vs => do
    let r ← v.perform h compile site
    let rs ← performAll vs
    return r :: rs

variable {h compile site} {h' : Handlers σ} {compile' : Schema → Site → StateM σ Validator}
  {vs ws : List Visit} {s : σ} {P : σ → Prop}

theorem run_performAll_cons (v : Visit) :
    (performAll h compile site (v :: vs)).run s =
      (((v.perform h compile site).run s).1 ::
          ((performAll h compile site vs).run ((v.perform h compile site).run s).2).1,
        ((performAll h compile site vs).run ((v.perform h compile site).run s).2).2) := rfl

theorem length_performAll (vs : List Visit) (s : σ) :
    ((performAll h compile site vs).run s).1.length = vs.length := by
  induction vs generalizing s with
  | nil => rfl
  | cons v vs ih => rw [run_performAll_cons, List.length_cons, ih, List.length_cons]

theorem run_performAll_append :
    (performAll h compile site (vs ++ ws)).run s =
      (((performAll h compile site vs).run s).1 ++
          ((performAll h compile site ws).run ((performAll h compile site vs).run s).2).1,
        ((performAll h compile site ws).run ((performAll h compile site vs).run s).2).2) := by
  induction vs generalizing s with
  | nil => rfl
  | cons v vs ih =>
    rw [List.cons_append, run_performAll_cons, ih]
    rfl

/-- What every visit keeps, all together keep. -/
theorem performAll_keeps (keeps : ∀ v ∈ vs, ∀ s, P s → P ((v.perform h compile site).run s).2)
    (hs : P s) : P ((performAll h compile site vs).run s).2 := by
  induction vs generalizing s with
  | nil => exact hs
  | cons v vs ih =>
    obtain ⟨first, rest⟩ := List.forall_mem_cons.1 keeps
    exact ih rest (first s hs)

/-- Visits are performed alike if each of them is, in the states that are reached. -/
theorem performAll_congr (same : ∀ v ∈ vs, ∀ s, P s →
      (v.perform h compile site).run s = (v.perform h' compile' site).run s)
    (keeps : ∀ v ∈ vs, ∀ s, P s → P ((v.perform h compile site).run s).2) (hs : P s) :
    (performAll h compile site vs).run s = (performAll h' compile' site vs).run s := by
  induction vs generalizing s with
  | nil => rfl
  | cons v vs ih =>
    obtain ⟨first, rest⟩ := List.forall_mem_cons.1 same
    obtain ⟨kept, keeps⟩ := List.forall_mem_cons.1 keeps
    rw [run_performAll_cons, run_performAll_cons, ← first s hs,
      ih rest keeps (kept s hs)]

end Perform

/-! ## Steps that are made of visits -/

/-- A step, for all handlers, that performs visits and puts together what they return. -/
def MadeOf {α : Type} (site : Site) (vs : List Visit)
    (m : ∀ σ : Type, Handlers σ → (Schema → Site → StateM σ Validator) → StateM σ α) : Prop :=
  ∃ build : List Validator → α, ∀ (σ : Type) (h : Handlers σ) (compile) (s : σ),
    (m σ h compile).run s = (build ((performAll h compile site vs).run s).1,
      ((performAll h compile site vs).run s).2)

namespace MadeOf

variable {α β γ : Type} {site : Site} {vs ws : List Visit}
  {m : ∀ σ : Type, Handlers σ → (Schema → Site → StateM σ Validator) → StateM σ α}
  {n : ∀ σ : Type, Handlers σ → (Schema → Site → StateM σ Validator) → StateM σ β}

theorem nothing (a : α) : MadeOf site [] fun _ _ _ => pure a := ⟨fun _ => a, fun _ _ _ _ => rfl⟩

theorem single (v : Visit) : MadeOf site [v] fun _ h compile => v.perform h compile site :=
  ⟨fun rs => rs.headD .any, fun _ _ _ _ => rfl⟩

theorem map (hm : MadeOf site vs m) (f : α → γ) :
    MadeOf site vs fun σ h compile => f <$> m σ h compile := by
  obtain ⟨build, run⟩ := hm
  refine ⟨fun rs => f (build rs), fun σ h compile s => ?_⟩
  rw [StateT.run_map, run]
  rfl

/-- Two steps one after the other. -/
theorem map₂ (hm : MadeOf site vs m) (hn : MadeOf site ws n) (f : α → β → γ) :
    MadeOf site (vs ++ ws) fun σ h compile => do
      let a ← m σ h compile
      let b ← n σ h compile
      return f a b := by
  obtain ⟨build, run⟩ := hm
  obtain ⟨build', run'⟩ := hn
  -- The first results are as many as there are first visits.
  refine ⟨fun rs => f (build (rs.take vs.length)) (build' (rs.drop vs.length)),
    fun σ h compile s => ?_⟩
  have length : ((performAll h compile site vs).run s).1.length = vs.length :=
    length_performAll vs s
  rw [StateT.run_bind, run, run_performAll_append]
  simp only [← length, List.take_left', List.drop_left']
  simp only [StateT.run_bind, run']
  rfl

end MadeOf

/-! ## Compilations are made of visits -/

variable {k : Keywords Schema} {site : Site}

theorem madeOf_compileMembers (keyword : String) (i : Nat) (members : List Schema) :
    MadeOf site (memberVisits keyword i members) fun _ _ compile =>
      compileMembers compile keyword site i members := by
  induction members generalizing i with
  | nil => exact .nothing _
  | cons x xs ih => exact (MadeOf.single (.schema x [keyword, toString i])).map₂ (ih (i + 1)) _

theorem madeOf_compileProperties (fields : List (String × Schema)) :
    MadeOf site (fields.map fun (name, x) => .schema x ["properties", name]) fun _ _ compile =>
      compileProperties compile k site fields := by
  induction fields with
  | nil => exact .nothing _
  | cons p ps ih =>
    exact (MadeOf.single (.schema p.2 ["properties", p.1])).map₂ ih
      fun r ps => ⟨p.1, k.requires p.1, r⟩ :: ps

theorem madeOf_compileRest :
    MadeOf site k.restVisits fun _ _ compile => compileRest compile k site := by
  unfold compileRest Keywords.restVisits
  rcases k.additionalProperties with _ | (_ | _) | keywords
  · exact .nothing _
  · exact .nothing _
  · exact .nothing _
  · exact (MadeOf.single (.schema (.object keywords) ["additionalProperties"])).map _

theorem madeOf_compileElement :
    MadeOf site k.elementVisits fun _ _ compile => compileElement compile k site := by
  unfold compileElement Keywords.elementVisits
  rcases k.items with _ | x | (_ | ⟨x, xs⟩)
  · exact .nothing _
  · exact .single (.schema x ["items"])
  · exact .nothing _
  · exact .single (.schema x ["items", toString 0])

theorem madeOf_compileTag (tag : TypeTag) :
    MadeOf site (k.tagVisits tag) fun _ h compile => compileTag h compile k site tag := by
  cases tag with
  | null | boolean | number | integer | string => exact .nothing _
  | unknown name => exact .single (.unknownType name)
  | array => exact madeOf_compileElement.map _
  | object => exact (madeOf_compileProperties k.fields).map₂ madeOf_compileRest Validator.object

theorem madeOf_compileTags (tags : List TypeTag) :
    MadeOf site (tags.flatMap k.tagVisits) fun _ h compile => compileTags h compile k site tags := by
  induction tags with
  | nil => exact .nothing _
  | cons tag tags ih =>
    rw [List.flatMap_cons]
    exact (madeOf_compileTag tag).map₂ ih _

theorem madeOf_compileTyped :
    MadeOf site k.typeVisits fun _ h compile => compileTyped h compile k site := by
  unfold compileTyped Keywords.typeVisits
  cases k.typeShape with
  | one tag => exact madeOf_compileTag tag
  | many tags => exact (madeOf_compileTags tags).map _
  | untyped => exact .nothing _

theorem madeOf_compileAllOf (members : List Schema) :
    MadeOf site (memberVisits "allOf" 0 members) fun _ _ compile =>
      compileAllOf compile members site := by
  rcases members with _ | ⟨x, _ | ⟨y, rest⟩⟩
  · exact .nothing _
  · exact .single (.schema x ["allOf", toString 0])
  · exact (madeOf_compileMembers "allOf" 0 _).map _

theorem madeOf_compileAnyOf (keyword : String) (members : List Schema) :
    MadeOf site (memberVisits keyword 0 members) fun _ _ compile =>
      compileAnyOf compile keyword members site := by
  rcases members with _ | ⟨x, _ | ⟨y, rest⟩⟩
  · exact .nothing _
  · exact .single (.schema x [keyword, toString 0])
  · exact (madeOf_compileMembers keyword 0 _).map _

theorem madeOf_compileNode (schema : Schema) (site : Site) :
    MadeOf site schema.visits fun _ h compile => compileNode h compile schema site := by
  unfold compileNode Schema.visits
  cases schema.shape with
  | bool accepts => cases accepts <;> exact .nothing _
  | reference pointer => exact .single (.reference pointer)
  | allOf members => exact madeOf_compileAllOf members
  | anyOf members => exact madeOf_compileAnyOf "anyOf" members
  | oneOf members => exact madeOf_compileAnyOf "oneOf" members
  | not negated => exact (MadeOf.single (.schema negated ["not"])).map _
  | const value => exact .nothing _
  | enum values => exact .nothing _
  | nullable k => exact madeOf_compileTyped.map _
  | typed k => exact madeOf_compileTyped

/-- Compiling a schema performs its visits and puts together what they return, in the same way for
all handlers. -/
theorem exists_run_compileNode (schema : Schema) (site : Site) :
    ∃ build : List Validator → Validator, ∀ (σ : Type) (h : Handlers σ) (compile) (s : σ),
      (compileNode h compile schema site).run s =
        (build ((performAll h compile site schema.visits).run s).1,
          ((performAll h compile site schema.visits).run s).2) := madeOf_compileNode schema site

section Node

variable {σ : Type} {h h' : Handlers σ} {compile compile' : Schema → Site → StateM σ Validator}
  {schema : Schema} {s : σ} {P : σ → Prop}

theorem state_compileNode :
    ((compileNode h compile schema site).run s).2 =
      ((performAll h compile site schema.visits).run s).2 := by
  obtain ⟨build, run⟩ := exists_run_compileNode schema site
  rw [run]

theorem compileNode_congr (same : ∀ v ∈ schema.visits, ∀ s, P s →
      (v.perform h compile site).run s = (v.perform h' compile' site).run s)
    (keeps : ∀ v ∈ schema.visits, ∀ s, P s → P ((v.perform h compile site).run s).2) (hs : P s) :
    (compileNode h compile schema site).run s = (compileNode h' compile' schema site).run s := by
  obtain ⟨build, run⟩ := exists_run_compileNode schema site
  rw [run, run, performAll_congr same keeps hs]

end Node

end SchemaCompiler
