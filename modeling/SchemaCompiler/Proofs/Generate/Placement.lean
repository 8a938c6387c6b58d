import SchemaCompiler.Proofs.Compile.Comparison
import SchemaCompiler.Proofs.Compile.Whole
import SchemaCompiler.Proofs.Generate.Calls

/-!
# Where a schema stands

The depth of a schema only matters where schemas are cut off, and its path only where something is
reported. So a schema that is not cut off compiles to the same, and does the same to the table of
definitions, wherever it stands: `compile_anywhere`, in any state. What is reported differs in
nothing but paths. Definitions that are generated on the way start at sites of their own, which are
the same on both sides.

In particular a schema may be wrapped in compositions of a single member (`Schema.Wrapped`) as long
as there is room for them.
-/

namespace SchemaCompiler

/-! ## Room -/

/-- Any two rooms that are enough for the whole schema are the same to it. -/
theorem compileWithin_of_height_lt {σ : Type} {h : Handlers σ} {room room' : Nat} {schema : Schema}
    (enough : schema.height < room) (enough' : schema.height < room') (site : Site) :
    compileWithin h room schema site = compileWithin h room' schema site := by
  induction room generalizing room' schema site with
  | zero => omega
  | succ room ih =>
    obtain ⟨room', rfl⟩ : ∃ n, room' = n + 1 := ⟨room' - 1, by omega⟩
    funext s
    refine compileNode_congr (P := fun _ => True) (fun v hv s _ => ?_) (fun _ _ _ _ => trivial)
      trivial
    cases v with
    | schema x path =>
      have := Schema.height_lt_of_mem_visited (Schema.mem_visited hv)
      exact congrArg (StateT.run · s) (ih (by omega) (by omega) (site.down path))
    | reference | unknownType => rfl

/-! ## Paths -/

/-- Findings that differ in their paths at most. -/
structure Diagnostic.SameButPath (d d' : Diagnostic) : Prop where
  kind : d.kind = d'.kind
  message : d.message = d'.message

/-- States that differ in the paths of findings at most. -/
structure Run.SameButPaths {defs : List Definition} (r r' : Run defs) : Prop where
  table : r.table = r'.table
  diagnostics : List.Forall₂ Diagnostic.SameButPath r.diagnostics r'.diagnostics

theorem Diagnostic.SameButPath.refl (d : Diagnostic) : d.SameButPath d := ⟨rfl, rfl⟩

theorem danglingReference_sameButPath (pointer : String) (a b : Site) :
    (Diagnostic.danglingReference pointer a).SameButPath (.danglingReference pointer b) := by
  unfold Diagnostic.danglingReference
  exact ⟨rfl, rfl⟩

theorem unknownType_sameButPath (name : String) (a b : Site) :
    (Diagnostic.unknownType name a).SameButPath (.unknownType name b) := ⟨rfl, rfl⟩

section

variable {defs : List Definition}

theorem Run.SameButPaths.refl (r : Run defs) : r.SameButPaths r :=
  ⟨rfl, List.forall₂_same.2 fun d _ => .refl d⟩

/-- Two runs side by side, at any sites. -/
def besidePaths (defs : List Definition) : Comparison (Run defs) (Run defs) where
  Sites _ _ := True
  under _ _ := trivial
  member _ _ _ := trivial
  Related := Run.SameButPaths
  Moves _ _ := True
  refl _ := trivial
  trans _ _ := trivial
  Settled _ := True
  settled_of_moves _ _ := trivial

/-- Two computations return and do the same, but for the paths of findings. -/
def Unplaced {α : Type} (m n : StateM (Run defs) α) : Prop := (besidePaths defs).Alike m n

namespace Unplaced

variable {α β : Type} {m n : StateM (Run defs) α}

theorem pure (a : α) : Unplaced (Pure.pure a : StateM (Run defs) α) (Pure.pure a) :=
  Comparison.alike_pure a

theorem bind {f g : α → StateM (Run defs) β} (first : Unplaced m n)
    (next : ∀ a, Unplaced (f a) (g a)) : Unplaced (m >>= f) (n >>= g) := by
  intro r r' same
  obtain ⟨related, -, result⟩ := first r r' same
  have run : (m >>= f).run r = (f (n.run r').1).run (m.run r).2 := by
    rw [← result trivial]
    rfl
  rw [run]
  exact next _ _ _ related

/-- What is done may depend on the table, which is the same. -/
theorem get_bind {f g : Run defs → StateM (Run defs) β}
    (next : ∀ r r' : Run defs, r.table = r'.table → Unplaced (f r) (g r')) :
    Unplaced (get >>= f) (get >>= g) := fun r r' same => next r r' same.table r r' same

theorem report {d d' : Diagnostic} (same : d.SameButPath d') :
    Unplaced (SchemaCompiler.report d : StateM (Run defs) Unit) (SchemaCompiler.report d') := by
  intro r r' related
  exact ⟨⟨related.table, List.rel_append related.diagnostics (.cons same .nil)⟩, trivial,
    fun _ => rfl⟩

theorem updateTable (f : Table defs → Table defs) :
    Unplaced (SchemaCompiler.updateTable f) (SchemaCompiler.updateTable f) := by
  intro r r' related
  exact ⟨⟨congrArg f related.table, related.diagnostics⟩, trivial, fun _ => rfl⟩

theorem unknownType (name : String) (a b : Site) :
    Unplaced (compileUnknownType name a : StateM (Run defs) Validator)
      (compileUnknownType name b) :=
  bind (report (unknownType_sameButPath name a b)) fun _ => pure _

/-! ## Compilations -/

section Handlers

variable {generate : Fin defs.length → StateM (Run defs) Unit}
  (same : ∀ i, Unplaced (generate i) (generate i))

include same

theorem resolveWith (pointer : String) (a b : Site) :
    Unplaced (SchemaCompiler.resolveWith generate pointer a)
      (SchemaCompiler.resolveWith generate pointer b) := by
  unfold SchemaCompiler.resolveWith
  cases lookup? defs pointer with
  | none => exact bind (report (danglingReference_sameButPath pointer a b)) fun _ => pure _
  | some i =>
    refine get_bind fun r r' tables => ?_
    rw [← tables]
    split
    · refine bind (updateTable _) fun _ => get_bind fun r r' tables => ?_
      rw [← tables]
      exact pure _
    · have last : Unplaced (get >>= fun r : Run defs => Pure.pure (r.table.referenceTo i))
          (get >>= fun r => Pure.pure (r.table.referenceTo i)) :=
        get_bind fun r r' tables => by
          rw [← tables]
          exact pure _
      refine get_bind fun r r' tables => ?_
      rw [← tables]
      split
      · exact bind (same i) fun _ => last
      · exact last

theorem compileWithin (room : Nat) (schema : Schema) (a b : Site) :
    Unplaced (SchemaCompiler.compileWithin (handlers generate) room schema a)
      (SchemaCompiler.compileWithin (handlers generate) room schema b) := by
  have types : (besidePaths defs).AlikeOnTypes (handlers generate) (handlers generate) :=
    fun name a b _ => unknownType name a b
  have references : ∀ pointer,
      (besidePaths defs).AlikeOn (handlers generate) (handlers generate) pointer :=
    fun pointer a b _ => resolveWith same pointer a b
  exact Comparison.alike_compileWithin types room (fun pointer _ => references pointer) trivial

end Handlers

theorem generateWithin (maxDepth fuel : Nat) (i : Fin defs.length) :
    Unplaced (SchemaCompiler.generateWithin maxDepth fuel i)
      (SchemaCompiler.generateWithin maxDepth fuel i) := by
  induction fuel generalizing i with
  | zero => exact pure ()
  | succ fuel ih =>
    refine get_bind fun r r' tables => ?_
    rw [← tables]
    split
    · exact report (.refl _)
    · exact bind (updateTable _) fun _ => bind (compileWithin ih _ _ _ _) fun _ => updateTable _

theorem compile {maxDepth : Nat} {schema : Schema} {a b : Site}
    (h : a.depth = b.depth ∨
      a.depth + schema.height ≤ maxDepth ∧ b.depth + schema.height ≤ maxDepth) :
    Unplaced (SchemaCompiler.compile maxDepth schema a : StateM (Run defs) Validator)
      (SchemaCompiler.compile maxDepth schema b) := by
  have room : (SchemaCompiler.compile maxDepth schema b : StateM (Run defs) Validator) =
      SchemaCompiler.compileWithin (handlers (generate maxDepth)) (roomAt maxDepth a.depth)
        schema b := by
    rcases h with depth | ⟨fits, fits'⟩
    · rw [SchemaCompiler.compile, depth]
    · refine compileWithin_of_height_lt ?_ ?_ b <;> unfold roomAt <;> omega
  rw [room]
  exact compileWithin (generateWithin maxDepth _) _ _ a b

end Unplaced

end

/-! ## Wrapped schemas -/

/-- The schema is `n` times wrapped in a composition of which it is the only member. -/
inductive Schema.Wrapped (s : Schema) : (n : Nat) → Schema → Prop where
  | bare : Wrapped s 0 s
  | allOf {n : Nat} {x outer : Schema} (inner : Wrapped s n x) (shape : outer.shape = .allOf [x]) :
      Wrapped s (n + 1) outer
  | anyOf {n : Nat} {x outer : Schema} (inner : Wrapped s n x) (shape : outer.shape = .anyOf [x]) :
      Wrapped s (n + 1) outer
  | oneOf {n : Nat} {x outer : Schema} (inner : Wrapped s n x) (shape : outer.shape = .oneOf [x]) :
      Wrapped s (n + 1) outer

/-- Compiling a wrapped schema is compiling the schema further in, with what room is left. -/
theorem Schema.Wrapped.exists_inside {σ : Type} {h : Handlers σ} {s outer : Schema} {n : Nat}
    (wrapped : s.Wrapped n outer) (room : Nat) (site : Site) :
    ∃ inside : Site, compileWithin h (room + n) outer site = compileWithin h room s inside := by
  induction wrapped generalizing site with
  | bare => exact ⟨site, rfl⟩
  | @allOf n x outer _ shape ih =>
    obtain ⟨inside, same⟩ := ih (site.item "allOf" 0)
    refine ⟨inside, ?_⟩
    rw [← same, ← Nat.add_assoc, compileWithin, compileNode, shape]
    rfl
  | @anyOf n x outer _ shape ih =>
    obtain ⟨inside, same⟩ := ih (site.item "anyOf" 0)
    refine ⟨inside, ?_⟩
    rw [← same, ← Nat.add_assoc, compileWithin, compileNode, shape]
    rfl
  | @oneOf n x outer _ shape ih =>
    obtain ⟨inside, same⟩ := ih (site.item "oneOf" 0)
    refine ⟨inside, ?_⟩
    rw [← same, ← Nat.add_assoc, compileWithin, compileNode, shape]
    rfl

theorem Schema.Wrapped.unplaced {defs : List Definition} {maxDepth n : Nat} {s outer : Schema}
    (wrapped : s.Wrapped n outer) {site : Site} (fits : site.depth + n + s.height ≤ maxDepth) :
    Unplaced (compile maxDepth outer site : StateM (Run defs) Validator)
      (compile maxDepth s site) := by
  obtain ⟨inside, same⟩ : ∃ inside : Site,
      compileWithin (handlers (generate maxDepth)) (roomAt maxDepth (site.depth + n) + n) outer
          site =
        (compileWithin (handlers (generate maxDepth)) (roomAt maxDepth (site.depth + n)) s inside :
          StateM (Run defs) Validator) := wrapped.exists_inside _ site
  have rooms : roomAt maxDepth (site.depth + n) + n = roomAt maxDepth site.depth := by
    unfold roomAt
    omega
  rw [rooms] at same
  have outside : (compile maxDepth s site : StateM (Run defs) Validator) =
      compileWithin (handlers (generate maxDepth)) (roomAt maxDepth (site.depth + n)) s site := by
    refine compileWithin_of_height_lt ?_ ?_ site <;> unfold roomAt <;> omega
  rw [compile, same, outside]
  exact .compileWithin (.generateWithin maxDepth _) _ _ _ _

/-! ## Compilations at different places -/

/-- In any state, a schema compiles to the same validator at any two sites of one depth, and at any
two sites at which nothing of it is cut off; wrapping it in compositions of a single member makes no
difference either, as long as nothing is cut off. The tables of definitions are the same
afterwards, and the findings are the same but for their paths. -/
theorem compile_anywhere {defs : List Definition} (r : Run defs) (maxDepth : Nat)
    (schema : Schema) :
    (∀ a b : Site, (a.depth = b.depth ∨
        a.depth + schema.height ≤ maxDepth ∧ b.depth + schema.height ≤ maxDepth) →
      ((compile maxDepth schema a).run r).1 = ((compile maxDepth schema b).run r).1 ∧
      ((compile maxDepth schema a).run r).2.SameButPaths ((compile maxDepth schema b).run r).2) ∧
    ∀ (n : Nat) (outer : Schema) (site : Site), schema.Wrapped n outer →
      site.depth + n + schema.height ≤ maxDepth →
      ((compile maxDepth outer site).run r).1 = ((compile maxDepth schema site).run r).1 ∧
      ((compile maxDepth outer site).run r).2.SameButPaths
        ((compile maxDepth schema site).run r).2 := by
  refine ⟨fun a b h => ?_, fun n outer site wrapped fits => ?_⟩
  · obtain ⟨related, -, same⟩ := Unplaced.compile h r r (.refl r)
    exact ⟨same trivial, related⟩
  · obtain ⟨related, -, same⟩ := wrapped.unplaced fits r r (.refl r)
    exact ⟨same trivial, related⟩

namespace listOfLists

def elements : Schema := .object { reference := some "#/definitions/A" }

/-- An array of references to its only definition, which is such an array, too. -/
def array : Schema := .object {
  type := some (.one .array), items := some (.all elements)
  definitions := some [("A", .object {
    type := some (.one .array), items := some (.all elements) })] }

def wrapped : Schema := .object { anyOf := some [.object { allOf := some [array] }] }

theorem height_le : array.height ≤ 1 := by
  have leaf : elements.height ≤ 0 := Schema.height_le_iff.2 fun x (hx : x ∈ []) => by simp at hx
  refine Schema.height_le_iff.2 fun x (hx : x ∈ [elements]) => ?_
  obtain rfl := List.mem_singleton.1 hx
  exact Nat.lt_succ_of_le leaf

theorem wrapped_array : array.Wrapped 2 wrapped := .anyOf (.allOf .bare rfl) rfl

/-- The definition is generated from three schemas further in as it is from the root. -/
theorem compile_anywhere_listOfLists :
    3 + array.height ≤ 4 ∧ 0 + array.height ≤ 4 ∧ array.Wrapped 2 wrapped ∧
    let r := Run.initial array []
    let atRoot := (compile 4 array .root).run r
    atRoot.1.code = "v.array(ASchema)" ∧ atRoot.2.table.completed.length = 1 ∧
    ((compile 4 array ⟨3, ["a", "b", "c"]⟩).run r).1 = atRoot.1 ∧
    ((compile 4 array ⟨3, ["a", "b", "c"]⟩).run r).2.SameButPaths atRoot.2 ∧
    ((compile 4 wrapped .root).run r).1 = atRoot.1 ∧
    ((compile 4 wrapped .root).run r).2.SameButPaths atRoot.2 := by
  have low := height_le
  have below : 3 + array.height ≤ 4 ∧ 0 + array.height ≤ 4 := ⟨by omega, by omega⟩
  obtain ⟨anywhere, inside⟩ := compile_anywhere (Run.initial array []) 4 array
  obtain ⟨same, states⟩ := anywhere ⟨3, ["a", "b", "c"]⟩ .root (.inr below)
  obtain ⟨same', states'⟩ := inside 2 wrapped .root wrapped_array (by
    show 0 + 2 + array.height ≤ 4
    omega)
  refine ⟨below.1, below.2, wrapped_array, ?_, ?_, same, states, same', states'⟩
  · decide +kernel
  · decide +kernel

end listOfLists

end SchemaCompiler
