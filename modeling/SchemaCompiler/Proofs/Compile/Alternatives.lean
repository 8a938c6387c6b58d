import SchemaCompiler.Proofs.Compile.Policies
import SchemaCompiler.Proofs.Generate.Again
import SchemaCompiler.Proofs.Generate.Sustained

/-!
# Alternatives that do not count

In the members of an `anyOf` or a `oneOf`, neither the schema `false` nor a repetition of a member
counts: adding them anywhere (`Padded`), a repetition after the member that it repeats, changes
nothing in what the composition compiles to and in the table of definitions (`compile_padded`), in
whatever state, also in the middle of generating definitions, and also if a single member gets
company, which is compiled by another rule.

A repetition is compiled in a state that other members have changed, but what it compiles to has
been settled by the member that it repeats (`compile_again`).
-/

namespace SchemaCompiler

/-! ## Padded lists -/

/-- The second list is the first one with some elements added: `blank` ones anywhere, and elements
that occur earlier in the list once more. Those in `earlier` have occurred before. -/
inductive Padded {α : Type} (blank : α → Prop) : (earlier xs ys : List α) → Prop where
  | nil {earlier : List α} : Padded blank earlier [] []
  | keep {earlier xs ys : List α} (x : α) (rest : Padded blank (x :: earlier) xs ys) :
    Padded blank earlier (x :: xs) (x :: ys)
  | blank {earlier xs ys : List α} {x : α} (h : blank x) (rest : Padded blank earlier xs ys) :
    Padded blank earlier xs (x :: ys)
  | again {earlier xs ys : List α} {x : α} (h : x ∈ earlier) (rest : Padded blank earlier xs ys) :
    Padded blank earlier xs (x :: ys)

theorem Padded.ne_nil {α : Type} {blank : α → Prop} {earlier xs ys : List α}
    (h : Padded blank earlier xs ys) (nonempty : xs ≠ []) : ys ≠ [] := by
  cases h with
  | nil => exact nonempty
  | keep | blank | again => exact List.cons_ne_nil _ _

namespace Validator

variable {r : Validator} {rs ss earlier : List Validator}

/-! ## Unions -/

/-- The members of a union after those in `kept`, in the order in which they are looked at. -/
theorem foldl_distinct_padded (padded : Padded (·.isNever) earlier rs ss) (kept : List Validator)
    (known : ∀ r ∈ earlier, r.isNever = false → kept.any (·.code == r.code)) :
    (rs.filter (!·.isNever)).foldl
        (fun kept r => if kept.any (·.code == r.code) then kept else kept ++ [r]) kept =
      (ss.filter (!·.isNever)).foldl
        (fun kept r => if kept.any (·.code == r.code) then kept else kept ++ [r]) kept := by
  induction padded generalizing kept with
  | nil => rfl
  | @keep earlier rs ss r rest ih =>
    by_cases never : r.isNever
    · rw [List.filter_cons_of_neg (by simp [never]), List.filter_cons_of_neg (by simp [never])]
      refine ih kept (List.forall_mem_cons.2 ⟨fun other => ?_, known⟩)
      exact absurd (never.symm.trans other) (by decide)
    · have other : r.isNever = false := by simpa using never
      rw [List.filter_cons_of_pos (by simp [other]), List.filter_cons_of_pos (by simp [other]),
        List.foldl_cons, List.foldl_cons]
      refine ih _ (List.forall_mem_cons.2 ⟨fun _ => ?_, fun s hs hn => ?_⟩)
      · split
        next seen => exact seen
        next => simp
      · have old := known s hs hn
        split
        next => exact old
        next => simp [List.any_append, old]
  | blank h rest ih =>
    rw [List.filter_cons_of_neg (by simp [h])]
    exact ih kept known
  | @again earlier rs ss r h rest ih =>
    by_cases never : r.isNever
    · rw [List.filter_cons_of_neg (by simp [never])]
      exact ih kept known
    · have other : r.isNever = false := by simpa using never
      rw [List.filter_cons_of_pos (by simp [other]), List.foldl_cons, if_pos (known r h other)]
      exact ih kept known

theorem alternatives_padded (padded : Padded (·.isNever) [] rs ss) :
    alternatives rs = alternatives ss :=
  foldl_distinct_padded padded [] (by simp)

/-- An `anyOf` is made of its alternatives. -/
theorem anyOf_eq (rs : List Validator) :
    anyOf rs = match alternatives rs with
      | [] => never
      | [only] => only
      | distinct => ofMembers "union" unionType distinct := by
  unfold anyOf alternatives
  cases survivors : rs.filter (!·.isNever) with
  | nil => rfl
  | cons r rest =>
    have some : distinctByCode (r :: rest) ≠ [] := distinctByCode_ne_nil (List.cons_ne_nil r rest)
    simp only [List.isEmpty_cons, Bool.false_eq_true, if_false]
    unfold union
    match h : distinctByCode (r :: rest) with
    | [] => exact absurd h some
    | [only] => rfl
    | _ :: _ :: _ => rfl

theorem anyOf_padded (padded : Padded (·.isNever) [] rs ss) : anyOf rs = anyOf ss := by
  rw [anyOf_eq, anyOf_eq, alternatives_padded padded]

/-- An `anyOf` of validators that all accept everything is one of them. -/
theorem anyOf_of_forall_eq_any (nonempty : rs ≠ []) (all : ∀ r ∈ rs, r = any) : anyOf rs = any := by
  have repeated : ∀ more : List Validator, (∀ r ∈ more, r = any) →
      Padded (·.isNever) [any] [] more := by
    intro more all
    induction more with
    | nil => exact .nil
    | cons r more ih =>
      obtain ⟨rfl, rest⟩ := List.forall_mem_cons.1 all
      exact .again (List.mem_singleton_self _) (ih rest)
  obtain ⟨r, rest, rfl⟩ := List.exists_cons_of_ne_nil nonempty
  obtain ⟨rfl, rest⟩ := List.forall_mem_cons.1 all
  rw [← anyOf_padded (.keep any (repeated _ rest))]
  decide

/-! ## The code of the validator that accepts nothing -/

/-- A validator with the code of the one that accepts nothing is that one. -/
def NeverByCode (r : Validator) : Prop := r.isNever → r = .never

theorem neverByCode_of_calls {symbol : String} (h : r.Calls symbol)
    (other : IsSymbol symbol ∧ symbol ≠ "never") : NeverByCode r := by
  intro never
  rw [isNever_eq_false_of_calls h other.1 other.2] at never
  exact absurd never (by decide)

theorem neverByCode_union (h : ∀ r ∈ rs, NeverByCode r) : NeverByCode (union rs) := by
  have kept : ∀ r ∈ distinctByCode rs, NeverByCode r := fun r hr =>
    h r (distinctByCode_subset rs hr)
  unfold union
  generalize distinctByCode rs = distinct at kept
  split
  · exact exact_any.never
  next only => exact kept only (by simp)
  · exact neverByCode_of_calls (calls_of_code_eq rfl) (by decide : IsSymbol "union" ∧ _)

theorem neverByCode_anyOf (h : ∀ r ∈ rs, NeverByCode r) : NeverByCode (anyOf rs) := by
  unfold anyOf
  simp only
  split
  · exact exact_never.never
  · exact neverByCode_union fun r hr => h r (List.mem_filter.1 hr).1

theorem neverByCode_allOf (objectShaped : Bool) : NeverByCode (allOf objectShaped rs) := by
  unfold allOf
  split
  · exact neverByCode_of_calls (calls_of_code_eq rfl) (by decide : IsSymbol "intersect" ∧ _)
  split
  · exact exact_never.never
  next noNever =>
  split
  · exact exact_any.never
  next first found =>
    intro never
    exact absurd (List.any_eq_true.2 ⟨first, List.mem_of_find?_eq_some found, never⟩) noNever

/-- The ways of making validators do not make other ones with this code. -/
theorem preserved_neverByCode : Preserved NeverByCode where
  any := exact_any.never
  never := exact_never.never
  string k := (exact_string k).never
  number k integer := (exact_number k integer).never
  boolean := exact_boolean.never
  null := exact_null.never
  array k _ _ := (exact_array k _).never
  object _ _ := (exact_object _ _).never
  union h := neverByCode_union h
  anyOf h := neverByCode_anyOf h
  not _ := (exact_not _).never
  nullable _ := neverByCode_of_calls (calls_of_code_eq rfl) (by decide : IsSymbol "nullable" ∧ _)
  const v := (exact_const v).never
  enum values := (exact_enum values).never

end Validator

/-! ## Compiled members -/

section Members

variable {defs : List Definition} {maxDepth : Nat} {t t' : Table defs} {x : Schema} {v : Validator}

/-- From this table on, a schema that stands at the given depth compiles to the given validator, and
no more is to be done for it. -/
def Table.Settles (maxDepth depth : Nat) (t : Table defs) (x : Schema) (v : Validator) : Prop :=
  ∀ (r : Run defs) (site : Site), site.depth = depth → t.Keeps r.table →
    ((compile maxDepth x site).run r).1 = v ∧ ((compile maxDepth x site).run r).2.table = r.table

theorem settles_compile (maxDepth : Nat) (x : Schema) (site : Site) (r : Run defs) :
    ((compile maxDepth x site).run r).2.table.Settles maxDepth site.depth x
      ((compile maxDepth x site).run r).1 :=
  fun _ _ depth keeps => compile_again x keeps depth

theorem Table.Keeps.settles {depth : Nat} (h : t.Keeps t')
    (settles : t.Settles maxDepth depth x v) :
    t'.Settles maxDepth depth x v :=
  fun r site at_depth keeps => settles r site at_depth (h.trans keeps)

theorem run_compileMembers_cons {σ : Type} (f : Schema → Site → StateM σ Validator)
    (keyword : String) (site : Site) (i : Nat) (x : Schema) (xs : List Schema) (s : σ) :
    (compileMembers f keyword site i (x :: xs)).run s =
      (((f x (site.item keyword i)).run s).1 ::
          ((compileMembers f keyword site (i + 1) xs).run ((f x (site.item keyword i)).run s).2).1,
        ((compileMembers f keyword site (i + 1) xs).run
          ((f x (site.item keyword i)).run s).2).2) := rfl

theorem compile_bool_false {site : Site} (room : site.depth ≤ maxDepth) (r : Run defs) :
    (compile maxDepth (.bool false) site).run r = (.never, r) := by
  obtain ⟨room, h⟩ : ∃ room, roomAt maxDepth site.depth = room + 1 :=
    ⟨maxDepth - site.depth, by unfold roomAt; omega⟩
  rw [compile, h]
  rfl

/-- Where schemas are not cut off, the members of a padded list compile to a padded list. -/
theorem padded_compileMembers (keyword : String) {site : Site} (room : site.depth < maxDepth)
    {earlier xs ys : List Schema} (padded : Padded (· = .bool false) earlier xs ys)
    {before : List Validator} (i j : Nat) {r r' : Run defs} (same : r.table = r'.table)
    (settled : ∀ x ∈ earlier, ∃ v ∈ before, r.table.Settles maxDepth (site.depth + 1) x v) :
    Padded (·.isNever) before ((compileMembers (compile maxDepth) keyword site i xs).run r).1
        ((compileMembers (compile maxDepth) keyword site j ys).run r').1 ∧
      ((compileMembers (compile maxDepth) keyword site i xs).run r).2.table =
        ((compileMembers (compile maxDepth) keyword site j ys).run r').2.table := by
  induction padded generalizing before i j r r' with
  | nil => exact ⟨.nil, same⟩
  | @keep earlier xs ys x rest ih =>
    obtain ⟨value, table⟩ := compile_congr_table maxDepth same x
      (a := site.item keyword i) (b := site.item keyword j) rfl
    have now := settles_compile maxDepth x (site.item keyword i) r
    have grows := keeps_compile maxDepth x (site.item keyword i) r
    rw [run_compileMembers_cons, run_compileMembers_cons, ← value]
    obtain ⟨members, tables⟩ := ih (i + 1) (j + 1) table (List.forall_mem_cons.2
      ⟨⟨_, List.mem_cons_self .., now⟩, fun y hy => by
        obtain ⟨w, hw, old⟩ := settled y hy
        exact ⟨w, List.mem_cons_of_mem _ hw, grows.settles old⟩⟩)
    exact ⟨.keep _ members, tables⟩
  | @blank earlier xs ys x h rest ih =>
    subst h
    have never : Validator.never.isNever := by decide
    have inside : (site.item keyword j).depth ≤ maxDepth := room
    rw [run_compileMembers_cons, compile_bool_false inside]
    obtain ⟨members, tables⟩ := ih i (j + 1) same settled
    exact ⟨.blank never members, tables⟩
  | @again earlier xs ys x h rest ih =>
    obtain ⟨v, hv, known⟩ := settled x h
    obtain ⟨value, table⟩ := known r' (site.item keyword j) rfl (same ▸ .refl _)
    rw [run_compileMembers_cons, value]
    obtain ⟨members, tables⟩ := ih i (j + 1) (same.trans table.symm) settled
    exact ⟨.again hv members, tables⟩

/-- Where schemas are cut off, all members accept everything. -/
theorem compileMembers_of_le {keyword : String} {site : Site} (room : maxDepth ≤ site.depth)
    (xs : List Schema) (i : Nat) (r : Run defs) :
    (compileMembers (compile maxDepth) keyword site i xs).run r =
      (xs.map fun _ => Validator.any, r) := by
  have cut : ∀ x i, (compile maxDepth x (site.item keyword i)).run r = (.any, r) := by
    intro x i
    have : roomAt maxDepth (site.item keyword i).depth = 0 := by
      show maxDepth + 1 - (site.depth + 1) = 0
      omega
    rw [compile, this]
    rfl
  induction xs generalizing i with
  | nil => rfl
  | cons x xs ih => rw [run_compileMembers_cons, cut, ih, List.map_cons]

/-! ## Compositions -/

theorem neverByCode_compile (maxDepth : Nat) (names : ∀ d ∈ defs, Spelled d.name) {r : Run defs}
    (own : r.table.OwnBindings) (x : Schema) (site : Site) :
    Validator.NeverByCode ((compile maxDepth x site).run r).1 := by
  have sustains : Sustains (fun r : Run defs => r.table.OwnBindings) Validator.NeverByCode := by
    refine sustains_ownBindings names (fun t i spelled never => ?_) fun t i _ => ?_
    · -- The binding of a definition is no call.
      have code : t.binding i = "v.never()" := beq_iff_eq.1 never
      exact absurd (spelled '(' (code ▸ by decide)) (by decide)
    · exact Validator.neverByCode_of_calls (Validator.calls_of_code_eq rfl)
        (by decide : IsSymbol "lazy" ∧ _)
  exact (sustains.yields_compile Validator.preserved_neverByCode
    (fun objectShaped _ _ _ => Validator.neverByCode_allOf objectShaped) x site r own).2

/-- A single member stands for itself as the only alternative would. -/
theorem run_compileAnyOf (names : ∀ d ∈ defs, Spelled d.name) {r : Run defs}
    (own : r.table.OwnBindings) {keyword : String} {xs : List Schema} (nonempty : xs ≠ [])
    (site : Site) :
    (compileAnyOf (compile maxDepth) keyword xs site).run r =
      Prod.map Validator.anyOf id
        ((compileMembers (compile maxDepth) keyword site 0 xs).run r) := by
  match xs, nonempty with
  | [x], _ =>
    have exact := neverByCode_compile maxDepth names own x (site.item keyword 0)
    have only : ∀ v : Validator, v.NeverByCode → Validator.anyOf [v] = v := by
      intro v exact
      by_cases never : v.isNever
      · obtain rfl := exact never
        decide
      · have other : v.isNever = false := by simpa using never
        simp [Validator.anyOf, Validator.union, Validator.distinctByCode, other]
    show _ = (Validator.anyOf [((compile maxDepth x (site.item keyword 0)).run r).1],
      ((compile maxDepth x (site.item keyword 0)).run r).2)
    rw [only _ exact]
    rfl
  | x :: y :: rest, _ => exact StateT.run_map ..

/-- A composition that is not cut off is compiled from its members. -/
theorem compile_eq_compileAnyOf {site : Site} (room : site.depth ≤ maxDepth) {schema : Schema}
    {xs : List Schema} {keyword : String} (h : schema.shape = .anyOf xs ∧ keyword = "anyOf" ∨
      schema.shape = .oneOf xs ∧ keyword = "oneOf") :
    (compile maxDepth schema site : StateM (Run defs) Validator) =
      compileAnyOf (compile maxDepth) keyword xs site := by
  obtain ⟨extra, rfl⟩ := Nat.exists_eq_add_of_le room
  have members : compileAnyOf (compileWithin (handlers (generate (site.depth + extra))) extra)
      keyword xs site =
        (compileAnyOf (compile (site.depth + extra)) keyword xs site :
          StateM (Run defs) Validator) := by
    unfold compileAnyOf
    split
    · rfl
    next x => exact compileWithin_item site extra x keyword 0
    · rw [compileMembers_congr fun x i => compileWithin_item site extra x keyword i]
  rw [compile_eq_compileNode, compileNode, ← members]
  obtain ⟨shape, rfl⟩ | ⟨shape, rfl⟩ := h
  · rw [shape]
  · rw [shape]

/-- Two results with the same validator and the same table of definitions; what has been reported
may differ. -/
def SameButReports (a b : Validator × Run defs) : Prop := a.1 = b.1 ∧ a.2.table = b.2.table

theorem compileAnyOf_padded (maxDepth : Nat) (names : ∀ d ∈ defs, Spelled d.name) {r : Run defs}
    (own : r.table.OwnBindings) {xs ys : List Schema} (nonempty : xs ≠ [])
    (padded : Padded (· = .bool false) [] xs ys) (keyword : String) (site : Site) :
    SameButReports ((compileAnyOf (compile maxDepth) keyword ys site).run r)
      ((compileAnyOf (compile maxDepth) keyword xs site).run r) := by
  rw [run_compileAnyOf names own nonempty, run_compileAnyOf names own (padded.ne_nil nonempty)]
  rcases Nat.lt_or_ge site.depth maxDepth with room | cut
  · have table : r.table = r.table := rfl
    obtain ⟨members, tables⟩ := padded_compileMembers keyword room padded 0 0 table nofun
    exact ⟨(Validator.anyOf_padded members).symm, tables.symm⟩
  · have any : ∀ zs : List Schema, zs ≠ [] →
        Validator.anyOf (zs.map fun _ => Validator.any) = .any := by
      intro zs some
      refine Validator.anyOf_of_forall_eq_any (by simpa using some) fun v hv => ?_
      obtain ⟨_, _, rfl⟩ := List.mem_map.1 hv
      rfl
    rw [compileMembers_of_le cut, compileMembers_of_le cut]
    exact ⟨(any ys (padded.ne_nil nonempty)).trans (any xs nonempty).symm, rfl⟩

end Members

/-- Adding the schema `false` anywhere, and repetitions of members after them, to the members of an
`anyOf` or a `oneOf` changes neither what it compiles to nor the table of definitions afterwards, in
whatever state of the table it is compiled and wherever it stands. -/
theorem compile_padded (root : Schema) (reserved : List String) (maxDepth : Nat)
    (ops : List (Table.Operation (root.definitions reserved).1.length))
    (diagnostics : List Diagnostic) {xs ys : List Schema} (nonempty : xs ≠ [])
    (padded : Padded (· = .bool false) [] xs ys) (site : Site) :
    let r : Run (root.definitions reserved).1 :=
      ⟨(Table.fresh _ (root.definitions reserved).2).applyAll ops, diagnostics⟩
    (∀ keyword, SameButReports ((compileAnyOf (compile maxDepth) keyword ys site).run r)
      ((compileAnyOf (compile maxDepth) keyword xs site).run r)) ∧
    ∀ schema schema' : Schema,
      schema.shape = .anyOf xs ∧ schema'.shape = .anyOf ys ∨
        schema.shape = .oneOf xs ∧ schema'.shape = .oneOf ys →
      SameButReports ((compile maxDepth schema' site).run r)
        ((compile maxDepth schema site).run r) := by
  intro r
  have own : r.table.OwnBindings := (Table.ownBindings_fresh _).applyAll ops
  have members := compileAnyOf_padded maxDepth (fun _ => spelled_name) own nonempty
    padded
  refine ⟨fun keyword => members keyword site, fun schema schema' shapes => ?_⟩
  rcases Nat.lt_or_ge maxDepth site.depth with cut | room
  · have none : roomAt maxDepth site.depth = 0 := by
      unfold roomAt
      omega
    rw [compile, compile, none]
    exact ⟨rfl, rfl⟩
  · obtain ⟨shape, shape'⟩ | ⟨shape, shape'⟩ := shapes
    · rw [compile_eq_compileAnyOf room (.inl ⟨shape, rfl⟩),
        compile_eq_compileAnyOf room (.inl ⟨shape', rfl⟩)]
      exact members "anyOf" site
    · rw [compile_eq_compileAnyOf room (.inr ⟨shape, rfl⟩),
        compile_eq_compileAnyOf room (.inr ⟨shape', rfl⟩)]
      exact members "oneOf" site

namespace arrayOfItself

/-- Its definition is an array of references to itself. -/
def array : Schema := .object { definitions := some [("A", .object {
  type := some (.one .array), items := some (.all (toDefinition "A")) })] }

def single : List Schema := [toDefinition "A"]

def several : List Schema := [.bool false, toDefinition "A", .bool false, toDefinition "A"]

theorem padded : Padded (· = .bool false) [] single several :=
  .blank rfl (.keep _ (.blank rfl (.again (List.mem_singleton_self _) .nil)))

def start : Table.Operation (array.definitions []).1.length := .start ⟨0, by decide +kernel⟩

/-- While the definition is being generated, a reference to it gets company. -/
theorem compile_padded_start :
    let r : Run (array.definitions []).1 :=
      ⟨(Table.fresh _ (array.definitions []).2).applyAll [start], []⟩
    let bare : Schema := .object { oneOf := some single }
    let more : Schema := .object { oneOf := some several }
    (single ≠ [] ∧ Padded (· = .bool false) [] single several) ∧
    (bare.shape = .oneOf single ∧ more.shape = .oneOf several) ∧
    ((compile 5 bare .root).run r).1.code = "v.lazy(() => ASchema)" ∧
    SameButReports ((compileAnyOf (compile 5) "anyOf" several .root).run r)
      ((compileAnyOf (compile 5) "anyOf" single .root).run r) ∧
    SameButReports ((compile 5 more .root).run r) ((compile 5 bare .root).run r) := by
  intro r bare more
  obtain ⟨members, schemas⟩ :=
    compile_padded array [] 5 [start] [] (List.cons_ne_nil _ _) padded .root
  exact ⟨⟨List.cons_ne_nil _ _, padded⟩, ⟨rfl, rfl⟩, by decide +kernel, members "anyOf",
    schemas bare more (.inr ⟨rfl, rfl⟩)⟩

end arrayOfItself

end SchemaCompiler
