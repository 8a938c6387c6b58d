import SchemaCompiler.Proofs.Compile.Policies
import SchemaCompiler.Proofs.Compile.Truncate
import SchemaCompiler.Proofs.Generate.Mirror

/-!
# The first keyword counts, but for object-shaped members

A schema object that has a keyword with precedence over `nullable` and the type is compiled by the
first of these keywords alone, so what is left of it if all others are removed (`Keywords.prune`) is
interchangeable with it. What a conversion returns is the same then (`convert_prune`), with one
exception: whether the members of an `allOf` are put in an intersection depends on how they look,
and a member looks like a schema of objects by its `type` and `properties`, also where another
keyword has precedence. In an intersection of members the removal changes the code of the `allOf`.
-/

namespace SchemaCompiler

/-! ## Pruned schemas -/

/-- The keyword has precedence over `nullable` and the type. -/
def Shape.overrides : Shape → Bool
  | .reference _ | .allOf _ | .anyOf _ | .oneOf _ | .not _ | .const _ | .enum _ => true
  | .bool _ | .nullable _ | .typed _ => false

namespace Keywords

/-- What is left of a schema object if its first keyword and its description are kept, and the
definitions of a root schema. -/
def prune (isRoot : Bool) (k : Keywords Schema) : Keywords Schema :=
  let bare : Keywords Schema :=
    { description := k.description
      definitions := if isRoot then k.definitions else none
      defs := if isRoot then k.defs else none }
  match k.shape with
  | .reference pointer => { bare with reference := some pointer }
  | .allOf members => { bare with allOf := some members }
  | .anyOf members => { bare with anyOf := some members }
  | .oneOf members => { bare with oneOf := some members }
  | .not negated => { bare with not := some negated }
  | .const value => { bare with const := some value }
  | .enum values => { bare with enum := some values }
  | .bool _ | .nullable _ | .typed _ => k

variable {k : Keywords Schema} {isRoot : Bool}

theorem shape_prune (isRoot : Bool) (first : k.shape.overrides) :
    (k.prune isRoot).shape = k.shape := by
  unfold prune
  cases shape : k.shape <;> rw [shape] at first
  case bool | nullable | typed => nomatch first
  all_goals rfl

theorem description_prune (isRoot : Bool) (k : Keywords Schema) :
    (k.prune isRoot).description = k.description := by
  unfold prune
  cases k.shape <;> rfl

theorem definitionSites_prune (k : Keywords Schema) :
    (Schema.object (k.prune true)).definitionSites = (Schema.object k).definitionSites := by
  unfold prune
  cases k.shape <;> rfl

/-- A pruned schema does not look like one of objects. -/
theorem isObjectShaped_prune (isRoot : Bool) (first : k.shape.overrides) :
    (Schema.object (k.prune isRoot)).isObjectShaped = false := by
  unfold prune
  cases shape : k.shape <;> rw [shape] at first
  case bool | nullable | typed => nomatch first
  all_goals rfl

end Keywords

/-- Schema objects that are understood by the same keyword. -/
theorem Schema.Interchangeable.of_shape_eq {k k' : Keywords Schema}
    (same : (Schema.object k).shape = (Schema.object k').shape)
    (description : k.description = k'.description) :
    (Schema.object k).Interchangeable (.object k') where
  bool := fun _ => ⟨nofun, nofun⟩
  compiled := by
    intro σ h room site
    cases room with
    | zero => rfl
    | succ room => rw [compileWithin, compileWithin, compileNode, compileNode, same]
  projected := by
    intro follow room
    cases room with
    | zero => rfl
    | succ room => rw [projectWithin, projectWithin, projectNode, projectNode, same]
  references := by
    refine Schema.references_congr (fun pointer => by rw [same]) ?_
    rw [Schema.children, Schema.children, same]
  description := description

theorem Keywords.interchangeable_prune {k : Keywords Schema} (isRoot : Bool)
    (first : k.shape.overrides) :
    (Schema.object k).Interchangeable (.object (k.prune isRoot)) :=
  .of_shape_eq (shape_prune isRoot first).symm (description_prune isRoot k).symm

/-! ## Members of intersections -/

namespace Keywords

variable {k : Keywords Schema} {x y : Schema}

/-- Members are put in an intersection only if there is no reference. -/
theorem intersects_eq (k : Keywords Schema) : k.shape.intersects =
    (k.reference.isNone && ((k.allOf.map Shape.allOf).map Shape.intersects).getD false) := by
  cases reference : k.reference with
  | some pointer =>
    have shape : k.shape = .reference pointer := by rw [shape, reference]; rfl
    rw [shape]
    rfl
  | none =>
    cases allOf : k.allOf with
    | some members =>
      have shape : k.shape = .allOf members := by rw [shape, reference, allOf]; rfl
      rw [shape]
      rfl
    | none =>
      have other := (shape_ne reference allOf).2
      cases shape : k.shape with
      | allOf members => exact absurd shape (other members)
      | bool | reference | anyOf | oneOf | not | const | enum | nullable | typed => rfl

theorem intersects_allOf_eq_false {members : List Schema} (mem : x ∈ members)
    (looks : x.isObjectShaped = false) : (Shape.allOf members).intersects = false := by
  rcases members with _ | ⟨z, _ | ⟨w, rest⟩⟩
  · rfl
  · rfl
  · exact List.all_eq_false.2 ⟨x, mem, by simp [looks]⟩

theorem intersects_set_of_ne {b : Branch} (ne : ∀ i, b ≠ .allOf i) :
    (k.set b y).shape.intersects = k.shape.intersects := by
  rw [intersects_eq, intersects_eq]
  cases b with
  | allOf i => exact absurd rfl (ne i)
  | items =>
    rcases items : k.items with _ | z | zs <;> simp only [set, items]
  | item i =>
    rcases items : k.items with _ | z | zs <;> simp only [set, items]
  | property | additionalProperties | anyOf | oneOf | not | definition | ownDefinition => rfl

theorem intersects_set_allOf {i : Nat} (child : k.child? (.allOf i) = some x)
    (looks : y.isObjectShaped = false) : (k.set (.allOf i) y).shape.intersects = false := by
  obtain ⟨members, allOf, at_i⟩ := Option.bind_eq_some_iff.1 child
  have mem : y ∈ members.set i y := List.mem_set (List.getElem?_eq_some_iff.1 at_i).1 y
  rw [intersects_eq]
  show (_ && (((k.allOf.map (·.set i y)).map Shape.allOf).map Shape.intersects).getD false) = false
  rw [allOf]
  exact (congrArg (_ && ·) (intersects_allOf_eq_false mem looks)).trans (Bool.and_false _)

end Keywords

namespace Schema

/-- The end of a path is a member of an `allOf` whose members are put in an intersection. -/
def InIntersection (root : Schema) (path : List Branch) (above : Schema) (i : Nat) : Prop :=
  ∃ front, path = front ++ [.allOf i] ∧ root.at? front = some above ∧ above.intersects

theorem at?_append (root : Schema) (front rest : List Branch) :
    root.at? (front ++ rest) = (root.at? front).bind (at? rest) := by
  induction front generalizing root with
  | nil => rfl
  | cons b front ih =>
    show (root.child? b).bind _ = ((root.child? b).bind _).bind _
    cases root.child? b with
    | none => rfl
    | some z => exact ih z

/-- What stands right above the end of a path. -/
theorem exists_above {root above x : Schema} {front : List Branch} {last : Branch}
    (at_path : root.at? (front ++ [last]) = some x) (at_front : root.at? front = some above) :
    ∃ k, above = .object k ∧ k.child? last = some x := by
  rw [at?_append, at_front] at at_path
  obtain ⟨k, z, rfl, child, here⟩ := at?_cons_eq_some at_path
  exact ⟨k, rfl, child.trans here⟩

theorem keepsIntersection {root x y : Schema} {path : List Branch}
    (at_path : root.at? path = some x) (looks : y.isObjectShaped = false)
    (outside : ∀ above i, ¬ root.InIntersection path above i) : root.KeepsIntersection path y := by
  rintro front last above rfl at_front
  obtain ⟨k, rfl, child⟩ := exists_above at_path at_front
  rw [replaceAt_cons child]
  show (k.set last y).shape.intersects = k.shape.intersects
  by_cases member : ∃ i, last = .allOf i
  · obtain ⟨i, rfl⟩ := member
    have none : k.shape.intersects = false :=
      Bool.eq_false_iff.2 fun h => outside (.object k) i ⟨front, rfl, at_front, h⟩
    rw [Keywords.intersects_set_allOf child looks, none]
  · exact Keywords.intersects_set_of_ne (not_exists.1 member)

end Schema

/-! ## Codes of intersections -/

theorem length_le_intercalate (sep : String) {x : String} {xs : List String} (h : x ∈ xs) :
    x.length ≤ (sep.intercalate xs).length := by
  induction xs with
  | nil => nomatch h
  | cons y ys ih =>
    cases ys with
    | nil =>
      rw [List.mem_singleton.1 h, String.intercalate_singleton]
    | cons z zs =>
      rw [String.intercalate_cons_cons, String.length_append, String.length_append]
      rcases List.mem_cons.1 h with rfl | mem
      · omega
      · have := ih mem
        omega

namespace Validator

variable {rs : List Validator}

/-- The code of a mixed list is that of a member, or accepts everything. -/
theorem code_allOf_mixed (rs : List Validator) :
    (allOf false rs).code = "v.any()" ∨ ∃ r ∈ rs, (allOf false rs).code = r.code := by
  by_cases never : ∃ r ∈ rs, r.isNever
  · obtain ⟨r, mem, hr⟩ := never
    exact .inr ⟨r, mem, (code_allOf_eq_never_iff.2 ⟨r, mem, hr⟩).trans (beq_iff_eq.1 hr).symm⟩
  · cases found : rs.find? (!·.isAny) with
    | some first =>
      exact .inr ⟨first, List.mem_of_find?_eq_some found, code_allOf_of_find? never found⟩
    | none =>
      have none : rs.any isNever = false := by
        rw [← Bool.not_eq_true]
        exact fun h => never (List.any_eq_true.1 h)
      exact .inl (by simp [allOf, none, found, code_any])

/-- Members that are put in an intersection can be told from members that are not. -/
theorem code_allOf_ne (rs : List Validator) : (allOf true rs).code ≠ (allOf false rs).code := by
  have length : (allOf true rs).code.length = (", ".intercalate (rs.map (·.code))).length + 15 := by
    show (callWithList "intersect" (rs.map (·.code))).length = _
    have pieces : "v.".length + "intersect".length + "(".length = 12 ∧ "[".length = 1 ∧
        "]".length = 1 ∧ ")".length = 1 := by decide +kernel
    simp only [callWithList, call, String.length_append]
    omega
  intro same
  rcases code_allOf_mixed rs with any | ⟨r, mem, member⟩
  · have short : (allOf true rs).code.length = 7 := by rw [same, any]; rfl
    omega
  · have le := length_le_intercalate ", " (List.mem_map_of_mem (f := (·.code)) mem)
    rw [same, member] at length
    omega

end Validator

theorem runMembers_images {S : Type} {f g : S → Schema} (same : ∀ x, (f x).Interchangeable (g x))
    (maxDepth : Nat) (keyword : String) (site : Site) (members : List S) {defs : List Definition}
    (r : Run defs) :
    runMembers maxDepth keyword site (members.map f) r =
      runMembers maxDepth keyword site (members.map g) r := by
  have compiled : ∀ x site, (compile maxDepth (f x) site : StateM (Run defs) Validator) =
      compile maxDepth (g x) site := fun x site => (same x).compiled _ _ site
  exact congrArg (·.run r) (compileMembers_images compiled keyword members 0)

theorem run_compile_members {schema : Schema} {members : List Schema}
    (shape : schema.shape = .allOf members) (several : 2 ≤ members.length)
    {defs : List Definition} (site : Site) (extra : Nat) (r : Run defs) :
    ((compile (site.depth + extra) schema site).run r).1 =
      .allOf schema.intersects (runMembers (site.depth + extra) "allOf" site members r).1 := by
  match members, several with
  | x :: y :: rest, _ =>
    rw [run_compile_allOf site extra r shape, Schema.intersects, shape]
    rfl

/-- If a member is replaced by an interchangeable one that does not look like a schema of objects,
the same members are compiled, but no longer put in an intersection. -/
theorem run_compile_intersection {k : Keywords Schema} {x y : Schema} {i : Nat}
    (child : k.child? (.allOf i) = some x) (same : x.Interchangeable y)
    (looks : y.isObjectShaped = false) (intersects : (Schema.object k).intersects)
    {defs : List Definition} (site : Site) (extra : Nat) (r : Run defs) :
    ∃ rs, ((compile (site.depth + extra) (.object k) site).run r).1 = .allOf true rs ∧
      ((compile (site.depth + extra) (.object (k.set (.allOf i) y)) site).run r).1 =
        .allOf false rs := by
  have mixed : (Schema.object (k.set (.allOf i) y)).intersects = false :=
    Keywords.intersects_set_allOf child looks
  obtain ⟨pairs, first, second⟩ := Keywords.exists_pairs Schema.Interchangeable.refl child same
  have images := pairs.images_shape (·.1.1) (·.1.2)
  rw [first, second] at images
  change Shape.Images _ _ (Schema.object k).shape (Schema.object _).shape at images
  obtain ⟨members, several, before, after⟩ := images.exists_members intersects
  refine ⟨(runMembers (site.depth + extra) "allOf" site (members.map (·.1.1)) r).1, ?_, ?_⟩
  · rw [run_compile_members before (by simpa using several), intersects]
  · rw [run_compile_members after (by simpa using several), mixed,
      ← runMembers_images (fun p => p.2)]

/-! ## Pruned documents -/

/-- What a schema object has besides its first keyword does not count, if that keyword has
precedence over `nullable` and the type: without it a document converts to the same. The exception
are members of an `allOf` whose members are put in an intersection. Wherever such an `allOf` is
compiled, its members are compiled to the same without it, but are not put in an intersection any
more, and so the code is another one. -/
theorem convert_prune (root : Schema) (o : Options) (path : List Branch) (k : Keywords Schema)
    (at_path : root.at? path = some (.object k)) (first : k.shape.overrides) :
    let pruned := Schema.object (k.prune path.isEmpty)
    ((∀ above i, ¬ root.InIntersection path above i) →
      convert (root.replaceAt path pruned) o = convert root o) ∧
    ∀ above i, root.InIntersection path above i →
      ∀ {defs : List Definition} (site : Site) (extra : Nat) (r : Run defs), ∃ rs,
        ((compile (site.depth + extra) above site).run r).1 = .allOf true rs ∧
        ((compile (site.depth + extra) (above.replaceAt [.allOf i] pruned) site).run r).1 =
          .allOf false rs ∧
        (Validator.allOf true rs).code ≠ (Validator.allOf false rs).code := by
  intro pruned
  have same : (Schema.object k).Interchangeable pruned := k.interchangeable_prune _ first
  have looks : pruned.isObjectShaped = false := k.isObjectShaped_prune _ first
  constructor
  · intro outside
    have keeps := Schema.keepsIntersection at_path looks outside
    refine convert_congr (.replaceAt at_path same keeps) ?_ o
    refine sameSites_replaceAt at_path same keeps fun empty => ?_
    subst empty
    exact k.definitionSites_prune
  · rintro above i ⟨front, rfl, at_front, intersects⟩ defs site extra r
    obtain ⟨k', rfl, child⟩ := Schema.exists_above at_path at_front
    rw [Schema.replaceAt_cons child]
    obtain ⟨rs, whole, part⟩ := run_compile_intersection child same looks intersects site extra r
    exact ⟨rs, whole, part, Validator.code_allOf_ne rs⟩

/-! ## A type beside a reference -/

/-- An `allOf` of a type and a reference that has a type beside it, which does not count. -/
def typedReference (tag : TypeTag) : Schema :=
  .object
    { allOf := some [
        .object { type := some (.one tag) },
        .object { reference := some (pointerText ["definitions", "A"])
                  type := some (.one .object) }]
      definitions := some [("A", .object { type := some (.one .object) })] }

namespace typedReference

/-- The second member. -/
def member : Keywords Schema :=
  { reference := some (pointerText ["definitions", "A"]), type := some (.one .object) }

def pruned (tag : TypeTag) : Schema :=
  (typedReference tag).replaceAt [.allOf 1] (.object (member.prune false))

theorem start_eq {root : Schema} (reserved : List String)
    (h : root.definitionSites = [("definitions", "A", .object { type := some (.one .object) })]) :
    Run.start (root.definitions reserved).1 (root.definitions reserved).2 =
      ⟨.fresh (root.definitions reserved).1 (root.definitions reserved).2, []⟩ := by
  refine Run.start_eq_fresh fun site mem => ?_
  rw [h] at mem
  obtain rfl := List.mem_singleton.1 mem
  rw [Schema.references_eq]
  rfl

theorem outside_string (above : Schema) (i : Nat) :
    ¬ (typedReference .string).InIntersection [.allOf 1] above i := by
  rintro ⟨front, path, at_front, intersects⟩
  cases front with
  | nil =>
    obtain rfl := Option.some.inj at_front
    exact absurd intersects (by decide)
  | cons b rest =>
    have tail := (List.cons.inj path).2
    exact absurd tail.symm (List.append_ne_nil_of_right_ne_nil rest (List.cons_ne_nil _ _))

theorem inIntersection_object :
    (typedReference .object).InIntersection [.allOf 1] (typedReference .object) 1 :=
  ⟨[], rfl, rfl, rfl⟩

/-- Beside a schema of strings the type of the reference does not count; beside one of objects it
makes an intersection. -/
theorem convert_prune_member :
    (typedReference .string).at? [.allOf 1] = some (.object member) ∧
    (typedReference .object).at? [.allOf 1] = some (.object member) ∧ member.shape.overrides ∧
    convert (pruned .string) {} = convert (typedReference .string) {} ∧
    ∃ rs,
      ((compile 10 (typedReference .object) .root).run (.initial (typedReference .object) [])).1 =
        .allOf true rs ∧
      ((compile 10 (pruned .object) .root).run (.initial (typedReference .object) [])).1 =
        .allOf false rs := by
  refine ⟨rfl, rfl, rfl, ?_, ?_⟩
  · exact (convert_prune (typedReference .string) {} [.allOf 1] member rfl rfl).1 outside_string
  · obtain ⟨rs, whole, part, _⟩ :=
      (convert_prune (typedReference .object) {} [.allOf 1] member rfl rfl).2 _ _
        inIntersection_object .root 10 (.initial (typedReference .object) [])
    exact ⟨rs, whole, part⟩

/-- The module in which the root schema has the given code. -/
def moduleText (code : String) : String :=
  "import * as v from 'valibot';\n\nexport const A = v.object(\x7b\x7d);\n\n" ++
    "export const schema = " ++ code ++ ";\n"

/-- Beside another schema of objects the type of the reference does count. -/
theorem code_depends_on_type :
    (typedReference .object).at? [.allOf 1] = some (.object member) ∧ member.shape.overrides ∧
    (convert (typedReference .object) {}).code =
      moduleText "v.intersect([v.object(\x7b\x7d), A])" ∧
    (convert (pruned .object) {}).code = moduleText "v.object(\x7b\x7d)" ∧
    convert (pruned .object) {} ≠ convert (typedReference .object) {} := by
  refine ⟨rfl, rfl, ?_⟩
  unfold convert compileRoot
  simp only [start_eq _ (show (typedReference .object).definitionSites = _ from rfl),
    start_eq _ (show (pruned .object).definitionSites = _ from rfl)]
  decide +kernel

end typedReference

end SchemaCompiler
