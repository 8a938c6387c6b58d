import SchemaCompiler.Proofs.Compile.Sightings
import SchemaCompiler.Proofs.Json.Pointer
import SchemaCompiler.Proofs.Schema.Accepted
import SchemaCompiler.Proofs.Schema.Replace

/-!
# Where the parts of a schema stand

A schema object has schemas under its keywords, at paths of one or two tokens (`Keywords.Holds`). A
keyword is read from the member of its name (`Keywords.ReadFrom`), and so is what it holds: in the
value that a schema is read from, the path of a part leads to the value that the part is read from
(`Json.HoldsSchema`).

So the path of a sighting leads to the schema that has the reference or the unknown type name.
-/

namespace SchemaCompiler

variable {P : Type} {k : Keywords Schema}

/-! ## Schemas in a schema object -/

/-- The schemas in a schema object, each at its path. -/
inductive Keywords.Holds (k : Keywords Schema) : List String → Schema → Prop where
  | items {x : Schema} (h : k.items = some (.all x)) : Holds k ["items"] x
  | item {xs : List Schema} {i : Nat} {x : Schema} (h : k.items = some (.each xs))
      (at_i : xs[i]? = some x) : Holds k ["items", toString i] x
  | property {fields : List (String × Schema)} {name : String} {x : Schema}
      (h : k.properties = some fields) (mem : (name, x) ∈ fields) : Holds k ["properties", name] x
  | additionalProperties {x : Schema} (h : k.additionalProperties = some x) :
      Holds k ["additionalProperties"] x
  | allOf {xs : List Schema} {i : Nat} {x : Schema} (h : k.allOf = some xs)
      (at_i : xs[i]? = some x) : Holds k ["allOf", toString i] x
  | anyOf {xs : List Schema} {i : Nat} {x : Schema} (h : k.anyOf = some xs)
      (at_i : xs[i]? = some x) : Holds k ["anyOf", toString i] x
  | oneOf {xs : List Schema} {i : Nat} {x : Schema} (h : k.oneOf = some xs)
      (at_i : xs[i]? = some x) : Holds k ["oneOf", toString i] x
  | not {x : Schema} (h : k.not = some x) : Holds k ["not"] x
  | definition {fields : List (String × Schema)} {name : String} {x : Schema}
      (h : k.definitions = some fields) (mem : (name, x) ∈ fields) : Holds k ["definitions", name] x
  | ownDefinition {fields : List (String × Schema)} {name : String} {x : Schema}
      (h : k.defs = some fields) (mem : (name, x) ∈ fields) : Holds k ["$defs", name] x

namespace Keywords

variable {x : Schema} {path : List String}

theorem exists_of_mem_memberVisits {keyword : String} {i : Nat} {members : List Schema}
    (h : .schema x path ∈ memberVisits keyword i members) :
    ∃ j, members[j]? = some x ∧ path = [keyword, toString (i + j)] := by
  induction members generalizing i with
  | nil => cases h
  | cons y ys ih =>
    obtain same | h := List.mem_cons.1 h
    · cases same
      exact ⟨0, rfl, rfl⟩
    · obtain ⟨j, at_j, rfl⟩ := ih h
      exact ⟨j + 1, at_j, by rw [Nat.add_right_comm, Nat.add_assoc]⟩

theorem exists_of_mem_getD {α : Type} {a : α} {o : Option (List α)} (h : a ∈ o.getD []) :
    ∃ as, o = some as ∧ a ∈ as := by
  cases o with
  | none => cases h
  | some as => exact ⟨as, rfl, h⟩

theorem holds_of_mem_tagVisits {tag : TypeTag} (h : .schema x path ∈ k.tagVisits tag) :
    k.Holds path x := by
  cases tag with
  | null | boolean | number | integer | string => cases h
  | unknown name => cases List.mem_singleton.1 h
  | array =>
    simp only [tagVisits, elementVisits] at h
    split at h
    next y items =>
      cases List.mem_singleton.1 h
      exact .items items
    next y ys items =>
      cases List.mem_singleton.1 h
      exact .item items rfl
    next => cases h
  | object =>
    obtain h | h := List.mem_append.1 h
    · obtain ⟨field, mem, same⟩ := List.mem_map.1 h
      cases same
      obtain ⟨fields, properties, mem⟩ := exists_of_mem_getD mem
      exact .property properties mem
    · unfold restVisits at h
      split at h
      next => cases h
      next => cases h
      next extra _ rest =>
        cases List.mem_singleton.1 h
        exact .additionalProperties rest

theorem holds_of_mem_typeVisits (h : .schema x path ∈ k.typeVisits) : k.Holds path x := by
  unfold typeVisits at h
  split at h
  next => exact holds_of_mem_tagVisits h
  next =>
    obtain ⟨tag, -, h⟩ := List.mem_flatMap.1 h
    exact holds_of_mem_tagVisits h
  next => cases h

/-- What is compiled as part of a schema object is in it. -/
theorem holds_of_mem_visits (h : .schema x path ∈ (Schema.object k).visits) : k.Holds path x := by
  have member : ∀ {keyword : String} {members : List Schema},
      (∀ {i : Nat} {y : Schema}, members[i]? = some y → k.Holds [keyword, toString i] y) →
      .schema x path ∈ memberVisits keyword 0 members → k.Holds path x := by
    intro keyword members holds mem
    obtain ⟨j, at_j, rfl⟩ := exists_of_mem_memberVisits mem
    rw [Nat.zero_add]
    exact holds at_j
  unfold Schema.visits Schema.shape at h
  simp only [shape] at h
  cases reference : k.reference with
  | some pointer => simp [reference] at h
  | none =>
  cases allOf : k.allOf with
  | some members => exact member (.allOf allOf) (by simpa [reference, allOf] using h)
  | none =>
  cases anyOf : k.anyOf with
  | some members => exact member (.anyOf anyOf) (by simpa [reference, allOf, anyOf] using h)
  | none =>
  cases oneOf : k.oneOf with
  | some members => exact member (.oneOf oneOf) (by simpa [reference, allOf, anyOf, oneOf] using h)
  | none =>
  cases not : k.not with
  | some negated =>
    have same : x = negated ∧ path = ["not"] := by
      simpa [reference, allOf, anyOf, oneOf, not] using h
    obtain ⟨rfl, rfl⟩ := same
    exact .not not
  | none =>
  cases const : k.const with
  | some value => simp [reference, allOf, anyOf, oneOf, not, const] at h
  | none =>
  cases enum : k.enum with
  | some values => simp [reference, allOf, anyOf, oneOf, not, const, enum] at h
  | none =>
    simp only [reference, allOf, anyOf, oneOf, not, const, enum, Option.map_none] at h
    by_cases nullable : k.nullable = some true
    · exact holds_of_mem_typeVisits (by simpa [nullable] using h)
    · exact holds_of_mem_typeVisits (by simpa [nullable] using h)

/-- A definition is in the schema object, under its keyword and key. -/
theorem holds_of_mem_definitionSites {keyword key : String}
    (h : (keyword, key, x) ∈ (Schema.object k).definitionSites) : k.Holds [keyword, key] x := by
  obtain h | h := List.mem_append.1 h
  · obtain ⟨field, mem, same⟩ := List.mem_map.1 h
    cases same
    obtain ⟨fields, definitions, mem⟩ := exists_of_mem_getD mem
    exact .definition definitions mem
  · obtain ⟨field, mem, same⟩ := List.mem_map.1 h
    cases same
    obtain ⟨fields, defs, mem⟩ := exists_of_mem_getD mem
    exact .ownDefinition defs mem

end Keywords

/-! ## Keywords and members -/

/-- The members of an object up to its end, or up to where the text breaks off. -/
def Members.entries : Members P → List (String × Document P)
  | .cons (.ok name) _ value _ rest => (name, value) :: rest.entries
  | .cons (.error _) _ _ _ rest => rest.entries
  | _ => []

/-- What is read from a member of a name, if there is anything. -/
def Held {α : Type} (entries : List (String × Document P)) (name : String)
    (read : Document P → Reading P α) (held : Option α) : Prop :=
  ∀ x, held = some x → ∃ d, (name, d) ∈ entries ∧ read d = .ok x

/-- Each keyword that holds schemas has them from a member of its name. -/
structure Keywords.ReadFrom (entries : List (String × Document P)) (k : Keywords Schema) :
    Prop where
  items : Held entries "items" Document.readItems k.items
  properties : Held entries "properties" Document.readFields k.properties
  additionalProperties :
    Held entries "additionalProperties" Document.readSchema k.additionalProperties
  allOf : Held entries "allOf" Document.readSchemas k.allOf
  anyOf : Held entries "anyOf" Document.readSchemas k.anyOf
  oneOf : Held entries "oneOf" Document.readSchemas k.oneOf
  not : Held entries "not" Document.readSchema k.not
  definitions : Held entries "definitions" Document.readFields k.definitions
  defs : Held entries "$defs" Document.readFields k.defs

section ReadFrom

variable {entries : List (String × Document P)} {k' : Keywords Schema} {value : Document P}

theorem held_none {α : Type} (name : String) (read : Document P → Reading P α) :
    Held entries name read none := fun _ none => by cases none

theorem held_some {α : Type} {name : String} {read : Document P → Reading P α} {a : α}
    (mem : (name, value) ∈ entries) (h : read value = .ok a) :
    Held entries name read (some a) := by
  rintro x ⟨⟩
  exact ⟨value, mem, h⟩

namespace Keywords.ReadFrom

theorem nothing (entries : List (String × Document P)) : ReadFrom entries {} := by
  constructor <;> exact held_none _ _

/-- A keyword of plain data that is absent or read. -/
theorem update {α : Type} {set : α → Keywords Schema → Keywords Schema} {r : Reading P (Option α)}
    (h : k.ReadFrom entries) (plain : ∀ a, (set a k).ReadFrom entries)
    (read : r.map (k.update set) = .ok k') : k'.ReadFrom entries := by
  obtain ⟨a, -, rfl⟩ := except_map_eq_ok read
  cases a with
  | none => exact h
  | some a => exact plain a

/-- A keyword of schemas that is absent or read. -/
theorem unlessNull {α : Type} {set : α → Keywords Schema} {r : Reading P α}
    (h : k.ReadFrom entries) (read : (if value.isNull then .ok k else r.map set) = .ok k')
    (held : ∀ a, r = .ok a → (set a).ReadFrom entries) : k'.ReadFrom entries := by
  split at read
  next =>
    cases read
    exact h
  next =>
    obtain ⟨a, ha, rfl⟩ := except_map_eq_ok read
    exact held a ha

end Keywords.ReadFrom

theorem Members.readFrom_of_readKeywords : (ms : Members P) → {seen : List String} →
    {k k' : Keywords Schema} → ms.entries ⊆ entries → k.ReadFrom entries →
    ms.readKeywords seen k = .ok k' → k'.ReadFrom entries
  | .close, _, _, _, _, before, h => by
    cases h
    exact before
  | .broken .., _, _, _, _, _, h => by cases h
  | .cons (.error _) .., _, _, _, _, _, h => by cases h
  | .cons (.ok name) t value settled rest, seen, k, _, sub, before, h => by
    rw [Members.entries, List.cons_subset] at sub
    obtain ⟨mem, sub⟩ := sub
    rw [Members.readKeywords] at h
    simp only [Reading.ofFault, Except.mapError] at h
    obtain ⟨_, same, h⟩ := except_bind_eq_ok h
    obtain rfl := Except.ok.inj same
    cases named : Keyword.named name with
    | none =>
      simp only [named] at h
      split at h
      next => cases h
      next => exact rest.readFrom_of_readKeywords sub before h
    | some keyword =>
      simp only [named] at h
      split at h
      next => cases h
      obtain ⟨k₁, read, h⟩ := except_bind_eq_ok h
      refine rest.readFrom_of_readKeywords sub ?_ h
      replace read := mapError_eq_ok read
      unfold Keyword.named at named
      split at named <;> cases named <;> dsimp only at read
      -- The entries of the table that hold schemas, in its order, and the one of a `const`.
      case h_16 =>
        exact before.unlessNull read fun _ hx => { before with items := held_some mem hx }
      case h_20 =>
        exact before.unlessNull read fun _ hx => { before with properties := held_some mem hx }
      case h_22 =>
        exact before.unlessNull read fun _ hx =>
          { before with additionalProperties := held_some mem hx }
      case h_23 =>
        exact before.unlessNull read fun _ hx => { before with allOf := held_some mem hx }
      case h_24 =>
        exact before.unlessNull read fun _ hx => { before with anyOf := held_some mem hx }
      case h_25 =>
        exact before.unlessNull read fun _ hx => { before with oneOf := held_some mem hx }
      case h_26 =>
        exact before.unlessNull read fun _ hx => { before with not := held_some mem hx }
      case h_27 =>
        obtain ⟨_, -, rfl⟩ := except_map_eq_ok read
        exact { before with }
      case h_29 =>
        exact before.unlessNull read fun _ hx => { before with definitions := held_some mem hx }
      case h_30 =>
        exact before.unlessNull read fun _ hx => { before with defs := held_some mem hx }
      -- What the others hold are no schemas.
      all_goals exact before.update (fun _ => { before with }) read

end ReadFrom

/-- A schema object is read from the members of an object. -/
theorem Document.exists_readFrom {d : Document P} (h : d.readSchema = .ok (.object k)) :
    ∃ b ms, d = .object b ms ∧ k.ReadFrom ms.entries := by
  match d, h with
  | .object b ms, h =>
    rw [Document.readSchema] at h
    split at h
    next => cases h
    next =>
      obtain ⟨k', hk, same⟩ := except_map_eq_ok h
      cases same
      exact ⟨b, ms, rfl, ms.readFrom_of_readKeywords (List.Subset.refl _) (.nothing _) hk⟩

/-- The names of what is read from an object are distinct. -/
theorem Document.nodup_of_readFields {d : Document P} {fields : List (String × Schema)}
    (h : d.readFields = .ok fields) : (fields.map (·.1)).Nodup := by
  match d, h with
  | .object b ms, h =>
    rw [Document.readFields] at h
    split at h
    next => cases h
    next =>
      obtain ⟨_, -, rfl⟩ := except_map_eq_ok h
      exact (distinctMembers_spec _).1

/-! ## Parts of a value -/

namespace Json

/-- At a path in a value there is one that a schema is read from. -/
def HoldsSchema (v : Json) (path : List String) (x : Schema) : Prop :=
  ∃ w, v.follow? path = some w ∧ w.proper ∧ Schema.ofJson w = .ok x

variable {v w : Json} {path more : List String} {x : Schema} {name : String}

theorem HoldsSchema.below (h : w.HoldsSchema more x) (leads : v.follow? path = some w) :
    v.HoldsSchema (path ++ more) x := by
  obtain ⟨u, rest, proper, read⟩ := h
  exact ⟨u, follow?_append leads rest, proper, read⟩

theorem entries_toMembers (members : List (String × Json)) :
    (toMembers members).entries = members.map (mapValue toDocument) := by
  induction members with
  | nil => rfl
  | cons m rest ih =>
    rw [toMembers, Members.entries, ih]
    rfl

/-- The name of a member leads to its value. -/
theorem exists_of_mem_entries {members : List (String × Json)} {d : Document Unit}
    (proper : (object members).proper) (mem : (name, d) ∈ (toMembers members).entries) :
    ∃ w, (object members).follow? [name] = some w ∧ w.proper ∧ d = w.toDocument := by
  rw [Json.proper, Bool.and_eq_true, decide_eq_true_eq, membersProper_iff] at proper
  rw [entries_toMembers] at mem
  obtain ⟨m, hm, same⟩ := List.mem_map.1 mem
  obtain ⟨rfl, rfl⟩ := Prod.mk.inj same
  refine ⟨m.2, ?_, proper.2 m hm, rfl⟩
  show (member? (String.ofList m.1.toList) members).bind some = some m.2
  rw [String.ofList_toList, member?_of_mem proper.1 hm]
  rfl

theorem exists_of_readSchemas {vs : List Json} {i j : Nat} {xs : List Schema}
    (h : (toElements vs).readSchemas i = .ok xs) (at_j : xs[j]? = some x) :
    ∃ w, vs[j]? = some w ∧ Schema.ofJson w = .ok x := by
  induction vs generalizing i j xs with
  | nil =>
    cases h
    cases at_j
  | cons v rest ih =>
    rw [toElements, Elements.readSchemas] at h
    obtain ⟨y, head, h⟩ := except_bind_eq_ok h
    obtain ⟨ys, tail, h⟩ := except_bind_eq_ok h
    cases h
    cases j with
    | zero =>
      cases at_j
      exact ⟨v, rfl, mapError_eq_ok head⟩
    | succ j => exact ih tail at_j

theorem holdsSchema_element {vs : List Json} {i j : Nat} {xs : List Schema}
    (proper : (array vs).proper) (h : (toElements vs).readSchemas i = .ok xs)
    (at_j : xs[j]? = some x) : (array vs).HoldsSchema [toString j] x := by
  obtain ⟨w, here, read⟩ := exists_of_readSchemas h at_j
  refine ⟨w, ?_, eachProper_iff.1 proper w (List.mem_of_getElem? here), read⟩
  show ((listIndex? (toString j).toList).bind fun i => vs[i]?).bind some = some w
  rw [listIndex?_toString, Option.bind_some, here]
  rfl

theorem holdsSchema_of_readSchemas {xs : List Schema} {i : Nat} (proper : w.proper)
    (h : w.toDocument.readSchemas = .ok xs) (at_i : xs[i]? = some x) :
    w.HoldsSchema [toString i] x := by
  cases w with
  | array vs =>
    rw [toDocument, Document.readSchemas] at h
    exact holdsSchema_element proper h at_i
  | null | bool | number | string | object => cases h

theorem ofJson_of_readItems (h : w.toDocument.readItems = .ok (.all x)) :
    Schema.ofJson w = .ok x := by
  cases w with
  | bool b =>
    cases h
    rfl
  | object members =>
    obtain ⟨k, read, same⟩ := except_map_eq_ok (show Except.map _ _ = _ from h)
    cases same
    show Except.map _ _ = _
    rw [read]
    rfl
  | array vs =>
    obtain ⟨_, -, same⟩ := except_map_eq_ok (show Except.map _ _ = _ from h)
    cases same
  | null | number | string => cases h

theorem holdsSchema_of_readItems {xs : List Schema} {i : Nat} (proper : w.proper)
    (h : w.toDocument.readItems = .ok (.each xs)) (at_i : xs[i]? = some x) :
    w.HoldsSchema [toString i] x := by
  cases w with
  | array vs =>
    obtain ⟨_, read, same⟩ := except_map_eq_ok (show Except.map _ _ = _ from h)
    cases same
    exact holdsSchema_element proper read at_i
  | object members =>
    obtain ⟨_, -, same⟩ := except_map_eq_ok (show Except.map _ _ = _ from h)
    cases same
  | null | bool | number | string => cases h

theorem exists_of_readFields {ms : Members P} {fields : List (String × Schema)}
    (h : ms.readFields = .ok fields) (mem : (name, x) ∈ fields) :
    ∃ d, (name, d) ∈ ms.entries ∧ d.readSchema = .ok x := by
  match ms, h with
  | .close, h =>
    cases h
    cases mem
  | .broken .., h | .cons (.error _) .., h => cases h
  | .cons (.ok key) t value settled rest, h =>
    rw [Members.readFields] at h
    obtain ⟨_, same, h⟩ := except_bind_eq_ok h
    obtain rfl := Except.ok.inj same
    obtain ⟨y, head, h⟩ := except_bind_eq_ok h
    obtain ⟨ys, tail, h⟩ := except_bind_eq_ok h
    obtain rfl := Except.ok.inj h
    obtain here | later := List.mem_cons.1 mem
    · cases here
      exact ⟨value, List.mem_cons_self, mapError_eq_ok head⟩
    · obtain ⟨d, mem, read⟩ := exists_of_readFields tail later
      exact ⟨d, List.mem_cons_of_mem _ mem, read⟩

theorem holdsSchema_of_readFields {fields : List (String × Schema)} (proper : w.proper)
    (h : w.toDocument.readFields = .ok fields) (mem : (name, x) ∈ fields) :
    w.HoldsSchema [name] x := by
  cases w with
  | object members =>
    obtain ⟨all, read, rfl⟩ := except_map_eq_ok (show Except.map _ _ = _ from h)
    obtain ⟨d, entry, read⟩ := exists_of_readFields read ((distinctMembers_spec all).2 mem)
    obtain ⟨w, leads, proper, rfl⟩ := exists_of_mem_entries proper entry
    exact ⟨w, leads, proper, read⟩
  | null | bool | number | string | array => cases h

/-- What a keyword holds is read from the value that its name leads to. -/
theorem exists_of_held {α : Type} {members : List (String × Json)} {held : Option α} {a : α}
    {read : Document Unit → Reading Unit α} (proper : (object members).proper)
    (h : Held (toMembers members).entries name read held) (ha : held = some a) :
    ∃ w, (object members).follow? [name] = some w ∧ w.proper ∧ read w.toDocument = .ok a := by
  obtain ⟨d, mem, hd⟩ := h a ha
  obtain ⟨w, leads, proper, rfl⟩ := exists_of_mem_entries proper mem
  exact ⟨w, leads, proper, hd⟩

/-- A part of a schema object is read from the value that its path leads to. -/
theorem holdsSchema_of_holds (proper : v.proper) (read : Schema.ofJson v = .ok (.object k))
    (h : k.Holds path x) : v.HoldsSchema path x := by
  obtain ⟨b, ms, document, hk⟩ := Document.exists_readFrom read
  cases v with
  | object members =>
    obtain ⟨rfl, rfl⟩ := Document.object.inj document
    cases h with
    | items h =>
      obtain ⟨w, leads, proper, read⟩ := exists_of_held proper hk.items h
      exact ⟨w, leads, proper, ofJson_of_readItems read⟩
    | item h at_i =>
      obtain ⟨w, leads, proper, read⟩ := exists_of_held proper hk.items h
      exact (holdsSchema_of_readItems proper read at_i).below leads
    | property h mem =>
      obtain ⟨w, leads, proper, read⟩ := exists_of_held proper hk.properties h
      exact (holdsSchema_of_readFields proper read mem).below leads
    | additionalProperties h => exact exists_of_held proper hk.additionalProperties h
    | allOf h at_i =>
      obtain ⟨w, leads, proper, read⟩ := exists_of_held proper hk.allOf h
      exact (holdsSchema_of_readSchemas proper read at_i).below leads
    | anyOf h at_i =>
      obtain ⟨w, leads, proper, read⟩ := exists_of_held proper hk.anyOf h
      exact (holdsSchema_of_readSchemas proper read at_i).below leads
    | oneOf h at_i =>
      obtain ⟨w, leads, proper, read⟩ := exists_of_held proper hk.oneOf h
      exact (holdsSchema_of_readSchemas proper read at_i).below leads
    | not h => exact exists_of_held proper hk.not h
    | definition h mem =>
      obtain ⟨w, leads, proper, read⟩ := exists_of_held proper hk.definitions h
      exact (holdsSchema_of_readFields proper read mem).below leads
    | ownDefinition h mem =>
      obtain ⟨w, leads, proper, read⟩ := exists_of_held proper hk.defs h
      exact (holdsSchema_of_readFields proper read mem).below leads
  | null | bool | number | string | array => cases document

/-- A definition is read from the value at its keyword and key. -/
theorem holdsSchema_of_mem_definitionSites {root : Schema} {keyword key : String}
    (proper : v.proper) (read : Schema.ofJson v = .ok root)
    (h : (keyword, key, x) ∈ root.definitionSites) : v.HoldsSchema [keyword, key] x := by
  cases root with
  | bool => cases h
  | object k => exact holdsSchema_of_holds proper read (Keywords.holds_of_mem_definitionSites h)

end Json

/-! ## Places of sightings -/

/-- What a schema visits if it has a reference or an unknown type name in itself. -/
def Subject.visit : Subject → Visit
  | .reference pointer => .reference pointer
  | .unknownType name => .unknownType name

/-- The path of a sighting leads to the value of a schema that has its subject in itself. -/
theorem Json.exists_of_mem_sightings {v : Json} {s : Schema} {seen : Sighting}
    (proper : v.proper) (read : Schema.ofJson v = .ok s) (mem : seen ∈ s.sightings) :
    ∃ x, v.HoldsSchema seen.path x ∧ seen.subject.visit ∈ x.visits := by
  rw [Schema.sightings_eq] at mem
  obtain ⟨visit, hvisit, mem⟩ := List.mem_flatMap.1 mem
  cases visit with
  | reference | unknownType =>
    obtain rfl := List.mem_singleton.1 mem
    exact ⟨s, ⟨v, rfl, proper, read⟩, hvisit⟩
  | schema y path =>
    obtain ⟨inner, inside, rfl⟩ := List.mem_map.1 mem
    have part : v.HoldsSchema path y := by
      cases s with
      | bool => cases hvisit
      | object k => exact holdsSchema_of_holds proper read (Keywords.holds_of_mem_visits hvisit)
    obtain ⟨w, leads, proper, read⟩ := part
    obtain ⟨x, holds, own⟩ := exists_of_mem_sightings proper read inside
    exact ⟨x, holds.below leads, own⟩
termination_by sizeOf s
decreasing_by exact Schema.sizeOf_lt_of_mem_visits hvisit

end SchemaCompiler
