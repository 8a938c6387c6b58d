import SchemaCompiler.Schema.Read
import SchemaCompiler.Proofs.Json.Proper

/-!
# The grammar of schemas

What a schema is, said without a reader: `WellFormed role v` holds of a value `v` that has the form
which its role in a schema asks for. Every value in `v` has a role of its own; `Json.nodes` lists
them in the order of the document, and `v` is well formed exactly if each of them suits its role
(`wellFormed_iff`). So a value that is not well formed has a first value in it that does not suit.
-/

namespace SchemaCompiler

/-- What a value in a schema stands for. -/
inductive Role where
  | schema
  | items
  | schemas
  | fields
  | text
  | count
  | number
  | flag
  | bound
  | typeSet
  | names
  | values
  /-- The value of a `const`, that of an unknown keyword, or a part of one: any value will do. -/
  | anything
  deriving DecidableEq, Repr

namespace Role

def ofKeyword (name : String) : Role :=
  if name ∈ ["$ref", "$id", "$schema", "title", "description", "pattern", "format"] then .text
  else if name ∈ ["minLength", "maxLength", "minItems", "maxItems"] then .count
  else if name ∈ ["minimum", "maximum", "multipleOf"] then .number
  else if name ∈ ["exclusiveMinimum", "exclusiveMaximum"] then .bound
  else if name = "type" then .typeSet
  else if name = "items" then .items
  else if name ∈ ["properties", "definitions", "$defs"] then .fields
  else if name ∈ ["additionalProperties", "not"] then .schema
  else if name ∈ ["allOf", "anyOf", "oneOf"] then .schemas
  else if name = "required" then .names
  else if name = "enum" then .values
  else if name ∈ ["nullable", "uniqueItems"] then .flag
  else .anything

/-- The role of the value of a keyword; one that is `null` is as good as absent. -/
def ofMember (name : String) : Json → Role
  | .null => .anything
  | _ => ofKeyword name

end Role

/-- The values that have the form which a role asks for. -/
inductive WellFormed : Role → Json → Prop where
  | anything (v : Json) : WellFormed .anything v
  | text (s : String) : WellFormed .text (.string s)
  | count (n : Nat) (word : n < 2 ^ 64) : WellFormed .count (.number (.integer n))
  | number (n : Number) : WellFormed .number (.number n)
  | flag (b : Bool) : WellFormed .flag (.bool b)
  | exclusive (b : Bool) : WellFormed .bound (.bool b)
  | bound (n : Number) : WellFormed .bound (.number n)
  | oneType (name : String) : WellFormed .typeSet (.string name)
  | manyTypes (names : List String) : WellFormed .typeSet (.array (names.map .string))
  | names (names : List String) : WellFormed .names (.array (names.map .string))
  | values (vs : List Json) : WellFormed .values (.array vs)
  | bool (b : Bool) : WellFormed .schema (.bool b)
  | object (members : List (String × Json))
    (each : ∀ m ∈ members, WellFormed (.ofMember m.1 m.2) m.2) :
    WellFormed .schema (.object members)
  | oneItem (v : Json) (h : WellFormed .schema v) : WellFormed .items v
  | eachItem (vs : List Json) (each : ∀ v ∈ vs, WellFormed .schema v) :
    WellFormed .items (.array vs)
  | schemas (vs : List Json) (each : ∀ v ∈ vs, WellFormed .schema v) :
    WellFormed .schemas (.array vs)
  | fields (members : List (String × Json)) (each : ∀ m ∈ members, WellFormed .schema m.2) :
    WellFormed .fields (.object members)

/-! ## The values in a value -/

namespace Role

/-- Whether a value suits a role, whatever stands in it; only the names in a `type` count as part
of it. -/
def suits : Role → Json → Bool
  | .anything, _ => true
  | .text, .string _ => true
  | .count, .number (.integer i) => 0 ≤ i && i < 2 ^ 64
  | .number, .number _ => true
  | .flag, .bool _ => true
  | .bound, .bool _ => true
  | .bound, .number _ => true
  | .typeSet, .string _ => true
  | .typeSet, .array vs => vs.all Json.isString
  | .names, .array _ => true
  | .values, .array _ => true
  | .schema, .bool _ => true
  | .schema, .object _ => true
  | .items, .bool _ => true
  | .items, .object _ => true
  | .items, .array _ => true
  | .schemas, .array _ => true
  | .fields, .object _ => true
  | _, _ => false

/-- The role of the elements of a list. -/
def element : Role → Role
  | .items => .schema
  | .schemas => .schema
  | .names => .text
  | _ => .anything

/-- The role of a member of an object. -/
def member (role : Role) (name : String) (v : Json) : Role :=
  match role with
  | .schema => .ofMember name v
  | .items => .ofMember name v
  | .fields => .schema
  | _ => .anything

end Role

/-- A value in a value: the path to it and the role it has. -/
structure Node where
  path : List Step
  role : Role
  value : Json
  deriving Repr

namespace Node

def under (step : Step) (node : Node) : Node := { node with path := step :: node.path }

def suits (node : Node) : Bool := node.role.suits node.value

end Node

namespace Json

mutual

/-- The values in a value that has the given role, each before what stands in it: they are in the
order of the document. -/
def nodes (role : Role) : Json → List Node
  | .array vs => ⟨[], role, .array vs⟩ :: elementNodes role.element 0 vs
  | .object members => ⟨[], role, .object members⟩ :: memberNodes role members
  | v => [⟨[], role, v⟩]

/-- The values in the elements of a list from position `i` on. -/
def elementNodes (role : Role) : (i : Nat) → List Json → List Node
  | _, [] => []
  | i, v :: rest => (v.nodes role).map (.under (.index i)) ++ elementNodes role (i + 1) rest

/-- The values in the members of an object that has the given role. -/
def memberNodes (role : Role) : List (String × Json) → List Node
  | [] => []
  | (name, v) :: rest =>
    (v.nodes (role.member name v)).map (.under (.key name)) ++ memberNodes role rest

end

/-- The value that a step leads to. -/
def atStep? (v : Json) : Step → Option Json
  | .key name => match v with
    | .object members => member? name members
    | _ => none
  | .index i => match v with
    | .array vs => vs[i]?
    | _ => none

/-- The value that a path leads to. -/
def atPath? (v : Json) (path : List Step) : Option Json := path.foldlM atStep? v

/-- The first value in the order of the document that does not suit its role. -/
def firstFault? (role : Role) (v : Json) : Option Node := (v.nodes role).find? (!·.suits)

end Json

/-! ## The grammar by way of the values in a value -/

theorem strings_of_all {vs : List Json} (h : vs.all Json.isString) :
    ∃ names : List String, vs = names.map .string := by
  induction vs with
  | nil => exact ⟨[], rfl⟩
  | cons v rest ih =>
    rw [List.all_cons, Bool.and_eq_true] at h
    obtain ⟨names, rfl⟩ := ih h.2
    match v, h.1 with
    | .string name, _ => exact ⟨name :: names, rfl⟩

namespace WellFormed

theorem text_iff {v : Json} : WellFormed .text v ↔ v.isString := by
  constructor
  · rintro ⟨⟩
    rfl
  · match v with
    | .string s => exact fun _ => .text s
    | .null | .bool _ | .number _ | .array _ | .object _ => exact fun h => nomatch h

theorem suits {role : Role} {v : Json} (h : WellFormed role v) : role.suits v := by
  cases h with
  | anything => cases v <;> rfl
  | count n word =>
    rw [Role.suits, Bool.and_eq_true, decide_eq_true_eq, decide_eq_true_eq]
    omega
  | manyTypes names => simp [Role.suits, Json.isString]
  | oneItem v h => cases h <;> rfl
  | text | number | flag | exclusive | bound | oneType | names | values | bool | object | eachItem
  | schemas | fields => rfl

/-- A value other than a list or an object is well formed if it suits its role. -/
theorem of_suits {role : Role} {v : Json} (list : ∀ vs, v ≠ .array vs)
    (object : ∀ members, v ≠ .object members) (h : role.suits v) : WellFormed role v := by
  match v with
  | .null =>
    match role, h with
    | .anything, _ => exact .anything _
  | .bool b =>
    match role, h with
    | .anything, _ => exact .anything _
    | .flag, _ => exact .flag b
    | .bound, _ => exact .exclusive b
    | .schema, _ => exact .bool b
    | .items, _ => exact .oneItem _ (.bool b)
  | .number n =>
    match role with
    | .anything => exact .anything _
    | .number => exact .number n
    | .bound => exact .bound n
    | .count =>
      match n with
      | .double _ => nomatch h
      | .integer i =>
        rw [Role.suits, Bool.and_eq_true, decide_eq_true_eq, decide_eq_true_eq] at h
        obtain ⟨n, rfl⟩ := Int.eq_ofNat_of_zero_le h.1
        exact .count n (by omega)
    | .schema | .items | .schemas | .fields | .text | .flag | .typeSet | .names | .values =>
      nomatch h
  | .string s =>
    match role, h with
    | .anything, _ => exact .anything _
    | .text, _ => exact .text s
    | .typeSet, _ => exact .oneType s
  | .array vs => exact absurd rfl (list vs)
  | .object members => exact absurd rfl (object members)

theorem array_iff {role : Role} {vs : List Json} :
    WellFormed role (.array vs) ↔
      role.suits (.array vs) ∧ ∀ v ∈ vs, WellFormed role.element v := by
  constructor
  · intro h
    refine ⟨h.suits, ?_⟩
    cases h with
    | anything | manyTypes | values => exact fun v _ => .anything v
    | names names => simpa [Role.element] using fun name _ => .text name
    | oneItem _ h => nomatch h
    | eachItem _ each => exact each
    | schemas _ each => exact each
  · rintro ⟨suits, each⟩
    match role, suits with
    | .anything, _ => exact .anything _
    | .typeSet, suits =>
      obtain ⟨names, rfl⟩ := strings_of_all suits
      exact .manyTypes names
    | .names, _ =>
      have strings : vs.all Json.isString := by simpa [Role.element, text_iff] using each
      obtain ⟨names, rfl⟩ := strings_of_all strings
      exact .names names
    | .values, _ => exact .values vs
    | .items, _ => exact .eachItem vs each
    | .schemas, _ => exact .schemas vs each

theorem object_iff {role : Role} {members : List (String × Json)} :
    WellFormed role (.object members) ↔
      role.suits (.object members) ∧ ∀ m ∈ members, WellFormed (role.member m.1 m.2) m.2 := by
  constructor
  · intro h
    refine ⟨h.suits, ?_⟩
    cases h with
    | anything => exact fun m _ => .anything m.2
    | object _ each => exact each
    | oneItem _ h =>
      cases h with
      | object _ each => exact each
    | fields _ each => exact each
  · rintro ⟨suits, each⟩
    match role, suits with
    | .anything, _ => exact .anything _
    | .schema, _ => exact .object members each
    | .items, _ => exact .oneItem _ (.object members each)
    | .fields, _ => exact .fields members each

end WellFormed

theorem wellFormed_scalar {role : Role} {v : Json} (list : ∀ vs, v ≠ .array vs)
    (object : ∀ members, v ≠ .object members) :
    WellFormed role v ↔ ∀ n ∈ [Node.mk [] role v], n.suits := by
  rw [List.forall_mem_singleton]
  exact ⟨WellFormed.suits, WellFormed.of_suits list object⟩

mutual

/-- A value is well formed if each value in it suits the role that it has. -/
theorem wellFormed_iff : (role : Role) → (v : Json) →
    (WellFormed role v ↔ ∀ n ∈ v.nodes role, n.suits)
  | _, .null | _, .bool _ | _, .number _ | _, .string _ => wellFormed_scalar nofun nofun
  | role, .array vs => by
    rw [WellFormed.array_iff, Json.nodes, List.forall_mem_cons, wellFormed_elements role.element 0]
    rfl
  | role, .object members => by
    rw [WellFormed.object_iff, Json.nodes, List.forall_mem_cons, wellFormed_members role]
    rfl

theorem wellFormed_elements (role : Role) : (i : Nat) → (vs : List Json) →
    ((∀ v ∈ vs, WellFormed role v) ↔ ∀ n ∈ Json.elementNodes role i vs, n.suits)
  | _, [] => by simp [Json.elementNodes]
  | i, v :: rest => by
    rw [List.forall_mem_cons, Json.elementNodes, List.forall_mem_append, List.forall_mem_map,
      wellFormed_iff role v, wellFormed_elements role (i + 1) rest]
    rfl

theorem wellFormed_members (role : Role) : (members : List (String × Json)) →
    ((∀ m ∈ members, WellFormed (role.member m.1 m.2) m.2) ↔
      ∀ n ∈ Json.memberNodes role members, n.suits)
  | [] => by simp [Json.memberNodes]
  | (name, v) :: rest => by
    rw [List.forall_mem_cons, Json.memberNodes, List.forall_mem_append, List.forall_mem_map,
      wellFormed_iff (role.member name v) v, wellFormed_members role rest]
    rfl

end

/-! ## Paths -/

namespace Json

theorem mem_elementNodes {role : Role} {i : Nat} {vs : List Json} {n : Node} :
    n ∈ elementNodes role i vs ↔
      ∃ (j : Nat) (v : Json), vs[j]? = some v ∧
        ∃ m ∈ v.nodes role, m.under (.index (i + j)) = n := by
  induction vs generalizing i with
  | nil => simp [elementNodes]
  | cons v rest ih =>
    rw [elementNodes, List.mem_append, List.mem_map, ih]
    constructor
    · rintro (⟨m, mem, rfl⟩ | ⟨j, w, at_j, m, mem, rfl⟩)
      · exact ⟨0, v, rfl, m, mem, rfl⟩
      · exact ⟨j + 1, w, at_j, m, mem, by rw [Nat.add_right_comm, Nat.add_assoc]⟩
    · rintro ⟨_ | j, w, at_j, m, mem, rfl⟩
      · obtain rfl := Option.some.inj at_j
        exact .inl ⟨m, mem, rfl⟩
      · exact .inr ⟨j, w, at_j, m, mem, by rw [Nat.add_right_comm, Nat.add_assoc]⟩

theorem mem_memberNodes {role : Role} {members : List (String × Json)} {n : Node} :
    n ∈ memberNodes role members ↔
      ∃ name v, (name, v) ∈ members ∧
        ∃ m ∈ v.nodes (role.member name v), m.under (.key name) = n := by
  induction members with
  | nil => simp [memberNodes]
  | cons head rest ih =>
    obtain ⟨name, v⟩ := head
    rw [memberNodes, List.mem_append, List.mem_map, ih]
    constructor
    · rintro (⟨m, mem, rfl⟩ | ⟨name', w, found, m, mem, rfl⟩)
      · exact ⟨name, v, List.mem_cons_self, m, mem, rfl⟩
      · exact ⟨name', w, List.mem_cons_of_mem _ found, m, mem, rfl⟩
    · rintro ⟨name', w, found, m, mem, rfl⟩
      obtain same | found := List.mem_cons.1 found
      · obtain ⟨rfl, rfl⟩ := Prod.mk.inj same
        exact .inl ⟨m, mem, rfl⟩
      · exact .inr ⟨name', w, found, m, mem, rfl⟩

/-- A value in a value is that value itself or stands in one that a step leads to. -/
theorem eq_or_under_of_mem_nodes {role : Role} {v : Json} {n : Node} (proper : v.proper)
    (mem : n ∈ v.nodes role) :
    n = ⟨[], role, v⟩ ∨ ∃ step w, v.atStep? step = some w ∧ w.proper ∧
      ∃ role', ∃ m ∈ w.nodes role', m.under step = n := by
  match v with
  | .null | .bool _ | .number _ | .string _ => exact .inl (List.mem_singleton.1 mem)
  | .array vs =>
    rw [nodes, List.mem_cons, mem_elementNodes] at mem
    obtain rfl | ⟨j, w, at_j, m, mem, rfl⟩ := mem
    · exact .inl rfl
    · rw [Nat.zero_add]
      exact .inr ⟨.index j, w, at_j, eachProper_iff.1 proper w (List.mem_of_getElem? at_j), _, m,
        mem, rfl⟩
  | .object members =>
    rw [nodes, List.mem_cons, mem_memberNodes] at mem
    rw [Json.proper, Bool.and_eq_true, decide_eq_true_eq, membersProper_iff] at proper
    obtain rfl | ⟨name, w, found, m, mem, rfl⟩ := mem
    · exact .inl rfl
    · exact .inr ⟨.key name, w, member?_of_mem proper.1 found, proper.2 _ found, _, m, mem, rfl⟩

/-- The path of a value in a value leads to it. -/
theorem atPath?_of_mem_nodes {role : Role} {v : Json} {n : Node} (proper : v.proper)
    (mem : n ∈ v.nodes role) : v.atPath? n.path = some n.value := by
  obtain ⟨path, _, value⟩ := n
  dsimp only
  induction path generalizing role v with
  | nil =>
    obtain same | ⟨_, _, _, _, _, _, _, under⟩ := eq_or_under_of_mem_nodes proper mem
    · cases same
      rfl
    · nomatch congrArg Node.path under
  | cons step path ih =>
    obtain same | ⟨_, w, leads, proper', _, ⟨_, _, _⟩, mem', under⟩ :=
      eq_or_under_of_mem_nodes proper mem
    · nomatch congrArg Node.path same
    · cases under
      rw [atPath?, List.foldlM_cons, leads]
      exact ih proper' mem'

end Json

/-- A value is well formed if there is no first fault in it. -/
theorem wellFormed_iff_firstFault? {role : Role} {v : Json} :
    WellFormed role v ↔ v.firstFault? role = none := by
  rw [wellFormed_iff, Json.firstFault?, List.find?_eq_none]
  simp

end SchemaCompiler
