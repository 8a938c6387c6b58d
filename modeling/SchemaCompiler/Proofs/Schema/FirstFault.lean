import SchemaCompiler.Proofs.Schema.Accepted
import SchemaCompiler.Proofs.Schema.Grammar

/-!
# The reader of schemas and the grammar

A value is read as a schema exactly if it is well formed as one, and if it is not, the path that is
reported leads to the first value in the order of the document that does not suit its role
(`readSchemaValue_exact`). There is one statement for each of the readers that the reader of
schemas is made of: it succeeds, or it blames the first fault (`Reading.Blames`).
-/

namespace SchemaCompiler

/-! ## Blame -/

/-- A reading that succeeds where there is no fault, and fails at the path of the fault if there is
one. -/
inductive Reading.Blames {α : Type} : Reading Unit α → Option Node → Prop where
  | ok (a : α) : Reading.Blames (.ok a) none
  | fault (cause : Mismatch) (n : Node) :
    Reading.Blames (.error (.mismatch n.path cause ())) (some n)

namespace Reading.Blames

variable {α β : Type} {r : Reading Unit α} {fault fault' : Option Node}

theorem map (h : Reading.Blames r fault) (f : α → β) : Reading.Blames (r.map f) fault := by
  cases h with
  | ok a => exact .ok (f a)
  | fault cause n => exact .fault cause n

theorem bind {f : α → Reading Unit β} (h : Reading.Blames r fault)
    (next : ∀ a, Reading.Blames (f a) fault') : Reading.Blames (r >>= f) (fault.or fault') := by
  cases h with
  | ok a => exact next a
  | fault cause n => exact .fault cause n

theorem under (h : Reading.Blames r fault) (step : Step) :
    Reading.Blames (r.under step) (fault.map (Node.under step)) := by
  cases h with
  | ok a => exact .ok a
  | fault cause n => exact .fault cause (n.under step)

end Reading.Blames

/-! ## First faults -/

namespace Json

/-- The first fault in the elements of a list from position `i` on. -/
def elementFault? (role : Role) (i : Nat) (vs : List Json) : Option Node :=
  (elementNodes role i vs).find? (!·.suits)

/-- The first fault in the members of an object. -/
def memberFault? (role : Role) (members : List (String × Json)) : Option Node :=
  (memberNodes role members).find? (!·.suits)

theorem firstFault?_of_not_suits {role : Role} {v : Json} (h : role.suits v = false) :
    v.firstFault? role = some ⟨[], role, v⟩ := by
  have head : ∃ rest, v.nodes role = ⟨[], role, v⟩ :: rest := by cases v <;> exact ⟨_, rfl⟩
  obtain ⟨rest, head⟩ := head
  rw [firstFault?, head, List.find?_cons_of_pos (by simp [Node.suits, h])]

theorem firstFault?_array {role : Role} {vs : List Json} (h : role.suits (.array vs)) :
    firstFault? role (.array vs) = elementFault? role.element 0 vs := by
  rw [firstFault?, nodes, List.find?_cons_of_neg (by simp [Node.suits, h]), elementFault?]

theorem firstFault?_object {role : Role} {members : List (String × Json)}
    (h : role.suits (.object members)) :
    firstFault? role (.object members) = memberFault? role members := by
  rw [firstFault?, nodes, List.find?_cons_of_neg (by simp [Node.suits, h]), memberFault?]

theorem elementFault?_cons (role : Role) (i : Nat) (v : Json) (rest : List Json) :
    elementFault? role i (v :: rest) =
      ((v.firstFault? role).map (Node.under (.index i))).or (elementFault? role (i + 1) rest) := by
  rw [elementFault?, elementNodes, List.find?_append, List.find?_map]
  rfl

theorem memberFault?_cons (role : Role) (name : String) (v : Json)
    (rest : List (String × Json)) :
    memberFault? role ((name, v) :: rest) =
      ((v.firstFault? (role.member name v)).map (Node.under (.key name))).or
        (memberFault? role rest) := by
  rw [memberFault?, memberNodes, List.find?_append, List.find?_map]
  rfl

end Json

open Json

/-! ## Values as documents -/

mutual

theorem Json.toJson_toDocument : {v : Json} → v.proper → v.toDocument.toJson = .ok v
  | .null, _ | .bool _, _ | .number _, _ | .string _, _ => rfl
  | .array vs, h => by
    rw [Json.toDocument, Document.toJson, Json.toJson_toElements h]
    rfl
  | .object members, h => by
    rw [Json.proper, Bool.and_eq_true, decide_eq_true_eq] at h
    rw [Json.toDocument, Document.toJson, Json.toJson_toMembers h.2]
    simp [Bracket.placeless, Except.map, Json.ofMembers, distinctMembers_eq_self h.1]

theorem Json.toJson_toElements : {vs : List Json} → Json.eachProper vs →
    (Json.toElements vs).toJson = .ok vs
  | [], _ => rfl
  | v :: rest, h => by
    rw [Json.eachProper, Bool.and_eq_true] at h
    rw [Json.toElements, Elements.toJson, Json.toJson_toDocument h.1, Json.toJson_toElements h.2]
    rfl

theorem Json.toJson_toMembers : {members : List (String × Json)} → Json.membersProper members →
    (Json.toMembers members).toJson = .ok members
  | [], _ => rfl
  | (name, v) :: rest, h => by
    rw [Json.membersProper, Bool.and_eq_true] at h
    rw [Json.toMembers, Members.toJson, Json.toJson_toDocument h.1, Json.toJson_toMembers h.2]
    rfl

end

/-! ## Readers of plain data -/

section Plain

variable {α β : Type} {role : Role} {v : Json}

/-- A reader of data that is looked at as a whole. -/
theorem blames_whole {r : Reading Unit α} (whole : role.suits v → WellFormed role v)
    (reads : role.suits v → ∃ a, r = .ok a)
    (refuses : role.suits v = false → ∃ cause, r = .error (.mismatch [] cause ())) :
    Reading.Blames r (v.firstFault? role) := by
  cases suits : role.suits v with
  | true =>
    obtain ⟨a, rfl⟩ := reads suits
    rw [wellFormed_iff_firstFault?.1 (whole suits)]
    exact .ok a
  | false =>
    obtain ⟨cause, rfl⟩ := refuses suits
    rw [firstFault?_of_not_suits suits]
    exact .fault cause ⟨[], role, v⟩

theorem blames_readString : Reading.Blames v.toDocument.readString (v.firstFault? .text) := by
  refine blames_whole (fun h => ?_) (fun h => ?_) fun h => ?_
  · match v, h with
    | .string s, _ => exact .text s
  · match v, h with
    | .string s, _ => exact ⟨s, rfl⟩
  · match v, h with
    | .null, _ | .bool _, _ | .number _, _ | .array _, _ | .object _, _ => exact ⟨_, rfl⟩

theorem blames_readFlag : Reading.Blames v.toDocument.readFlag (v.firstFault? .flag) := by
  refine blames_whole (fun h => ?_) (fun h => ?_) fun h => ?_
  · match v, h with
    | .bool b, _ => exact .flag b
  · match v, h with
    | .bool b, _ => exact ⟨b, rfl⟩
  · match v, h with
    | .null, _ | .string _, _ | .number _, _ | .array _, _ | .object _, _ => exact ⟨_, rfl⟩

theorem blames_readNumber : Reading.Blames v.toDocument.readNumber (v.firstFault? .number) := by
  refine blames_whole (fun h => ?_) (fun h => ?_) fun h => ?_
  · match v, h with
    | .number n, _ => exact .number n
  · match v, h with
    | .number n, _ => exact ⟨n, rfl⟩
  · match v, h with
    | .null, _ | .string _, _ | .bool _, _ | .array _, _ | .object _, _ => exact ⟨_, rfl⟩

theorem suits_count_integer (i : Int) :
    Role.count.suits (.number (.integer i)) ↔ 0 ≤ i ∧ i < 2 ^ 64 := by
  simp [Role.suits]

theorem blames_readCount (proper : v.proper) :
    Reading.Blames (v.toDocument.readCount .word) (v.firstFault? .count) := by
  refine blames_whole (fun suits => ?_) (fun suits => ?_) fun suits => ?_
  · match v, suits with
    | .number (.integer i), suits => exact .of_suits nofun nofun suits
  · match v, suits with
    | .number (.integer i), suits => exact ⟨i.toNat, if_pos ((suits_count_integer i).1 suits).1⟩
  · match v, suits with
    | .number (.integer i), suits =>
      have word : -2 ^ 63 ≤ i ∧ i < 2 ^ 64 := of_decide_eq_true proper
      have negative : ¬ 0 ≤ i := fun h =>
        Bool.false_ne_true (suits.symm.trans ((suits_count_integer i).2 ⟨h, word.2⟩))
      exact ⟨_, if_neg negative⟩
    | .number (.double _), _ | .null, _ | .bool _, _ | .string _, _ | .array _, _ | .object _, _ =>
      exact ⟨_, rfl⟩

theorem recognise_toDocument {ofJson? : Json → Option α} {cause : Mismatch} (proper : v.proper) :
    v.toDocument.recognise ofJson? cause () =
      match ofJson? v with
      | some a => .ok a
      | none => .error (.mismatch [] cause ()) := by
  rw [Document.recognise, Document.readJson, Json.toJson_toDocument proper]
  rfl

/-- A value that is recognised once it has been read. -/
theorem blames_recognise {ofJson? : Json → Option α} {cause : Mismatch} (proper : v.proper)
    (whole : role.suits v → WellFormed role v) (agree : (ofJson? v).isSome = role.suits v) :
    Reading.Blames (v.toDocument.recognise ofJson? cause ()) (v.firstFault? role) := by
  refine blames_whole whole (fun suits => ?_) fun suits => ?_
  · obtain ⟨a, found⟩ := Option.isSome_iff_exists.1 (agree.trans suits)
    exact ⟨a, by rw [recognise_toDocument proper, found]⟩
  · rw [suits, Option.isSome_eq_false_iff, Option.isNone_iff_eq_none] at agree
    exact ⟨cause, by rw [recognise_toDocument proper, agree]⟩

theorem blames_recogniseBound (proper : v.proper) :
    Reading.Blames (v.toDocument.recognise ExclusiveBound.ofJson? .noExclusiveBound ())
      (v.firstFault? .bound) := by
  refine blames_recognise proper (fun suits => ?_) ?_
  · match v, suits with
    | .bool b, _ => exact .exclusive b
    | .number n, _ => exact .bound n
  · cases v <;> rfl

theorem isSome_typeTags (vs : List Json) : (typeTags vs).isSome = vs.all Json.isString := by
  induction vs with
  | nil => rfl
  | cons v rest ih =>
    cases v with
    | string name => simpa [typeTags, Json.isString] using ih
    | null | bool | number | array | object => rfl

theorem blames_recogniseTypes (proper : v.proper) :
    Reading.Blames (v.toDocument.recognise TypeSet.ofJson? .noTypeSet ())
      (v.firstFault? .typeSet) := by
  refine blames_recognise proper (fun suits => ?_) ?_
  · match v, suits with
    | .string name, _ => exact .oneType name
    | .array vs, suits =>
      obtain ⟨names, rfl⟩ := strings_of_all suits
      exact .manyTypes names
  · match v with
    | .array vs => simpa [TypeSet.ofJson?, Role.suits] using isSome_typeTags vs
    | .null | .bool _ | .number _ | .string _ | .object _ => rfl

theorem blames_readEach {read : Document Unit → Reading Unit α} (vs : List Json)
    (each : ∀ v ∈ vs, Reading.Blames (read v.toDocument) (v.firstFault? role)) (i : Nat) :
    Reading.Blames ((Json.toElements vs).readEach read i) (elementFault? role i vs) := by
  induction vs generalizing i with
  | nil => exact .ok []
  | cons v rest ih =>
    rw [List.forall_mem_cons] at each
    rw [elementFault?_cons, Json.toElements, Elements.readEach]
    refine (each.1.under _).bind fun a => ?_
    exact (ih each.2 (i + 1)).map (a :: ·)

theorem blames_readNames : Reading.Blames (v.toDocument.readList Document.readString)
    (v.firstFault? .names) := by
  match v with
  | .array vs =>
    rw [firstFault?_array rfl]
    exact blames_readEach vs (fun _ _ => blames_readString) 0
  | .null | .bool _ | .number _ | .string _ | .object _ =>
    rw [firstFault?_of_not_suits rfl]
    exact .fault _ ⟨[], .names, _⟩

theorem firstFault?_anything (v : Json) : v.firstFault? .anything = none :=
  wellFormed_iff_firstFault?.1 (.anything v)

theorem blames_readJson (proper : v.proper) :
    Reading.Blames v.toDocument.readJson (v.firstFault? .anything) := by
  rw [Document.readJson, Json.toJson_toDocument proper, firstFault?_anything]
  exact .ok v

theorem blames_readValues (proper : v.proper) :
    Reading.Blames (v.toDocument.readList Document.readJson) (v.firstFault? .values) := by
  match v with
  | .array vs =>
    rw [firstFault?_array rfl]
    exact blames_readEach vs (fun w mem => blames_readJson (eachProper_iff.1 proper w mem)) 0
  | .null | .bool _ | .number _ | .string _ | .object _ =>
    rw [firstFault?_of_not_suits rfl]
    exact .fault _ ⟨[], .values, _⟩

end Plain

/-! ## Keywords -/

/-- The role of the value of a keyword. -/
def Keyword.role : Keyword → Role
  | .text _ => .text
  | .count _ => .count
  | .number _ => .number
  | .exclusiveBound _ => .bound
  | .flag _ => .flag
  | .typeSet _ => .typeSet
  | .names _ => .names
  | .value _ => .anything
  | .values _ => .values
  | .schema _ => .schema
  | .schemas _ => .schemas
  | .items _ => .items
  | .fields _ => .fields

theorem ofKeyword_eq (name : String) :
    Role.ofKeyword name = ((Keyword.named name).map Keyword.role).getD .anything := by
  unfold Keyword.named
  split <;> first | rfl | simp_all [Role.ofKeyword]

section Keywords

variable {α β : Type} {v : Json}

theorem firstFault?_free {name : String} (free : Role.ofKeyword name = .anything) :
    v.firstFault? (.ofMember name v) = none := by
  have role : Role.ofMember name v = .anything := by cases v <;> first | rfl | exact free
  rw [role, firstFault?_anything]

theorem blames_optional {read : Document Unit → Reading Unit α} {set : Option α → β} {name : String}
    (blames : Reading.Blames (read v.toDocument) (v.firstFault? (.ofKeyword name))) :
    Reading.Blames ((v.toDocument.optional read).map set) (v.firstFault? (.ofMember name v)) := by
  cases v with
  | null =>
    rw [Role.ofMember, firstFault?_anything]
    exact .ok _
  | bool | number | string | array | object => exact (blames.map some).map set

theorem blames_unlessNull {r : Reading Unit α} {set : α → β} {absent : β} {name : String}
    (blames : Reading.Blames r (v.firstFault? (.ofKeyword name))) :
    Reading.Blames (if v.toDocument.isNull then .ok absent else r.map set)
      (v.firstFault? (.ofMember name v)) := by
  cases v with
  | null =>
    rw [Role.ofMember, firstFault?_anything]
    exact .ok absent
  | bool | number | string | array | object => exact blames.map set

end Keywords

/-! ## The reader of schemas -/

theorem ofFault_ok_bind {α β : Type} (a : α) (f : α → Reading Unit β) :
    Reading.ofFault (.ok a) >>= f = f a := rfl

mutual

theorem blames_readSchema : (v : Json) → v.proper →
    Reading.Blames v.toDocument.readSchema (v.firstFault? .schema)
  | .bool b, _ => by
    rw [wellFormed_iff_firstFault?.1 (.bool b)]
    exact .ok (Schema.bool b)
  | .object members, proper => by
    rw [Json.proper, Bool.and_eq_true, decide_eq_true_eq] at proper
    rw [firstFault?_object rfl]
    exact (blames_readKeywords .schema rfl members proper.2 proper.1 [] (by simp) {}).map
      Schema.object
  | .null, _ | .number _, _ | .string _, _ | .array _, _ => by
    rw [firstFault?_of_not_suits rfl]
    exact .fault _ ⟨[], .schema, _⟩

theorem blames_readKeywords (role : Role) (keywords : role.member = Role.ofMember) :
    (members : List (String × Json)) → Json.membersProper members →
    (members.map (·.1)).Nodup → (seen : List String) → (∀ name ∈ seen, name ∉ members.map (·.1)) →
    (k : Keywords Schema) →
    Reading.Blames ((Json.toMembers members).readKeywords seen k) (memberFault? role members)
  | [], _, _, _, _, k => .ok k
  | (name, v) :: rest, proper, distinct, seen, unseen, k => by
    rw [Json.membersProper, Bool.and_eq_true] at proper
    rw [List.map_cons, List.nodup_cons] at distinct
    rw [memberFault?_cons, keywords]
    have new : seen.contains name = false := by
      rw [List.contains_eq_mem, decide_eq_false_iff_not]
      exact fun mem => unseen name mem List.mem_cons_self
    have outline : v.toDocument.outlineFault? = none :=
      Document.outlineFault?_of_sound _ (Json.toJson_toDocument proper.1)
    have onward (k : Keywords Schema) :
        Reading.Blames ((Json.toMembers rest).readKeywords (name :: seen) k)
          (memberFault? role rest) := by
      refine blames_readKeywords role keywords rest proper.2 distinct.2 _ ?_ k
      rintro key (_ | ⟨_, mem⟩)
      · exact distinct.1
      · exact fun later => unseen key mem (List.mem_cons_of_mem _ later)
    have role_eq := ofKeyword_eq name
    rw [Json.toMembers, Members.readKeywords, ofFault_ok_bind]
    cases named : Keyword.named name with
    | none =>
      rw [named] at role_eq
      simp only [outline, firstFault?_free role_eq, Option.map_none, Option.none_or]
      refine blames_readKeywords role keywords rest proper.2 distinct.2 _
        (fun key mem later => ?_) k
      exact unseen key mem (List.mem_cons_of_mem _ later)
    | some keyword =>
      simp only [new, Bool.false_eq_true, if_false]
      refine Reading.Blames.bind (Reading.Blames.under ?_ _) onward
      rw [named] at role_eq
      cases keyword with
      | text => exact blames_optional (role_eq ▸ blames_readString)
      | count => exact blames_optional (role_eq ▸ blames_readCount proper.1)
      | number => exact blames_optional (role_eq ▸ blames_readNumber)
      | exclusiveBound => exact blames_optional (role_eq ▸ blames_recogniseBound proper.1)
      | flag => exact blames_optional (role_eq ▸ blames_readFlag)
      | typeSet => exact blames_optional (role_eq ▸ blames_recogniseTypes proper.1)
      | names => exact blames_optional (role_eq ▸ blames_readNames)
      | value =>
        rw [firstFault?_free role_eq, ← firstFault?_anything v]
        exact (blames_readJson proper.1).map _
      | values => exact blames_optional (role_eq ▸ blames_readValues proper.1)
      | schema => exact blames_unlessNull (role_eq ▸ blames_readSchema v proper.1)
      | schemas => exact blames_unlessNull (role_eq ▸ blames_readSchemas v proper.1)
      | items => exact blames_unlessNull (role_eq ▸ blames_readItems v proper.1)
      | fields => exact blames_unlessNull (role_eq ▸ blames_readFields v proper.1)

theorem blames_readSchemas : (v : Json) → v.proper →
    Reading.Blames v.toDocument.readSchemas (v.firstFault? .schemas)
  | .array vs, proper => by
    rw [firstFault?_array rfl]
    exact blames_readSchemaElements vs proper 0
  | .null, _ | .bool _, _ | .number _, _ | .string _, _ | .object _, _ => by
    rw [firstFault?_of_not_suits rfl]
    exact .fault _ ⟨[], .schemas, _⟩

theorem blames_readSchemaElements : (vs : List Json) → Json.eachProper vs → (i : Nat) →
    Reading.Blames ((Json.toElements vs).readSchemas i) (elementFault? .schema i vs)
  | [], _, _ => .ok []
  | v :: rest, proper, i => by
    rw [Json.eachProper, Bool.and_eq_true] at proper
    rw [elementFault?_cons, Json.toElements, Elements.readSchemas]
    refine ((blames_readSchema v proper.1).under _).bind fun s => ?_
    exact (blames_readSchemaElements rest proper.2 (i + 1)).map (s :: ·)

theorem blames_readItems : (v : Json) → v.proper →
    Reading.Blames v.toDocument.readItems (v.firstFault? .items)
  | .bool b, _ => by
    rw [wellFormed_iff_firstFault?.1 (.oneItem _ (.bool b))]
    exact .ok (Items.all (Schema.bool b))
  | .object members, proper => by
    rw [Json.proper, Bool.and_eq_true, decide_eq_true_eq] at proper
    rw [firstFault?_object rfl]
    exact (blames_readKeywords .items rfl members proper.2 proper.1 [] (by simp) {}).map
      fun k => Items.all (Schema.object k)
  | .array vs, proper => by
    rw [firstFault?_array rfl]
    exact (blames_readSchemaElements vs proper 0).map Items.each
  | .null, _ | .number _, _ | .string _, _ => by
    rw [firstFault?_of_not_suits rfl]
    exact .fault _ ⟨[], .items, _⟩

theorem blames_readFields : (v : Json) → v.proper →
    Reading.Blames v.toDocument.readFields (v.firstFault? .fields)
  | .object members, proper => by
    rw [Json.proper, Bool.and_eq_true] at proper
    rw [firstFault?_object rfl]
    exact (blames_readFieldMembers members proper.2).map distinctMembers
  | .null, _ | .bool _, _ | .number _, _ | .string _, _ | .array _, _ => by
    rw [firstFault?_of_not_suits rfl]
    exact .fault _ ⟨[], .fields, _⟩

theorem blames_readFieldMembers : (members : List (String × Json)) → Json.membersProper members →
    Reading.Blames (Json.toMembers members).readFields (memberFault? .fields members)
  | [], _ => .ok []
  | (name, v) :: rest, proper => by
    rw [Json.membersProper, Bool.and_eq_true] at proper
    rw [memberFault?_cons, Json.toMembers, Members.readFields, ofFault_ok_bind]
    refine ((blames_readSchema v proper.1).under _).bind fun s => ?_
    exact (blames_readFieldMembers rest proper.2).map ((name, s) :: ·)

end

/-- A value is read as a schema if it is well formed as one, and only then. Otherwise the report
has the path of the first value in the order of the document that does not suit its role, and the
path leads to that value. -/
theorem readSchemaValue_exact {v : Json} (proper : v.proper) :
    ((∃ s, readSchemaValue v = .ok s) ↔ WellFormed .schema v) ∧
    ∀ e, readSchemaValue v = .error e →
      ∃ earlier fault later, v.nodes .schema = earlier ++ fault :: later ∧
        (∀ n ∈ earlier, n.suits) ∧ fault.suits = false ∧
        v.atPath? fault.path = some fault.value ∧
        ∃ cause, e = .badSchema fault.path cause none := by
  have blames := blames_readSchema v proper
  rw [wellFormed_iff_firstFault?, readSchemaValue, Schema.ofJson]
  generalize v.toDocument.readSchema = r at blames
  generalize found : v.firstFault? .schema = fault at blames
  cases blames with
  | ok s => exact ⟨⟨fun _ => rfl, fun _ => ⟨s, rfl⟩⟩, fun _ h => (nomatch h)⟩
  | fault cause n =>
    refine ⟨⟨fun ⟨_, h⟩ => (nomatch h), fun h => (nomatch h)⟩, fun e h => ?_⟩
    obtain rfl := Except.error.inj h
    obtain ⟨unsuited, earlier, later, nodes, suited⟩ := List.find?_eq_some_iff_append.1 found
    refine ⟨earlier, n, later, nodes, by simpa using suited, by simpa using unsuited, ?_, cause,
      rfl⟩
    have mem : n ∈ v.nodes .schema := by simp [nodes]
    exact Json.atPath?_of_mem_nodes proper mem

/-- An object with a fault in a list of schemas, and another one in a keyword after it. -/
def misplacedNull : Json :=
  .object [("example", .array [.null]), ("allOf", .array [.bool true, .null]),
    ("minLength", .string "five")]

theorem readSchemaValue_exact_misplacedNull :
    misplacedNull.proper ∧
      ((∃ s, readSchemaValue misplacedNull = .ok s) ↔ WellFormed .schema misplacedNull) ∧
      readSchemaValue misplacedNull =
        .error (.badSchema [.key "allOf", .index 1] (.kind .null .schema) none) := by
  have proper : misplacedNull.proper := by decide +kernel
  exact ⟨proper, (readSchemaValue_exact proper).1, rfl⟩

end SchemaCompiler
