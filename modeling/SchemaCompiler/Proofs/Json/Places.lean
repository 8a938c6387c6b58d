import Mathlib.Data.List.Induction
import Mathlib.Data.List.Nodup
import SchemaCompiler.Json.Reader

/-!
# Documents without their places

A text that is one value, and no object of which repeats a name, is the document of that value but
for the places in it (`Document.alike_toDocument`). Whatever is read of two documents that differ in
their places only is the same, or both are refused for the same reason at the same path: a
reading looks at a place only to report it (`Reading.Agree`).
-/

namespace SchemaCompiler

variable {P Q : Type} {α β : Type}

/-! ## Readings that agree -/

/-- Two readings with the same result, or refused for the same reason, which may differ in the place
that is reported. Neither reports a fault of a text. -/
inductive Reading.Agree : Reading P α → Reading Q α → Prop where
  | ok (a : α) : Reading.Agree (.ok a) (.ok a)
  | mismatch (path : List Step) (cause : Mismatch) (place : P) (place' : Q) :
    Reading.Agree (.error (.mismatch path cause place)) (.error (.mismatch path cause place'))

namespace Reading.Agree

variable {r : Reading P α} {r' : Reading Q α}

theorem bind (h : Reading.Agree r r') {f : α → Reading P β} {g : α → Reading Q β}
    (next : ∀ a, Reading.Agree (f a) (g a)) : Reading.Agree (r >>= f) (r' >>= g) := by
  cases h with
  | ok a => exact next a
  | mismatch path cause place place' => exact .mismatch path cause place place'

theorem map (h : Reading.Agree r r') (f : α → β) : Reading.Agree (r.map f) (r'.map f) := by
  cases h with
  | ok a => exact .ok (f a)
  | mismatch path cause place place' => exact .mismatch path cause place place'

theorem under (h : Reading.Agree r r') (step : Step) :
    Reading.Agree (r.under step) (r'.under step) := by
  cases h with
  | ok a => exact .ok a
  | mismatch path cause place place' => exact .mismatch (step :: path) cause place place'

end Reading.Agree

/-! ## Documents that differ in their places -/

mutual

/-- Two documents without faults and with the same data. -/
inductive Document.Alike : Document P → Document Q → Prop where
  | null (t : Token P) (t' : Token Q) : Document.Alike (.null t) (.null t')
  | bool (b : Bool) (t : Token P) (t' : Token Q) : Document.Alike (.bool b t) (.bool b t')
  | number (n : Number) (t : Token P) (t' : Token Q) :
    Document.Alike (.number (.ok n) t) (.number (.ok n) t')
  | string (s : String) (t : Token P) (t' : Token Q) :
    Document.Alike (.string (.ok s) t) (.string (.ok s) t')
  | array {b : Bracket P} {b' : Bracket Q} {es : Elements P} {es' : Elements Q}
    (shallow : b.tooDeep = false) (shallow' : b'.tooDeep = false) (elements : es.Alike es') :
    Document.Alike (.array b es) (.array b' es')
  | object {b : Bracket P} {b' : Bracket Q} {ms : Members P} {ms' : Members Q}
    (shallow : b.tooDeep = false) (shallow' : b'.tooDeep = false) (members : ms.Alike ms') :
    Document.Alike (.object b ms) (.object b' ms')

inductive Elements.Alike : Elements P → Elements Q → Prop where
  | close : Elements.Alike .close .close
  | cons {d : Document P} {d' : Document Q} {es : Elements P} {es' : Elements Q}
    (first : d.Alike d') (rest : es.Alike es') : Elements.Alike (.cons d es) (.cons d' es')

inductive Members.Alike : Members P → Members Q → Prop where
  | close : Members.Alike .close .close
  | cons (name : String) (t : NameToken P) (t' : NameToken Q) {d : Document P} {d' : Document Q}
    (settled : P) (settled' : Q) {ms : Members P} {ms' : Members Q} (value : d.Alike d')
    (rest : ms.Alike ms') :
    Members.Alike (.cons (.ok name) t d settled ms) (.cons (.ok name) t' d' settled' ms')

end

/-! ## The document of a text that is a value -/

/-- The names of the members of an object that have no fault. -/
def Members.names : Members P → List String
  | .close => []
  | .broken _ _ => []
  | .cons (.ok name) _ _ _ rest => name :: rest.names
  | .cons (.error _) _ _ _ rest => rest.names

mutual

/-- No object repeats a name. -/
def Document.namesDistinct : Document P → Bool
  | .array _ elements => elements.namesDistinct
  | .object _ members => decide members.names.Nodup && members.namesDistinct
  | _ => true

def Elements.namesDistinct : Elements P → Bool
  | .cons first rest => first.namesDistinct && rest.namesDistinct
  | _ => true

def Members.namesDistinct : Members P → Bool
  | .cons _ _ value _ rest => value.namesDistinct && rest.namesDistinct
  | _ => true

end

theorem setMember_of_not_mem {name : String} {v : α} {members : List (String × α)}
    (h : name ∉ members.map (·.1)) : setMember name v members = members ++ [(name, v)] := by
  induction members with
  | nil => rfl
  | cons m rest ih =>
    rw [List.map_cons, List.mem_cons, not_or] at h
    rw [setMember, if_neg (Ne.symm h.1), ih h.2, List.cons_append]

theorem distinctMembers_eq_self {members : List (String × α)}
    (h : (members.map (·.1)).Nodup) : distinctMembers members = members := by
  have onto : ∀ (kept rest : List (String × α)), ((kept ++ rest).map (·.1)).Nodup →
      rest.foldl (fun kept m => setMember m.1 m.2 kept) kept = kept ++ rest := by
    intro kept rest
    induction rest generalizing kept with
    | nil => exact fun _ => (List.append_nil kept).symm
    | cons m rest ih =>
      obtain ⟨name, v⟩ := m
      intro h
      have new : name ∉ kept.map (·.1) := by
        rw [List.map_append, List.nodup_append] at h
        exact fun mem => h.2.2 _ mem _ (List.mem_cons_self ..) rfl
      have shifted : ((kept ++ [(name, v)]) ++ rest).map (·.1) =
          (kept ++ (name, v) :: rest).map (·.1) := by simp
      simp only [List.foldl_cons, setMember_of_not_mem new]
      rw [ih (kept ++ [(name, v)]) (shifted ▸ h), List.append_assoc, List.singleton_append]
  exact onto [] members h

theorem mem_of_mem_setMember {name : String} {v : α} {members : List (String × α)}
    {m : String × α} (h : m ∈ setMember name v members) : m = (name, v) ∨ m ∈ members := by
  induction members with
  | nil => exact .inl (List.mem_singleton.1 h)
  | cons first rest ih =>
    rw [setMember] at h
    split at h
    next same =>
      obtain rfl | h := List.mem_cons.1 h
      · exact .inl (by rw [← same])
      · exact .inr (List.mem_cons_of_mem _ h)
    next =>
      obtain rfl | h := List.mem_cons.1 h
      · exact .inr List.mem_cons_self
      · exact (ih h).imp_right (List.mem_cons_of_mem _)

theorem names_setMember (name : String) (v : α) (members : List (String × α)) :
    (setMember name v members).map (·.1) =
      if name ∈ members.map (·.1) then members.map (·.1) else members.map (·.1) ++ [name] := by
  induction members with
  | nil => rfl
  | cons first rest ih =>
    rw [setMember]
    split
    next same => simp [same]
    next other =>
      rw [List.map_cons, ih]
      by_cases old : name ∈ rest.map (·.1)
      · simp [old]
      · simp [old, Ne.symm other]

/-- Members of distinct names, each of which is one of the given members. -/
theorem distinctMembers_spec (members : List (String × α)) :
    ((distinctMembers members).map (·.1)).Nodup ∧ distinctMembers members ⊆ members := by
  induction members using List.reverseRecOn with
  | nil => exact ⟨List.nodup_nil, List.Subset.refl _⟩
  | append_singleton members m ih =>
    obtain ⟨nodup, sub⟩ := ih
    have last : distinctMembers (members ++ [m]) = setMember m.1 m.2 (distinctMembers members) := by
      rw [distinctMembers, List.foldl_append]
      rfl
    rw [last, names_setMember]
    constructor
    · split
      next => exact nodup
      next new => exact nodup.append (List.nodup_singleton _) (by simpa using new)
    · intro n hn
      obtain rfl | old := mem_of_mem_setMember hn
      · exact List.mem_append_right _ (List.mem_singleton.2 rfl)
      · exact List.mem_append_left _ (sub old)

theorem except_map_eq_ok {ε : Type} {x : Except ε α} {f : α → β} {b : β} (h : x.map f = .ok b) :
    ∃ a, x = .ok a ∧ f a = b := by
  cases x with
  | error e => nomatch h
  | ok a => exact ⟨a, rfl, Except.ok.inj h⟩

theorem except_bind_eq_ok {ε : Type} {x : Except ε α} {f : α → Except ε β} {b : β}
    (h : x >>= f = .ok b) : ∃ a, x = .ok a ∧ f a = .ok b := by
  cases x with
  | error e => nomatch h
  | ok a => exact ⟨a, rfl, h⟩

/-- What the members of an object are, one after the other. -/
theorem Members.toJson_cons {name : Except (Fault P) String} {t : NameToken P} {value : Document P}
    {settled : P} {rest : Members P} {members : List (String × Json)}
    (h : (Members.cons name t value settled rest).toJson = .ok members) :
    ∃ k x more, name = .ok k ∧ value.toJson = .ok x ∧ rest.toJson = .ok more ∧
      members = (k, x) :: more := by
  rw [Members.toJson] at h
  obtain ⟨k, hk, h⟩ := except_bind_eq_ok h
  obtain ⟨x, hx, h⟩ := except_bind_eq_ok h
  obtain ⟨more, hmore, h⟩ := except_bind_eq_ok h
  exact ⟨k, x, more, hk, hx, hmore, (Except.ok.inj h).symm⟩

theorem Members.names_eq : (ms : Members P) → {members : List (String × Json)} →
    ms.toJson = .ok members → ms.names = members.map (·.1)
  | .close, _, h => by
    obtain rfl := Except.ok.inj h
    rfl
  | .broken .., _, h => nomatch h
  | .cons _ _ _ _ rest, _, h => by
    obtain ⟨k, x, more, rfl, _, hmore, rfl⟩ := Members.toJson_cons h
    rw [Members.names, rest.names_eq hmore, List.map_cons]

mutual

/-- A document that is a value throughout is the document of that value but for the places, if no
object repeats a name. -/
theorem Document.alike_toDocument : (d : Document P) → {x : Json} → d.toJson = .ok x →
    d.namesDistinct → d.Alike x.toDocument
  | .null t, _, h, _ => by
    obtain rfl := Except.ok.inj h
    exact .null t _
  | .bool b t, _, h, _ => by
    obtain rfl := Except.ok.inj h
    exact .bool b t _
  | .number n t, _, h, _ => by
    obtain ⟨n, rfl, rfl⟩ := except_map_eq_ok h
    exact .number n t _
  | .string s t, _, h, _ => by
    obtain ⟨s, rfl, rfl⟩ := except_map_eq_ok h
    exact .string s t _
  | .array b es, _, h, distinct => by
    rw [Document.toJson] at h
    split at h
    next => nomatch h
    next shallow =>
      obtain ⟨xs, elements, rfl⟩ := except_map_eq_ok h
      exact .array (by simpa using shallow) rfl (es.alike_toElements elements distinct)
  | .object b ms, _, h, distinct => by
    rw [Document.toJson] at h
    rw [Document.namesDistinct, Bool.and_eq_true, decide_eq_true_eq] at distinct
    obtain ⟨nodup, distinct⟩ := distinct
    split at h
    next => nomatch h
    next shallow =>
      obtain ⟨members, members', rfl⟩ := except_map_eq_ok h
      rw [ms.names_eq members'] at nodup
      rw [Json.ofMembers, distinctMembers_eq_self nodup]
      exact .object (by simpa using shallow) rfl (ms.alike_toMembers members' distinct)
  | .broken .., _, h, _ => nomatch h

theorem Elements.alike_toElements : (es : Elements P) → {xs : List Json} → es.toJson = .ok xs →
    es.namesDistinct → es.Alike (Json.toElements xs)
  | .close, _, h, _ => by
    obtain rfl := Except.ok.inj h
    exact .close
  | .broken .., _, h, _ => nomatch h
  | .cons first rest, _, h, distinct => by
    rw [Elements.toJson] at h
    rw [Elements.namesDistinct, Bool.and_eq_true] at distinct
    obtain ⟨x, hx, h⟩ := except_bind_eq_ok h
    obtain ⟨xs, hxs, h⟩ := except_bind_eq_ok h
    obtain rfl := Except.ok.inj h
    exact .cons (first.alike_toDocument hx distinct.1) (rest.alike_toElements hxs distinct.2)

theorem Members.alike_toMembers : (ms : Members P) → {members : List (String × Json)} →
    ms.toJson = .ok members → ms.namesDistinct → ms.Alike (Json.toMembers members)
  | .close, _, h, _ => by
    obtain rfl := Except.ok.inj h
    exact .close
  | .broken .., _, h, _ => nomatch h
  | .cons name t value settled rest, _, h, distinct => by
    rw [Members.namesDistinct, Bool.and_eq_true] at distinct
    obtain ⟨k, x, more, rfl, hx, hmore, rfl⟩ := Members.toJson_cons h
    exact .cons k t _ settled () (value.alike_toDocument hx distinct.1)
      (rest.alike_toMembers hmore distinct.2)

end

/-! ## Readers -/

mutual

theorem Document.Alike.toJson {d : Document P} {d' : Document Q} :
    d.Alike d' → ∃ x, d.toJson = .ok x ∧ d'.toJson = .ok x
  | .null _ _ => ⟨_, rfl, rfl⟩
  | .bool _ _ _ => ⟨_, rfl, rfl⟩
  | .number _ _ _ => ⟨_, rfl, rfl⟩
  | .string _ _ _ => ⟨_, rfl, rfl⟩
  | .array shallow shallow' elements => by
    obtain ⟨xs, h, h'⟩ := elements.toJson
    simp [Document.toJson, shallow, shallow', h, h', Except.map]
  | .object shallow shallow' members => by
    obtain ⟨xs, h, h'⟩ := members.toJson
    simp [Document.toJson, shallow, shallow', h, h', Except.map]

theorem Elements.Alike.toJson {es : Elements P} {es' : Elements Q} :
    es.Alike es' → ∃ xs, es.toJson = .ok xs ∧ es'.toJson = .ok xs
  | .close => ⟨_, rfl, rfl⟩
  | .cons first rest => by
    obtain ⟨x, hx, hx'⟩ := first.toJson
    obtain ⟨xs, hxs, hxs'⟩ := rest.toJson
    refine ⟨x :: xs, ?_, ?_⟩
    · rw [Elements.toJson, hx, hxs]
      rfl
    · rw [Elements.toJson, hx', hxs']
      rfl

theorem Members.Alike.toJson {ms : Members P} {ms' : Members Q} :
    ms.Alike ms' → ∃ members, ms.toJson = .ok members ∧ ms'.toJson = .ok members
  | .close => ⟨_, rfl, rfl⟩
  | .cons name _ _ _ _ value rest => by
    obtain ⟨x, hx, hx'⟩ := value.toJson
    obtain ⟨members, hm, hm'⟩ := rest.toJson
    refine ⟨(name, x) :: members, ?_, ?_⟩
    · rw [Members.toJson, hx, hm]
      rfl
    · rw [Members.toJson, hx', hm']
      rfl

end

mutual

theorem Document.Alike.outlineFault? {d : Document P} {d' : Document Q} :
    d.Alike d' → d.outlineFault? = none ∧ d'.outlineFault? = none
  | .null _ _ => ⟨rfl, rfl⟩
  | .bool _ _ _ => ⟨rfl, rfl⟩
  | .number _ _ _ => ⟨rfl, rfl⟩
  | .string _ _ _ => ⟨rfl, rfl⟩
  | .array _ _ elements => elements.outlineFault?
  | .object _ _ members => members.outlineFault?

theorem Elements.Alike.outlineFault? {es : Elements P} {es' : Elements Q} :
    es.Alike es' → es.outlineFault? = none ∧ es'.outlineFault? = none
  | .close => ⟨rfl, rfl⟩
  | .cons first rest => by
    obtain ⟨h, h'⟩ := first.outlineFault?
    rw [Elements.outlineFault?, Elements.outlineFault?, h, h']
    exact rest.outlineFault?

theorem Members.Alike.outlineFault? {ms : Members P} {ms' : Members Q} :
    ms.Alike ms' → ms.outlineFault? = none ∧ ms'.outlineFault? = none
  | .close => ⟨rfl, rfl⟩
  | .cons _ _ _ _ _ value rest => by
    obtain ⟨h, h'⟩ := value.outlineFault?
    rw [Members.outlineFault?, Members.outlineFault?, h, h']
    exact rest.outlineFault?

end

namespace Document.Alike

variable {d : Document P} {d' : Document Q}

theorem isNull (h : d.Alike d') : d.isNull = d'.isNull := by cases h <;> rfl

theorem refuse (h : d.Alike d') (expected : Expected) {bracket : Found → Bracket P → ReadError P}
    {bracket' : Found → Bracket Q → ReadError Q}
    (brackets : ∀ found b b', b.tooDeep = false → b'.tooDeep = false →
      Reading.Agree (α := α) (.error (bracket found b)) (.error (bracket' found b'))) :
    Reading.Agree (α := α) (.error (d.refuse expected bracket))
      (.error (d'.refuse expected bracket')) := by
  cases h with
  | null | bool | number | string => exact .mismatch _ _ _ _
  | array shallow shallow' => exact brackets .list _ _ shallow shallow'
  | object shallow shallow' => exact brackets .object _ _ shallow shallow'

theorem refuseWithin (h : d.Alike d') (expected : Expected) :
    Reading.Agree (α := α) (.error (d.refuseWithin expected))
      (.error (d'.refuseWithin expected)) :=
  h.refuse expected fun found b b' shallow shallow' => by
    simp only [shallow, shallow', Bool.false_eq_true, if_false]
    exact .mismatch _ _ _ _

theorem optional (h : d.Alike d') {read : Document P → Reading P α}
    {read' : Document Q → Reading Q α} (agree : Reading.Agree (read d) (read' d')) :
    Reading.Agree (d.optional read) (d'.optional read') := by
  cases h with
  | null => exact .ok none
  | bool | number | string | array | object => exact agree.map some

theorem readString (h : d.Alike d') : Reading.Agree d.readString d'.readString := by
  cases h with
  | string s => exact .ok s
  | null | bool | number | array | object => exact .mismatch _ _ _ _

theorem readFlag (h : d.Alike d') : Reading.Agree d.readFlag d'.readFlag := by
  cases h with
  | bool b => exact .ok b
  | null | number | string | array | object => exact .mismatch _ _ _ _

theorem readCount (h : d.Alike d') (expected : Expected) :
    Reading.Agree (d.readCount expected) (d'.readCount expected) := by
  cases h with
  | number n =>
    cases n with
    | integer i =>
      by_cases nonnegative : 0 ≤ i
      · simp only [Document.readCount, nonnegative, if_true]
        exact .ok i.toNat
      · simp only [Document.readCount, nonnegative, if_false]
        exact .mismatch _ _ _ _
    | double => exact .mismatch _ _ _ _
  | null | bool | string | array | object => exact .mismatch _ _ _ _

theorem readNumber (h : d.Alike d') : Reading.Agree d.readNumber d'.readNumber := by
  have refused : Reading.Agree (α := Number) _ _ := h.refuseWithin .number
  cases h with
  | number n => exact .ok n
  | null | bool | string | array | object => exact refused

theorem readJson (h : d.Alike d') : Reading.Agree d.readJson d'.readJson := by
  obtain ⟨x, hx, hx'⟩ := h.toJson
  unfold Document.readJson
  rw [hx, hx']
  exact .ok x

end Document.Alike

theorem Elements.Alike.readEach {read : Document P → Reading P α} {read' : Document Q → Reading Q α}
    (agree : ∀ {d d'}, Document.Alike d d' → Reading.Agree (read d) (read' d')) :
    (i : Nat) → {es : Elements P} → {es' : Elements Q} → es.Alike es' →
      Reading.Agree (es.readEach read i) (es'.readEach read' i)
  | _, _, _, .close => .ok []
  | i, _, _, .cons first rest =>
    ((agree first).under (.index i)).bind fun a =>
      (rest.readEach agree (i + 1)).bind fun as => .ok (a :: as)

theorem Document.Alike.readList {read : Document P → Reading P α}
    {read' : Document Q → Reading Q α}
    (agree : ∀ {d d'}, Document.Alike d d' → Reading.Agree (read d) (read' d'))
    {d : Document P} {d' : Document Q} (h : d.Alike d') :
    Reading.Agree (d.readList read) (d'.readList read') := by
  cases h with
  | array shallow shallow' elements =>
    simp only [Document.readList, shallow, shallow', Bool.false_eq_true, if_false]
    exact elements.readEach agree 0
  | null | bool | number | string | object => exact .mismatch _ _ _ _

end SchemaCompiler
