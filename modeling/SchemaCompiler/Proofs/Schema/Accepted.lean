import SchemaCompiler.Error
import SchemaCompiler.Proofs.Json.Scanned

/-!
# Texts that are accepted as schemas

A text is accepted as a schema if it starts with one; what follows the schema is not looked at, and
the values of unknown keywords are looked at in their outline only. So an accepted text is one JSON
value exactly if nothing but blanks follows and each skipped value is in order
(`convertText_isJson_iff`); there are accepted texts that are none.
-/

namespace SchemaCompiler

variable {P : Type}

/-! ## Skipped values -/

mutual

/-- The values that the reader of a schema, of the schemas in a list, or of `items` skips. -/
def Document.skipped : Document P → List (Document P)
  | .array _ elements => elements.skipped
  | .object _ members => members.skipped
  | _ => []

def Elements.skipped : Elements P → List (Document P)
  | .cons first rest => first.skipped ++ rest.skipped
  | _ => []

/-- The values that are skipped among the keywords of an object and in them. -/
def Members.skipped : Members P → List (Document P)
  | .cons (.ok name) _ value _ rest =>
    (match Keyword.named name with
      | none => [value]
      | some (.schema _) => value.skipped
      | some (.schemas _) => value.skipped
      | some (.items _) => value.skipped
      | some (.fields _) => value.skippedInFields
      | some _ => []) ++ rest.skipped
  | _ => []

/-- The values that are skipped in an object of schemas. -/
def Document.skippedInFields : Document P → List (Document P)
  | .object _ members => members.skippedInFields
  | _ => []

def Members.skippedInFields : Members P → List (Document P)
  | .cons _ _ value _ rest => value.skipped ++ rest.skippedInFields
  | _ => []

end

/-! ## What has been read -/

/-- A document that is a value throughout. -/
def Document.Sound (d : Document P) : Prop := ∃ v, d.toJson = .ok v

def Elements.Sound (es : Elements P) : Prop := ∃ vs, es.toJson = .ok vs

def Members.Sound (ms : Members P) : Prop := ∃ kvs, ms.toJson = .ok kvs

/-- A document whose outline is in order, and that is a value if the values `unread` are. -/
structure Document.SoundBut (d : Document P) (unread : List (Document P)) : Prop where
  outline : d.outlineFault? = none
  sound_iff : d.Sound ↔ ∀ u ∈ unread, u.Sound

structure Elements.SoundBut (es : Elements P) (unread : List (Document P)) : Prop where
  outline : es.outlineFault? = none
  sound_iff : es.Sound ↔ ∀ u ∈ unread, u.Sound

structure Members.SoundBut (ms : Members P) (unread : List (Document P)) : Prop where
  outline : ms.outlineFault? = none
  sound_iff : ms.Sound ↔ ∀ u ∈ unread, u.Sound

mutual

theorem Document.outlineFault?_of_sound : (d : Document P) → {v : Json} → d.toJson = .ok v →
    d.outlineFault? = none
  | .null _, _, _ | .bool .., _, _ | .number .., _, _ | .string .., _, _ => rfl
  | .array b es, _, h => by
    rw [Document.toJson] at h
    split at h
    · nomatch h
    · obtain ⟨vs, elements, -⟩ := except_map_eq_ok h
      exact es.outlineFault?_of_sound elements
  | .object b ms, _, h => by
    rw [Document.toJson] at h
    split at h
    · nomatch h
    · obtain ⟨kvs, members, -⟩ := except_map_eq_ok h
      exact ms.outlineFault?_of_sound members
  | .broken .., _, h => nomatch h

theorem Elements.outlineFault?_of_sound : (es : Elements P) → {vs : List Json} →
    es.toJson = .ok vs → es.outlineFault? = none
  | .close, _, _ => rfl
  | .broken .., _, h => nomatch h
  | .cons first rest, _, h => by
    rw [Elements.toJson] at h
    obtain ⟨v, hv, h⟩ := except_bind_eq_ok h
    obtain ⟨vs, hvs, -⟩ := except_bind_eq_ok h
    rw [Elements.outlineFault?, first.outlineFault?_of_sound hv]
    exact rest.outlineFault?_of_sound hvs

theorem Members.outlineFault?_of_sound : (ms : Members P) → {kvs : List (String × Json)} →
    ms.toJson = .ok kvs → ms.outlineFault? = none
  | .close, _, _ => rfl
  | .broken .., _, h => nomatch h
  | .cons _ _ value _ rest, _, h => by
    obtain ⟨_, v, kvs, -, hv, hkvs, -⟩ := Members.toJson_cons h
    rw [Members.outlineFault?, value.outlineFault?_of_sound hv]
    exact rest.outlineFault?_of_sound hkvs

end

/-! ## Rules for what has been read -/

theorem Document.Sound.but {d : Document P} (h : d.Sound) : d.SoundBut [] where
  outline := d.outlineFault?_of_sound h.choose_spec
  sound_iff := by simpa using h

theorem Document.soundBut_self {d : Document P} (h : d.outlineFault? = none) : d.SoundBut [d] where
  outline := h
  sound_iff := by simp

theorem Document.SoundBut.array {b : Bracket P} {es : Elements P} {unread : List (Document P)}
    (shallow : b.tooDeep = false) (h : es.SoundBut unread) : (array b es).SoundBut unread where
  outline := h.outline
  sound_iff := by
    rw [← h.sound_iff, Document.Sound, Document.toJson, shallow]
    exact ⟨fun ⟨_, hv⟩ => let ⟨vs, hvs, _⟩ := except_map_eq_ok hv; ⟨vs, hvs⟩,
      fun ⟨vs, hvs⟩ => ⟨.array vs, by simp [hvs, Except.map]⟩⟩

theorem Document.SoundBut.object {b : Bracket P} {ms : Members P} {unread : List (Document P)}
    (shallow : b.tooDeep = false) (h : ms.SoundBut unread) : (object b ms).SoundBut unread where
  outline := h.outline
  sound_iff := by
    rw [← h.sound_iff, Document.Sound, Document.toJson, shallow]
    exact ⟨fun ⟨_, hv⟩ => let ⟨kvs, hkvs, _⟩ := except_map_eq_ok hv; ⟨kvs, hkvs⟩,
      fun ⟨kvs, hkvs⟩ => ⟨.ofMembers kvs, by simp [hkvs, Except.map]⟩⟩

theorem Elements.soundBut_close : (close : Elements P).SoundBut [] where
  outline := rfl
  sound_iff := ⟨fun _ => by simp, fun _ => ⟨[], rfl⟩⟩

theorem Elements.SoundBut.cons {first : Document P} {rest : Elements P}
    {unread more : List (Document P)} (head : first.SoundBut unread) (tail : rest.SoundBut more) :
    (cons first rest).SoundBut (unread ++ more) where
  outline := by rw [Elements.outlineFault?, head.outline]; exact tail.outline
  sound_iff := by
    rw [List.forall_mem_append, ← head.sound_iff, ← tail.sound_iff]
    constructor
    · rintro ⟨_, h⟩
      rw [Elements.toJson] at h
      obtain ⟨v, hv, h⟩ := except_bind_eq_ok h
      obtain ⟨vs, hvs, -⟩ := except_bind_eq_ok h
      exact ⟨⟨v, hv⟩, ⟨vs, hvs⟩⟩
    · rintro ⟨⟨v, hv⟩, ⟨vs, hvs⟩⟩
      exact ⟨v :: vs, by rw [Elements.toJson, hv, hvs]; rfl⟩

theorem Members.soundBut_close : (close : Members P).SoundBut [] where
  outline := rfl
  sound_iff := ⟨fun _ => by simp, fun _ => ⟨[], rfl⟩⟩

theorem Members.SoundBut.cons {name : String} {t : NameToken P} {value : Document P} {settled : P}
    {rest : Members P} {unread more : List (Document P)} (head : value.SoundBut unread)
    (tail : rest.SoundBut more) :
    (cons (.ok name) t value settled rest).SoundBut (unread ++ more) where
  outline := by rw [Members.outlineFault?, head.outline]; exact tail.outline
  sound_iff := by
    rw [List.forall_mem_append, ← head.sound_iff, ← tail.sound_iff]
    constructor
    · rintro ⟨_, h⟩
      obtain ⟨_, v, kvs, -, hv, hkvs, -⟩ := Members.toJson_cons h
      exact ⟨⟨v, hv⟩, ⟨kvs, hkvs⟩⟩
    · rintro ⟨⟨v, hv⟩, ⟨kvs, hkvs⟩⟩
      exact ⟨(name, v) :: kvs, by rw [Members.toJson, hv, hkvs]; rfl⟩

/-! ## What the readers accept -/

theorem mapError_eq_ok {ε δ α : Type} {x : Except ε α} {f : ε → δ} {a : α}
    (h : x.mapError f = .ok a) : x = .ok a := by
  cases x with
  | error e => nomatch h
  | ok b => exact congrArg _ (Except.ok.inj h)

theorem Document.sound_null (t : Token P) : (null t).Sound := ⟨_, rfl⟩

theorem Document.sound_of_readString {d : Document P} {s : String} (h : d.readString = .ok s) :
    d.Sound := by
  match d, h with
  | .string (.ok s) _, _ => exact ⟨.string s, rfl⟩

theorem Document.sound_of_readFlag {d : Document P} {b : Bool} (h : d.readFlag = .ok b) :
    d.Sound := by
  match d, h with
  | .bool b _, _ => exact ⟨.bool b, rfl⟩

theorem Document.sound_of_readCount {d : Document P} {expected : Expected} {n : Nat}
    (h : d.readCount expected = .ok n) : d.Sound := by
  match d, h with
  | .number (.ok (.integer i)) _, _ => exact ⟨.number (.integer i), rfl⟩

theorem Document.sound_of_readNumber {d : Document P} {n : Number} (h : d.readNumber = .ok n) :
    d.Sound := by
  match d, h with
  | .number (.ok n) _, _ => exact ⟨.number n, rfl⟩

theorem Document.sound_of_readJson {d : Document P} {v : Json} (h : d.readJson = .ok v) :
    d.Sound := ⟨v, mapError_eq_ok h⟩

theorem Document.sound_of_recognise {α : Type} {d : Document P} {ofJson? : Json → Option α}
    {cause : Mismatch} {settled : P} {a : α} (h : d.recognise ofJson? cause settled = .ok a) :
    d.Sound := by
  obtain ⟨v, hv, -⟩ := except_bind_eq_ok h
  exact sound_of_readJson hv

/-- A keyword of plain data that is absent or read. -/
theorem Document.soundBut_of_optional {α β : Type} {d : Document P}
    {read : Document P → Reading P α} (readable : ∀ {a}, read d = .ok a → d.Sound)
    {set : Option α → β} {b : β} (h : (d.optional read).map set = .ok b) : d.SoundBut [] := by
  obtain ⟨a, h, -⟩ := except_map_eq_ok h
  cases d with
  | null t => exact (sound_null t).but
  | bool | number | string | array | object | broken =>
    obtain ⟨a, ha, -⟩ := except_map_eq_ok h
    exact (readable ha).but

theorem Elements.sound_of_readEach {α : Type} {read : Document P → Reading P α}
    (readable : ∀ {d a}, read d = .ok a → d.Sound) : {i : Nat} → (es : Elements P) →
    {as : List α} → es.readEach read i = .ok as → es.Sound
  | _, .close, _, _ => ⟨[], rfl⟩
  | _, .broken .., _, h => nomatch h
  | _, .cons first rest, _, h => by
    rw [Elements.readEach] at h
    obtain ⟨a, ha, h⟩ := except_bind_eq_ok h
    obtain ⟨as, has, -⟩ := except_bind_eq_ok h
    obtain ⟨v, hv⟩ := readable (mapError_eq_ok ha)
    obtain ⟨vs, hvs⟩ := rest.sound_of_readEach readable has
    exact ⟨v :: vs, by rw [Elements.toJson, hv, hvs]; rfl⟩

theorem Document.sound_of_readList {α : Type} {read : Document P → Reading P α}
    (readable : ∀ {d a}, read d = .ok a → d.Sound) {d : Document P} {as : List α}
    (h : d.readList read = .ok as) : d.Sound := by
  match d, h with
  | .array b es, h =>
    rw [Document.readList] at h
    split at h
    next => cases h
    next shallow =>
      obtain ⟨vs, hvs⟩ := es.sound_of_readEach readable h
      exact ⟨.array vs, by simp [Document.toJson, shallow, hvs, Except.map]⟩

/-- A keyword of schemas that is absent or read. -/
theorem Document.soundBut_unlessNull {α β : Type} {d : Document P} {r : Reading P α} {set : α → β}
    {absent b : β} {unread : Document P → List (Document P)} (null : ∀ t, unread (.null t) = [])
    (readable : ∀ {a}, r = .ok a → d.SoundBut (unread d))
    (h : (if d.isNull then .ok absent else r.map set) = .ok b) : d.SoundBut (unread d) := by
  cases d with
  | null t => exact null t ▸ (sound_null t).but
  | bool | number | string | array | object | broken =>
    obtain ⟨a, ha, -⟩ := except_map_eq_ok h
    exact readable ha

/-! ## What the reader of schemas accepts -/

mutual

theorem Document.soundBut_of_readSchema : (d : Document P) → {s : Schema} →
    d.readSchema = .ok s → d.SoundBut d.skipped
  | .bool b t, _, _ => Document.Sound.but ⟨.bool b, rfl⟩
  | .object b ms, _, h => by
    rw [Document.readSchema] at h
    split at h
    next => nomatch h
    next shallow =>
      obtain ⟨k, hk, -⟩ := except_map_eq_ok h
      exact .object (by simpa using shallow) (ms.soundBut_of_readKeywords hk)
  | .null _, _, h | .number .., _, h | .string .., _, h | .array .., _, h | .broken .., _, h =>
    nomatch h

theorem Members.soundBut_of_readKeywords : (ms : Members P) → {seen : List String} →
    {k k' : Keywords Schema} → ms.readKeywords seen k = .ok k' → ms.SoundBut ms.skipped
  | .close, _, _, _, _ => Members.soundBut_close
  | .broken .., _, _, _, h => nomatch h
  | .cons (.error _) .., _, _, _, h => nomatch h
  | .cons (.ok name) t value settled rest, seen, k, _, h => by
    rw [Members.readKeywords] at h
    simp only [Reading.ofFault, Except.mapError] at h
    obtain ⟨_, same, h⟩ := except_bind_eq_ok h
    obtain rfl := Except.ok.inj same
    rw [Members.skipped]
    cases keyword : Keyword.named name with
    | none =>
      simp only [keyword] at h
      split at h
      next => nomatch h
      next outline =>
        exact .cons (Document.soundBut_self outline) (rest.soundBut_of_readKeywords h)
    | some keyword' =>
      simp only [keyword] at h
      split at h
      next => nomatch h
      obtain ⟨_, this, h⟩ := except_bind_eq_ok h
      refine Members.SoundBut.cons ?_ (rest.soundBut_of_readKeywords h)
      replace this := mapError_eq_ok this
      cases keyword' with
      | text => exact Document.soundBut_of_optional Document.sound_of_readString this
      | count => exact Document.soundBut_of_optional Document.sound_of_readCount this
      | number => exact Document.soundBut_of_optional Document.sound_of_readNumber this
      | exclusiveBound => exact Document.soundBut_of_optional Document.sound_of_recognise this
      | flag => exact Document.soundBut_of_optional Document.sound_of_readFlag this
      | typeSet => exact Document.soundBut_of_optional Document.sound_of_recognise this
      | names =>
        exact Document.soundBut_of_optional
          (Document.sound_of_readList Document.sound_of_readString) this
      | value =>
        obtain ⟨_, h, -⟩ := except_map_eq_ok this
        exact (Document.sound_of_readJson h).but
      | values =>
        exact Document.soundBut_of_optional (Document.sound_of_readList Document.sound_of_readJson)
          this
      | schema =>
        exact Document.soundBut_unlessNull (fun _ => rfl) value.soundBut_of_readSchema this
      | schemas =>
        exact Document.soundBut_unlessNull (fun _ => rfl) value.soundBut_of_readSchemas this
      | items => exact Document.soundBut_unlessNull (fun _ => rfl) value.soundBut_of_readItems this
      | fields =>
        exact Document.soundBut_unlessNull (fun _ => rfl) value.soundBut_of_readFields this

theorem Document.soundBut_of_readSchemas : (d : Document P) → {ss : List Schema} →
    d.readSchemas = .ok ss → d.SoundBut d.skipped
  | .array b es, _, h => by
    rw [Document.readSchemas] at h
    split at h
    next => nomatch h
    next shallow => exact .array (by simpa using shallow) (es.soundBut_of_readSchemas h)
  | .null _, _, h | .bool .., _, h | .number .., _, h | .string .., _, h | .object .., _, h
  | .broken .., _, h => nomatch h

theorem Elements.soundBut_of_readSchemas : (es : Elements P) → {i : Nat} → {ss : List Schema} →
    es.readSchemas i = .ok ss → es.SoundBut es.skipped
  | .close, _, _, _ => Elements.soundBut_close
  | .broken .., _, _, h => nomatch h
  | .cons first rest, _, _, h => by
    rw [Elements.readSchemas] at h
    obtain ⟨_, head, h⟩ := except_bind_eq_ok h
    obtain ⟨_, tail, -⟩ := except_bind_eq_ok h
    exact .cons (first.soundBut_of_readSchema (mapError_eq_ok head))
      (rest.soundBut_of_readSchemas tail)

theorem Document.soundBut_of_readItems : (d : Document P) → {items : Items Schema} →
    d.readItems = .ok items → d.SoundBut d.skipped
  | .bool b t, _, _ => Document.Sound.but ⟨.bool b, rfl⟩
  | .object b ms, _, h => by
    rw [Document.readItems] at h
    split at h
    next => nomatch h
    next shallow =>
      obtain ⟨k, hk, -⟩ := except_map_eq_ok h
      exact .object (by simpa using shallow) (ms.soundBut_of_readKeywords hk)
  | .array b es, _, h => by
    rw [Document.readItems] at h
    split at h
    next => nomatch h
    next shallow =>
      obtain ⟨_, hss, -⟩ := except_map_eq_ok h
      exact .array (by simpa using shallow) (es.soundBut_of_readSchemas hss)
  | .null _, _, h | .number .., _, h | .string .., _, h | .broken .., _, h => nomatch h

theorem Document.soundBut_of_readFields : (d : Document P) → {fields : List (String × Schema)} →
    d.readFields = .ok fields → d.SoundBut d.skippedInFields
  | .object b ms, _, h => by
    rw [Document.readFields] at h
    split at h
    next => nomatch h
    next shallow =>
      obtain ⟨_, hfs, -⟩ := except_map_eq_ok h
      exact .object (by simpa using shallow) (ms.soundBut_of_readFields hfs)
  | .null _, _, h | .bool .., _, h | .number .., _, h | .string .., _, h | .array .., _, h
  | .broken .., _, h => nomatch h

theorem Members.soundBut_of_readFields : (ms : Members P) → {fields : List (String × Schema)} →
    ms.readFields = .ok fields → ms.SoundBut ms.skippedInFields
  | .close, _, _ => Members.soundBut_close
  | .broken .., _, h => nomatch h
  | .cons (.error _) .., _, h => nomatch h
  | .cons (.ok name) _ value _ rest, _, h => by
    rw [Members.readFields] at h
    obtain ⟨_, -, h⟩ := except_bind_eq_ok h
    obtain ⟨_, head, h⟩ := except_bind_eq_ok h
    obtain ⟨_, tail, -⟩ := except_bind_eq_ok h
    exact .cons (value.soundBut_of_readSchema (mapError_eq_ok head))
      (rest.soundBut_of_readFields tail)

end

/-! ## Accepted texts -/

theorem exists_eq_ok_iff {ε α : Type} {x : Except ε α} : (∃ a, x = .ok a) ↔ x.isOk := by
  cases x <;> simp [Except.isOk, Except.toBool]

/-- A text that is accepted as a schema is a value and what is left after it; it is one JSON value
and nothing else exactly if what is left is blank and every skipped value is in order. -/
theorem convertText_isJson_iff {text : String} {o : Options} {c : Conversion}
    (accepted : convertText text o = .ok c) :
    ∃ i, (scan text).2 = .ok i ∧ i.rest <:+ text.toList ∧
      ((∃ v, Json.ofText text = .ok v) ↔
        (∀ c ∈ i.rest, Input.isBlank c) ∧
        ∀ d ∈ (Document.ofText text).skipped, ∃ v, d.toJson = .ok v) := by
  obtain ⟨s, read, -⟩ := except_map_eq_ok accepted
  have but := Document.soundBut_of_readSchema _ (mapError_eq_ok read)
  obtain ⟨i, scanned, left⟩ := scan_eq_ok but.outline
  refine ⟨i, scanned, left, ?_⟩
  rw [ofText_eq_ok_iff scanned, and_comm]
  exact and_congr_right fun _ => but.sound_iff

/-- A schema with an unknown keyword. -/
def annotated : String := "\x7b\"type\": \"string\", \"example\": [1, 2]\x7d\n"

theorem convertText_isJson_iff_annotated :
    ∃ c, convertText annotated {} = .ok c ∧
      ∃ i, (scan annotated).2 = .ok i ∧ i.rest <:+ annotated.toList ∧
        ((∃ v, Json.ofText annotated = .ok v) ↔
          (∀ c ∈ i.rest, Input.isBlank c) ∧
          ∀ d ∈ (Document.ofText annotated).skipped, ∃ v, d.toJson = .ok v) := by
  obtain ⟨c, accepted⟩ : ∃ c, convertText annotated {} = .ok c :=
    exists_eq_ok_iff.2 (by decide +kernel)
  exact ⟨c, accepted, convertText_isJson_iff accepted⟩

/-- A schema with more text after it. -/
def continued : String := "true x"

/-- A schema with an unknown keyword whose value no reader of JSON takes. -/
def overflowing : String := "\x7b\"example\": 1e999\x7d"

theorem accepted_notJson :
    ((∃ c, convertText continued {} = .ok c) ∧ ¬ ∃ v, Json.ofText continued = .ok v) ∧
    ((∃ c, convertText overflowing {} = .ok c) ∧ ¬ ∃ v, Json.ofText overflowing = .ok v) := by
  simp only [exists_eq_ok_iff]
  decide +kernel

end SchemaCompiler
