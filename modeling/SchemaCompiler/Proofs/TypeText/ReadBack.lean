import SchemaCompiler.Proofs.Json.Proper
import SchemaCompiler.Proofs.TypeText.Pieces

/-!
# Type texts are read back

Whatever tree is written, its text reads as an alike tree (`readType?_text`). A type is put in
parentheses where an operator at its top would bind less tightly than what stands around it, and
nowhere else does a bracket or a string literal change how the text around it is read; so this goes
up the tree, with one rule for each way of writing. The type of a value is written without operators,
so it is read as just the tree of the value (`readType?_literalType`).
-/

namespace SchemaCompiler.TypeText

open TypeTree

variable {type : String} {types : List String} {t u : TypeTree}
  {ts : List TypeTree}

/-! ## Written types -/

theorem Operand.written {chars : List Char} (h : Operand chars t) : Written chars t :=
  ⟨[t], h.alternatives, rfl⟩

theorem Written.readType? (h : Written type.toList t) : readType? type = some t := by
  have read := h.reads.eq (Nat.le_refl _) .nil
  rw [List.append_nil] at read
  simp [TypeText.readType?, read]

/-- A text is read in one way. -/
theorem Written.unique (h : Written type.toList t) (h' : Written type.toList u) : t = u :=
  Option.some.inj (h.readType?.symm.trans h'.readType?)

theorem operand_arrayType (h : Written type.toList t) :
    Operand (arrayType type).toList (.array t) := by
  obtain ⟨ts, alternatives, rfl⟩ := h
  have enclosed : Operand ("(" ++ type ++ ")[]").toList (.array (unionOf ts)) := by
    have text : ("(" ++ type ++ ")[]").toList =
        Bracket.round.enclose type.toList ++ ['[', ']'] := by
      simp [Bracket.enclose, Bracket.opening, Bracket.closing]
    exact text ▸ alternatives.operand.array
  unfold arrayType hasTopLevel
  rcases alternatives.occursAtTop_bar with ⟨noBar, t, rfl, factored⟩ | bar
  · rcases factored.occursAtTop_ampersand with ⟨noAmpersand, operand⟩ | ampersand
    · have plain : (type ++ "[]").toList = type.toList ++ ['[', ']'] := String.toList_append
      rw [noBar, noAmpersand, if_neg (by decide), plain]
      exact operand.array
    · rw [ampersand, Bool.or_true, if_pos rfl]
      exact enclosed
  · rw [bar, Bool.true_or, if_pos rfl]
    exact enclosed

/-- A type as a member of an intersection. -/
theorem factored_member (h : Written type.toList t) :
    Factored (if hasTopLevel '|' type then "(" ++ type ++ ")" else type).toList t := by
  obtain ⟨ts, alternatives, rfl⟩ := h
  unfold hasTopLevel
  rcases alternatives.occursAtTop_bar with ⟨noBar, t, rfl, factored⟩ | bar
  · rw [noBar, if_neg (by decide)]
    exact factored
  · have text : ("(" ++ type ++ ")").toList = Bracket.round.enclose type.toList := by
      simp [Bracket.enclose, Bracket.opening, Bracket.closing]
    rw [bar, if_pos rfl, text]
    exact ⟨[unionOf ts], .one alternatives.operand, rfl⟩

/-! ## Members -/

section Members

variable {α β γ : Type}

/-- What each element has, given as one list. -/
theorem exists_forall₂ {R : α → β → Prop} {xs : List α} (h : ∀ x ∈ xs, ∃ y, R x y) :
    ∃ ys, List.Forall₂ R xs ys := by
  induction xs with
  | nil => exact ⟨[], .nil⟩
  | cons x xs ih =>
    obtain ⟨⟨y, hy⟩, rest⟩ := List.forall_mem_cons.1 h
    obtain ⟨ys, hys⟩ := ih rest
    exact ⟨y :: ys, .cons hy hys⟩

theorem exists_of_forall₂_map {R : α → β → Prop} {build : β → γ} {xs : List α} {zs : List γ}
    (h : List.Forall₂ (fun x z => ∃ y, R x y ∧ z = build y) xs zs) :
    ∃ ys, List.Forall₂ R xs ys ∧ zs = ys.map build := by
  induction h with
  | nil => exact ⟨[], .nil, rfl⟩
  | cons h _ ih =>
    obtain ⟨y, hy, rfl⟩ := h
    obtain ⟨ys, hys, rfl⟩ := ih
    exact ⟨y :: ys, .cons hy hys, rfl⟩

end Members

/-- Written types with `&` between them, those with `|` at the top in parentheses. -/
theorem written_intersectionType (h : List.Forall₂ (fun type t => Written type.toList t) types ts)
    (nonempty : types ≠ []) :
    ∃ u, Written (intersectionType types).toList u ∧ Alike u (intersectionOf ts) := by
  have members : List.Forall₂ Factored
      (types.map fun t => (if hasTopLevel '|' t then "(" ++ t ++ ")" else t).toList) ts := by
    rw [List.forall₂_map_left_iff]
    exact h.imp fun _ _ => factored_member
  obtain ⟨factors, joined, rfl⟩ := exists_of_forall₂_map members
  have whole := Joined.flatten joined (by simpa using nonempty)
  have text : (intersectionType types).toList = Separator.ampersand.chars.intercalate
      (types.map fun t => (if hasTopLevel '|' t then "(" ++ t ++ ")" else t).toList) := by
    rw [intersectionType, String.toList_intercalate, List.map_map]
    rfl
  have some : ∀ fs ∈ factors, fs ≠ [] := Joined.ne_nil_of_forall₂ joined
  refine ⟨intersectionOf factors.flatten, ?_, (Alike.intersectionOf_flatten some).symm⟩
  exact ⟨[_], .one ⟨_, text ▸ whole, rfl⟩, rfl⟩

/-- Written types with `|` between them. -/
theorem written_alternatives (h : List.Forall₂ (fun type t => Written type.toList t) types ts)
    (nonempty : types ≠ []) :
    ∃ u, Written (" | ".intercalate types).toList u ∧ Alike u (unionOf ts) := by
  have members : List.Forall₂ Written (types.map String.toList) ts := by
    rwa [List.forall₂_map_left_iff]
  obtain ⟨alternatives, joined, rfl⟩ := exists_of_forall₂_map members
  have whole : Alternatives _ _ := Joined.flatten joined (by simpa using nonempty)
  have text : (" | ".intercalate types).toList =
      Separator.bar.chars.intercalate (types.map String.toList) := String.toList_intercalate
  have some : ∀ us ∈ alternatives, us ≠ [] := Joined.ne_nil_of_forall₂ joined
  refine ⟨unionOf alternatives.flatten, ?_, (Alike.unionOf_flatten some).symm⟩
  exact ⟨_, text ▸ whole, rfl⟩

/-! ## Written trees -/

/-- A text that is read as a tree that is like `t`. -/
def ReadsLike (type : String) (t : TypeTree) : Prop := ∃ u, Written type.toList u ∧ Alike u t

theorem Operand.readsLike (h : Operand type.toList t) : ReadsLike type t := ⟨t, h.written, .refl t⟩

/-- Trees that are read like trees are read like the list of them. -/
theorem exists_written {ts : List TypeTree} (h : ∀ t ∈ ts, ReadsLike t.text t) :
    ∃ us, List.Forall₂ (fun type t => Written type.toList t) (ts.map text) us ∧
      List.Forall₂ Alike us ts := by
  obtain ⟨us, both⟩ := exists_forall₂ h
  refine ⟨us, ?_, ?_⟩
  · rw [List.forall₂_map_left_iff]
    exact both.imp fun _ _ h => h.1
  · exact (both.imp fun _ _ h => h.2).flip

theorem toList_text_tuple (ts : List TypeTree) : (TypeTree.tuple ts).text.toList =
    Bracket.square.enclose
      (Separator.comma.chars.intercalate (ts.map fun t => t.text.toList)) := by
  simp [TypeTree.text, texts_eq_map, Bracket.enclose, Bracket.opening, Bracket.closing,
    String.toList_intercalate, Separator.chars, Function.comp_def]

theorem readsLike_tuple (h : ∀ t ∈ ts, ReadsLike t.text t) :
    ReadsLike (TypeTree.tuple ts).text (.tuple ts) := by
  obtain ⟨us, written, alike⟩ := exists_written h
  have elements : List.Forall₂ Written (ts.map fun t => t.text.toList) us := by
    rw [List.forall₂_map_left_iff] at written ⊢
    exact written
  refine ⟨.tuple us, ?_, Alike.of_places Alike.in_tuple alike⟩
  rw [toList_text_tuple]
  exact (operand_tuple elements).written

theorem readsLike_array (h : ReadsLike t.text t) :
    ReadsLike (TypeTree.array t).text (.array t) := by
  obtain ⟨u, written, alike⟩ := h
  exact ⟨.array u, (operand_arrayType written).written, .in_array alike⟩

theorem readsLike_intersection (h : ∀ u ∈ t :: ts, ReadsLike u.text u) :
    ReadsLike (TypeTree.intersection t ts).text (.intersection t ts) := by
  obtain ⟨us, written, alike⟩ := exists_written h
  obtain ⟨u, whole, same⟩ := written_intersectionType written (List.cons_ne_nil _ _)
  refine ⟨u, ?_, ?_⟩
  · rw [TypeTree.text, texts_eq_map]
    exact whole
  · exact same.trans ((Alike.intersectionOf_congr alike).trans
      (Alike.intersection_intersectionOf t ts).symm)

theorem readsLike_union (h : ∀ u ∈ t :: ts, ReadsLike u.text u) :
    ReadsLike (TypeTree.union t ts).text (.union t ts) := by
  have same : ∀ u ∈ t :: ts, ∀ v ∈ t :: ts, u.text = v.text → Alike u v := by
    intro u hu v hv text
    obtain ⟨u', writtenU, alikeU⟩ := h u hu
    obtain ⟨v', writtenV, alikeV⟩ := h v hv
    obtain rfl := writtenU.unique (text ▸ writtenV)
    exact alikeU.symm.trans alikeV
  obtain ⟨kept, sub, texts, alike⟩ := Alike.exists_firstOccurrences same
  obtain ⟨us, written, members⟩ := exists_written fun u hu => h u (sub hu)
  have nonempty : kept.map text ≠ [] := by
    have first : t.text ∈ firstOccurrences ((t :: ts).map TypeTree.text) :=
      mem_firstOccurrences.2 (List.mem_cons_self ..)
    rw [texts]
    exact List.ne_nil_of_mem first
  obtain ⟨u, whole, same⟩ := written_alternatives written nonempty
  refine ⟨u, ?_, ?_⟩
  · rw [TypeTree.text, texts_eq_map, unionType]
    rw [texts] at whole
    exact whole
  · calc Alike u (unionOf us) := same
      Alike _ (unionOf kept) := Alike.unionOf_congr members
      Alike _ (unionOf (t :: ts)) := alike
      Alike _ _ := (Alike.union_unionOf t ts).symm

theorem readsLike_orNull (h : ReadsLike t.text t) :
    ReadsLike (TypeTree.orNull t).text (.orNull t) := by
  obtain ⟨u, written, alike⟩ := h
  have null : Written "null".toList null := (operand_word (.ofIdentifier "null" _)).written
  have both : List.Forall₂ (fun type t => Written type.toList t) [t.text, "null"] [u, .null] :=
    .cons written (.cons null .nil)
  obtain ⟨v, whole, same⟩ := written_alternatives both (List.cons_ne_nil _ _)
  refine ⟨v, ?_, ?_⟩
  · simpa [TypeTree.text] using whole
  · calc Alike v (unionOf [u, .null]) := same
      Alike _ (unionOf [t, .null]) := Alike.in_union [] [.null] alike
      Alike _ _ := (Alike.orNull t).symm

/-! ### Records -/

theorem exists_index {index : Option TypeTree} (h : ∀ t ∈ index, ReadsLike t.text t) :
    ∃ index' : Option TypeTree,
      List.Forall₂ (fun entry e => EntryText entry.toList e)
        (index.map fun t => "[key: string]: " ++ t.text).toList (index'.map .index).toList ∧
      ∀ fields, Alike (.record fields index') (.record fields index) := by
  cases index with
  | none => exact ⟨none, .nil, fun _ => .refl _⟩
  | some t =>
    obtain ⟨u, written, alike⟩ := h t rfl
    exact ⟨some u, .cons (entryText_index written) .nil, fun fields => .in_index fields alike⟩

/-- A field with the same name and an alike type. -/
def FieldAlike (f g : String × Bool × TypeTree) : Prop :=
  f.1 = g.1 ∧ f.2.1 = g.2.1 ∧ Alike f.2.2 g.2.2

theorem FieldAlike.record {fs gs : List (String × Bool × TypeTree)}
    (h : List.Forall₂ FieldAlike fs gs) (index : Option TypeTree) :
    Alike (.record fs index) (.record gs index) := by
  refine @Alike.of_places _ FieldAlike (fun fs => .record fs index) _ _ ?_ h
  rintro before after ⟨name, optional, t⟩ ⟨_, _, u⟩ ⟨rfl, rfl, alike⟩
  exact .in_field before after index name optional alike

/-- A record type with fields. -/
theorem toList_recordType {fields : List Field} (nonempty : fields ≠ []) (index : Option String) :
    (recordType fields index).toList =
      Bracket.curly.enclose (' ' :: (Separator.semicolon.chars.intercalate
        ((fields.map Field.text ++ (index.map ("[key: string]: " ++ ·)).toList).map
          String.toList) ++ [' '])) := by
  have some : fields.isEmpty = false := by simpa using nonempty
  cases index <;>
    simp [recordType, some, Bracket.enclose, Bracket.opening, Bracket.closing, Separator.chars,
      String.toList_intercalate]

/-- A record type with fields is read as the record of its entries. -/
theorem operand_recordType {fields : List Field} {index : Option String}
    {fields' : List (String × Bool × TypeTree)} {index' : Option TypeTree} (nonempty : fields ≠ [])
    (entries : List.Forall₂ (fun entry e => EntryText entry.toList e) (fields.map Field.text)
      (fields'.map RecordEntry.field))
    (further : List.Forall₂ (fun entry e => EntryText entry.toList e)
      (index.map ("[key: string]: " ++ ·)).toList (index'.map RecordEntry.index).toList) :
    Operand (recordType fields index).toList (.record fields' index') := by
  have some : fields' ≠ [] := by
    rintro rfl
    exact nonempty (List.map_eq_nil_iff.1 (List.forall₂_nil_right_iff.1 entries))
  rw [toList_recordType nonempty]
  exact operand_entries some (List.forall₂_map_left_iff.2 (List.rel_append entries further))

theorem exists_fields {fields : List (String × Bool × TypeTree)}
    (h : ∀ f ∈ fields, ReadsLike f.2.2.text f.2.2) :
    ∃ fields', List.Forall₂ (fun entry e => EntryText entry.toList e)
        ((fields.map fun f => Field.mk f.1 f.2.2.text f.2.1).map Field.text)
        (fields'.map RecordEntry.field) ∧
      List.Forall₂ FieldAlike fields' fields := by
  have each : ∀ f ∈ fields, ∃ g : String × Bool × TypeTree,
      EntryText (Field.text ⟨f.1, f.2.2.text, f.2.1⟩).toList (.field g) ∧ FieldAlike g f := by
    intro f hf
    obtain ⟨u, written, alike⟩ := h f hf
    exact ⟨(f.1, f.2.1, u), entryText_field written f.1 f.2.1, rfl, rfl, alike⟩
  obtain ⟨fields', both⟩ := exists_forall₂ each
  refine ⟨fields', ?_, (both.imp fun _ _ h => h.2).flip⟩
  rw [List.forall₂_map_left_iff, List.forall₂_map_left_iff, List.forall₂_map_right_iff]
  exact both.imp fun _ _ h => h.1

theorem readsLike_record {fields : List (String × Bool × TypeTree)} {index : Option TypeTree}
    (hf : ∀ f ∈ fields, ReadsLike f.2.2.text f.2.2) (hi : ∀ t ∈ index, ReadsLike t.text t) :
    ReadsLike (TypeTree.record fields index).text (.record fields index) := by
  rw [text_record]
  rcases fields with _ | ⟨f, fields⟩
  · cases index with
    | none => exact operand_nothing.readsLike
    | some t =>
      obtain ⟨u, written, alike⟩ := hi t rfl
      exact ⟨.record [] (some u), (operand_dictionary written).written, .in_index [] alike⟩
  · obtain ⟨index', further, sameIndex⟩ := exists_index hi
    obtain ⟨fields', entries, sameFields⟩ := exists_fields hf
    refine ⟨.record fields' index', ?_,
      (sameIndex fields').trans (FieldAlike.record sameFields index)⟩
    refine (operand_recordType (List.cons_ne_nil _ _) entries ?_).written
    rwa [Option.map_map]

/-! ## The text of a tree -/

/-- The text of a tree is read as an alike tree. -/
theorem readsLike_text (t : TypeTree) : ReadsLike t.text t := by
  induction t with
  | word w => exact (operand_word w).readsLike
  | string s => exact (operand_string s).readsLike
  | tuple ts h => exact readsLike_tuple h
  | array t h => exact readsLike_array h
  | record fields index hf hi => exact readsLike_record hf hi
  | intersection t ts h => exact readsLike_intersection h
  | union t ts h => exact readsLike_union h
  | orNull t h => exact readsLike_orNull h

theorem readType?_text (t : TypeTree) : ∃ u, TypeText.readType? t.text = some u ∧ Alike u t := by
  obtain ⟨u, written, alike⟩ := readsLike_text t
  exact ⟨u, written.readType?, alike⟩

/-! ## The types of values -/

/-- The text of the tree of a value is an operand, and it is read as this tree. -/
theorem operand_ofValue (v : Json) : Operand (ofValue v).text.toList (ofValue v) := by
  induction v using Json.induct with
  | null => exact operand_word _
  | bool b => cases b <;> exact operand_word _
  | number n => exact operand_word (.ofNumber n)
  | string s => exact operand_string s
  | array vs ih =>
    rw [ofValue, toList_text_tuple, ofValues_eq_map]
    refine operand_tuple ?_
    rw [List.map_map, List.forall₂_map_left_iff, List.forall₂_map_right_iff, List.forall₂_same]
    exact fun v hv => (ih v hv).written
  | object ms ih =>
    rw [ofValue, text_record, ofMembers_eq_map]
    cases ms with
    | nil => exact operand_nothing
    | cons m ms =>
      refine operand_recordType (List.cons_ne_nil _ _) ?_ .nil
      rw [List.map_map, List.map_map, List.forall₂_map_left_iff, List.map_map,
        List.forall₂_map_right_iff, List.forall₂_same]
      exact fun n hn => entryText_field (ih n hn).written n.1 false

/-- The type of a value is read as the tree of the value. -/
theorem readType?_literalType (v : Json) :
    TypeText.readType? (literalType v) = some (ofValue v) := by
  rw [← text_ofValue]
  exact (operand_ofValue v).written.readType?

end SchemaCompiler.TypeText
