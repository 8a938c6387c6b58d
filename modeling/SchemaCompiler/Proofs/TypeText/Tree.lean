import SchemaCompiler.Proofs.Definitions.Names
import SchemaCompiler.Proofs.Validator.Literal
import SchemaCompiler.Proofs.Validator.Union

/-!
# Type trees

A type text stands for a tree, `TypeTree`, that says how the type was put together. `TypeTree.text`
writes a tree as types are written; the type of a given value is the text of a tree, too
(`text_ofValue`).

Texts do not show how unions are nested in unions and intersections in intersections, nor which
members of a union are repeated. Trees that differ in no more than that are `Alike`.
-/

namespace SchemaCompiler

/-! ## Words -/

/-- A character of a word in a type text: of a name or of the text of a number. -/
def isTypeChar (c : Char) : Bool := isIdentifierChar c || c == '.' || c == '-' || c == '+'

/-- A name, or a literal that is written without quotation marks. -/
structure TypeWord where
  text : String
  nonempty : text.toList ≠ []
  typeChars : ∀ c ∈ text.toList, isTypeChar c
  deriving DecidableEq, Repr

namespace TypeWord

/-- An identifier as a word. -/
def ofIdentifier (s : String) (h : isIdentifier s) : TypeWord where
  text := s
  nonempty empty := by simp [isIdentifier, empty] at h
  typeChars c hc := by simp [isTypeChar, spelled_of_isIdentifier h c hc]

theorem isTypeChar_of_isNumberChar {c : Char} (h : isNumberChar c) : isTypeChar c := by
  simp only [isNumberChar, Bool.or_eq_true, beq_iff_eq] at h
  rcases h with (((h | rfl) | rfl) | rfl) | rfl
  · simp [isTypeChar, isIdentifierChar, h]
  all_goals decide

/-- The text of a number as a word. -/
def ofNumber (n : Number) : TypeWord where
  text := n.text
  nonempty := n.toList_text_ne_nil
  typeChars _ hc := isTypeChar_of_isNumberChar (Number.isNumberChar_of_mem_text hc)

/-- The text of a number is no identifier. -/
theorem not_isIdentifier_text (n : Number) : ¬ isIdentifier n.text := by
  intro identifier
  cases n with
  | integer i =>
    obtain ⟨c, cs, text, first⟩ := head_repr i
    have start : isIdentifierStart c := by
      unfold isIdentifier at identifier
      rw [show (Number.integer i).text.toList = c :: cs from text] at identifier
      simp only [Bool.and_eq_true] at identifier
      exact identifier.1
    rcases first with digit | rfl
    · simp [isDigit_of_isIdentifierStart start] at digit
    · exact absurd start (by decide)
  | double x =>
    obtain ⟨c, hc, other⟩ := x.exists_mem_text
    have none : ['.', '-', '+'].all fun c => !isIdentifierChar c := by decide
    have char := spelled_of_isIdentifier identifier c hc
    simpa [char] using List.all_eq_true.1 none c other

/-- The word that a text is, if it is one. -/
def ofString? (s : String) : Option TypeWord :=
  if h : s.toList ≠ [] ∧ s.toList.all isTypeChar then
    some ⟨s, h.1, fun c hc => List.all_eq_true.1 h.2 c hc⟩
  else none

theorem ofString?_text (w : TypeWord) : ofString? w.text = some w := by
  rw [ofString?, dif_pos ⟨w.nonempty, List.all_eq_true.2 w.typeChars⟩]

end TypeWord

/-! ## Trees -/

/-- How a type is put together. A record has fields, each with its name, whether it is optional and
its type, and perhaps a type of further keys; one without fields that has such a type is
`Record<string, T>`. -/
inductive TypeTree where
  | word (w : TypeWord)
  | string (s : String)
  | tuple (elements : List TypeTree)
  | array (element : TypeTree)
  | record (fields : List (String × Bool × TypeTree)) (index : Option TypeTree)
  | intersection (first : TypeTree) (rest : List TypeTree)
  | union (first : TypeTree) (rest : List TypeTree)
  | orNull (base : TypeTree)

namespace TypeTree

theorem sizeOf_field_lt {f : String × Bool × TypeTree} {fs : List (String × Bool × TypeTree)}
    (h : f ∈ fs) : sizeOf f.2.2 < sizeOf fs := by
  have field : sizeOf f < sizeOf fs := List.sizeOf_lt_of_mem h
  obtain ⟨name, optional, t⟩ := f
  simp only [Prod.mk.sizeOf_spec] at field
  show sizeOf t < sizeOf fs
  omega

/-- A property of trees that each way of putting a tree together keeps is one of all trees. -/
@[elab_as_elim, induction_eliminator]
theorem induct {P : TypeTree → Prop} (word : ∀ w, P (word w)) (string : ∀ s, P (string s))
    (tuple : ∀ ts, (∀ t ∈ ts, P t) → P (tuple ts)) (array : ∀ t, P t → P (array t))
    (record : ∀ fs index, (∀ f ∈ fs, P f.2.2) → (∀ t ∈ index, P t) → P (record fs index))
    (intersection : ∀ t ts, (∀ u ∈ t :: ts, P u) → P (intersection t ts))
    (union : ∀ t ts, (∀ u ∈ t :: ts, P u) → P (union t ts)) (orNull : ∀ t, P t → P (orNull t)) :
    ∀ t, P t
  | .word w => word w
  | .string s => string s
  | .tuple ts => tuple ts fun t _ =>
    induct word string tuple array record intersection union orNull t
  | .array t => array t (induct word string tuple array record intersection union orNull t)
  | .record fs index => record fs index
    (fun f hf =>
      have := sizeOf_field_lt hf
      induct word string tuple array record intersection union orNull f.2.2)
    (fun t _ => induct word string tuple array record intersection union orNull t)
  | .intersection t ts => intersection t ts fun u _ =>
    induct word string tuple array record intersection union orNull u
  | .union t ts => union t ts fun u _ =>
    induct word string tuple array record intersection union orNull u
  | .orNull t => orNull t (induct word string tuple array record intersection union orNull t)

/-! ## Texts -/

mutual

/-- A tree as it is written. -/
def text : TypeTree → String
  | .word w => w.text
  | .string s => quote s
  | .tuple ts => "[" ++ ", ".intercalate (texts ts) ++ "]"
  | .array t => arrayType t.text
  | .record fs none => recordType (fieldTexts fs) none
  | .record fs (some t) => recordType (fieldTexts fs) (some t.text)
  | .intersection t ts => intersectionType (t.text :: texts ts)
  | .union t ts => unionType (t.text :: texts ts)
  | .orNull t => t.text ++ " | null"

def texts : List TypeTree → List String
  | [] => []
  | t :: ts => t.text :: texts ts

def fieldTexts : List (String × Bool × TypeTree) → List Field
  | [] => []
  | (name, optional, t) :: fs => ⟨name, t.text, optional⟩ :: fieldTexts fs

end

theorem texts_eq_map (ts : List TypeTree) : texts ts = ts.map text := by
  induction ts with
  | nil => rfl
  | cons t ts ih => rw [texts, ih, List.map_cons]

theorem fieldTexts_eq_map (fs : List (String × Bool × TypeTree)) :
    fieldTexts fs = fs.map fun f => ⟨f.1, f.2.2.text, f.2.1⟩ := by
  induction fs with
  | nil => rfl
  | cons f fs ih => rw [fieldTexts, ih, List.map_cons]

theorem text_record (fs : List (String × Bool × TypeTree)) (index : Option TypeTree) :
    (record fs index).text =
      recordType (fs.map fun f => ⟨f.1, f.2.2.text, f.2.1⟩) (index.map text) := by
  cases index <;> rw [text, fieldTexts_eq_map] <;> rfl

/-! ## Literal types -/

/-- The type `null`. -/
def null : TypeTree := .word (.ofIdentifier "null" (by decide))

mutual

/-- The type of a value. -/
def ofValue : Json → TypeTree
  | .null => null
  | .bool false => .word (.ofIdentifier "false" (by decide))
  | .bool true => .word (.ofIdentifier "true" (by decide))
  | .number n => .word (.ofNumber n)
  | .string s => .string s
  | .array elements => .tuple (ofValues elements)
  | .object members => .record (ofMembers members) none

def ofValues : List Json → List TypeTree
  | [] => []
  | v :: rest => ofValue v :: ofValues rest

def ofMembers : List (String × Json) → List (String × Bool × TypeTree)
  | [] => []
  | (name, v) :: rest => (name, false, ofValue v) :: ofMembers rest

end

theorem ofValues_eq_map (vs : List Json) : ofValues vs = vs.map ofValue := by
  induction vs with
  | nil => rfl
  | cons v vs ih => rw [ofValues, ih, List.map_cons]

theorem ofMembers_eq_map (ms : List (String × Json)) :
    ofMembers ms = ms.map fun m => (m.1, false, ofValue m.2) := by
  induction ms with
  | nil => rfl
  | cons m ms ih => rw [ofMembers, ih, List.map_cons]

mutual

theorem text_ofValue : ∀ v : Json, (ofValue v).text = literalType v
  | .null => rfl
  | .bool false => rfl
  | .bool true => rfl
  | .number _ => rfl
  | .string _ => rfl
  | .array elements => by rw [ofValue, text, texts_ofValues elements, literalType]
  | .object members => by rw [ofValue, text, fieldTexts_ofMembers members, literalType]

theorem texts_ofValues : ∀ vs : List Json, texts (ofValues vs) = literalTypes vs
  | [] => rfl
  | v :: rest => by rw [ofValues, texts, text_ofValue v, texts_ofValues rest, literalTypes]

theorem fieldTexts_ofMembers : ∀ ms : List (String × Json),
    fieldTexts (ofMembers ms) = literalFields ms
  | [] => rfl
  | (_, v) :: rest => by
    rw [ofMembers, fieldTexts, text_ofValue v, fieldTexts_ofMembers rest, literalFields]

end

/-! ## Trees that are alike -/

/-- The union of some types: of one, that type itself, and of none, `never`. -/
def unionOf : List TypeTree → TypeTree
  | [] => .word (.ofIdentifier "never" (by decide))
  | [t] => t
  | t :: ts => .union t ts

/-- The intersection of some types: of one, that type itself, and of none, `unknown`. -/
def intersectionOf : List TypeTree → TypeTree
  | [] => .word (.ofIdentifier "unknown" (by decide))
  | [t] => t
  | t :: ts => .intersection t ts

/-- Trees that differ in how unions are nested in unions and intersections in intersections, and in
repeated members of unions, but in nothing else. -/
inductive Alike : TypeTree → TypeTree → Prop where
  | refl (t : TypeTree) : Alike t t
  | symm {t u : TypeTree} (h : Alike t u) : Alike u t
  | trans {t u v : TypeTree} (h : Alike t u) (h' : Alike u v) : Alike t v
  /-- A union of one member is that member. -/
  | union_one (t : TypeTree) : Alike (.union t []) t
  /-- A union in a union is the members of it. -/
  | union_flat (before members after : List TypeTree) (nonempty : members ≠ []) :
      Alike (unionOf (before ++ unionOf members :: after)) (unionOf (before ++ (members ++ after)))
  /-- A member of a union need not be repeated. -/
  | union_repeat (before between after : List TypeTree) (t : TypeTree) :
      Alike (unionOf (before ++ t :: (between ++ t :: after)))
        (unionOf (before ++ t :: (between ++ after)))
  /-- `T | null` is a union. -/
  | orNull (t : TypeTree) : Alike (.orNull t) (unionOf [t, null])
  /-- An intersection of one member is that member. -/
  | intersection_one (t : TypeTree) : Alike (.intersection t []) t
  /-- An intersection in an intersection is the members of it. -/
  | intersection_flat (before members after : List TypeTree) (nonempty : members ≠ []) :
      Alike (intersectionOf (before ++ intersectionOf members :: after))
        (intersectionOf (before ++ (members ++ after)))
  | in_union (before after : List TypeTree) {t u : TypeTree} (h : Alike t u) :
      Alike (unionOf (before ++ t :: after)) (unionOf (before ++ u :: after))
  | in_intersection (before after : List TypeTree) {t u : TypeTree} (h : Alike t u) :
      Alike (intersectionOf (before ++ t :: after)) (intersectionOf (before ++ u :: after))
  | in_tuple (before after : List TypeTree) {t u : TypeTree} (h : Alike t u) :
      Alike (.tuple (before ++ t :: after)) (.tuple (before ++ u :: after))
  | in_array {t u : TypeTree} (h : Alike t u) : Alike (.array t) (.array u)
  | in_field (before after : List (String × Bool × TypeTree)) (index : Option TypeTree)
      (name : String) (optional : Bool) {t u : TypeTree} (h : Alike t u) :
      Alike (.record (before ++ (name, optional, t) :: after) index)
        (.record (before ++ (name, optional, u) :: after) index)
  | in_index (fields : List (String × Bool × TypeTree)) {t u : TypeTree} (h : Alike t u) :
      Alike (.record fields (some t)) (.record fields (some u))

namespace Alike

variable {t u : TypeTree} {ts us : List TypeTree}

instance : Trans Alike Alike Alike := ⟨.trans⟩

/-- If a way of putting trees together keeps what is alike in one place, it does in all. -/
theorem of_places {α : Type} {R : α → α → Prop} {build : List α → TypeTree} {xs ys : List α}
    (place : ∀ (before after : List α) {x y : α}, R x y →
      Alike (build (before ++ x :: after)) (build (before ++ y :: after)))
    (h : List.Forall₂ R xs ys) : Alike (build xs) (build ys) := by
  have all : ∀ before : List α, Alike (build (before ++ xs)) (build (before ++ ys)) := by
    induction h with
    | nil => exact fun before => .refl _
    | @cons x y xs ys h _ ih =>
      intro before
      have rest := ih (before ++ [y])
      rw [List.append_assoc, List.append_assoc] at rest
      exact (place before xs h).trans rest
  exact all []

theorem unionOf_congr (h : List.Forall₂ Alike ts us) : Alike (unionOf ts) (unionOf us) :=
  of_places in_union h

theorem intersectionOf_congr (h : List.Forall₂ Alike ts us) :
    Alike (intersectionOf ts) (intersectionOf us) := of_places in_intersection h

/-- If what is built inside of the same kind of thing can be taken apart in one place, it can in
all. -/
theorem flatten {build : List TypeTree → TypeTree}
    (flat : ∀ before members after : List TypeTree, members ≠ [] →
      Alike (build (before ++ build members :: after)) (build (before ++ (members ++ after))))
    {uss : List (List TypeTree)} (nonempty : ∀ us ∈ uss, us ≠ []) :
    Alike (build (uss.map build)) (build uss.flatten) := by
  have all : ∀ before : List TypeTree,
      Alike (build (before ++ uss.map build)) (build (before ++ uss.flatten)) := by
    induction uss with
    | nil => exact fun before => .refl _
    | cons us uss ih =>
      intro before
      obtain ⟨first, rest⟩ := List.forall_mem_cons.1 nonempty
      have others := ih rest (before ++ us)
      rw [List.append_assoc, List.append_assoc] at others
      exact (flat before us _ first).trans others
  exact all []

theorem unionOf_flatten {uss : List (List TypeTree)} (nonempty : ∀ us ∈ uss, us ≠ []) :
    Alike (unionOf (uss.map unionOf)) (unionOf uss.flatten) := flatten union_flat nonempty

theorem intersectionOf_flatten {uss : List (List TypeTree)} (nonempty : ∀ us ∈ uss, us ≠ []) :
    Alike (intersectionOf (uss.map intersectionOf)) (intersectionOf uss.flatten) :=
  flatten intersection_flat nonempty

theorem union_unionOf (t : TypeTree) (ts : List TypeTree) :
    Alike (.union t ts) (unionOf (t :: ts)) := by
  cases ts with
  | nil => exact .union_one t
  | cons => exact .refl _

theorem intersection_intersectionOf (t : TypeTree) (ts : List TypeTree) :
    Alike (.intersection t ts) (intersectionOf (t :: ts)) := by
  cases ts with
  | nil => exact .intersection_one t
  | cons => exact .refl _

/-- Of members that are written alike, the first will do if they are alike. -/
theorem exists_firstOccurrences
    (same : ∀ t ∈ ts, ∀ u ∈ ts, t.text = u.text → Alike t u) :
    ∃ kept, kept ⊆ ts ∧ kept.map text = firstOccurrences (ts.map text) ∧
      Alike (unionOf kept) (unionOf ts) := by
  have all : ∃ kept, kept ⊆ ts ∧ kept.map text = firstOccurrences (ts.map text) ∧
      ∀ after, Alike (unionOf (kept ++ after)) (unionOf (ts ++ after)) := by
    induction ts using List.reverseRecOn with
    | nil => exact ⟨[], List.Subset.refl _, rfl, fun after => .refl _⟩
    | append_singleton ts t ih =>
      obtain ⟨kept, sub, texts, alike⟩ := ih fun a ha b hb =>
        same a (List.mem_append_left _ ha) b (List.mem_append_left _ hb)
      have old : kept ⊆ ts ++ [t] := fun u hu => List.mem_append_left _ (sub hu)
      rw [List.map_append, List.map_singleton, firstOccurrences_concat, ← texts]
      split
      next seen =>
        obtain ⟨u, hu, text⟩ := List.mem_map.1 (List.contains_iff_mem.1 seen)
        have repeated : Alike t u := same t (by simp) u (old hu) text.symm
        obtain ⟨before, between, rfl⟩ := List.append_of_mem hu
        refine ⟨_, old, rfl, fun after => ?_⟩
        simp only [List.append_assoc, List.cons_append, List.nil_append] at alike ⊢
        calc Alike _ (unionOf (before ++ u :: (between ++ u :: after))) :=
              (union_repeat before between after u).symm
          Alike _ (unionOf (before ++ u :: (between ++ t :: after))) := by
              have place := in_union (before ++ u :: between) after repeated.symm
              rwa [List.append_assoc, List.append_assoc] at place
          Alike _ _ := alike (t :: after)
      next =>
        refine ⟨kept ++ [t], ?_, by rw [List.map_append, List.map_singleton], fun after => ?_⟩
        · exact List.append_subset.2 ⟨old, List.subset_append_right _ _⟩
        · rw [List.append_assoc, List.append_assoc]
          exact alike _
  obtain ⟨kept, sub, texts, alike⟩ := all
  have whole := alike []
  rw [List.append_nil, List.append_nil] at whole
  exact ⟨kept, sub, texts, whole⟩

end Alike

end TypeTree

end SchemaCompiler
