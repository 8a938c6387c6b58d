import SchemaCompiler.Proofs.Compile.Layout
import SchemaCompiler.Proofs.Json.FromText
import SchemaCompiler.Proofs.Validator.Check

/-!
# Given values are accepted, and no others

The code of a given value is read as the check that follows the value, constructor by constructor
(`readsCheck_const`), and this check accepts just what is equal to the value
(`Check.accepts_ofValue`). A union leaves out code that has occurred before: as code is read in one
way, values with the same code are equal to the same values (`equals_iff_of_code_eq`), and no value
of the list is lost. Together, this makes the validators of given values exact
(`Validator.givenValues_exact`). They are given as proper values, which every value of a text is
(`Json.proper_ofText`).
-/

namespace SchemaCompiler

open TypeText

namespace Check

/-! ## The check for a value -/

mutual

/-- The check that only a given value passes. -/
def ofValue : Json → Check
  | .null => .null
  | .array xs => .strictTuple (ofValues xs)
  | .object ms => .strictObject (ofMembers ms)
  | scalar => .literal scalar

def ofValues : List Json → List Check
  | [] => []
  | x :: xs => ofValue x :: ofValues xs

def ofMembers : List (String × Json) → List (String × Check)
  | [] => []
  | (name, x) :: ms => (name, ofValue x) :: ofMembers ms

end

theorem ofValues_eq_map (xs : List Json) : ofValues xs = xs.map ofValue := by
  induction xs with
  | nil => rfl
  | cons x xs ih => rw [ofValues, ih, List.map_cons]

theorem ofMembers_eq_map (ms : List (String × Json)) :
    ofMembers ms = ms.map fun m => (m.1, ofValue m.2) := by
  induction ms with
  | nil => rfl
  | cons m ms ih => rw [ofMembers, ih, List.map_cons]

theorem eachAccepts_ofValues {xs ys : List Json}
    (each : ∀ x ∈ xs, ∀ y, (ofValue x).Accepts y ↔ x.Equals y) :
    EachAccepts (ofValues xs) ys ↔ Json.EachEquals xs ys := by
  induction xs generalizing ys with
  | nil => cases ys <;> rfl
  | cons x xs ih =>
    obtain ⟨first, rest⟩ := List.forall_mem_cons.1 each
    cases ys with
    | nil => rfl
    | cons y ys => exact and_congr (first y) (ih rest)

theorem entriesAccept_ofMembers {ms ns : List (String × Json)}
    (each : ∀ m ∈ ms, ∀ y, (ofValue m.2).Accepts y ↔ m.2.Equals y) :
    EntriesAccept (ofMembers ms) ns ↔ Json.MembersEqual ms ns := by
  induction ms with
  | nil => rfl
  | cons m ms ih =>
    obtain ⟨first, rest⟩ := List.forall_mem_cons.1 each
    exact and_congr (exists_congr fun y => and_congr_right' (first y)) (ih rest)

/-- The check for a value accepts the values that are equal to it. -/
theorem accepts_ofValue (v x : Json) : (ofValue v).Accepts x ↔ v.Equals x := by
  induction v using Json.induct generalizing x with
  | null | bool | number | string => rfl
  | array xs ih =>
    cases x with
    | array ys => exact eachAccepts_ofValues ih
    | null | bool | number | string | object => rfl
  | object ms ih =>
    cases x with
    | object ns =>
      have names : (ofMembers ms).map (·.1) = ms.map (·.1) := by
        rw [ofMembers_eq_map, List.map_map]
        rfl
      rw [ofValue, Accepts, Json.Equals, names, entriesAccept_ofMembers ih]
    | null | bool | number | string | array => rfl

end Check

/-! ## Code of values -/

variable {v : Json}

theorem readCheckWithin_mark (fuel : Nat) (c : Char) (rest : List TextToken) :
    readCheckWithin fuel (.mark c :: rest) = none := by
  cases fuel <;> rfl

theorem readsCheck_null : ReadsCheck (call "null_" "") .null := by
  have nothing : TypeText.Reads (fun _ ts => some ((), ts)) [')'] "".toList () :=
    ⟨.nil, fun _ _ => rfl⟩
  have argued : ∀ fuel ts, readArgument (readCheckWithin (fuel + 1)) ("v." ++ "null_") ts =
      (some ((), ts)).map (.map (fun _ => .null) id) := fun _ _ => rfl
  have name : IsFunction "null_" := by decide
  exact readsCheck_call name argued nothing

theorem readsCheck_literal
    (h : ∀ marks, TypeText.Reads (fun _ => readScalar) marks v.text.toList v) :
    ReadsCheck (call "literal" v.text) (.literal v) :=
  readsCheck_call (by decide) (fun _ _ => rfl) (h _)

/-- A list of code between square brackets. -/
theorem reads_list {α : Type} {read : Nat → TypeText.Reader α} {codes : List String} {xs : List α}
    {marks : List Char} (ends : ∀ fuel rest, read fuel (.mark ']' :: rest) = none)
    (h : List.Forall₂ (fun code x => TypeText.Reads read [',', ']'] code.toList x) codes xs) :
    TypeText.Reads (fun fuel => readEnclosed .square (read fuel)) marks
      ("[" ++ ", ".intercalate codes ++ "]").toList xs := by
  have elements : List.Forall₂ (TypeText.Reads read [',', ']']) (codes.map String.toList) xs :=
    List.forall₂_map_left_iff.2 h
  have list : TypeText.Reads (fun fuel => readEnclosed .square (read fuel)) marks _ xs :=
    TypeText.Reads.enclosed .square ends elements
  simpa [Bracket.enclose, Bracket.opening, Bracket.closing, String.toList_intercalate,
    Separator.chars] using list

theorem reads_codes {codes : List String} {cs : List Check} {marks : List Char}
    (h : List.Forall₂ ReadsCheck codes cs) :
    TypeText.Reads (fun fuel => readEnclosed .square (readCheckWithin (fuel + 1))) marks
      ("[" ++ ", ".intercalate codes ++ "]").toList cs :=
  reads_list (fun _ rest => readCheckWithin_mark _ _ rest) (h.imp fun _ _ h => h _)

theorem readsCheck_strictTuple {codes : List String} {cs : List Check}
    (h : List.Forall₂ ReadsCheck codes cs) :
    ReadsCheck (callWithList "strictTuple" codes) (.strictTuple cs) :=
  readsCheck_call (by decide) (fun _ _ => rfl) (reads_codes h)

theorem readsCheck_union {codes : List String} {cs : List Check}
    (h : List.Forall₂ ReadsCheck codes cs) :
    ReadsCheck (callWithList "union" codes) (.union cs) :=
  readsCheck_call (by decide) (fun _ _ => rfl) (reads_codes h)

theorem reads_member {code : String} {c : Check} (name : String) {marks : List Char}
    (h : ReadsCheck code c) :
    TypeText.Reads (fun fuel => readMember (readCheckWithin (fuel + 1))) marks
      (inlineEntry (name, code)) (name, c) := by
  have colon : Closed isTypeChar [':', ' '] := by decide
  have tokens : tokens isTypeChar (inlineEntry (name, code)) =
      .literal .string (String.ofList (name.toList.flatMap quotedChar)) :: .mark ':' ::
        tokens isTypeChar code.toList := by
    rw [inlineEntry, tokens_colon _ (closed_quote name), tokens_quote]
    rfl
  refine ⟨(closed_quote name).append (colon.append (h marks).closed),
    fun {fuel rest} enough follows => ?_⟩
  rw [tokens] at enough ⊢
  simp only [List.length_cons] at enough
  have value : readCheckWithin (fuel + 1) (SchemaCompiler.tokens isTypeChar code.toList ++ rest) =
      some (c, rest) := (h marks).eq (by omega) follows
  simp [readMember, unquoted?_quoted, value]

theorem readsCheck_strictObject {entries : List (String × String)} {es : List (String × Check)}
    (laidOut : ∀ e ∈ entries, LaidOut e.2)
    (h : List.Forall₂ (fun e c => e.1 = c.1 ∧ ReadsCheck e.2 c.2) entries es) :
    ReadsCheck (call "strictObject" (objectLiteral (entries.map fun e => (quote e.1, e.2))))
      (.strictObject es) := by
  obtain ⟨closed, same⟩ := tokens_objectLiteral laidOut
  have members : List.Forall₂
      (TypeText.Reads (fun fuel => readMember (readCheckWithin (fuel + 1))) [',', '\x7d'])
      (entries.map inlineEntry) es := by
    refine List.forall₂_map_left_iff.2 (h.imp ?_)
    rintro ⟨name, code⟩ ⟨_, c⟩ ⟨rfl, read⟩
    exact reads_member name read
  have inline : TypeText.Reads
      (fun fuel => readEnclosed .curly (readMember (readCheckWithin (fuel + 1)))) [')'] _ es :=
    TypeText.Reads.enclosed .curly (fun _ _ => rfl) members
  refine readsCheck_call (by decide) (fun _ _ => rfl) ⟨closed, fun enough follows => ?_⟩
  rw [same] at enough ⊢
  exact inline.eq enough follows

theorem readsCheck_const (proper : v.proper) :
    ReadsCheck (Validator.const v).code (Check.ofValue v) := by
  rw [Validator.code_const]
  induction v using Json.induct with
  | null => exact readsCheck_null
  | bool b => exact readsCheck_literal fun _ => reads_bool b
  | number n => exact readsCheck_literal fun _ => reads_number (by simpa [Json.proper] using proper)
  | string s => exact readsCheck_literal fun _ => reads_string s
  | array xs ih =>
    rw [Json.proper, Json.eachProper_iff] at proper
    rw [Check.ofValue, Check.ofValues_eq_map]
    refine readsCheck_strictTuple ?_
    rw [List.forall₂_map_left_iff, List.forall₂_map_right_iff, List.forall₂_same]
    intro x hx
    rw [Validator.code_const]
    exact ih x hx (proper x hx)
  | object ms ih =>
    rw [Json.proper, Bool.and_eq_true, Json.membersProper_iff] at proper
    have laidOut : ∀ e ∈ ms.map fun m => (m.1, (Validator.const m.2).code), LaidOut e.2 := by
      intro e he
      obtain ⟨m, -, rfl⟩ := List.mem_map.1 he
      exact Validator.laidOut_const m.2
    have members : List.Forall₂ (fun e c => e.1 = c.1 ∧ ReadsCheck e.2 c.2)
        (ms.map fun m => (m.1, (Validator.const m.2).code)) (Check.ofMembers ms) := by
      rw [Check.ofMembers_eq_map, List.forall₂_map_left_iff, List.forall₂_map_right_iff,
        List.forall₂_same]
      intro m hm
      rw [Validator.code_const]
      exact ⟨rfl, ih m hm (proper.2 m hm)⟩
    have object := readsCheck_strictObject laidOut members
    rw [List.map_map] at object
    exact object

/-! ## Code of lists of values -/

variable {vs : List Json}

theorem readsCheck_picklist (proper : ∀ v ∈ vs, v.proper)
    (scalars : ∀ v ∈ vs, v.isString || v.isNumber) :
    ReadsCheck (callWithList "picklist" (vs.map Json.text)) (.picklist vs) := by
  have texts : List.Forall₂
      (fun text v => TypeText.Reads (fun _ => readScalar) [',', ']'] text.toList v)
      (vs.map Json.text) vs := by
    rw [List.forall₂_map_left_iff, List.forall₂_same]
    intro v hv
    have scalar := scalars v hv
    cases v with
    | string s => exact reads_string s
    | number n => exact reads_number (by simpa [Json.proper] using proper _ hv)
    | null | bool | array | object => nomatch scalar
  exact readsCheck_call (by decide) (fun _ _ => rfl) (reads_list (fun _ _ => rfl) texts)

/-- Values with the same code are equal to the same values. -/
theorem equals_iff_of_code_eq {v w : Json} (hv : v.proper) (hw : w.proper)
    (code : (Validator.const v).code = (Validator.const w).code) (x : Json) :
    v.Equals x ↔ w.Equals x := by
  have read := (readsCheck_const hv).readCheck?
  rw [code, (readsCheck_const hw).readCheck?, Option.some.injEq] at read
  rw [← Check.accepts_ofValue v, ← Check.accepts_ofValue w, read]

theorem exists_map_eq {α β : Type} {f : α → β} {xs : List α} {ys : List β} (sub : ys ⊆ xs.map f) :
    ∃ zs ⊆ xs, zs.map f = ys := by
  induction ys with
  | nil => exact ⟨[], List.nil_subset _, rfl⟩
  | cons y ys ih =>
    rw [List.cons_subset] at sub
    obtain ⟨z, hz, rfl⟩ := List.mem_map.1 sub.1
    obtain ⟨zs, hzs, rfl⟩ := ih sub.2
    exact ⟨z :: zs, List.cons_subset.2 ⟨hz, hzs⟩, rfl⟩

/-- Of the validators of values, those of some of the values are left, which are equal to the same
values. -/
theorem exists_distinct_values (proper : ∀ v ∈ vs, v.proper) :
    ∃ ws ⊆ vs, ws.map Validator.const = Validator.distinctByCode (vs.map Validator.const) ∧
      ∀ x, (∃ w ∈ ws, w.Equals x) ↔ ∃ v ∈ vs, v.Equals x := by
  obtain ⟨ws, sub, kept⟩ := exists_map_eq (Validator.distinctByCode_subset (vs.map Validator.const))
  refine ⟨ws, sub, kept, fun x => ⟨?_, ?_⟩⟩
  · rintro ⟨w, hw, equal⟩
    exact ⟨w, sub hw, equal⟩
  · rintro ⟨v, hv, equal⟩
    obtain ⟨r, hr, code⟩ := Validator.exists_mem_distinctByCode (List.mem_map_of_mem hv)
    rw [← kept] at hr
    obtain ⟨w, hw, rfl⟩ := List.mem_map.1 hr
    exact ⟨w, hw, (equals_iff_of_code_eq (proper w (sub hw)) (proper v hv) code x).2 equal⟩

theorem exists_readsCheck_union (nonempty : vs ≠ []) (proper : ∀ v ∈ vs, v.proper) :
    ∃ c, ReadsCheck (Validator.union (vs.map Validator.const)).code c ∧
      ∀ x, c.Accepts x ↔ ∃ v ∈ vs, v.Equals x := by
  obtain ⟨ws, sub, kept, same⟩ := exists_distinct_values proper
  have some : ws ≠ [] := by
    rintro rfl
    exact Validator.distinctByCode_ne_nil (by simpa using nonempty) kept.symm
  have read (w : Json) (hw : w ∈ ws) : ReadsCheck (Validator.const w).code (.ofValue w) :=
    readsCheck_const (proper w (sub hw))
  rw [Validator.union, ← kept]
  match ws with
  | [] => exact absurd rfl some
  | [w] =>
    refine ⟨.ofValue w, read w (List.mem_singleton.2 rfl), fun x => ?_⟩
    rw [Check.accepts_ofValue, ← same]
    simp
  | w :: w' :: ws =>
    have codes : List.Forall₂ ReadsCheck
        (((w :: w' :: ws).map Validator.const).map (·.code))
        ((w :: w' :: ws).map Check.ofValue) := by
      rw [List.map_map, List.forall₂_map_left_iff, List.forall₂_map_right_iff, List.forall₂_same]
      exact read
    refine ⟨.union ((w :: w' :: ws).map Check.ofValue), readsCheck_union codes, fun x => ?_⟩
    rw [← same, Check.Accepts, Check.someAccepts_iff]
    simp only [List.mem_map, exists_exists_and_eq_and, Check.accepts_ofValue]

theorem exists_readsCheck_enum (nonempty : vs ≠ []) (proper : ∀ v ∈ vs, v.proper) :
    ∃ c, ReadsCheck (Validator.enum vs).code c ∧ ∀ x, c.Accepts x ↔ ∃ v ∈ vs, v.Equals x := by
  unfold Validator.enum
  split
  · exact absurd rfl nonempty
  next only =>
    refine ⟨.ofValue only, readsCheck_const (proper only (List.mem_singleton.2 rfl)), fun x => ?_⟩
    rw [Check.accepts_ofValue]
    simp
  next =>
    split
    next scalars =>
      exact ⟨.picklist vs, readsCheck_picklist proper (List.all_eq_true.1 scalars), fun x => .rfl⟩
    next => exact exists_readsCheck_union nonempty proper

/-- The code of a given value is read as a check that accepts just the values that are equal to it,
and the code of a list of given values as one that accepts just those that are equal to one of them.
A value is equal to itself, and an object to those in which each name has an equal value or stands
in neither. All of this is about proper values, and every value of a text is proper. -/
theorem Validator.givenValues_exact :
    (∀ v : Json, v.proper → ∃ c, readCheck? (Validator.const v).code = some c ∧
      ∀ x, c.Accepts x ↔ v.Equals x) ∧
    (∀ vs : List Json, vs ≠ [] → (∀ v ∈ vs, v.proper) →
      ∃ c, readCheck? (Validator.enum vs).code = some c ∧
        ∀ x, c.Accepts x ↔ ∃ v ∈ vs, v.Equals x) ∧
    (∀ v : Json, v.proper → v.Equals v) ∧
    (∀ ms : List (String × Json), (Json.object ms).proper → ∀ ns,
      (Json.object ms).Equals (.object ns) ↔
        ∀ name, Option.Rel Json.Equals (member? name ms) (member? name ns)) ∧
    ∀ (text : String) (v : Json), Json.ofText text = .ok v → v.proper := by
  refine ⟨fun v proper => ?_, fun vs nonempty proper => ?_, fun _ => Json.equals_self,
    fun ms proper ns => ?_, fun _ _ => Json.proper_ofText⟩
  · exact ⟨.ofValue v, (readsCheck_const proper).readCheck?, Check.accepts_ofValue v⟩
  · obtain ⟨c, read, accepts⟩ := exists_readsCheck_enum nonempty proper
    exact ⟨c, read.readCheck?, accepts⟩
  · rw [Json.proper, Bool.and_eq_true, decide_eq_true_eq] at proper
    exact Json.equals_object_iff proper.1

/-- An object with an array in it. -/
def circle : Json :=
  .object [("kind", .string "circle"), ("r", .array [.number (.integer 2), .null])]

/-- The same object, with its members the other way round and its number as a double. -/
def otherCircle : Json :=
  .object [("r", .array [.number (.double ⟨false, 2 ^ 52, -51⟩), .null]),
    ("kind", .string "circle")]

theorem Validator.givenValues_exact_circle :
    (circle.proper ∧ ∃ c, readCheck? (Validator.const circle).code = some c ∧
      c.Accepts circle ∧ c.Accepts otherCircle ∧
      ¬ c.Accepts (.object [("kind", .string "circle")])) ∧
    ([circle, .null] ≠ [] ∧ (∀ v ∈ [circle, .null], v.proper) ∧
      ∃ c, readCheck? (Validator.enum [circle, .null]).code = some c ∧
        c.Accepts otherCircle ∧ c.Accepts .null ∧ ¬ c.Accepts (.string "circle")) ∧
    ∃ v, Json.ofText circle.text = .ok v ∧ v.proper ∧ v.text = circle.text := by
  obtain ⟨exact, exactEach, reflexive, maps, texts⟩ := givenValues_exact
  have proper : circle.proper := by decide +kernel
  have both : ∀ v ∈ [circle, .null], v.proper := by
    intro v hv
    obtain rfl | rfl := List.mem_pair.1 hv
    · exact proper
    · rfl
  have two : (Number.integer 2).value = (Number.double ⟨false, 2 ^ 52, -51⟩).value := by
    norm_num [Number.value, Binary64.value, Magnitude.value]
  have same : circle.Equals otherCircle := by
    refine (maps _ proper _).2 fun name => ?_
    by_cases kind : "kind" = name
    · subst kind
      exact .some rfl
    · by_cases r : "r" = name
      · subst r
        exact .some ⟨two, trivial, trivial⟩
      · simp only [member?, kind, r, if_false]
        exact .none
  obtain ⟨c, read, accepts⟩ := exact circle proper
  obtain ⟨d, readEach, acceptsEach⟩ := exactEach [circle, .null] (by simp) both
  have written : (Json.ofText circle.text).map Json.text = .ok circle.text := by decide +kernel
  obtain ⟨v, ofText, text⟩ := except_map_eq_ok written
  refine ⟨⟨proper, c, read, (accepts _).2 (reflexive _ proper), (accepts _).2 same, fun h => ?_⟩,
    ⟨by simp, both, d, readEach, (acceptsEach _).2 ⟨circle, by simp, same⟩,
      (acceptsEach _).2 ⟨.null, by simp, trivial⟩, fun h => ?_⟩,
    v, ofText, texts _ v ofText, text⟩
  · have absent := (maps _ proper _).1 ((accepts _).1 h) "r"
    cases absent
  · obtain ⟨v, hv, same⟩ := (acceptsEach _).1 h
    obtain rfl | rfl := List.mem_pair.1 hv
    · exact same
    · exact same

end SchemaCompiler
