import SchemaCompiler.Proofs.Number.Text
import SchemaCompiler.Proofs.Text.Quoted
import SchemaCompiler.Proofs.Validator.Call
import SchemaCompiler.Validator.Literal

/-!
# The code of given values

The code of `Validator.const` can be read back as far as types are concerned: values with the same
code have the same literal type (`literalType_eq_of_code_eq`). The proof goes over the structure of
two values at once, each followed by any text: where the texts agree, so do the codes, the types and
what follows (`const_append_inj`).
-/

namespace SchemaCompiler

/-! ## Shifted code -/

theorem toList_shifted (code : String) :
    (shifted code).toList =
      code.toList.flatMap fun c => if c = '\n' then ['\n', ' ', ' '] else [c] := by
  rw [shifted, String.toList_ofList]

/-- Texts that start alike after shifting start alike before. -/
theorem exists_append_eq_of_shifted {xs ys u v : List Char}
    (h : (xs.flatMap fun c => if c = '\n' then ['\n', ' ', ' '] else [c]) ++ u =
      (ys.flatMap fun c => if c = '\n' then ['\n', ' ', ' '] else [c]) ++ v) :
    ∃ u' v', xs ++ u' = ys ++ v' := by
  induction xs generalizing ys with
  | nil => exact ⟨ys, [], by simp⟩
  | cons x xs ih =>
    cases ys with
    | nil => exact ⟨[], x :: xs, by simp⟩
    | cons y ys =>
      have head : ∀ c : Char, ∃ rest, (if c = '\n' then ['\n', ' ', ' '] else [c]) = c :: rest := by
        intro c
        split
        next h => exact ⟨[' ', ' '], by rw [h]⟩
        next => exact ⟨[], rfl⟩
      obtain ⟨_, hx⟩ := head x
      obtain ⟨_, hy⟩ := head y
      have same : x = y := by
        rw [List.flatMap_cons, List.flatMap_cons, hx, hy] at h
        exact (List.cons.inj h).1
      subst same
      rw [List.flatMap_cons, List.flatMap_cons, List.append_assoc, List.append_assoc,
        List.append_cancel_left_eq] at h
      obtain ⟨u', v', rest⟩ := ih h
      exact ⟨u', v', congrArg (x :: ·) rest⟩

namespace Validator

theorem consts_eq_map (xs : List Json) : consts xs = xs.map const := by
  induction xs with
  | nil => rfl
  | cons x xs ih => rw [consts, ih, List.map_cons]

theorem constEntries_eq_map (members : List (String × Json)) :
    constEntries members = members.map fun m => (m.1, const m.2) := by
  induction members with
  | nil => rfl
  | cons m members ih => rw [constEntries, ih, List.map_cons]

end Validator

theorem literalTypes_eq_map (xs : List Json) : literalTypes xs = xs.map literalType := by
  induction xs with
  | nil => rfl
  | cons x xs ih => rw [literalTypes, ih, List.map_cons]

theorem literalFields_eq_map (members : List (String × Json)) :
    literalFields members = members.map fun m => ⟨m.1, literalType m.2, false⟩ := by
  induction members with
  | nil => rfl
  | cons m members ih => rw [literalFields, ih, List.map_cons]

/-! ## Scalars -/

namespace Json

/-- A value that is written without quotation marks and brackets. -/
def isPlain : Json → Bool
  | .bool _ => true
  | .number _ => true
  | _ => false

theorem ne_of_mem_text {v : Json} (h : v.isPlain) {c : Char} (hc : c ∈ v.text.toList) :
    c ≠ '"' ∧ c ≠ ')' := by
  cases v with
  | bool b =>
    have all : ∀ b, (Json.bool b).text.toList.all fun c => c != '"' && c != ')' := by decide
    simpa using List.all_eq_true.1 (all b) c hc
  | number n =>
    have number : isNumberChar c := Number.isNumberChar_of_mem_text hc
    exact ⟨fun e => by simp [e, isNumberChar] at number,
      fun e => by simp [e, isNumberChar] at number⟩
  | null | string | array | object => simp [isPlain] at h

theorem text_append_ne_quote {v : Json} (h : v.isPlain) (s : String) (u w : List Char) :
    v.text.toList ++ ')' :: u ≠ (quote s).toList ++ w := by
  intro same
  rw [toList_quote] at same
  cases text : v.text.toList with
  | nil => simp [text] at same
  | cons c cs =>
    rw [text] at same
    exact (ne_of_mem_text h (text ▸ List.mem_cons_self)).1 (List.cons.inj same).1

theorem text_append_inj {v w : Json} (hv : v.isPlain) (hw : w.isPlain) {x y : List Char}
    (h : v.text.toList ++ ')' :: x = w.text.toList ++ ')' :: y) : v.text = w.text ∧ x = y := by
  obtain ⟨same, rest⟩ := append_cons_inj (fun mem => (ne_of_mem_text hv mem).2 rfl)
    (fun mem => (ne_of_mem_text hw mem).2 rfl) h
  exact ⟨String.toList_inj.1 same, rest⟩

end Json

/-! ## Values -/

namespace Validator

/-- The library function that checks for a value. -/
def constSymbol : Json → String
  | .null => "null_"
  | .array _ => "strictTuple"
  | .object _ => "strictObject"
  | _ => "literal"

/-- What that function is called with. -/
def constArgument : Json → String
  | .null => ""
  | .array elements => "[" ++ ", ".intercalate (elements.map fun x => (const x).code) ++ "]"
  | .object members => objectLiteral (members.map fun m => (quote m.1, (const m.2).code))
  | scalar => scalar.text

theorem code_const (v : Json) : (const v).code = call (constSymbol v) (constArgument v) := by
  cases v with
  | array elements =>
    simp [const, consts_eq_map, constSymbol, constArgument, callWithList, Function.comp_def]
  | object members =>
    simp [const, constEntries_eq_map, constSymbol, constArgument, Function.comp_def]
  | null | bool | number | string => rfl

theorem not_mem_constSymbol (v : Json) : '(' ∉ (constSymbol v).toList := by
  cases v <;> simp [constSymbol]

theorem toList_entryText (m : String × String) :
    (entryText m).toList =
      ' ' :: ' ' :: (m.1.toList ++ ':' :: ' ' :: (shifted m.2).toList) := by
  simp [entryText]

theorem toList_objectLiteral {entries : List (String × String)} (h : entries ≠ []) :
    (objectLiteral entries).toList =
      '\x7b' :: '\n' :: ([',', '\n'].intercalate (entries.map fun m => (entryText m).toList) ++
        ['\n', '\x7d']) := by
  have nonempty : entries.isEmpty = false := by simpa using h
  simp [objectLiteral, nonempty, String.toList_intercalate, Function.comp_def]

/-- Two values have the same code and the same type. -/
def SameLiteral (v w : Json) : Prop :=
  (const v).code = (const w).code ∧ literalType v = literalType w

/-- The codes of two values that start alike are the same. -/
def ReadsAlike (v w : Json) : Prop :=
  ∀ x y, (const v).code.toList ++ x = (const w).code.toList ++ y → SameLiteral v w ∧ x = y

theorem map_eq_of_forall₂ {α β : Type} {f : α → β} {r : α → α → Prop} {xs ys : List α}
    (h : List.Forall₂ r xs ys) (hr : ∀ x y, r x y → f x = f y) : xs.map f = ys.map f := by
  induction h with
  | nil => rfl
  | cons h _ ih => rw [List.map_cons, List.map_cons, hr _ _ h, ih]

theorem exists_code_const (v : Json) :
    ∃ rest, (const v).code.toList = 'v' :: '.' :: rest := by
  rw [code_const, toList_call]
  exact ⟨_, rfl⟩

theorem elements_append_inj {xs ys : List Json} {u w : List Char}
    (alike : ∀ x ∈ xs, ∀ y ∈ ys, ReadsAlike x y)
    (h : (constArgument (.array xs)).toList ++ ')' :: u =
      (constArgument (.array ys)).toList ++ ')' :: w) :
    SameLiteral (.array xs) (.array ys) ∧ u = w := by
  have text : ∀ zs : List Json, (constArgument (.array zs)).toList =
      '[' :: ([',', ' '].intercalate (zs.map fun z => (const z).code.toList) ++ [']']) := by
    intro zs
    simp [constArgument, String.toList_intercalate, Function.comp_def]
  simp only [text, List.cons_append, List.append_assoc, List.cons.injEq, true_and,
    List.nil_append] at h
  have start : ∀ x : Json, ∃ d rest, (const x).code.toList = d :: rest ∧ d ≠ ']' := by
    intro x
    obtain ⟨rest, start⟩ := exists_code_const x
    exact ⟨'v', _, start, by decide⟩
  obtain ⟨all, rest⟩ := intercalate_append_inj (by decide) start alike h
  have codes := map_eq_of_forall₂ (f := fun x => (const x).code) all fun _ _ h => h.1
  have types := map_eq_of_forall₂ (f := literalType) all fun _ _ h => h.2
  refine ⟨⟨?_, ?_⟩, by simpa using rest⟩
  · rw [code_const, code_const, constArgument, constArgument, codes]
    rfl
  · rw [literalType, literalType, literalTypes_eq_map, literalTypes_eq_map, types]

theorem entry_append_inj {m n : String × Json} {u w : List Char} (alike : ReadsAlike m.2 n.2)
    (h : (entryText (quote m.1, (const m.2).code)).toList ++ u =
      (entryText (quote n.1, (const n.2).code)).toList ++ w) :
    (m.1 = n.1 ∧ SameLiteral m.2 n.2) ∧ u = w := by
  simp only [toList_entryText, List.cons_append, List.append_assoc, List.cons.injEq,
    true_and] at h
  obtain ⟨name, rest⟩ := quote_append_inj h
  simp only [List.cons.injEq, true_and, toList_shifted] at rest
  obtain ⟨x, y, start⟩ := exists_append_eq_of_shifted rest
  obtain ⟨same, _⟩ := alike x y start
  refine ⟨⟨name, same⟩, ?_⟩
  rw [same.1] at rest
  exact List.append_cancel_left rest

theorem members_append_inj {ms ns : List (String × Json)} {u w : List Char}
    (alike : ∀ m ∈ ms, ∀ n ∈ ns, ReadsAlike m.2 n.2)
    (h : (constArgument (.object ms)).toList ++ ')' :: u =
      (constArgument (.object ns)).toList ++ ')' :: w) :
    SameLiteral (.object ms) (.object ns) ∧ u = w := by
  have text : ∀ ms : List (String × Json), ms ≠ [] → (constArgument (.object ms)).toList =
      '\x7b' :: '\n' :: ([',', '\n'].intercalate
        (ms.map fun m => (entryText (quote m.1, (const m.2).code)).toList) ++
          ['\n', '\x7d']) := by
    intro ms nonempty
    rw [constArgument, toList_objectLiteral (by simpa using nonempty)]
    simp [Function.comp_def]
  have empty : (constArgument (.object [])).toList = ['\x7b', '\x7d'] := rfl
  by_cases hm : ms = []
  · by_cases hn : ns = []
    · subst hm hn
      exact ⟨⟨rfl, rfl⟩, by simpa using h⟩
    · rw [hm, empty, text ns hn] at h
      simp at h
  · by_cases hn : ns = []
    · rw [hn, empty, text ms hm] at h
      simp at h
    rw [text ms hm, text ns hn] at h
    simp only [List.cons_append, List.append_assoc, List.cons.injEq, true_and,
      List.nil_append] at h
    obtain ⟨all, rest⟩ := intercalate_append_inj (by decide)
      (fun m => ⟨' ', _, toList_entryText _, by decide⟩)
      (fun m hm n hn u w => entry_append_inj (alike m hm n hn)) h
    have codes := map_eq_of_forall₂ (f := fun m => (quote m.1, (const m.2).code)) all
      fun _ _ h => by rw [h.1, h.2.1]
    have types := map_eq_of_forall₂ (f := fun m => Field.mk m.1 (literalType m.2) false) all
      fun _ _ h => by rw [h.1, h.2.2]
    refine ⟨⟨?_, ?_⟩, by simpa using rest⟩
    · rw [code_const, code_const, constArgument, constArgument, codes]
      rfl
    · rw [literalType, literalType, literalFields_eq_map, literalFields_eq_map, types]

theorem scalars_append_inj {v w : Json} {u z : List Char}
    (hv : v.isPlain ∨ ∃ s, v = .string s) (hw : w.isPlain ∨ ∃ s, w = .string s)
    (h : v.text.toList ++ ')' :: u = w.text.toList ++ ')' :: z) : v.text = w.text ∧ u = z := by
  rcases hv with hv | ⟨s, rfl⟩
  · rcases hw with hw | ⟨t, rfl⟩
    · exact Json.text_append_inj hv hw h
    · exact absurd h (Json.text_append_ne_quote hv t _ _)
  · rcases hw with hw | ⟨t, rfl⟩
    · exact absurd h.symm (Json.text_append_ne_quote hw s _ _)
    · obtain ⟨rfl, rest⟩ := quote_append_inj h
      exact ⟨rfl, by simpa using rest⟩

theorem sameLiteral_of_text_eq {v w : Json} (hv : v.isPlain ∨ ∃ s, v = .string s)
    (hw : w.isPlain ∨ ∃ s, w = .string s) (h : v.text = w.text) : SameLiteral v w := by
  have scalar : ∀ {v : Json}, (v.isPlain ∨ ∃ s, v = .string s) →
      (const v).code = call "literal" v.text ∧ literalType v = v.text := by
    intro v hv
    cases v with
    | bool | number | string => exact ⟨rfl, rfl⟩
    | null | array | object => simp [Json.isPlain] at hv
  obtain ⟨codeV, typeV⟩ := scalar hv
  obtain ⟨codeW, typeW⟩ := scalar hw
  exact ⟨by rw [codeV, codeW, h], by rw [typeV, typeW, h]⟩

/-- The codes of two values start alike only if they are the same, and the values have the same
type then. -/
theorem readsAlike (v w : Json) : ReadsAlike v w := by
  induction size : sizeOf v using Nat.strongRecOn generalizing v w with
  | _ n ih =>
  subst size
  intro x y h
  rw [code_const, code_const] at h
  -- The function tells values of different kinds apart, and its argument those of one kind.
  obtain ⟨symbol, argument⟩ :=
    call_append_inj (not_mem_constSymbol v) (not_mem_constSymbol w) h
  cases v with
  | null =>
    cases w with
    | null => exact ⟨⟨rfl, rfl⟩, by simpa using argument⟩
    | bool | number | string | array | object => simp [constSymbol] at symbol
  | array xs =>
    cases w with
    | array ys =>
      refine elements_append_inj (fun x hx y _ => ih _ ?_ x y rfl) argument
      have := List.sizeOf_lt_of_mem hx
      simp
      omega
    | null | bool | number | string | object => simp [constSymbol] at symbol
  | object ms =>
    cases w with
    | object ns =>
      refine members_append_inj (fun m hm n _ => ih _ ?_ m.2 n.2 rfl) argument
      have := List.sizeOf_lt_of_mem hm
      obtain ⟨name, value⟩ := m
      simp at this ⊢
      omega
    | null | bool | number | string | array => simp [constSymbol] at symbol
  | bool | number | string =>
    cases w with
    | bool | number | string =>
      have scalars := scalars_append_inj (by simp [Json.isPlain]) (by simp [Json.isPlain]) argument
      exact ⟨sameLiteral_of_text_eq (by simp [Json.isPlain]) (by simp [Json.isPlain]) scalars.1,
        scalars.2⟩
    | null | array | object => simp [constSymbol] at symbol

/-- Values with the same code have the same type. -/
theorem literalType_eq_of_code_eq {v w : Json} (h : (const v).code = (const w).code) :
    literalType v = literalType w :=
  (readsAlike v w [] [] (by rw [h])).1.2

/-- The type of the validator of a value is its literal type. -/
theorem type_const (v : Json) : (const v).type = some (literalType v) := by
  cases v with
  | null | bool | number | string => rfl
  | array | object => simp [const]

end Validator

end SchemaCompiler
