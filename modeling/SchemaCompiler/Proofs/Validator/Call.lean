import Mathlib.Data.List.Forall2
import SchemaCompiler.Validator.Basic

/-!
# The text of calls

Code starts with the library function that it calls, and ends with the closing bracket of the call.
Lists in code have separators and a closing bracket that their elements do not start with. So if the
elements can be told from what follows them, the list can be, too (`intercalate_append_inj`).
-/

namespace SchemaCompiler

/-! ## Delimited texts -/

theorem append_cons_inj {α : Type} {xs ys u v : List α} {c : α} (hx : c ∉ xs) (hy : c ∉ ys)
    (h : xs ++ c :: u = ys ++ c :: v) : xs = ys ∧ u = v := by
  induction xs generalizing ys with
  | nil =>
    cases ys with
    | nil => simpa using h
    | cons y ys => exact absurd (List.cons.inj h).1 fun e => hy (e ▸ List.mem_cons_self)
  | cons x xs ih =>
    cases ys with
    | nil => exact absurd (List.cons.inj h).1 fun e => hx (e ▸ List.mem_cons_self)
    | cons y ys =>
      simp only [List.mem_cons, not_or, List.cons_append, List.cons.injEq] at hx hy h
      obtain ⟨same, rest⟩ := ih hx.2 hy.2 h.2
      exact ⟨by rw [h.1, same], rest⟩

/-! ## Lists in code -/

section Intercalate

variable {α : Type} {text : α → List Char} {r : α → α → Prop} {s c : Char} {sep u v : List Char}
  {xs ys : List α}

theorem intercalate_cons (x : List Char) (xs : List (List Char)) :
    sep.intercalate (x :: xs) = x ++ xs.flatMap (sep ++ ·) := by
  induction xs generalizing x with
  | nil => simp
  | cons y ys ih => rw [List.intercalate_cons_cons, ih y, List.flatMap_cons, List.append_assoc,
    List.append_assoc]

theorem flatMap_append_inj (hsc : s ≠ c)
    (inj : ∀ x ∈ xs, ∀ y ∈ ys, ∀ u v, text x ++ u = text y ++ v → r x y ∧ u = v)
    (h : (xs.map text).flatMap ((s :: sep) ++ ·) ++ c :: u =
      (ys.map text).flatMap ((s :: sep) ++ ·) ++ c :: v) : List.Forall₂ r xs ys ∧ u = v := by
  induction xs generalizing ys with
  | nil =>
    cases ys with
    | nil => exact ⟨.nil, by simpa using h⟩
    | cons y ys => simp [Ne.symm hsc] at h
  | cons x xs ih =>
    cases ys with
    | nil => simp [hsc] at h
    | cons y ys =>
      simp only [List.map_cons, List.flatMap_cons, List.cons_append, List.append_assoc,
        List.cons.injEq, List.append_cancel_left_eq, true_and] at h
      obtain ⟨hxy, rest⟩ := inj x (by simp) y (by simp) _ _ h
      obtain ⟨all, rest⟩ := ih (fun x hx y hy => inj x (List.mem_cons_of_mem _ hx) y
        (List.mem_cons_of_mem _ hy)) rest
      exact ⟨.cons hxy all, rest⟩

/-- A list up to its closing character determines its elements and what follows. -/
theorem intercalate_append_inj (hsc : s ≠ c)
    (start : ∀ x, ∃ d rest, text x = d :: rest ∧ d ≠ c)
    (inj : ∀ x ∈ xs, ∀ y ∈ ys, ∀ u v, text x ++ u = text y ++ v → r x y ∧ u = v)
    (h : (s :: sep).intercalate (xs.map text) ++ c :: u =
      (s :: sep).intercalate (ys.map text) ++ c :: v) : List.Forall₂ r xs ys ∧ u = v := by
  cases xs with
  | nil =>
    cases ys with
    | nil => exact ⟨.nil, by simpa using h⟩
    | cons y ys =>
      obtain ⟨d, rest, hd, ne⟩ := start y
      rw [List.map_cons, intercalate_cons, hd] at h
      simp [Ne.symm ne] at h
  | cons x xs =>
    cases ys with
    | nil =>
      obtain ⟨d, rest, hd, ne⟩ := start x
      rw [List.map_cons, intercalate_cons, hd] at h
      simp [ne] at h
    | cons y ys =>
      rw [List.map_cons, List.map_cons, intercalate_cons, intercalate_cons, List.append_assoc,
        List.append_assoc] at h
      obtain ⟨hxy, rest⟩ := inj x (by simp) y (by simp) _ _ h
      obtain ⟨all, rest⟩ := flatMap_append_inj hsc (fun x hx y hy =>
        inj x (List.mem_cons_of_mem _ hx) y (List.mem_cons_of_mem _ hy)) rest
      exact ⟨.cons hxy all, rest⟩

end Intercalate

/-! ## Calls -/

theorem toList_call (symbol argument : String) :
    (call symbol argument).toList =
      'v' :: '.' :: (symbol.toList ++ '(' :: (argument.toList ++ [')'])) := by
  simp [call]

/-- A call followed by anything else determines the function and what follows the bracket. -/
theorem call_append_inj {s t a b : String} {u v : List Char} (hs : '(' ∉ s.toList)
    (ht : '(' ∉ t.toList) (h : (call s a).toList ++ u = (call t b).toList ++ v) :
    s = t ∧ a.toList ++ ')' :: u = b.toList ++ ')' :: v := by
  simp only [toList_call, List.cons_append, List.append_assoc, List.cons.injEq, true_and,
    List.nil_append] at h
  obtain ⟨same, rest⟩ := append_cons_inj hs ht h
  exact ⟨String.toList_inj.1 same, rest⟩

/-! ## The function that a validator calls first -/

/-- The name of a library function other than `pipe`, whose first argument counts instead. -/
structure IsSymbol (symbol : String) : Prop where
  open_not_mem : '(' ∉ symbol.toList
  ne_pipe : symbol ≠ "pipe"

instance (symbol : String) : Decidable (IsSymbol symbol) :=
  decidable_of_iff ('(' ∉ symbol.toList ∧ symbol ≠ "pipe")
    ⟨fun h => ⟨h.1, h.2⟩, fun h => ⟨h.open_not_mem, h.ne_pipe⟩⟩

/-- The code of a validator is a call of a library function, or a pipe that starts with one. -/
def Validator.Calls (r : Validator) (symbol : String) : Prop :=
  ∃ rest, r.code.toList = 'v' :: '.' :: (symbol.toList ++ '(' :: rest) ∨
    r.code.toList = 'v' :: '.' :: ("pipe".toList ++ '(' ::
      ('v' :: '.' :: (symbol.toList ++ '(' :: rest)))

namespace Validator

variable {r r' : Validator} {s t argument : String}

theorem calls_of_code_eq (h : r.code = call s argument) : r.Calls s :=
  ⟨_, .inl (by rw [h, toList_call])⟩

theorem calls_pipe (h : r.code = call s argument) (actions : List Action) :
    (r.pipe actions).Calls s := by
  unfold pipe
  split
  · exact calls_of_code_eq h
  · refine ⟨argument.toList ++ ')' :: ((actions.map Action.code).flatMap
      fun code => ", ".toList ++ code.toList) ++ [')'], .inr ?_⟩
    simp [toList_call, String.toList_intercalate, intercalate_cons, h, List.flatMap_map]

/-- Equal code calls the same function. -/
theorem Calls.unique (h : r.Calls s) (h' : r'.Calls t) (hs : IsSymbol s) (ht : IsSymbol t)
    (code : r.code = r'.code) : s = t := by
  have pipe : '(' ∉ "pipe".toList := by decide
  obtain ⟨rest, h⟩ := h
  obtain ⟨rest', h'⟩ := h'
  rw [code] at h
  rcases h with h | h <;> rcases h' with h' | h' <;> rw [h', List.cons.injEq, List.cons.injEq] at h
  · exact String.toList_inj.1 (append_cons_inj ht.open_not_mem hs.open_not_mem h.2.2).1.symm
  · have := String.toList_inj.1 (append_cons_inj pipe hs.open_not_mem h.2.2).1
    exact absurd this.symm hs.ne_pipe
  · have := String.toList_inj.1 (append_cons_inj ht.open_not_mem pipe h.2.2).1
    exact absurd this ht.ne_pipe
  · have := (append_cons_inj pipe pipe h.2.2).2
    rw [List.cons.injEq, List.cons.injEq] at this
    exact String.toList_inj.1 (append_cons_inj ht.open_not_mem hs.open_not_mem this.2.2).1.symm

end Validator

end SchemaCompiler
