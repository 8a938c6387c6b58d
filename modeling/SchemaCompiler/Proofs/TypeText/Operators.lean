import Mathlib.Data.List.Forall2
import SchemaCompiler.Proofs.Text.Tokens
import SchemaCompiler.TypeText

/-!
# Operators at the top of type texts

`hasTopLevel` looks for an operator outside of brackets and string literals. A text that it gets past
without a result, and at the same depth as before, `Passes`. Such texts are put together from
others: one after the other (`Passes.append`), and between brackets, where an operator does no harm
(`Passes.enclosed`).
-/

namespace SchemaCompiler.TypeText

/-- A text that a search for `op` gets past where `least` brackets or more are open. -/
def Passes (op : Char) (least : Int) (text : List Char) : Prop :=
  ∀ depth, least ≤ depth → ∀ rest,
    occursAtTop op .outside depth (text ++ rest) = occursAtTop op .outside depth rest

/-- A quotation mark or a bracket. -/
def isEnclosing (c : Char) : Bool := ['"', '(', '[', '\x7b', '<', ')', ']', '\x7d', '>'].contains c

variable {op c opening closing : Char} {least : Int} {a b text : List Char}

theorem occursAtTop_cons (h : isEnclosing c = false) (depth : Int) (rest : List Char) :
    occursAtTop op .outside depth (c :: rest) =
      if c = op ∧ depth = 0 then true else occursAtTop op .outside depth rest := by
  simp only [isEnclosing, List.contains_eq_mem, List.mem_cons, List.not_mem_nil, or_false,
    decide_eq_false_iff_not, not_or] at h
  simp [occursAtTop, h]

/-- An operator that no bracket is open at is found. -/
theorem occursAtTop_self (h : isEnclosing op = false) (rest : List Char) :
    occursAtTop op .outside 0 (op :: rest) = true := by
  rw [occursAtTop_cons h, if_pos ⟨rfl, rfl⟩]

namespace Passes

theorem nil : Passes op least [] := fun _ _ _ => rfl

theorem append (ha : Passes op least a) (hb : Passes op least b) : Passes op least (a ++ b) := by
  intro depth le rest
  rw [List.append_assoc, ha depth le, hb depth le]

theorem mono (h : Passes op least text) {more : Int} (le : least ≤ more) : Passes op more text :=
  fun depth le' => h depth (Int.le_trans le le')

/-- A text without quotation marks, brackets and, unless brackets are open, operators. -/
theorem plain (h : ∀ c ∈ text, isEnclosing c = false ∧ (c = op → 0 < least)) :
    Passes op least text := by
  induction text with
  | nil => exact nil
  | cons c text ih =>
    obtain ⟨⟨enclosing, notFound⟩, rest⟩ := List.forall_mem_cons.1 h
    intro depth le after
    rw [List.cons_append, occursAtTop_cons enclosing, if_neg ?_]
    · exact ih rest depth le after
    · rintro ⟨eq, rfl⟩
      have := notFound eq
      omega

/-- A text without quotation marks, brackets and operators. -/
theorem clear (h : text.all fun c => !isEnclosing c && c != op) : Passes op least text := by
  refine plain fun c hc => ?_
  have both := List.all_eq_true.1 h c hc
  simp only [Bool.and_eq_true, Bool.not_eq_true', bne_iff_ne] at both
  exact ⟨both.1, fun eq => absurd eq both.2⟩

/-- A text without quotation marks and brackets, where brackets are open. -/
theorem opened (h : text.all fun c => !isEnclosing c) (pos : 0 < least) : Passes op least text :=
  plain fun c hc => ⟨by simpa using List.all_eq_true.1 h c hc, fun _ => pos⟩

/-- A text between brackets. -/
theorem enclosed (first : opening = '(' ∨ opening = '[' ∨ opening = '\x7b' ∨ opening = '<')
    (last : closing = ')' ∨ closing = ']' ∨ closing = '\x7d' ∨ closing = '>')
    (h : Passes op (least + 1) text) : Passes op least (opening :: (text ++ [closing])) := by
  have notQuote : opening ≠ '"' ∧ closing ≠ '"' := by
    constructor
    · rcases first with rfl | rfl | rfl | rfl <;> decide
    · rcases last with rfl | rfl | rfl | rfl <;> decide
  have notOpening : ¬(closing = '(' ∨ closing = '[' ∨ closing = '\x7b' ∨ closing = '<') := by
    rcases last with rfl | rfl | rfl | rfl <;> decide
  intro depth le rest
  rw [List.cons_append, List.append_assoc, occursAtTop, if_neg notQuote.1, if_pos first,
    h (depth + 1) (by omega), List.singleton_append, occursAtTop, if_neg notQuote.2,
    if_neg notOpening, if_pos last, Int.add_sub_cancel]

theorem quote (s : String) : Passes op least (quote s).toList := by
  have inside : ∀ {body : List Char}, LiteralBody '"' body → ∀ depth rest,
      occursAtTop op .inside depth (body ++ '"' :: rest) = occursAtTop op .outside depth rest := by
    intro body h depth rest
    induction h with
    | nil => simp [occursAtTop]
    | plain ne noEscape _ ih => simp [occursAtTop, ne, noEscape, ih]
    | escape c _ ih => simp [occursAtTop, ih]
  intro depth _ rest
  rw [toList_quote, List.cons_append, List.append_assoc, occursAtTop, if_pos rfl]
  exact inside (.quoted s.toList) depth rest

theorem hasTopLevel_eq_false (h : Passes op 0 text) : occursAtTop op .outside 0 text = false := by
  have whole := h 0 (Int.le_refl 0) []
  rw [List.append_nil] at whole
  rw [whole, occursAtTop]

end Passes

/-! ## Joined texts -/

/-- A text of pieces with `sep` between each two of them, one at least; `R` tells what each piece
stands for. -/
inductive Joined {α : Type} (sep : List Char) (R : List Char → α → Prop) :
    List Char → List α → Prop where
  | one {text : List Char} {x : α} (h : R text x) : Joined sep R text [x]
  | cons {text more : List Char} {x : α} {xs : List α} (h : R text x) (rest : Joined sep R more xs) :
      Joined sep R (text ++ (sep ++ more)) (x :: xs)

namespace Joined

variable {α : Type} {sep : List Char} {R : List Char → α → Prop} {x y : α} {xs ys : List α}

theorem ne_nil (h : Joined sep R text xs) : xs ≠ [] := by
  cases h <;> exact List.cons_ne_nil _ _

theorem ne_nil_of_forall₂ {texts : List (List Char)} {xss : List (List α)}
    (h : List.Forall₂ (Joined sep R) texts xss) : ∀ xs ∈ xss, xs ≠ [] := by
  induction h with
  | nil => simp
  | cons h _ ih => exact List.forall_mem_cons.2 ⟨h.ne_nil, ih⟩

theorem append (ha : Joined sep R a xs) (hb : Joined sep R b ys) :
    Joined sep R (a ++ (sep ++ b)) (xs ++ ys) := by
  induction ha with
  | one h => exact .cons h hb
  | cons h _ ih =>
    rw [List.append_assoc, List.append_assoc]
    exact .cons h ih

/-- Joined texts that are joined. -/
theorem flatten {texts : List (List Char)} {xss : List (List α)}
    (h : List.Forall₂ (Joined sep R) texts xss) (nonempty : texts ≠ []) :
    Joined sep R (sep.intercalate texts) xss.flatten := by
  induction h with
  | nil => exact absurd rfl nonempty
  | @cons text xs texts xss first rest ih =>
    cases rest with
    | nil => simpa using first
    | cons =>
      rw [List.intercalate_cons_cons, List.flatten_cons, List.append_assoc]
      exact first.append (ih (List.cons_ne_nil _ _))

theorem of_forall₂ {texts : List (List Char)} (h : List.Forall₂ R texts xs)
    (nonempty : texts ≠ []) : Joined sep R (sep.intercalate texts) xs := by
  have single : List.Forall₂ (Joined sep R) texts (xs.map fun x => [x]) := by
    rw [List.forall₂_map_right_iff]
    exact h.imp fun _ _ => .one
  have joined := flatten single nonempty
  rwa [← List.flatMap_def, List.flatMap_singleton'] at joined

theorem passes (piece : ∀ text x, R text x → Passes op least text) (between : Passes op least sep)
    (h : Joined sep R text xs) : Passes op least text := by
  induction h with
  | one h => exact piece _ _ h
  | cons h _ ih => exact (piece _ _ h).append (between.append ih)

/-- The operator between two pieces is found. -/
theorem occursAtTop_cons_cons (plain : isEnclosing op = false) (notBlank : op ≠ ' ')
    (piece : ∀ text x, R text x → Passes op 0 text)
    (h : Joined [' ', op, ' '] R text (x :: y :: ys)) : occursAtTop op .outside 0 text = true := by
  cases h with
  | cons h _ =>
    rw [piece _ _ h 0 (Int.le_refl 0), List.cons_append, occursAtTop_cons (by decide),
      if_neg fun eq => notBlank eq.1.symm]
    exact occursAtTop_self plain _

end Joined

end SchemaCompiler.TypeText
