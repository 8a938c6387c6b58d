import Mathlib.Data.List.Basic
import SchemaCompiler.Text.Split

/-!
# Parts and lines of a text

A text that is put together from parts without the separator, and a separator before or after each
of them, is cut into these parts again. Lines have no line feed in them.
-/

namespace SchemaCompiler

variable {separator : Char} {part : List Char} {parts : List (List Char)}

theorem splitAt_of_not_mem (h : separator ∉ part) : splitAt separator part = [part] := by
  induction part with
  | nil => rfl
  | cons c cs ih =>
    rw [List.mem_cons, not_or] at h
    rw [splitAt, if_neg (Ne.symm h.1), ih h.2]
    rfl

theorem splitAt_append_cons (h : separator ∉ part) (rest : List Char) :
    splitAt separator (part ++ separator :: rest) = part :: splitAt separator rest := by
  induction part with
  | nil => rw [List.nil_append, splitAt, if_pos rfl]
  | cons c cs ih =>
    rw [List.mem_cons, not_or] at h
    rw [List.cons_append, splitAt, if_neg (Ne.symm h.1), ih h.2]
    rfl

/-- A separator before each part but the first. -/
theorem splitAt_separated (first : separator ∉ part) (others : ∀ p ∈ parts, separator ∉ p) :
    splitAt separator (part ++ parts.flatMap (separator :: ·)) = part :: parts := by
  induction parts generalizing part with
  | nil =>
    rw [List.flatMap_nil, List.append_nil]
    exact splitAt_of_not_mem first
  | cons next parts ih =>
    obtain ⟨second, others⟩ := List.forall_mem_cons.1 others
    rw [List.flatMap_cons, List.cons_append, splitAt_append_cons first, ih second others]

/-- A separator after each part. -/
theorem splitAt_terminated (h : ∀ p ∈ parts, separator ∉ p) (rest : List Char) :
    splitAt separator (parts.flatMap (· ++ [separator]) ++ rest) =
      parts ++ splitAt separator rest := by
  induction parts with
  | nil => rfl
  | cons part parts ih =>
    obtain ⟨first, others⟩ := List.forall_mem_cons.1 h
    rw [List.flatMap_cons, List.append_assoc, List.append_assoc, List.singleton_append,
      splitAt_append_cons first, ih others, List.cons_append]

theorem mem_of_mem_onFirst {c d : Char} {line : List Char} {lines : List (List Char)}
    (h : line ∈ onFirst c lines) (hd : d ∈ line) : d = c ∨ ∃ l ∈ lines, d ∈ l := by
  cases lines with
  | nil =>
    obtain rfl := List.mem_singleton.1 h
    exact .inl (List.mem_singleton.1 hd)
  | cons first lines =>
    obtain rfl | h := List.mem_cons.1 h
    · exact (List.mem_cons.1 hd).imp_right fun hd => ⟨first, List.mem_cons_self, hd⟩
    · exact .inr ⟨line, List.mem_cons_of_mem _ h, hd⟩

theorem newline_not_mem_textLines (text : List Char) : ∀ line ∈ textLines text, '\n' ∉ line := by
  fun_induction textLines text with
  | case1 => exact List.forall_mem_nil _
  | case2 cs ih | case3 cs ih => exact List.forall_mem_cons.2 ⟨List.not_mem_nil, ih⟩
  | case4 c cs newline pair ih =>
    intro line hline mem
    obtain eq | ⟨l, hl, mem⟩ := mem_of_mem_onFirst hline mem
    · exact newline eq.symm
    · exact ih l hl mem

end SchemaCompiler
