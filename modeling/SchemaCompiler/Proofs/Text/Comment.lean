import Mathlib.Data.List.Chain
import SchemaCompiler.Proofs.Text.Split
import SchemaCompiler.Text.Comment

/-!
# Comments that end where they should

The end of a comment is a star and a slash next to each other. In a comment block there is no such
pair of neighbours but at its end: not inside a line, where a backslash has been put between them
(`escapeCommentEnd_eq`), and not where lines meet, since each begins with a space
(`commentEnd_iff`). Cut into lines, the block gives back a line for each line of the description
(`splitAt_commentBlock`).
-/

namespace SchemaCompiler

/-! ## Lines -/

/-- Put a backslash after each star that has a slash as its neighbour. -/
def guardCommentEnd (line : List Char) : List Char :=
  (List.zipWith (fun c next => if c = '*' ∧ next = some '/' then ['*', '\\'] else [c]) line
    (line.tail.map some ++ [none])).flatten

theorem guardCommentEnd_cons (c : Char) (cs : List Char) : guardCommentEnd (c :: cs) =
    (if c = '*' ∧ cs.head? = some '/' then ['*', '\\'] else [c]) ++ guardCommentEnd cs := by
  cases cs <;> rfl

theorem escapeCommentEnd_eq (line : List Char) : escapeCommentEnd line = guardCommentEnd line := by
  fun_induction escapeCommentEnd line with
  | case1 => rfl
  | case2 cs ih => rw [guardCommentEnd_cons, guardCommentEnd_cons, ih]; rfl
  | case3 c cs pair ih =>
    have alone : ¬ (c = '*' ∧ cs.head? = some '/') := by
      rintro ⟨star, slash⟩
      obtain ⟨rest, rfl⟩ := List.head?_eq_some_iff.1 slash
      exact pair rest star rfl
    rw [guardCommentEnd_cons, if_neg alone, ih]
    rfl

theorem head?_escapeCommentEnd (line : List Char) :
    (escapeCommentEnd line).head? = line.head? := by
  fun_cases escapeCommentEnd line <;> rfl

theorem mem_of_mem_escapeCommentEnd {c : Char} {line : List Char} (other : c ≠ '\\')
    (h : c ∈ escapeCommentEnd line) : c ∈ line := by
  fun_induction escapeCommentEnd line with
  | case1 => exact h
  | case2 cs ih =>
    simp only [List.mem_cons, other, false_or] at h ⊢
    exact h.imp_right (Or.imp_right ih)
  | case3 d cs pair ih =>
    rw [List.mem_cons] at h ⊢
    exact h.imp_right ih

/-! ## Neighbours -/

/-- Neighbours that do not end a comment. -/
def Apart (c d : Char) : Prop := ¬ (c = '*' ∧ d = '/')

instance (c d : Char) : Decidable (Apart c d) := inferInstanceAs (Decidable (¬ _))

theorem apart_left {c : Char} (h : c ≠ '*') (d : Char) : Apart c d := fun both => h both.1

theorem apart_right {d : Char} (h : d ≠ '/') (c : Char) : Apart c d := fun both => h both.2

theorem isChain_escapeCommentEnd (line : List Char) : (escapeCommentEnd line).IsChain Apart := by
  fun_induction escapeCommentEnd line with
  | case1 => exact .nil
  | case2 cs ih =>
    refine .cons_cons (apart_right (by decide) _) (.cons_cons (apart_left (by decide) _) ?_)
    exact List.isChain_cons.2 ⟨fun d _ => apart_left (by decide) d, ih⟩
  | case3 c cs pair ih =>
    refine List.isChain_cons.2 ⟨fun d head => ?_, ih⟩
    rw [head?_escapeCommentEnd] at head
    obtain ⟨rest, rfl⟩ := List.head?_eq_some_iff.1 head
    rintro ⟨star, rfl⟩
    exact pair rest star rfl

/-- Each line of a block begins with a space and has no comment end in it. -/
theorem isChain_commentLine (line : List Char) :
    (commentLine line).IsChain Apart ∧ (commentLine line).head? = some ' ' := by
  unfold commentLine
  split
  next => exact ⟨by decide, rfl⟩
  next =>
    have inner : (' ' :: escapeCommentEnd line).IsChain Apart :=
      List.isChain_cons.2 ⟨fun d _ => apart_left (by decide) d, isChain_escapeCommentEnd line⟩
    have start : (' ' :: '*' :: ' ' :: escapeCommentEnd line).IsChain Apart :=
      .cons_cons (apart_left (by decide) _) (.cons_cons (apart_right (by decide) _) inner)
    refine ⟨List.isChain_append.2 ⟨start, .singleton _, fun c _ d head => ?_⟩, rfl⟩
    obtain rfl : '\n' = d := Option.some.inj head
    exact apart_right (by decide) c

/-- No comment ends in a block before the slash at its end. -/
theorem isChain_commentLines (lines : List (List Char)) :
    (lines.flatMap commentLine ++ [' ', '*']).IsChain Apart := by
  induction lines with
  | nil => decide
  | cons line lines ih =>
    rw [List.flatMap_cons, List.append_assoc, List.isChain_append]
    refine ⟨(isChain_commentLine line).1, ih, fun c _ d head => ?_⟩
    have space : (lines.flatMap commentLine ++ [' ', '*']).head? = some ' ' := by
      cases lines with
      | nil => rfl
      | cons line lines =>
        rw [List.flatMap_cons, List.append_assoc, List.head?_append, (isChain_commentLine line).2]
        rfl
    obtain rfl : ' ' = d := Option.some.inj (space.symm.trans head)
    exact apart_right (by decide) c

/-- A comment end with no other before it is the only one in front of a line end. -/
theorem after_eq_of_isChain {text before after : List Char} (h : (text ++ ['*']).IsChain Apart)
    (same : text ++ ['*', '/', '\n'] = before ++ '*' :: '/' :: after) : after = ['\n'] := by
  obtain ⟨between, rfl, tail⟩ | ⟨between, rfl, tail⟩ := List.append_eq_append_iff.1 same
  · rcases between with _ | ⟨c, _ | ⟨d, _ | ⟨e, between⟩⟩⟩ <;> simp at tail
    exact tail.symm
  · rcases between with _ | ⟨c, _ | ⟨d, between⟩⟩
    · exact (List.cons.inj (List.cons.inj tail).2).2
    · cases (List.cons.inj (List.cons.inj tail).2).1
    · -- Then the other comment end lies in the text.
      have star : c = '*' := (List.cons.inj tail).1.symm
      have slash : d = '/' := (List.cons.inj (List.cons.inj tail).2).1.symm
      rw [List.append_assoc, List.cons_append, List.cons_append,
        List.isChain_append_cons_cons] at h
      exact absurd ⟨star, slash⟩ h.2.1

/-! ## Blocks -/

theorem toList_commentBlock (description : String) : (commentBlock description).toList =
    "/**\n".toList ++ (textLines description.toList).flatMap commentLine ++ [' '] ++
      ['*', '/', '\n'] := by
  simp only [commentBlock, String.toList_append, String.toList_ofList, List.append_assoc]
  rfl

/-- There is one comment end in a block, at the end of its last line. -/
theorem commentEnd_iff {description : String} {before after : List Char} :
    (commentBlock description).toList = before ++ '*' :: '/' :: after ↔
      before = "/**\n".toList ++ (textLines description.toList).flatMap commentLine ++ [' '] ∧
        after = ['\n'] := by
  have inside : ("/**\n".toList ++
      ((textLines description.toList).flatMap commentLine ++ ([' '] ++ ['*']))).IsChain Apart := by
    refine List.isChain_append.2 ⟨by decide, isChain_commentLines _, fun c last d _ => ?_⟩
    obtain rfl : '\n' = c := Option.some.inj last
    exact apart_left (by decide) d
  rw [toList_commentBlock]
  constructor
  · intro h
    obtain rfl := after_eq_of_isChain (by simpa only [List.append_assoc] using inside) h
    exact ⟨(List.append_cancel_right h).symm, rfl⟩
  · rintro ⟨rfl, rfl⟩
    rfl

/-- The line for a line of the description. -/
def lineText (line : List Char) : List Char :=
  if line = [] then [' ', '*'] else [' ', '*', ' '] ++ guardCommentEnd line

theorem commentLine_eq (line : List Char) : commentLine line = lineText line ++ ['\n'] := by
  unfold commentLine lineText
  rw [escapeCommentEnd_eq]
  cases line <;> rfl

theorem newline_not_mem_lineText {line : List Char} (h : '\n' ∉ line) : '\n' ∉ lineText line := by
  unfold lineText
  split
  next => decide
  next =>
    rw [← escapeCommentEnd_eq, List.mem_append, not_or]
    exact ⟨by decide, fun mem => h (mem_of_mem_escapeCommentEnd (by decide) mem)⟩

/-- The lines of a block: its start, a line for each line of the description, and its end. -/
theorem splitAt_commentBlock (description : String) :
    splitAt '\n' (commentBlock description).toList =
      "/**".toList :: (textLines description.toList).map lineText ++ [" */".toList, []] := by
  have terminated : (commentBlock description).toList =
      ("/**".toList :: (textLines description.toList).map lineText ++
        [" */".toList]).flatMap (· ++ ['\n']) ++ [] := by
    rw [toList_commentBlock]
    simp only [List.flatMap_append, List.flatMap_cons, List.flatMap_map, List.flatMap_nil,
      ← commentLine_eq, List.append_nil, List.append_assoc, List.cons_append]
    rfl
  rw [terminated, splitAt_terminated ?_, List.append_assoc]
  · rfl
  · intro part mem
    obtain mem | mem := List.mem_append.1 mem
    · obtain rfl | mem := List.mem_cons.1 mem
      · decide
      · obtain ⟨line, hline, rfl⟩ := List.mem_map.1 mem
        exact newline_not_mem_lineText (newline_not_mem_textLines _ line hline)
    · obtain rfl := List.mem_singleton.1 mem
      decide

example : commentBlock "a */ b\n\n/**/" = "/**\n * a *\\/ b\n *\n * /**\\/\n */\n" := by
  decide +kernel

end SchemaCompiler
