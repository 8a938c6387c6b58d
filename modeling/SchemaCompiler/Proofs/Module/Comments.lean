import SchemaCompiler.Convert
import SchemaCompiler.Proofs.Text.Comment

/-!
# Modules with and without comments

The text of a module is put together from parts (`Compilation.parts`), which are the same whether
descriptions are emitted or not. Each part is whole lines; if descriptions are emitted, the comment
block of a description stands before the part that it describes (`text_module`). Nothing else in a
conversion depends on it, and a block ends where it should, whatever the description is
(`comments_apart`).
-/

namespace SchemaCompiler

variable {defs : List Definition}

/-- The text of a block without its description. -/
def statementsText (b : Block) : String :=
  String.join (b.statements.map (Statement.text b.exported))

/-- The parts of a module's text without comments, each with the description of what is declared in
it, if it has one. -/
def Compilation.parts (c : Compilation defs) (o : Options) (schema : Schema) :
    List (Option String × String) :=
  let m := c.module o schema
  (none, Module.header o.style) ::
    (c.run.table.finished.map fun f => ((defs.get f.1).schema.description?,
      statementsText (definitionBlock o c.run.table f.1 f.2) ++ "\n")) ++
    [(schema.description?, statementsText m.root),
      (none, (m.rootType.map fun b => "\n" ++ statementsText b).getD ""),
      (none, Module.footer o.style m.exports)]

/-- The comment block of a description, if there is one and descriptions are emitted. -/
def commentText (emitted : Bool) (description : Option String) : String :=
  ((if emitted then description else none).map commentBlock).getD ""

theorem commentText_none (emitted : Bool) : commentText emitted none = "" := by
  cases emitted <;> rfl

/-- Whatever is emitted, a module has the same parts, and in front of each the comment block that it
has then. -/
theorem text_module (c : Compilation defs) (o : Options) (schema : Schema) (emitted : Bool) :
    (c.module { o with withComments := emitted } schema).text =
      String.join ((c.parts o schema).map fun part => commentText emitted part.1 ++ part.2) := by
  have definitions : (c.module { o with withComments := emitted } schema).definitions.map
      (fun block => block.text ++ "\n") = c.run.table.finished.map fun f =>
        commentText emitted (defs.get f.1).schema.description? ++
          (statementsText (definitionBlock o c.run.table f.1 f.2) ++ "\n") := by
    refine (List.map_map ..).trans (List.map_congr_left fun f _ => ?_)
    exact String.append_assoc ..
  have rootType : ((c.module { o with withComments := emitted } schema).rootType.map
      fun block => "\n" ++ block.text).getD "" =
        ((c.module o schema).rootType.map fun block => "\n" ++ statementsText block).getD "" := by
    unfold Compilation.module
    cases o.withTypes
    · rfl
    · exact congrArg ("\n" ++ ·) String.empty_append
  have root : (c.module { o with withComments := emitted } schema).root.text =
      commentText emitted schema.description? ++ statementsText (c.module o schema).root := rfl
  unfold Compilation.parts
  rw [Module.text, definitions, rootType, root]
  simp only [List.map_append, List.map_cons, List.map_nil, List.map_map, String.join_append,
    String.join_cons, String.join_nil, commentText_none, String.empty_append, String.append_empty,
    String.append_assoc]
  rfl

/-! ## Parts are whole lines -/

/-- A text up to the end of a line. -/
def EndsLine (text : String) : Prop := ∃ t, text = t ++ "\n"

theorem EndsLine.append {text : String} (h : EndsLine text) (before : String) :
    EndsLine (before ++ text) := by
  obtain ⟨t, rfl⟩ := h
  exact ⟨before ++ t, (String.append_assoc ..).symm⟩

theorem endsLine_newline : EndsLine "\n" := ⟨"", rfl⟩

theorem endsLine_semicolon : EndsLine ";\n" := ⟨";", rfl⟩

theorem endsLine_text (exported : Bool) (s : Statement) : EndsLine (s.text exported) := by
  refine EndsLine.append ?_ _
  rcases s with ⟨name, type⟩ | ⟨name, _ | declaredType, code⟩ <;> exact endsLine_semicolon.append _

theorem endsLine_statementsText {b : Block} {s : Statement} (h : b.statements = [s]) :
    EndsLine (statementsText b) := by
  rw [statementsText, h, List.map_singleton, String.join_cons, String.join_nil, String.append_empty]
  exact endsLine_text b.exported s

theorem wholeLines_of_mem_parts {c : Compilation defs} {o : Options} {schema : Schema}
    {part : Option String × String} (h : part ∈ c.parts o schema) :
    part.2 = "" ∨ EndsLine part.2 := by
  unfold Compilation.parts at h
  simp only [List.cons_append, List.mem_cons, List.mem_append, List.mem_map, List.not_mem_nil,
    or_false] at h
  obtain rfl | ⟨f, -, rfl⟩ | rfl | rfl | rfl := h
  · cases o.style with
    | esm => exact .inr ⟨"import * as v from 'valibot';\n", rfl⟩
    | cjs => exact .inr ⟨"const v = require('valibot');\n", rfl⟩
    | none => exact .inl rfl
  · exact .inr (endsLine_newline.append _)
  · exact .inr (endsLine_statementsText rfl)
  · unfold Compilation.module
    cases o.withTypes
    · exact .inl rfl
    · exact .inr ((endsLine_statementsText rfl).append _)
  · unfold Module.footer
    cases o.style with
    | cjs =>
      have close : EndsLine " \x7d;\n" := ⟨" \x7d;", rfl⟩
      exact .inr (close.append _)
    | esm | none => exact .inl rfl

/-- Whatever the description is, its block is the start of a comment, a line for each line of the
description, in which comment ends are broken up, and the end of the comment, which is the only one
in it. So for every schema and all options the modules with and without comments have the same
parts, each of them whole lines, and differ in the blocks before the parts that have a description:
the finished definitions and the root schema. The rest of the conversion is the same. -/
theorem comments_apart (schema : Schema) (o : Options) :
    (∀ description : String, let text := (commentBlock description).toList
      "/**".toList <+: text ∧
      splitAt '\n' text =
        "/**".toList :: (textLines description.toList).map lineText ++ [" */".toList, []] ∧
      ∃ inside, ∀ before after,
        text = before ++ '*' :: '/' :: after ↔ before = inside ∧ after = ['\n']) ∧
    let names := (schema.definitions o.reserved).2
    let c := compileRoot (schema.definitions o.reserved).1 names o.maxDepth schema
    let parts := c.parts o schema
    let described := convert schema { o with withComments := true }
    let plain := convert schema { o with withComments := false }
    described.imports = plain.imports ∧ described.diagnostics = plain.diagnostics ∧
    plain.code = String.join (parts.map (·.2)) ∧
    described.code =
      String.join (parts.map fun part => (part.1.map commentBlock).getD "" ++ part.2) ∧
    parts.map (·.1) = none ::
      (c.run.table.finished.map fun f =>
        ((schema.definitions o.reserved).1.get f.1).schema.description?) ++
      [schema.description?, none, none] ∧
    ∀ part ∈ parts, part.2 = "" ∨ EndsLine part.2 := by
  refine ⟨fun description => ⟨?_, splitAt_commentBlock description, _, fun _ _ => commentEnd_iff⟩,
    ?_⟩
  · rw [toList_commentBlock, List.append_assoc, List.append_assoc]
    exact (by decide : "/**".toList <+: "/**\n".toList).trans (List.prefix_append _ _)
  · intro names c parts described plain
    refine ⟨rfl, rfl, ?_, text_module c o schema true, ?_, fun _ => wholeLines_of_mem_parts⟩
    · refine (text_module c o schema false).trans (congrArg String.join ?_)
      exact List.map_congr_left fun _ _ => String.empty_append
    · simp only [parts, Compilation.parts, List.map_append, List.map_cons, List.map_map,
        List.map_nil]
      rfl

end SchemaCompiler
