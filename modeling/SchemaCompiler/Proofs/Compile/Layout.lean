import SchemaCompiler.Proofs.Compile.Preserved
import SchemaCompiler.Proofs.Validator.Expression

/-!
# Compiled code is made of expressions

All ways of making validators write expressions. In particular their code is laid out: what they
write themselves is flat, and lines are only begun by the object literals of objects and of given
values.
-/

namespace SchemaCompiler

variable {IsName IsPattern : String → Prop}

namespace Expression

variable {code a b symbol argument : String}

/-! ## Pieces -/

theorem number (n : Number) : Expression IsName IsPattern n.text :=
  .bare (bare_number n) fun empty => n.toList_text_ne_nil (by rw [empty]; rfl)

theorem count (n : Nat) : Expression IsName IsPattern (toString n) := by
  refine .bare (bare_of_spelled (spelled_toString n)) fun empty => ?_
  have digits : Nat.toDigits 10 n = [] := by
    rw [← Nat.toList_repr, ← Nat.toString_eq_repr, empty]
    rfl
  exact Nat.toDigits_ne_nil digits

theorem text_of_isPlain {v : Json} (h : v.isPlain) : Expression IsName IsPattern v.text := by
  cases v with
  | bool b => cases b <;> exact .bare (by decide) (by decide)
  | number n => exact number n
  | null | string | array | object => cases h

/-! ## Calls -/

theorem nullary (name : Spelled symbol) :
    Expression IsName IsPattern (SchemaCompiler.call symbol "") := by
  have nothing : ∀ code ∈ ([] : List String), Expression IsName IsPattern code := nofun
  exact .call name nothing

theorem unary (name : Spelled symbol) (h : Expression IsName IsPattern argument) :
    Expression IsName IsPattern (SchemaCompiler.call symbol argument) := by
  have call := Expression.call name (List.forall_mem_singleton.2 h)
  rwa [String.intercalate_singleton] at call

theorem binary (name : Spelled symbol) (ha : Expression IsName IsPattern a)
    (hb : Expression IsName IsPattern b) :
    Expression IsName IsPattern (SchemaCompiler.call symbol (a ++ ", " ++ b)) := by
  have call := Expression.call name (List.forall_mem_cons.2 ⟨ha, List.forall_mem_singleton.2 hb⟩)
  rwa [String.intercalate_cons_cons, String.intercalate_singleton] at call

theorem callWithList {codes : List String} (name : Spelled symbol)
    (h : ∀ code ∈ codes, Expression IsName IsPattern code) :
    Expression IsName IsPattern (callWithList symbol codes) := unary name (.list h)

theorem objectLiteral {α : Type} {xs : List α} (key code : α → String)
    (h : ∀ x ∈ xs, Expression IsName IsPattern (code x)) :
    Expression IsName IsPattern
      (objectLiteral (xs.map fun x => (SchemaCompiler.quote (key x), code x))) := by
  have entries : ∀ e ∈ xs.map fun x => (key x, code x), Expression IsName IsPattern e.2 := by
    intro e he
    obtain ⟨x, hx, rfl⟩ := List.mem_map.1 he
    exact h x hx
  have literal := Expression.object entries
  rwa [List.map_map] at literal

end Expression

/-! ## Actions -/

/-- The code of actions is made of expressions. -/
def ExpressionActions (IsName IsPattern : String → Prop) (actions : List Action) : Prop :=
  ∀ a ∈ actions, Expression IsName IsPattern a.code

theorem ExpressionActions.append {as bs : List Action} (ha : ExpressionActions IsName IsPattern as)
    (hb : ExpressionActions IsName IsPattern bs) :
    ExpressionActions IsName IsPattern (as ++ bs) := by
  intro a h
  exact (List.mem_append.1 h).elim (ha a) (hb a)

theorem expressionActions_actionFor {α : Type} {symbol : String} {argument : α → String}
    {keyword : Option α} (name : Spelled symbol)
    (h : ∀ x ∈ keyword, Expression IsName IsPattern (argument x)) :
    ExpressionActions IsName IsPattern (actionFor symbol argument keyword) := by
  intro a mem
  cases keyword with
  | none => cases mem
  | some x =>
    obtain rfl := List.mem_singleton.1 mem
    exact .unary name (h x rfl)

namespace Keywords

variable {S : Type} (k : Keywords S)

theorem expressionActions_stringActions (patterns : ∀ s ∈ k.pattern, IsPattern s) :
    ExpressionActions IsName IsPattern k.stringActions := by
  refine ((ExpressionActions.append ?_ ?_).append ?_).append ?_
  · exact expressionActions_actionFor (by decide) fun n _ => .count n
  · exact expressionActions_actionFor (by decide) fun n _ => .count n
  · refine expressionActions_actionFor (by decide) fun s hs => .pattern (patterns s ?_)
    exact (Option.filter_eq_some_iff.1 hs).1
  · intro a mem
    cases format : k.format.bind formatSymbol? with
    | none => simp [format] at mem
    | some symbol =>
      obtain rfl : a = ⟨symbol, ""⟩ := by simpa [format] using mem
      obtain ⟨name, _, known⟩ := Option.bind_eq_some_iff.1 format
      exact .nullary (spelled_formatSymbol known)

theorem expressionActions_boundActions {inclusive exclusive : String} (hi : Spelled inclusive)
    (he : Spelled exclusive) (bound : Option Number) (exclusiveBound : Option ExclusiveBound) :
    ExpressionActions IsName IsPattern (boundActions inclusive exclusive bound exclusiveBound) :=
  (expressionActions_actionFor (he.ite hi) fun n _ => .number n).append
    (expressionActions_actionFor he fun n _ => .number n)

theorem expressionActions_numberActions (integer : Bool) :
    ExpressionActions IsName IsPattern (k.numberActions integer) := by
  refine ((ExpressionActions.append ?_ ?_).append ?_).append ?_
  · intro a mem
    cases integer with
    | false => simp at mem
    | true =>
      obtain rfl : a = ⟨"integer", ""⟩ := by simpa using mem
      exact .nullary (by decide)
  · exact expressionActions_boundActions (by decide) (by decide) _ _
  · exact expressionActions_boundActions (by decide) (by decide) _ _
  · exact expressionActions_actionFor (by decide) fun n _ => .number n

theorem expression_uniqueCheck : Expression IsName IsPattern uniqueCheck.code := by
  have message : uniqueCheck.argument = "(input) => new Set(input).size === input.length" ++ ", " ++
      quote "Items must be unique" := by decide
  rw [Action.code, message]
  exact .binary (by decide) .distinct (.string _)

theorem expressionActions_arrayActions :
    ExpressionActions IsName IsPattern k.arrayActions := by
  refine (ExpressionActions.append ?_ ?_).append ?_
  · exact expressionActions_actionFor (by decide) fun n _ => .count n
  · exact expressionActions_actionFor (by decide) fun n _ => .count n
  · intro a mem
    split at mem
    · obtain rfl := List.mem_singleton.1 mem
      exact expression_uniqueCheck
    · cases mem

end Keywords

/-! ## Validators -/

namespace Validator

variable {r : Validator} {rs : List Validator} {symbol : String}

theorem expression_any : Expression IsName IsPattern Validator.any.code := .nullary (by decide)

theorem expression_never : Expression IsName IsPattern never.code := .nullary (by decide)

theorem expression_pipe (h : Expression IsName IsPattern r.code) {actions : List Action}
    (ha : ExpressionActions IsName IsPattern actions) :
    Expression IsName IsPattern (r.pipe actions).code := by
  unfold pipe
  split
  · exact h
  · refine .call (by decide) (List.forall_mem_cons.2 ⟨h, fun code hc => ?_⟩)
    obtain ⟨a, mem, rfl⟩ := List.mem_map.1 hc
    exact ha a mem

theorem expression_not (h : Expression IsName IsPattern r.code) :
    Expression IsName IsPattern (not r).code := by
  have input : Expression IsName IsPattern "input" := .bare (by decide) (by decide)
  have is : Expression IsName IsPattern (call "is" (r.code ++ ", " ++ "input")) :=
    .binary (by decide) h input
  have negation : Expression IsName IsPattern
      ("(input) => !" ++ call "is" (r.code ++ ", " ++ "input")) := .function (by decide) is
  have parameter : ", input" = ", " ++ "input" := rfl
  have message : ", \"Value must not match the specified schema\"" =
      ", " ++ quote "Value must not match the specified schema" := by decide
  show Expression _ _ (call "custom" _)
  rw [message, parameter, ← String.append_assoc, ← String.append_assoc]
  exact .binary (by decide) negation (.string _)

/-! ### Objects -/

theorem expression_property {p : Property} (h : Expression IsName IsPattern p.value.code) :
    Expression IsName IsPattern p.code := by
  unfold Property.code
  split
  · exact h
  · exact .unary (by decide) h

theorem expression_object {properties : List Property} {rest : Rest}
    (h : ∀ p ∈ properties, Expression IsName IsPattern p.value.code)
    (hr : ∀ extra, rest = .constrained extra → Expression IsName IsPattern extra.code) :
    Expression IsName IsPattern (object properties rest).code := by
  have literal := Expression.objectLiteral Property.name Property.code
    fun p hp => expression_property (h p hp)
  unfold object
  cases rest with
  | free declared => exact .unary (by decide) literal
  | closed => exact .unary (by decide) literal
  | constrained extra =>
    have keys : Expression IsName IsPattern "v.string()" :=
      .nullary (by decide : Spelled "string")
    have arguments : "v.string(), " = "v.string()" ++ ", " := by decide
    simp only [arguments]
    split
    · exact .binary (by decide) keys (hr extra rfl)
    · exact .binary (by decide) literal (hr extra rfl)

/-! ### Several validators -/

theorem expression_ofMembers (name : Spelled symbol) (type : List String → String)
    (h : ∀ r ∈ rs, Expression IsName IsPattern r.code) :
    Expression IsName IsPattern (ofMembers symbol type rs).code := by
  refine .callWithList name fun code hc => ?_
  obtain ⟨r, hr, rfl⟩ := List.mem_map.1 hc
  exact h r hr

theorem expression_union (h : ∀ r ∈ rs, Expression IsName IsPattern r.code) :
    Expression IsName IsPattern (union rs).code := by
  have kept : ∀ r ∈ distinctByCode rs, Expression IsName IsPattern r.code := fun r hr =>
    h r (distinctByCode_subset rs hr)
  unfold union
  generalize distinctByCode rs = distinct at kept
  split
  · exact expression_any
  next only => exact kept only (by simp)
  · exact expression_ofMembers (by decide) _ kept

theorem expression_anyOf (h : ∀ r ∈ rs, Expression IsName IsPattern r.code) :
    Expression IsName IsPattern (anyOf rs).code := by
  unfold anyOf
  simp only
  split
  · exact expression_never
  · exact expression_union fun r hr => h r (List.mem_filter.1 hr).1

theorem expression_allOf (objectShaped : Bool)
    (h : ∀ r ∈ rs, Expression IsName IsPattern r.code) :
    Expression IsName IsPattern (allOf objectShaped rs).code := by
  unfold allOf
  split
  · exact expression_ofMembers (by decide) _ h
  split
  · exact expression_never
  split
  · exact expression_any
  next first found => exact h first (List.mem_of_find?_eq_some found)

/-! ### Given values -/

theorem expression_const (v : Json) : Expression IsName IsPattern (const v).code := by
  induction size : sizeOf v using Nat.strongRecOn generalizing v with
  | _ n ih =>
  subst size
  cases v with
  | null => exact .nullary (by decide)
  | bool | number => exact .unary (by decide) (.text_of_isPlain rfl)
  | string s => exact .unary (by decide) (.string s)
  | array elements =>
    refine .callWithList (by decide) fun code hc => ?_
    obtain ⟨r, hr, rfl⟩ := List.mem_map.1 hc
    rw [consts_eq_map] at hr
    obtain ⟨x, hx, rfl⟩ := List.mem_map.1 hr
    have smaller := List.sizeOf_lt_of_mem hx
    refine ih _ ?_ x rfl
    simp
    omega
  | object members =>
    have values : ∀ m ∈ members, Expression IsName IsPattern (const m.2).code := by
      intro m hm
      have smaller := List.sizeOf_lt_of_mem hm
      obtain ⟨name, value⟩ := m
      refine ih _ ?_ value rfl
      simp at smaller ⊢
      omega
    have literal := Expression.objectLiteral Prod.fst (fun m => (const m.2).code) values
    rw [code_const]
    exact .unary (by decide : Spelled "strictObject") literal

theorem expression_enum (values : List Json) :
    Expression IsName IsPattern (enum values).code := by
  unfold enum
  split
  · exact expression_any
  · exact expression_const _
  split
  next scalars =>
    refine .callWithList (by decide) fun code hc => ?_
    obtain ⟨x, hx, rfl⟩ := List.mem_map.1 hc
    have scalar := List.all_eq_true.1 scalars x hx
    cases x with
    | string s => exact .string s
    | number n => exact .number n
    | null | bool | array | object => cases scalar
  next =>
    refine expression_union fun r hr => ?_
    obtain ⟨v, _, rfl⟩ := List.mem_map.1 hr
    exact expression_const v

/-- The ways of making validators write expressions. -/
theorem preserved_expression :
    Preserved fun r => Expression IsName (fun _ => True) r.code where
  any := expression_any
  never := expression_never
  string k := expression_pipe (.nullary (by decide))
    (k.expressionActions_stringActions fun _ _ => trivial)
  number k integer :=
    expression_pipe (.nullary (by decide)) (k.expressionActions_numberActions integer)
  boolean := .nullary (by decide)
  null := .nullary (by decide)
  array k _ h := expression_pipe (.unary (by decide) h) k.expressionActions_arrayActions
  object h hr := expression_object h hr
  union h := expression_union h
  anyOf h := expression_anyOf h
  not h := expression_not h
  nullable h := .unary (by decide) h
  const v := expression_const v
  enum values := expression_enum values

/-! ### Layout -/

theorem laidOut_property {p : Property} (h : LaidOut p.value.code) : LaidOut p.code := by
  unfold Property.code
  split
  · exact h
  · exact h.call (by decide)

theorem laidOut_const (v : Json) : LaidOut (const v).code := by
  have expression : Expression (fun _ => False) (fun _ => False) (const v).code :=
    expression_const v
  exact expression.laidOut nofun

end Validator

end SchemaCompiler
