import SchemaCompiler.Proofs.Validator.CalledSymbols
import SchemaCompiler.Proofs.Validator.Union
import SchemaCompiler.Validator.Compound

/-!
# Validators import what they call

`Validator.Accounted` says that the code of a validator calls only functions that are among its
imports, and, if `exact` holds, that it calls all of them. Each way of making validators keeps this,
since it adds a call to the code and its symbol to the imports side by side. Only a mixed `allOf`
drops code and keeps the imports, and is not exact.
-/

namespace SchemaCompiler

variable {exact : Prop} {r : Validator} {rs : List Validator} {symbol argument type : String}

namespace Validator

/-- The code of a validator calls only what it imports, and all of it if `exact` holds. -/
def Accounted (exact : Prop) (r : Validator) : Prop := Accounts exact r.code {s | s ∈ r.imports}

theorem accounted_iff :
    r.Accounted exact ↔
      EndsInCode r.code ∧ (∀ s ∈ calledSymbols r.code, s ∈ r.imports) ∧
        (exact → ∀ s ∈ r.imports, s ∈ calledSymbols r.code) := by
  constructor
  · rintro ⟨called, path, ⟨after, rfl⟩, covers, covered⟩
    exact ⟨⟨path, after⟩, covers, covered⟩
  · rintro ⟨⟨path, after⟩, covers, covered⟩
    exact ⟨_, path, ⟨after, rfl⟩, covers, covered⟩

/-- A symbol that is written and added to the imports. -/
theorem accounted_of {s : Set String} (h : Accounts exact r.code s)
    (same : ∀ x, x ∈ r.imports ↔ x ∈ s) : r.Accounted exact := h.congr same

theorem mem_foldr_imports {α : Type} {imports : α → SymbolSet} {xs : List α} {base : SymbolSet}
    {s : String} :
    s ∈ xs.foldr (fun x acc => imports x ∪ acc) base ↔
      (∃ x ∈ xs, s ∈ imports x) ∨ s ∈ base := by
  induction xs with
  | nil => simp
  | cons x xs ih =>
    rw [List.foldr_cons, SymbolSet.mem_union, ih]
    simp [or_assoc]

theorem mem_mergedImports {s : String} : s ∈ mergedImports rs ↔ ∃ r ∈ rs, s ∈ r.imports := by
  unfold mergedImports
  rw [mem_foldr_imports, or_iff_left SymbolSet.not_mem_empty]

/-! ## Calls of one function -/

instance (s : String) : Decidable (Spelled s) :=
  List.decidableBAll (fun c => isIdentifierChar c) s.toList

theorem accounted_ofCall (name : Spelled symbol) (h : Accounts exact argument ∅) :
    (ofCall symbol argument type).Accounted exact :=
  accounted_of (h.call name) fun x => by simp [ofCall]

theorem accounted_any : Validator.any.Accounted exact := accounted_ofCall (by decide) .empty

theorem accounted_never : never.Accounted exact := accounted_ofCall (by decide) .empty

theorem accounted_boolean : boolean.Accounted exact := accounted_ofCall (by decide) .empty

theorem accounted_null : null.Accounted exact := accounted_ofCall (by decide) .empty

theorem accounted_nullable (h : r.Accounted exact) : (nullable r).Accounted exact :=
  accounted_of (h.call (by decide : Spelled "nullable")) fun x => by simp [nullable]

theorem accounted_not (h : r.Accounted exact) : (not r).Accounted exact := by
  have parameter : Accounts exact "(input) =>" ∅ := .fixed rfl rfl
  have message : Accounts exact "\"Value must not match the specified schema\"" ∅ :=
    .fixed rfl rfl
  have value : Accounts exact "input" ∅ := .spelled (by decide)
  have check := (h.append (by decide : Separates ", ") value).call (by decide : Spelled "is")
  have function := parameter.append (by decide : Separates " !") check
  have whole := (function.append (by decide : Separates ", ") message).call
    (by decide : Spelled "custom")
  have code : (not r).code = call "custom" ("(input) =>" ++ " !" ++
      call "is" (r.code ++ ", " ++ "input") ++ ", " ++
      "\"Value must not match the specified schema\"") := by
    apply String.toList_inj.1
    simp [not, toList_call]
  rw [← code] at whole
  exact accounted_of whole fun x => by simp [not, or_left_comm]

end Validator

/-! ## Pipes -/

/-- An action calls its own function and no other. -/
structure Action.Single (a : Action) : Prop where
  name : Spelled a.symbol
  argument : ∀ exact, Accounts exact a.argument ∅

theorem single_uniqueCheck : uniqueCheck.Single where
  name := by decide
  argument _ := .fixed rfl rfl

/-- A list of actions that each call their own function. -/
def SingleActions (actions : List Action) : Prop := ∀ a ∈ actions, a.Single

theorem SingleActions.append {as bs : List Action} (ha : SingleActions as)
    (hb : SingleActions bs) : SingleActions (as ++ bs) := by
  intro a h
  exact (List.mem_append.1 h).elim (ha a) (hb a)

theorem singleActions_actionFor {α : Type} {symbol : String} {argument : α → String}
    (name : Spelled symbol) (h : ∀ x exact, Accounts exact (argument x) ∅) (keyword : Option α) :
    SingleActions (actionFor symbol argument keyword) := by
  intro a mem
  cases keyword with
  | none => cases mem
  | some x =>
    obtain rfl := List.mem_singleton.1 mem
    exact ⟨name, h x⟩

theorem accounts_toString (n : Nat) (exact : Prop) : Accounts exact (toString n) ∅ :=
  .spelled (spelled_toString n)

theorem accounts_number (n : Number) (exact : Prop) : Accounts exact n.text ∅ := by
  refine .quiet fun c hc => ?_
  have number : isNumberChar c := Number.isNumberChar_of_mem_text hc
  refine ⟨?_, ?_, ?_⟩
  all_goals
    rintro rfl
    exact absurd number (by decide)

namespace Keywords

variable {S : Type} (k : Keywords S)

theorem spelled_formatSymbol {format symbol : String} (h : formatSymbol? format = some symbol) :
    Spelled symbol := by
  unfold formatSymbol? at h
  split at h <;> cases h <;> decide

theorem singleActions_stringActions : SingleActions k.stringActions := by
  refine ((SingleActions.append ?_ ?_).append ?_).append ?_
  · exact singleActions_actionFor (by decide) accounts_toString _
  · exact singleActions_actionFor (by decide) accounts_toString _
  · exact singleActions_actionFor (by decide) (fun _ _ => .regexLiteral _) _
  · intro a mem
    cases format : k.format.bind formatSymbol? with
    | none => simp [format] at mem
    | some symbol =>
      obtain rfl : a = ⟨symbol, ""⟩ := by simpa [format] using mem
      obtain ⟨name, _, known⟩ := Option.bind_eq_some_iff.1 format
      exact ⟨spelled_formatSymbol known, fun _ => .empty⟩

theorem singleActions_boundActions {inclusive exclusive : String} (hi : Spelled inclusive)
    (he : Spelled exclusive) (bound : Option Number) (exclusiveBound : Option ExclusiveBound) :
    SingleActions (boundActions inclusive exclusive bound exclusiveBound) :=
  (singleActions_actionFor (he.ite hi) accounts_number _).append
    (singleActions_actionFor he accounts_number _)

theorem singleActions_numberActions (integer : Bool) : SingleActions (k.numberActions integer) := by
  refine ((SingleActions.append ?_ ?_).append ?_).append ?_
  · intro a mem
    cases integer with
    | false => simp at mem
    | true =>
      obtain rfl : a = ⟨"integer", ""⟩ := by simpa using mem
      exact ⟨by decide, fun _ => .empty⟩
  · exact singleActions_boundActions (by decide) (by decide) _ _
  · exact singleActions_boundActions (by decide) (by decide) _ _
  · exact singleActions_actionFor (by decide) accounts_number _

theorem singleActions_arrayActions : SingleActions k.arrayActions := by
  refine (SingleActions.append ?_ ?_).append ?_
  · exact singleActions_actionFor (by decide) accounts_toString _
  · exact singleActions_actionFor (by decide) accounts_toString _
  · intro a mem
    split at mem
    · obtain rfl := List.mem_singleton.1 mem
      exact single_uniqueCheck
    · cases mem

end Keywords

namespace Validator

theorem accounted_pipe (h : r.Accounted exact) {actions : List Action}
    (single : SingleActions actions) : (r.pipe actions).Accounted exact := by
  unfold pipe
  split
  · exact h
  -- The pieces are the code that is piped and that of each action, with what they call.
  · have pieces : ∀ p ∈ (r.code, {s | s ∈ r.imports}) ::
        actions.map (fun a => (a.code, ({a.symbol} : Set String))), Accounts exact p.1 p.2 := by
      refine List.forall_mem_cons.2 ⟨h, fun p hp => ?_⟩
      obtain ⟨a, ha, rfl⟩ := List.mem_map.1 hp
      have call := ((single a ha).argument exact).call (single a ha).name
      exact call.congr (by simp)
    have whole := (Accounts.intercalate pieces (by decide : Separates ", ")).call
      (by decide : Spelled "pipe")
    rw [List.map_cons, List.map_map] at whole
    exact accounted_of whole fun x => by simp [eq_comm]

section Kinds

variable {S : Type} (k : Keywords S)

theorem accounted_string : (Validator.string k).Accounted exact :=
  accounted_pipe (accounted_ofCall (by decide) .empty) k.singleActions_stringActions

theorem accounted_number (integer : Bool) : (Validator.number k integer).Accounted exact :=
  accounted_pipe (accounted_ofCall (by decide) .empty) (k.singleActions_numberActions integer)

theorem accounted_array (h : r.Accounted exact) : (Validator.array k r).Accounted exact :=
  accounted_pipe (accounted_of (h.call (by decide : Spelled "array")) fun x => by simp)
    k.singleActions_arrayActions

end Kinds

/-! ## Objects -/

theorem accounted_property {p : Property} (h : p.value.Accounted exact) :
    Accounts exact p.code {s | s ∈ p.imports} := by
  unfold Property.code Property.imports
  split
  · exact h
  · exact (h.call (by decide : Spelled "optional")).congr (by simp)

theorem mem_propertyImports {properties : List Property} {s : String} :
    s ∈ properties.foldr (fun p acc => p.imports ∪ acc) ∅ ↔ ∃ p ∈ properties, s ∈ p.imports := by
  rw [mem_foldr_imports, or_iff_left SymbolSet.not_mem_empty]

theorem accounted_object {properties : List Property} {rest : Rest}
    (h : ∀ p ∈ properties, p.value.Accounted exact)
    (hr : ∀ extra, rest = .constrained extra → extra.Accounted exact) :
    (object properties rest).Accounted exact := by
  have literal : Accounts exact
      (objectLiteral (properties.map fun p => (quote p.name, p.code)))
      {s | ∃ p ∈ properties, s ∈ p.imports} :=
    Accounts.objectLiteral Property.name fun p hp => accounted_property (h p hp)
  unfold object
  cases rest with
  | free declared =>
    exact accounted_of (literal.call (by decide : Spelled "object")) fun x => by
      simp [mem_propertyImports]
  | closed =>
    exact accounted_of (literal.call (by decide : Spelled "strictObject")) fun x => by
      simp [mem_propertyImports]
  | constrained extra =>
    have value := hr extra rfl
    simp only
    split
    next none =>
      obtain rfl : properties = [] := by simpa using none
      have keys : Accounts exact (call "string" "") {"string"} :=
        (Accounts.empty.call (by decide)).congr (by simp)
      have whole := (keys.append (by decide : Separates ", ") value).call
        (by decide : Spelled "record")
      have code : call "record" ("v.string(), " ++ extra.code) =
          call "record" (call "string" "" ++ ", " ++ extra.code) := by
        apply String.toList_inj.1
        simp [toList_call]
      refine accounted_of (code ▸ whole) fun x => ?_
      simp [or_left_comm]
    next =>
      have whole := (literal.append (by decide : Separates ", ") value).call
        (by decide : Spelled "objectWithRest")
      exact accounted_of whole fun x => by simp [mem_propertyImports]

/-! ## Several validators -/

theorem accounted_ofMembers (name : Spelled symbol) (type : List String → String)
    (h : ∀ r ∈ rs, r.Accounted exact) : (ofMembers symbol type rs).Accounted exact :=
  accounted_of (Accounts.callWithList h name) fun x => by simp [ofMembers, mem_mergedImports]

theorem accounted_union (h : ∀ r ∈ rs, r.Accounted exact) : (union rs).Accounted exact := by
  have kept : ∀ r ∈ distinctByCode rs, r.Accounted exact := fun r hr =>
    h r (distinctByCode_subset rs hr)
  unfold union
  generalize distinctByCode rs = distinct at kept
  split
  · exact accounted_any
  next only => exact kept only (by simp)
  · exact accounted_ofMembers (by decide) _ kept

theorem accounted_anyOf (h : ∀ r ∈ rs, r.Accounted exact) : (anyOf rs).Accounted exact := by
  unfold anyOf
  simp only
  split
  · exact accounted_never
  · exact accounted_union fun r hr => h r (List.mem_filter.1 hr).1

/-- A mixed `allOf` imports more than it calls. -/
theorem accounted_allOf {objectShaped : Bool} (shaped : exact → objectShaped)
    (h : ∀ r ∈ rs, r.Accounted exact) : (allOf objectShaped rs).Accounted exact := by
  unfold allOf
  split
  · exact accounted_ofMembers (by decide) _ h
  next mixed =>
  split
  · exact accounted_never
  split
  · exact accounted_any
  next first found =>
    have mem := List.mem_of_find?_eq_some found
    have inexact : ¬ exact := fun holds => mixed (shaped holds)
    refine Accounts.subset (h first mem) (fun s hs => ?_) inexact
    exact mem_mergedImports.2 ⟨first, mem, hs⟩

/-! ## Given values -/

theorem accounts_plain {v : Json} (h : v.isPlain) : Accounts exact v.text ∅ := by
  cases v with
  | bool b =>
    have spelled : ∀ b, Spelled (Json.bool b).text := by decide
    exact .spelled (spelled b)
  | number n => exact accounts_number n exact
  | null | string | array | object => cases h

theorem accounted_const (v : Json) : (const v).Accounted exact := by
  induction size : sizeOf v using Nat.strongRecOn generalizing v with
  | _ n ih =>
  subst size
  cases v with
  | null => exact accounted_null
  | bool | number => exact accounted_ofCall (by decide) (accounts_plain rfl)
  | string s => exact accounted_ofCall (by decide) (.quote s)
  | array elements =>
    have members : ∀ x ∈ elements, (const x).Accounted exact := by
      intro x hx
      have smaller := List.sizeOf_lt_of_mem hx
      refine ih _ ?_ x rfl
      simp
      omega
    have whole := Accounts.callWithList members (by decide : Spelled "strictTuple")
    refine accounted_of (s := insert "strictTuple" {s | ∃ x ∈ elements, s ∈ (const x).imports})
      ?_ fun x => ?_
    · simpa [const, consts_eq_map, Function.comp_def] using whole
    · simp [const, consts_eq_map, mem_mergedImports]
  | object members =>
    have values : ∀ m ∈ members, (const m.2).Accounted exact := by
      intro m hm
      have smaller := List.sizeOf_lt_of_mem hm
      obtain ⟨name, value⟩ := m
      refine ih _ ?_ value rfl
      simp at smaller ⊢
      omega
    have literal := Accounts.objectLiteral (fun m : String × Json => m.1) values
    have whole := literal.call (by decide : Spelled "strictObject")
    refine accounted_of (s := insert "strictObject" {s | ∃ m ∈ members, s ∈ (const m.2).imports})
      ?_ fun x => ?_
    · simpa [const, constEntries_eq_map, Function.comp_def] using whole
    · simp [const, constEntries_eq_map, mem_mergedImports]

theorem accounted_enum (values : List Json) : (enum values).Accounted exact := by
  unfold enum
  split
  · exact accounted_any
  · exact accounted_const _
  split
  next scalars =>
    have texts : ∀ x ∈ values, Accounts exact x.text ∅ := by
      intro x hx
      have scalar := List.all_eq_true.1 scalars x hx
      cases x with
      | string s => exact .quote s
      | number n => exact accounts_number n exact
      | null | bool | array | object => cases scalar
    have whole := Accounts.callWithList texts (by decide : Spelled "picklist")
    exact accounted_of whole fun x => by simp
  next =>
    refine accounted_union fun r hr => ?_
    obtain ⟨v, _, rfl⟩ := List.mem_map.1 hr
    exact accounted_const v

end Validator

end SchemaCompiler
