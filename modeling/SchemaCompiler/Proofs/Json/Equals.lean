import Mathlib.Data.Option.Basic
import SchemaCompiler.Proofs.Json.Proper

/-!
# Equality of values

Values are equal if they differ only in how a number is written and in how the members of an object
are ordered (`Json.Equals`): a number counts by its value and an object as a map from names to
values (`equals_object_iff`). Nothing is rounded, so this is finer than the equality of filters,
which may compare an integer as a double.
-/

namespace SchemaCompiler

/-! ## Values of numbers -/

def Binary64.value (x : Binary64) : ℚ :=
  if x.negative then -x.magnitude.value else x.magnitude.value

/-- The value of a number. An integer and a double may have the same. -/
def Number.value : Number → ℚ
  | .integer i => i
  | .double x => x.value

namespace Json

mutual

/-- Equality of values, where numbers count by their value and objects as maps. -/
def Equals : Json → Json → Prop
  | .null, .null => True
  | .bool a, .bool b => a = b
  | .number m, .number n => m.value = n.value
  | .string s, .string t => s = t
  | .array xs, .array ys => EachEquals xs ys
  | .object ms, .object ns => MembersEqual ms ns ∧ ∀ n ∈ ns, n.1 ∈ ms.map (·.1)
  | _, _ => False

/-- The lists have the same length and equal elements. -/
def EachEquals : List Json → List Json → Prop
  | [], [] => True
  | x :: xs, y :: ys => x.Equals y ∧ EachEquals xs ys
  | _, _ => False

/-- Each member on the left has one of its name on the right, of an equal value. -/
def MembersEqual : List (String × Json) → List (String × Json) → Prop
  | [], _ => True
  | (name, x) :: ms, ns => (∃ y, member? name ns = some y ∧ x.Equals y) ∧ MembersEqual ms ns

end

variable {xs ys : List Json} {ms ns : List (String × Json)}

theorem eachEquals_iff : EachEquals xs ys ↔ List.Forall₂ Equals xs ys := by
  induction xs generalizing ys with
  | nil => cases ys <;> simp [EachEquals]
  | cons x xs ih => cases ys <;> simp [EachEquals, ih]

theorem membersEqual_iff :
    MembersEqual ms ns ↔ ∀ m ∈ ms, ∃ y, member? m.1 ns = some y ∧ m.2.Equals y := by
  induction ms with
  | nil => simp [MembersEqual]
  | cons m ms ih => simp [MembersEqual, ih]

end Json

/-! ## Objects as maps -/

theorem member?_eq_none {α : Type} {members : List (String × α)} {name : String} :
    member? name members = none ↔ name ∉ members.map (·.1) := by
  induction members with
  | nil => simp [member?]
  | cons m rest ih =>
    rw [member?]
    split
    next same => simp [same]
    next other => simp [ih, Ne.symm other]

theorem mem_of_member? {α : Type} {members : List (String × α)} {name : String} {a : α}
    (h : member? name members = some a) : (name, a) ∈ members := by
  induction members with
  | nil => nomatch h
  | cons m rest ih =>
    rw [member?] at h
    split at h
    next same =>
      obtain rfl := Option.some.inj h
      exact same ▸ List.mem_cons_self
    next => exact List.mem_cons_of_mem _ (ih h)

theorem optionRel_iff {α β : Type} {r : α → β → Prop} {a : Option α} {b : Option β} :
    Option.Rel r a b ↔ (∀ x, a = some x → ∃ y, b = some y ∧ r x y) ∧ (a = none → b = none) := by
  cases a <;> cases b <;> simp

namespace Json

/-- Objects are equal if each name has equal values in both or stands in neither. -/
theorem equals_object_iff {ms ns : List (String × Json)} (distinct : (ms.map (·.1)).Nodup) :
    (object ms).Equals (object ns) ↔
      ∀ name, Option.Rel Equals (member? name ms) (member? name ns) := by
  rw [Equals, membersEqual_iff]
  simp only [optionRel_iff, forall_and, member?_eq_none]
  refine and_congr ⟨fun each name x found => ?_, fun each m hm => ?_⟩
    ⟨fun covered name absent mem => ?_, fun covered n hn => ?_⟩
  · exact each (name, x) (mem_of_member? found)
  · exact each m.1 m.2 (member?_of_mem distinct hm)
  · obtain ⟨n, hn, rfl⟩ := List.mem_map.1 mem
    exact absent (covered n hn)
  · by_contra absent
    exact covered n.1 absent (List.mem_map_of_mem hn)

/-- A value is equal to itself. -/
theorem equals_self {v : Json} (proper : v.proper) : v.Equals v := by
  induction v using Json.induct with
  | null => trivial
  | bool | number | string => rfl
  | array xs ih =>
    rw [Json.proper, eachProper_iff] at proper
    rw [Equals, eachEquals_iff, List.forall₂_same]
    exact fun x hx => ih x hx (proper x hx)
  | object ms ih =>
    rw [Json.proper, Bool.and_eq_true, decide_eq_true_eq, membersProper_iff] at proper
    obtain ⟨distinct, each⟩ := proper
    rw [Equals, membersEqual_iff]
    exact ⟨fun m hm => ⟨m.2, member?_of_mem distinct hm, ih m hm (each m hm)⟩,
      fun m hm => List.mem_map_of_mem hm⟩

end Json

end SchemaCompiler
