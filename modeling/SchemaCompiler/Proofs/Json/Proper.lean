import SchemaCompiler.Json.Basic
import SchemaCompiler.Proofs.Number.Rounding

/-!
# Proper values

The values that a program holds: the names of an object are distinct, an integer has at most 64
bits, and a double has its canonical mantissa and exponent (`Json.proper`). Reading a text gives no
others, which is shown in `Proofs/Json/FromText`.
-/

namespace SchemaCompiler

/-- A property of values that arrays keep from their elements and objects from their members is one
of all values. -/
@[elab_as_elim]
theorem Json.induct {P : Json → Prop} (null : P .null) (bool : ∀ b, P (.bool b))
    (number : ∀ n, P (.number n)) (string : ∀ s, P (.string s))
    (array : ∀ xs, (∀ x ∈ xs, P x) → P (.array xs))
    (object : ∀ ms, (∀ m ∈ ms, P m.2) → P (.object ms)) : ∀ v, P v
  | .null => null
  | .bool b => bool b
  | .number n => number n
  | .string s => string s
  | .array xs => array xs fun x _ => induct null bool number string array object x
  | .object ms => object ms fun m hm =>
    have : sizeOf m.2 < sizeOf ms := by
      have member : sizeOf m < sizeOf ms := List.sizeOf_lt_of_mem hm
      obtain ⟨name, v⟩ := m
      simp only [Prod.mk.sizeOf_spec] at member
      show sizeOf v < sizeOf ms
      omega
    induct null bool number string array object m.2

def Number.Proper : Number → Prop
  | .integer i => -2 ^ 63 ≤ i ∧ i < 2 ^ 64
  | .double x => x.magnitude.Canonical

instance : (n : Number) → Decidable n.Proper
  | .integer _ => inferInstanceAs (Decidable (_ ∧ _))
  | .double x => inferInstanceAs (Decidable x.magnitude.Canonical)

mutual

/-- Whether the names in every object are distinct and every number is one of 64 bits. -/
def Json.proper : Json → Bool
  | .number n => decide n.Proper
  | .array elements => Json.eachProper elements
  | .object members => decide (members.map (·.1)).Nodup && Json.membersProper members
  | _ => true

def Json.eachProper : List Json → Bool
  | [] => true
  | x :: rest => x.proper && Json.eachProper rest

def Json.membersProper : List (String × Json) → Bool
  | [] => true
  | (_, x) :: rest => x.proper && Json.membersProper rest

end

theorem Json.eachProper_iff {xs : List Json} : Json.eachProper xs ↔ ∀ x ∈ xs, x.proper := by
  induction xs with
  | nil => simp [Json.eachProper]
  | cons x rest ih => simp [Json.eachProper, ih]

theorem Json.membersProper_iff {members : List (String × Json)} :
    Json.membersProper members ↔ ∀ m ∈ members, m.2.proper := by
  induction members with
  | nil => simp [Json.membersProper]
  | cons m rest ih => simp [Json.membersProper, ih]

/-- Of distinct names, each selects its own member. -/
theorem member?_of_mem {α : Type} {members : List (String × α)}
    (distinct : (members.map (·.1)).Nodup) {name : String} {a : α} (mem : (name, a) ∈ members) :
    member? name members = some a := by
  induction members with
  | nil => nomatch mem
  | cons m rest ih =>
    obtain ⟨key, b⟩ := m
    rw [List.map_cons, List.nodup_cons] at distinct
    obtain same | mem := List.mem_cons.1 mem
    · obtain ⟨rfl, rfl⟩ := Prod.mk.inj same
      rw [member?, if_pos rfl]
    · have other : key ≠ name := by
        rintro rfl
        exact distinct.1 (List.mem_map.2 ⟨_, mem, rfl⟩)
      rw [member?, if_neg other, ih distinct.2 mem]

end SchemaCompiler
