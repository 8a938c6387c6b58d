import SchemaCompiler.Filter.Basic
import SchemaCompiler.Filter.Selector

/-!
# Running filters

`Filter.run` lists the outputs of a filter for a value. A failure is an output like others, which
filters pass on and `f?` drops. Where two filters are combined, every output of the first meets all
of the second before the next one. `Filter.update` replaces the values that a filter selects by
what another function makes of them; it is what `del` takes values out with.
-/

namespace SchemaCompiler

/-! ## Values -/

namespace Json

def isTruthy : Json → Bool
  | .null => false
  | .bool b => b
  | _ => true

def typeName : Json → String
  | .null => "null"
  | .bool _ => "boolean"
  | .number _ => "number"
  | .string _ => "string"
  | .array _ => "array"
  | .object _ => "object"

end Json

/-- The sum, or nothing past the greatest double: an integer of 64 bits if both numbers and the
sum are such integers, else a double. -/
def Number.sum (m n : Number) : Option Number :=
  let doubles := (m.toDouble.add n.toDouble).map Number.double
  match m.index?, n.index? with
  | some i, some j =>
    if -9223372036854775808 ≤ i + j ∧ i + j < 9223372036854775808 then some (.integer (i + j))
    else doubles
  | _, _ => doubles

def Number.negated (n : Number) : Number :=
  match n.index? with
  | some i => .integer (-i)
  | none => .double { n.toDouble with negative := !n.toDouble.negative }

def Number.absolute (n : Number) : Number :=
  match n.index? with
  | some i => .integer i.natAbs
  | none => .double { n.toDouble with negative := false }

/-- Whether two numbers are equal; all but integers are compared as doubles. -/
def Number.same (m n : Number) : Bool :=
  match m.index?, n.index? with
  | some i, some j => i == j
  | _, _ => m.toDouble.sameNumber n.toDouble

namespace Json

mutual

def same : Json → Json → Bool
  | .null, .null => true
  | .bool a, .bool b => a == b
  | .number m, .number n => m.same n
  | .string s, .string t => s == t
  | .array xs, .array ys => sameElements xs ys
  | .object ms, .object ns => ms.length == ns.length && sameMembers ms ns
  | _, _ => false

def sameElements : List Json → List Json → Bool
  | [], [] => true
  | x :: xs, y :: ys => x.same y && sameElements xs ys
  | _, _ => false

/-- Whether all members are among others. -/
def sameMembers : List (String × Json) → List (String × Json) → Bool
  | [], _ => true
  | (name, x) :: rest, others =>
    (match member? name others with
      | some y => x.same y
      | none => false) && sameMembers rest others

end

mutual

/-- A value and all values in it, each before those in it. -/
def descendants : Json → List Json
  | .array elements => .array elements :: elementDescendants elements
  | .object members => .object members :: memberDescendants members
  | x => [x]

def elementDescendants : List Json → List Json
  | [] => []
  | x :: rest => x.descendants ++ elementDescendants rest

def memberDescendants : List (String × Json) → List Json
  | [] => []
  | (_, x) :: rest => x.descendants ++ memberDescendants rest

end

/-- The sum of two values; null adds nothing. -/
def sum : Json → Json → Except Misuse Json
  | .null, y => .ok y
  | x, .null => .ok x
  | .number m, .number n => .ok (((m.sum n).map Json.number).getD .null)
  | .string s, .string t => .ok (.string (s ++ t))
  | .array xs, .array ys => .ok (.array (xs ++ ys))
  | .object ms, .object ns => .ok (.object (ns.foldl (fun ms (k, x) => setMember k x ms) ms))
  | _, _ => .error .sum

def negated : Json → Except Misuse Json
  | .number n => .ok (.number n.negated)
  | _ => .error .negation

def length : Json → Except Misuse Json
  | .null => .ok (ofNat 0)
  | .bool _ => .error .length
  | .number n => .ok (.number n.absolute)
  | .string s => .ok (ofNat s.length)
  | .array xs => .ok (ofNat xs.length)
  | .object ms => .ok (ofNat ms.length)

/-- The names of an object in their order, or the indices of a list. -/
def keys : Json → Except Misuse (List Json)
  | .array xs => .ok ((List.range xs.length).map ofNat)
  | .object ms => .ok (ms.map fun (name, _) => .string name)
  | _ => .error .keys

def sortedKeys : Json → Except Misuse (List Json)
  | .object ms => .ok (((ms.map (·.1)).mergeSort (· ≤ ·)).map .string)
  | x => x.keys

def entry (key value : Json) : Json := .object [("key", key), ("value", value)]

def entries : Json → Except Misuse Json
  | .array xs => .ok (.array ((xs.mapIdx fun i x => entry (ofNat i) x)))
  | .object ms => .ok (.array (ms.map fun (name, x) => entry (.string name) x))
  | _ => .error .keys

def single : Json → Json → Except Misuse Json
  | .string name, x => .ok (.object [(name, x)])
  | _, _ => .error .memberName

end Json

/-! ## Outputs -/

namespace Outputs

/-- The outputs of `f` for every output. -/
def through (xs : Outputs) (f : Json → Outputs) : Outputs :=
  xs.flatMap fun
    | .ok x => f x
    | .error e => [.error e]

/-- Every output of `xs` with every output of `ys`. -/
def combine (f : Json → Json → Except Misuse Json) (xs ys : Outputs) : Outputs :=
  xs.flatMap fun x => ys.map fun y => do f (← x) (← y)

def collect (xs : Outputs) : Outputs :=
  [(xs.mapM id).map Json.array]

/-- Whether an output counts as true; failures do. -/
def counts : Except Misuse Json → Bool
  | .ok x => x.isTruthy
  | .error _ => true

end Outputs

open Outputs

def namedOutputs (name : String) (value : Json) : Outputs :=
  match name with
  | "not" => [.ok (.bool !value.isTruthy)]
  | "length" => [value.length]
  | "keys" => [value.sortedKeys.map .array]
  | "keys_unsorted" => [value.keys.map .array]
  | "type" => [.ok (.string value.typeName)]
  | "first" => (Selector.item (Json.ofNat 0)).outputs value
  | "to_entries" => [value.entries]
  | _ => []

/-- Replace a value by `f`, and then all values in the result in the same way, to a depth of
`fuel`. -/
def updateDescendants (f : Json → Outputs) : (fuel : Nat) → Json → Outputs
  | 0, value => [.ok value]
  | fuel + 1, value =>
    through (f value) fun x => [(PathStep.mk .each true).update (updateDescendants f fuel) x]

mutual

/-- The outputs of a filter for a value. -/
def Filter.run : Filter → Json → Outputs
  | .identity, v => [.ok v]
  | .descendants, v => v.descendants.map .ok
  | .literal x, _ => [.ok x]
  | .variable _, _ => []
  | .list none, _ => [.ok (.array [])]
  | .list (some f), v => collect (f.run v)
  | .record entries, v => recordOutputs entries v [.ok (.object [])]
  | .negate f, v => (f.run v).map (· >>= Json.negated)
  | .pipe f g, v => through (f.run v) g.run
  | .both f g, v => f.run v ++ g.run v
  | .orElse f g, v =>
    let found := (f.run v).filter counts
    if found.isEmpty then g.run v else found
  | .disj f g, v =>
    through (f.run v) fun x =>
      if x.isTruthy then [.ok (.bool true)]
      else (g.run v).map (·.map fun y => .bool y.isTruthy)
  | .conj f g, v =>
    through (f.run v) fun x =>
      if x.isTruthy then (g.run v).map (·.map fun y => .bool y.isTruthy)
      else [.ok (.bool false)]
  | .equal f g, v => combine (fun x y => .ok (.bool (x.same y))) (f.run v) (g.run v)
  | .unequal f g, v => combine (fun x y => .ok (.bool !x.same y)) (f.run v) (g.run v)
  | .add f g, v => combine Json.sum (f.run v) (g.run v)
  | .cond c t e, v => through (c.run v) fun x => if x.isTruthy then t.run v else e.run v
  | .attempt f, v => (f.run v).filter (·.isOk)
  | .path f parts, v =>
    let paths := pathSteps parts v
    through (f.run v) fun x =>
      paths.flatMap fun
        | .ok steps => follow steps x
        | .error e => [.error e]
  | .call name [], v => namedOutputs name v
  | .call name [f], v =>
    if name = "map" then collect (through (Selector.each.outputs v) f.run)
    else if name = "select" then
      through (f.run v) fun x => if x.isTruthy then [.ok v] else []
    else if name = "first" then (f.run v).take 1
    else if name = "del" then f.update v fun _ => []
    else []
  | .call _ (_ :: _ :: _), _ => []

/-- Add the members of a record to what has been built of it. -/
def recordOutputs : List (Filter × Filter) → Json → Outputs → Outputs
  | [], _, built => built
  | (key, value) :: rest, v, built =>
    recordOutputs rest v
      (combine Json.sum built (combine Json.single (key.run v) (value.run v)))

/-- The steps of a part of a path, one for every output of the filters in it. -/
def PathPart.steps : PathPart → Json → List (Except Misuse PathStep)
  | .each lenient, _ => [.ok ⟨.each, lenient⟩]
  | .index key lenient, v => (key.run v).map (·.map fun k => ⟨.item k, lenient⟩)
  | .slice none none lenient, _ => [.ok ⟨.range none none, lenient⟩]
  | .slice (some lower) none lenient, v =>
    (lower.run v).map (·.map fun a => ⟨.range (some a) none, lenient⟩)
  | .slice none (some upper) lenient, v =>
    (upper.run v).map (·.map fun b => ⟨.range none (some b), lenient⟩)
  | .slice (some lower) (some upper) lenient, v =>
    (lower.run v).flatMap fun a => (upper.run v).map fun b => do
      return ⟨.range (some (← a)) (some (← b)), lenient⟩

/-- The paths of some parts, one for every choice of a step of each. -/
def pathSteps : List PathPart → Json → List (Except Misuse (List PathStep))
  | [], _ => [.ok []]
  | part :: rest, v =>
    let others := pathSteps rest v
    (part.steps v).flatMap fun step => others.map fun steps => do return (← step) :: (← steps)

/-- The value with those that a filter selects replaced by `k`. -/
def Filter.update : Filter → Json → (k : Json → Outputs) → Outputs
  | .identity, v, k => k v
  | .descendants, v, k => updateDescendants k (v.descendants.length + 1) v
  | .pipe f g, v, k => f.update v fun x => g.update x k
  | .both f g, v, k => through (f.update v k) fun x => g.update x k
  | .orElse f g, v, k => if (f.run v).any counts then f.update v k else g.update v k
  | .cond c t e, v, k =>
    (c.run v).foldl (fun built x =>
      through built fun w =>
        match x with
        | .ok x => if x.isTruthy then t.update w k else e.update w k
        | .error e => [.error e]) [.ok v]
  | .path f parts, v, k =>
    let paths := pathSteps parts v
    f.update v fun x => [paths.foldlM (fun x path => do replace k (← path) x) x]
  | .call name [], v, k =>
    if name = "empty" then [.ok v]
    else if name = "first" then [(Selector.item (Json.ofNat 0)).update k v]
    else [.error .notPath]
  | .call name [f], v, k =>
    if name = "select" then
      (f.run v).foldl (fun built x =>
        through built fun w =>
          match x with
          | .ok x => if x.isTruthy then k w else [.ok w]
          | .error e => [.error e]) [.ok v]
    else [.error .notPath]
  | _, _, _ => [.error .notPath]

end

end SchemaCompiler
