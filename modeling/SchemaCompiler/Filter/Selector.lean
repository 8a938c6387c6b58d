import SchemaCompiler.Json.Basic

/-!
# Selectors

A selector is a part of a path with its keys computed: it selects one member or element of a value,
a range of it or all that is in it. `Selector.outputs` reads the selected values and
`Selector.update` replaces them, each by the first output of a filter, or takes them out if there
is none.
-/

namespace SchemaCompiler

/-- What a filter cannot do with a value. -/
inductive Misuse where
  | select
  | iterate
  | range
  | outOfBounds
  /-- Put something else than a list in place of a range. -/
  | replaceRange
  | notPath
  | memberName
  | sum
  | negation
  | length
  | keys
  deriving DecidableEq, Repr

/-- The outputs of a filter: values, and failures where there is none. -/
abbrev Outputs := List (Except Misuse Json)

/-- What a path selects in a value. -/
inductive Selector where
  /-- All elements or members. -/
  | each
  /-- One element or member. -/
  | item (key : Json)
  /-- The elements or characters between two bounds. -/
  | range (lower upper : Option Json)

/-- The integers below `2 ^ 63`, which filters count with; greater ones are doubles in all they
do. -/
def Number.index? : Number → Option Int
  | .integer i => if i < 9223372036854775808 then some i else none
  | .double _ => none

namespace Json

def index? : Json → Option Int
  | .number n => n.index?
  | _ => none

def ofNat (n : Nat) : Json := .number (.integer n)

end Json

/-- The place in a list of `length` elements that an index means; negative ones count from its
end. -/
def place? (length : Nat) (i : Int) : Option Nat :=
  let place := if i < 0 then i + length else i
  if 0 ≤ place ∧ place < length then some place.toNat else none

/-- The place in a list of `length` elements that a bound means. -/
def boundPlace (length : Nat) (i : Int) : Nat :=
  min (if i < 0 then i + length else i).toNat length

/-- The number of elements before a range, and the number of those in it. -/
def spanOf (length : Nat) (lower upper : Option Json) : Except Misuse (Nat × Nat) := do
  let bound (default : Nat) : Option Json → Except Misuse Nat
    | none => .ok default
    | some x =>
      match x.index? with
      | some i => .ok (boundPlace length i)
      | none => .error .range
  let start ← bound 0 lower
  let stop ← bound length upper
  return (start, stop - start)

/-- Take a member out; the last one takes its place. -/
def swapRemove (name : String) (members : List (String × Json)) : List (String × Json) :=
  match members.findIdx? (·.1 == name), members.getLast? with
  | some i, some last => (members.set i last).dropLast
  | _, _ => members

def firstOutput (outputs : Outputs) : Except Misuse (Option Json) :=
  match outputs with
  | [] => .ok none
  | .ok x :: _ => .ok (some x)
  | .error e :: _ => .error e

namespace Selector

def outputs : Selector → Json → Outputs
  | .each, .array elements => elements.map .ok
  | .each, .object members => members.map fun (_, x) => .ok x
  | .each, _ => [.error .iterate]
  | .item (.string name), .object members => [.ok ((member? name members).getD .null)]
  | .item key, .array elements =>
    match key.index? with
    | some i => [.ok (((place? elements.length i).bind (elements[·]?)).getD .null)]
    | none => [.error .select]
  | .item _, _ => [.error .select]
  | .range lower upper, .array elements =>
    [(spanOf elements.length lower upper).map fun (start, n) =>
      .array ((elements.drop start).take n)]
  | .range lower upper, .string s =>
    [(spanOf s.length lower upper).map fun (start, n) =>
      .string (String.ofList ((s.toList.drop start).take n))]
  | .range _ _, _ => [.error .range]

/-- A value with the selected ones replaced by what `f` makes of them. -/
def update (f : Json → Outputs) : Selector → Json → Except Misuse Json
  | .each, .array elements => do return .array (← (elements.flatMap f).mapM id)
  | .each, .object members => do
    let kept ← members.mapM fun (name, x) => do
      return (← firstOutput (f x)).map fun y => (name, y)
    return .object (kept.filterMap id)
  | .each, _ => .error .iterate
  | .item (.string name), .object members => do
    match ← firstOutput (f ((member? name members).getD .null)) with
    | some y => return .object (setMember name y members)
    | none => return .object (swapRemove name members)
  | .item key, .array elements => do
    let some i := key.index? | .error .select
    let some place := place? elements.length i | .error .outOfBounds
    match ← firstOutput (f ((elements[place]?).getD .null)) with
    | some y => return .array (elements.set place y)
    | none => return .array (elements.eraseIdx place)
  | .item _, _ => .error .select
  | .range lower upper, .array elements => do
    let (start, n) ← spanOf elements.length lower upper
    let inserted ← match ← firstOutput (f (.array ((elements.drop start).take n))) with
      | none => .ok []
      | some (.array ys) => .ok ys
      | some _ => .error .replaceRange
    return .array (elements.take start ++ inserted ++ elements.drop (start + n))
  | .range _ _, _ => .error .range

end Selector

/-- A selector, and whether it is left out where it does not apply. -/
structure PathStep where
  selector : Selector
  lenient : Bool

namespace PathStep

def outputs (step : PathStep) (value : Json) : Outputs :=
  let found := step.selector.outputs value
  if step.lenient then found.filter (·.isOk) else found

def applies (step : PathStep) (value : Json) : Bool :=
  (step.selector.update (fun x => [.ok x]) value).isOk

def update (step : PathStep) (f : Json → Outputs) (value : Json) : Except Misuse Json :=
  if step.lenient && !step.applies value then .ok value else step.selector.update f value

end PathStep

/-- The values that the steps of a path lead to. -/
def follow : List PathStep → Json → Outputs
  | [], value => [.ok value]
  | step :: rest, value =>
    (step.outputs value).flatMap fun
      | .ok x => follow rest x
      | .error e => [.error e]

/-- A value with those that the steps of a path lead to replaced. -/
def replace (f : Json → Outputs) : List PathStep → Json → Except Misuse Json
  | [], value => do return (← firstOutput (f value)).getD value
  | [step], value => step.update f value
  | step :: rest, value => step.update (fun x => [replace f rest x]) value

end SchemaCompiler
