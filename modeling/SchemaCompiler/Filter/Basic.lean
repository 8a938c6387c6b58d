import SchemaCompiler.Json.Basic

/-!
# Filters

A filter maps a value to any number of outputs. This is the part of the jq language that selects
and rearranges documents: paths, constructors, alternatives, conditions and a few named filters.
`Filter.undefinedNames` lists the names in a filter that nothing is known by.
-/

namespace SchemaCompiler

mutual

/-- A filter of the jq language. -/
inductive Filter where
  /-- `.` -/
  | identity
  /-- `..`, the value and all values in it. -/
  | descendants
  | literal (value : Json)
  /-- `$name` -/
  | variable (name : String)
  /-- `[f]`, or `[]`. -/
  | list (contents : Option Filter)
  /-- `{k: v, …}`, keys and values being filters. -/
  | record (entries : List (Filter × Filter))
  /-- `-f` -/
  | negate (f : Filter)
  /-- `f | g` -/
  | pipe (f g : Filter)
  /-- `f, g` -/
  | both (f g : Filter)
  /-- `f // g` -/
  | orElse (f g : Filter)
  /-- `f or g` -/
  | disj (f g : Filter)
  /-- `f and g` -/
  | conj (f g : Filter)
  /-- `f == g` -/
  | equal (f g : Filter)
  /-- `f != g` -/
  | unequal (f g : Filter)
  /-- `f + g` -/
  | add (f g : Filter)
  /-- `if c then t else e end` -/
  | cond (c t e : Filter)
  /-- `f?` -/
  | attempt (f : Filter)
  /-- `f` with parts like `.k` and `[a:b]` after it. -/
  | path (f : Filter) (parts : List PathPart)
  /-- `name(f; …)` -/
  | call (name : String) (arguments : List Filter)

/-- A part of a path; a lenient part, with `?` after it, yields nothing where it does not apply. -/
inductive PathPart where
  /-- `[]` -/
  | each (lenient : Bool)
  /-- `[k]`, `.k` or `."k"`. -/
  | index (key : Filter) (lenient : Bool)
  /-- `[a:b]`, where one of the bounds may be missing. -/
  | slice (lower upper : Option Filter) (lenient : Bool)

end

namespace Filter

/-- The named filters, with the number of their arguments. -/
def namedFilters : List (String × Nat) := [
  ("empty", 0), ("not", 0), ("length", 0), ("keys", 0), ("keys_unsorted", 0), ("type", 0),
  ("first", 0), ("to_entries", 0), ("map", 1), ("select", 1), ("first", 1), ("del", 1)]

end Filter

/-- A name that nothing is known by, and the number of arguments if it names a filter. -/
structure UndefinedName where
  name : String
  arity : Option Nat
  deriving DecidableEq, Repr

def UndefinedName.text (u : UndefinedName) : String :=
  match u.arity with
  | some n => s!"`{u.name}` (Filter({n}))"
  | none => s!"`${u.name}` (Var)"

mutual

/-- The undefined names in a filter: arguments before the name they go with, and the last branch
of a condition before the others. -/
def Filter.undefinedNames : Filter → List UndefinedName
  | .identity => []
  | .descendants => []
  | .literal _ => []
  | .variable name => [⟨name, none⟩]
  | .list none => []
  | .list (some f) => f.undefinedNames
  | .record entries => undefinedInEntries entries
  | .negate f => f.undefinedNames
  | .pipe f g => f.undefinedNames ++ g.undefinedNames
  | .both f g => f.undefinedNames ++ g.undefinedNames
  | .orElse f g => f.undefinedNames ++ g.undefinedNames
  | .disj f g => f.undefinedNames ++ g.undefinedNames
  | .conj f g => f.undefinedNames ++ g.undefinedNames
  | .equal f g => f.undefinedNames ++ g.undefinedNames
  | .unequal f g => f.undefinedNames ++ g.undefinedNames
  | .add f g => f.undefinedNames ++ g.undefinedNames
  | .cond c t e => e.undefinedNames ++ c.undefinedNames ++ t.undefinedNames
  | .attempt f => f.undefinedNames
  | .path f parts => f.undefinedNames ++ undefinedInParts parts
  | .call name arguments =>
    undefinedInArguments arguments ++
      if Filter.namedFilters.contains (name, arguments.length) then []
      else [⟨name, some arguments.length⟩]

def undefinedInEntries : List (Filter × Filter) → List UndefinedName
  | [] => []
  | (key, value) :: rest => key.undefinedNames ++ value.undefinedNames ++ undefinedInEntries rest

def PathPart.undefinedNames : PathPart → List UndefinedName
  | .each _ => []
  | .index key _ => key.undefinedNames
  | .slice none none _ => []
  | .slice (some lower) none _ => lower.undefinedNames
  | .slice none (some upper) _ => upper.undefinedNames
  | .slice (some lower) (some upper) _ => lower.undefinedNames ++ upper.undefinedNames

def undefinedInParts : List PathPart → List UndefinedName
  | [] => []
  | part :: rest => part.undefinedNames ++ undefinedInParts rest

def undefinedInArguments : List Filter → List UndefinedName
  | [] => []
  | f :: rest => f.undefinedNames ++ undefinedInArguments rest

end

end SchemaCompiler
