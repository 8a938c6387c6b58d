import SchemaCompiler.Definitions.Table

/-!
# Definitions on cycles

A depth-first search over the graph of references finds the definitions that lie on a cycle. It
keeps the path from the definition it started at; a reference back to a definition on the path
closes a cycle of all that stand on the path from there on, and a reference to a definition that
has been left is not followed again.
-/

namespace SchemaCompiler

structure Search (n : Nat) where
  /-- The definitions that have been left, in the order in which they were. -/
  left : List (Fin n) := []
  /-- The members of the cycles that have been closed. -/
  cyclic : List (Fin n) := []
  deriving DecidableEq, Repr

namespace Search

variable {n : Nat}

/-- The part of a path, latest first, back to `target`. -/
def backTo (target : Fin n) (path : List (Fin n)) : List (Fin n) :=
  path.takeWhile (· != target) ++ [target]

/-- Visit a definition that is not on the path, with all that it leads to. The path holds no
definition twice, so that `n` bounds the depth. -/
def visit (edges : Fin n → List (Fin n)) :
    (fuel : Nat) → (path : List (Fin n)) → Fin n → Search n → Search n
  | 0, _, _, s => s
  | fuel + 1, path, i, s =>
    let path := i :: path
    let s := (edges i).foldl (fun s j =>
      if path.contains j then { s with cyclic := s.cyclic ++ backTo j path }
      else if s.left.contains j then s
      else visit edges fuel path j s) s
    { s with left := s.left ++ [i] }

/-- Search from every definition in turn that has not been left. -/
def run (edges : Fin n → List (Fin n)) : Search n :=
  (List.finRange n).foldl
    (fun s i => if s.left.contains i then s else visit edges n [] i s) {}

end Search

/-- The definitions that a definition refers to, in order and with repeats. -/
def referenced (defs : List Definition) (i : Fin defs.length) : List (Fin defs.length) :=
  (defs.get i).schema.references.filterMap (lookup? defs)

namespace Table

variable {defs : List Definition}

/-- Make recursive what a search finds on cycles, in the order of the definitions. -/
def detectCycles (t : Table defs) : Table defs :=
  let edges : Vector (List (Fin defs.length)) defs.length := .ofFn (referenced defs)
  let found := Search.run edges.get
  ((List.finRange defs.length).filter found.cyclic.contains).foldl markRecursive t

end Table

end SchemaCompiler
