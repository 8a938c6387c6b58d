/-!
# A supply of distinct names

`NameSupply.allocate` hands out the name asked for, or, if that is taken, the name with the least
suffix `_2`, `_3`, … that is free.
-/

namespace SchemaCompiler

structure NameSupply where
  taken : List String
  deriving DecidableEq, Repr

namespace NameSupply

/-- The `n`th name for a base, counted from one: `base`, `base_2`, `base_3`, … -/
def candidate (base : String) (n : Nat) : String :=
  if n ≤ 1 then base else base ++ "_" ++ toString n

/-- The first candidate from the `n`th on that is free, among `tries` of them and the next. -/
def firstFree (taken : List String) (base : String) : (n tries : Nat) → String
  | n, 0 => candidate base n
  | n, tries + 1 =>
    if taken.contains (candidate base n) then firstFree taken base (n + 1) tries
    else candidate base n

/-- The name for a base. No more candidates can be taken than there are names, so as many tries
are enough. -/
def free (s : NameSupply) (base : String) : String := firstFree s.taken base 1 s.taken.length

def allocate (s : NameSupply) (base : String) : String × NameSupply :=
  let name := s.free base
  (name, ⟨name :: s.taken⟩)

def allocateAll (s : NameSupply) : List String → List String × NameSupply
  | [] => ([], s)
  | base :: bases =>
    let (name, s) := s.allocate base
    let (names, s) := s.allocateAll bases
    (name :: names, s)

end NameSupply

end SchemaCompiler
