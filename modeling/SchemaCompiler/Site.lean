import SchemaCompiler.Json.Pointer

/-!
# Sites

A site is where a schema stands: how many schemas enclose it, counted from the root or from the
definition it belongs to, and the path to it, which findings are reported with.
-/

namespace SchemaCompiler

structure Site where
  depth : Nat
  path : List String
  deriving DecidableEq, Repr

namespace Site

def root : Site := ⟨0, []⟩

def ofDefinition (pointer : String) : Site := ⟨0, pointerTokens pointer⟩

/-- One schema further in, under a keyword. -/
def under (s : Site) (keyword : String) : Site := ⟨s.depth + 1, s.path ++ [keyword]⟩

/-- One schema further in, at a name under a keyword. -/
def member (s : Site) (keyword name : String) : Site := ⟨s.depth + 1, s.path ++ [keyword, name]⟩

/-- One schema further in, at a position under a keyword. -/
def item (s : Site) (keyword : String) (i : Nat) : Site := s.member keyword (toString i)

def pointer (s : Site) : String := pointerText s.path

end Site

end SchemaCompiler
