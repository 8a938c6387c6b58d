import SchemaCompiler.Site

/-!
# Diagnostics

Findings that do not stop a conversion: the schema in question accepts every value instead.
-/

namespace SchemaCompiler

/-- What is found. -/
inductive DiagnosticKind where
  /-- A reference inside the document to no definition. -/
  | unresolvedReference
  /-- A reference that leads out of the document. -/
  | unsupportedReference
  | reentrantDefinition
  | unknownType
  deriving DecidableEq, Repr

def DiagnosticKind.text : DiagnosticKind → String
  | .unresolvedReference => "unresolved-ref"
  | .unsupportedReference => "unsupported-ref"
  | .reentrantDefinition => "reentrant-definition"
  | .unknownType => "unknown-type"

/-- A finding and the pointer of the schema it is about. -/
structure Diagnostic where
  kind : DiagnosticKind
  path : String
  message : String
  deriving DecidableEq, Repr

namespace Diagnostic

def text (d : Diagnostic) : String := s!"[{d.kind.text}] {d.path}: {d.message}"

def danglingReference (pointer : String) (site : Site) : Diagnostic :=
  ⟨match pointer.toList with
    | '#' :: _ => .unresolvedReference
    | _ => .unsupportedReference,
    site.pointer, s!"cannot resolve `$ref` {pointer}; using v.any()"⟩

/-- The finding for a type name that is none. -/
def unknownType (name : String) (site : Site) : Diagnostic :=
  ⟨.unknownType, site.pointer, s!"unknown type `{name}`; using v.any()"⟩

/-- The finding for a definition that is generated inside itself. -/
def reentrantDefinition (pointer : String) (site : Site) : Diagnostic :=
  ⟨.reentrantDefinition, site.pointer,
    s!"definition {pointer} re-entered while generating; using v.any()"⟩

end Diagnostic

end SchemaCompiler
