import SchemaCompiler.Json.SyntaxError
import SchemaCompiler.Json.Basic

/-!
# Documents

A document is a JSON text as a tree in which the faults of the text are kept where they occur. How
much of a text is read, and how strictly, depends on who reads it: a value that is *read* has to be
in order throughout, a value that is *skipped* is only checked for its outline (its escapes may
stand for half a character, its numbers may be out of range, it may be nested to any depth). So
each reader of a document decides which faults it meets; `Document.toJson` meets all of them and
`Document.outlineFault?` only those of the outline.

Documents are over a type `P` of places. Those of a text carry positions; `Json.toDocument` gives
the document of a value, which has no places and no faults.
-/

namespace SchemaCompiler

structure Token (P : Type) where
  /-- The place one byte into the scalar. -/
  ahead : P
  after : P
  deriving DecidableEq, Repr

structure Bracket (P : Type) where
  before : P
  after : P
  /-- The place after the bracket, the blanks that follow, and what closes it if that comes next. -/
  settled : P
  /-- Whether more brackets than are allowed are open here. -/
  tooDeep : Bool
  deriving DecidableEq, Repr

structure NameToken (P : Type) where
  after : P
  /-- The place after the name, the blanks that follow, and the closing brace if that comes next. -/
  settled : P
  deriving DecidableEq, Repr

mutual

/-- A JSON text, with places in `P`. -/
inductive Document (P : Type) where
  | null (token : Token P)
  | bool (value : Bool) (token : Token P)
  | number (value : Except (Fault P) Number) (token : Token P)
  | string (value : Except (Fault P) String) (token : Token P)
  | array (bracket : Bracket P) (elements : Elements P)
  | object (bracket : Bracket P) (members : Members P)
  /-- No value can be made out; reading and skipping may report different faults. One byte into
  the text in question is `ahead`. -/
  | broken (ahead : P) (reading skipping : Fault P)

/-- The elements of a list up to its end. -/
inductive Elements (P : Type) where
  | close
  | broken (reading skipping : Fault P)
  | cons (first : Document P) (rest : Elements P)

/-- The members of an object up to its end. -/
inductive Members (P : Type) where
  | close
  | broken (reading skipping : Fault P)
  /-- A member, and the place settled on after its value: past blanks and the closing brace, if
  that comes next. -/
  | cons (name : Except (Fault P) String) (token : NameToken P) (value : Document P) (settled : P)
      (rest : Members P)

end

variable {P : Type}

/-! ## Reading -/

mutual

/-- The value of a document that is in order throughout, or the first fault. -/
def Document.toJson : Document P → Except (Fault P) Json
  | .null _ => .ok .null
  | .bool b _ => .ok (.bool b)
  | .number n _ => n.map .number
  | .string s _ => s.map .string
  | .array bracket elements =>
    if bracket.tooDeep then .error ⟨.nestedTooDeep, bracket.after⟩
    else elements.toJson.map .array
  | .object bracket members =>
    if bracket.tooDeep then .error ⟨.nestedTooDeep, bracket.after⟩
    else members.toJson.map .ofMembers
  | .broken _ reading _ => .error reading

def Elements.toJson : Elements P → Except (Fault P) (List Json)
  | .close => .ok []
  | .broken reading _ => .error reading
  | .cons first rest => do
    let x ← first.toJson
    let xs ← rest.toJson
    return x :: xs

def Members.toJson : Members P → Except (Fault P) (List (String × Json))
  | .close => .ok []
  | .broken reading _ => .error reading
  | .cons name _ value _ rest => do
    let k ← name
    let v ← value.toJson
    let kvs ← rest.toJson
    return (k, v) :: kvs

end

/-! ## Skipping -/

mutual

/-- The first fault in the outline of a document. -/
def Document.outlineFault? : Document P → Option (Fault P)
  | .array _ elements => elements.outlineFault?
  | .object _ members => members.outlineFault?
  | .broken _ _ skipping => some skipping
  | _ => none

def Elements.outlineFault? : Elements P → Option (Fault P)
  | .close => none
  | .broken _ skipping => some skipping
  | .cons first rest => first.outlineFault? <|> rest.outlineFault?

def Members.outlineFault? : Members P → Option (Fault P)
  | .close => none
  | .broken _ skipping => some skipping
  | .cons _ _ value _ rest => value.outlineFault? <|> rest.outlineFault?

end

/-! ## The document of a value -/

/-- The scalar of a value that is in no text. -/
def Token.placeless : Token Unit := ⟨(), ()⟩

/-- The bracket of a value that is in no text. -/
def Bracket.placeless : Bracket Unit := ⟨(), (), (), false⟩

mutual

/-- The document of a value, without places. -/
def Json.toDocument : Json → Document Unit
  | .null => .null .placeless
  | .bool b => .bool b .placeless
  | .number n => .number (.ok n) .placeless
  | .string s => .string (.ok s) .placeless
  | .array elements => .array .placeless (Json.toElements elements)
  | .object members => .object .placeless (Json.toMembers members)

def Json.toElements : List Json → Elements Unit
  | [] => .close
  | x :: rest => .cons x.toDocument (Json.toElements rest)

def Json.toMembers : List (String × Json) → Members Unit
  | [] => .close
  | (name, x) :: rest => .cons (.ok name) ⟨(), ()⟩ x.toDocument () (Json.toMembers rest)

end

end SchemaCompiler
