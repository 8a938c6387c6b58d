import SchemaCompiler.Number.Numeral
import SchemaCompiler.Json.Document
import SchemaCompiler.Text.Escape

/-!
# From text to document

`scan` reads the first value of a text into a document and says where the text goes on. Places are
counted in bytes, and a fault is reported either at the place reached or, if the next byte was only
looked at, one byte further (`Input.fault` and `Input.faultAhead`).
-/

namespace SchemaCompiler

/-- What is left of a text, and the place it starts at. -/
structure Input where
  rest : List Char
  place : Position
  deriving DecidableEq, Repr

namespace Input

/-- The input after its next character, which is `c`. -/
def next (i : Input) (c : Char) (rest : List Char) : Input := ⟨rest, i.place.next c⟩

def fault (i : Input) (cause : SyntaxError) : Fault Position := ⟨cause, i.place⟩

/-- A fault one byte further on. -/
def faultAhead (i : Input) (cause : SyntaxError) : Fault Position :=
  ⟨cause, i.place.nextByte i.rest⟩

def isBlank (c : Char) : Bool := c == ' ' || c == '\n' || c == '\t' || c == '\r'

/-- The text `cs` at `place` past its leading blanks. -/
def pastBlanks : (cs : List Char) → (place : Position) → Input
  | [], p => ⟨[], p⟩
  | c :: rest, p => if isBlank c then pastBlanks rest (p.next c) else ⟨c :: rest, p⟩

def skipBlanks (i : Input) : Input := pastBlanks i.rest i.place

/-- The place past blanks and past the character `closing`, if that comes next. -/
def settle (i : Input) (closing : Char) : Position :=
  let j := i.skipBlanks
  match j.rest with
  | c :: _ => if c = closing then j.place.next c else j.place
  | [] => j.place

/-- The place settled on after an opening bracket; a comma there is passed too. -/
def settleList (i : Input) : Position :=
  let j := i.skipBlanks
  match j.rest with
  | ',' :: rest => (j.next ',' rest).skipBlanks.place
  | _ => j.settle ']'

end Input

/-! ## Strings -/

/-- The place `n` bytes on in the text `cs`, or none if fewer are left. -/
def bytesOn : (cs : List Char) → (n : Nat) → (place : Position) → Option Position
  | [], n, p => if n = 0 then some p else none
  | c :: cs, n, p =>
    if n = 0 then some p
    else if c.utf8Size ≤ n then bytesOn cs (n - c.utf8Size) (p.next c)
    else some ⟨p.line, p.column + n⟩

/-- The place after all of the text. -/
def endPlace (cs : List Char) (place : Position) : Position := cs.foldl Position.next place

/-- The fault of a text that should start with four hexadecimal digits and does not. -/
def hexFault (cs : List Char) (place : Position) : Fault Position :=
  match bytesOn cs 4 place with
  | some p => ⟨.invalidEscape, p⟩
  | none => ⟨.endInString, endPlace cs place⟩

/-- The character with the given high and low surrogates. -/
def surrogatePair (high low : Nat) : Char :=
  Char.ofNat (0x10000 + (high - 0xd800) * 0x400 + (low - 0xdc00))

def prepend (c : Char) : Except (Fault Position) (List Char × Input) →
    Except (Fault Position) (List Char × Input)
  | .ok (cs, i) => .ok (c :: cs, i)
  | .error f => .error f

/-- The characters of a string whose opening quotation mark has been passed. -/
def readString : List Char → Position → Except (Fault Position) (List Char × Input)
  | [], p => .error ⟨.endInString, p⟩
  | '"' :: rest, p => .ok ([], ⟨rest, p.next '"'⟩)
  | '\\' :: rest, p =>
    let p := p.next '\\'
    match rest with
    | [] => .error ⟨.endInString, p⟩
    | 'u' :: rest =>
      let p := p.next 'u'
      match rest with
      | a :: b :: c :: d :: after =>
        match hexQuad? a b c d with
        | none => .error (hexFault rest p)
        | some unit =>
          let p := endPlace [a, b, c, d] p
          if isLowSurrogate unit then .error ⟨.loneSurrogate, p⟩
          else if isHighSurrogate unit then
            match after with
            | [] => .error ⟨.endInString, p⟩
            | '\\' :: after =>
              let p := p.next '\\'
              match after with
              | [] => .error ⟨.endInString, p⟩
              | 'u' :: after =>
                let p := p.next 'u'
                match after with
                | a :: b :: c :: d :: beyond =>
                  match hexQuad? a b c d with
                  | none => .error (hexFault after p)
                  | some low =>
                    let p := endPlace [a, b, c, d] p
                    if isLowSurrogate low then
                      prepend (surrogatePair unit low) (readString beyond p)
                    else .error ⟨.loneSurrogate, p⟩
                | _ => .error (hexFault after p)
              | _ => .error ⟨.unpairedSurrogate, p.nextByte after⟩
            | _ => .error ⟨.unpairedSurrogate, p.nextByte after⟩
          else prepend (Char.ofNat unit) (readString after p)
      | _ => .error (hexFault rest p)
    | e :: after =>
      match simpleEscape? e with
      | some c => prepend c (readString after (p.next e))
      | none => .error ⟨.invalidEscape, p.nextByte rest⟩
  | c :: rest, p =>
    if c.toNat < 0x20 then .error ⟨.controlCharacter, p.next c⟩
    else prepend c (readString rest (p.next c))

/-- The input after a string whose opening quotation mark has been passed. Surrogates need not
pair up. -/
def skipString : List Char → Position → Except (Fault Position) Input
  | [], p => .error ⟨.endInString, p⟩
  | '"' :: rest, p => .ok ⟨rest, p.next '"'⟩
  | '\\' :: rest, p =>
    let p := p.next '\\'
    match rest with
    | [] => .error ⟨.endInString, p⟩
    | 'u' :: rest =>
      let p := p.next 'u'
      match rest with
      | a :: b :: c :: d :: after =>
        match hexQuad? a b c d with
        | none => .error (hexFault rest p)
        | some _ => skipString after (endPlace [a, b, c, d] p)
      | _ => .error (hexFault rest p)
    | e :: after =>
      match simpleEscape? e with
      | some _ => skipString after (p.next e)
      | none => .error ⟨.invalidEscape, p.nextByte rest⟩
  | c :: rest, p =>
    if c.toNat < 0x20 then .error ⟨.controlCharacter, p⟩ else skipString rest (p.next c)

/-! ## Numerals -/

/-- The faults that reading and skipping report where nothing can be made out. -/
abbrev Faults := Fault Position × Fault Position

def bothWays (f : Fault Position) : Faults := (f, f)

/-- The decimal digits at the start of a text, and the input after them. -/
def digits : (cs : List Char) → (place : Position) → List Nat × Input
  | [], p => ([], ⟨[], p⟩)
  | c :: rest, p =>
    if c.isDigit then
      let (ds, i) := digits rest (p.next c)
      ((c.toNat - '0'.toNat) :: ds, i)
    else ([], ⟨c :: rest, p⟩)

def exponent (i : Input) : Except Faults (Option NumeralExponent × Input) :=
  let mark := match i.rest with
    | 'e' :: rest => some (i.next 'e' rest)
    | 'E' :: rest => some (i.next 'E' rest)
    | _ => none
  match mark with
  | none => .ok (none, i)
  | some j =>
    let (negative, k) : Bool × Input := match j.rest with
      | '+' :: rest => (false, j.next '+' rest)
      | '-' :: rest => (true, j.next '-' rest)
      | _ => (false, j)
    match digits k.rest k.place with
    | ([], _) =>
      let invalid := k.faultAhead .invalidNumber
      .error (if k.rest.isEmpty then (k.fault .endInValue, invalid) else bothWays invalid)
    | (ds, after) => .ok (some ⟨negative, ds, k.place⟩, after)

def fraction (i : Input) : Except Faults (Option (List Nat) × Input) :=
  match i.rest with
  | '.' :: rest =>
    let j := i.next '.' rest
    match digits j.rest j.place with
    | ([], _) =>
      let invalid := j.faultAhead .invalidNumber
      .error (if j.rest.isEmpty then (j.fault .endInValue, invalid) else bothWays invalid)
    | (ds, after) => .ok (some ds, after)
  | _ => .ok (none, i)

/-- The digits before the point: one zero, or digits of which the first is not zero. -/
def whole (i : Input) : Except Faults (List Nat × Input) :=
  match digits i.rest i.place with
  | ([], _) =>
    let invalid := i.faultAhead .invalidNumber
    .error (if i.rest.isEmpty then (i.fault .endInValue, invalid) else bothWays invalid)
  | (0 :: _ :: _, _) =>
    .error (bothWays ⟨.invalidNumber, ⟨i.place.line, i.place.column + 2⟩⟩)
  | (ds, after) => .ok (ds, after)

def numeral (i : Input) : Except Faults (Numeral × Input) := do
  let (negative, i) : Bool × Input := match i.rest with
    | '-' :: rest => (true, i.next '-' rest)
    | _ => (false, i)
  let (whole, i) ← whole i
  let (fraction, i) ← fraction i
  let (exponent, i) ← exponent i
  return (⟨negative, whole, fraction, exponent⟩, i)

/-! ## Values -/

/-- The input after the characters `expected`. -/
def literal : (expected : List Char) → Input → Except Faults Input
  | [], i => .ok i
  | e :: expected, i =>
    match i.rest with
    | [] => .error (bothWays (i.fault .endInValue))
    | c :: rest =>
      if c = e then literal expected (i.next c rest)
      else .error (bothWays (i.faultAhead .expectedLiteral))

/-- Something scanned, and the input after it unless the text is broken. -/
abbrev Scanned (α : Type) := α × Except Faults Input

/-- Where no value can be made out. -/
def brokenValue (i : Input) (f : Faults) : Scanned (Document Position) :=
  (.broken (i.place.nextByte i.rest) f.1 f.2, .error f)

def brokenElements (f : Faults) : Scanned (Elements Position) := (.broken f.1 f.2, .error f)

def brokenMembers (f : Faults) : Scanned (Members Position) := (.broken f.1 f.2, .error f)

/-- A scalar that starts at `i`, made from what a scan of it gives. -/
def scalar {α : Type} (i : Input) (make : α → Token Position → Document Position) :
    Except Faults (α × Input) → Scanned (Document Position)
  | .ok (a, j) => (make a ⟨i.place.nextByte i.rest, j.place⟩, .ok j)
  | .error f => brokenValue i f

/-- A string whose opening quotation mark has been passed, read and skipped at once. -/
def stringToken (i : Input) : Except Faults (Except (Fault Position) String × Input) :=
  let read := (readString i.rest i.place).map fun r => String.ofList r.1
  match skipString i.rest i.place with
  | .ok after => .ok (read, after)
  | .error skipping =>
    match read with
    | .error reading => .error (reading, skipping)
    | .ok _ => .error (bothWays skipping)

/-- The number of brackets that may be open at once. -/
def nestingLimit : Nat := 127

mutual

/-- The next value, inside `depth` open brackets. -/
def scanValue : (fuel : Nat) → (depth : Nat) → Input → Scanned (Document Position)
  | 0, _, i => brokenValue i (bothWays (i.fault .endInValue))
  | fuel + 1, depth, i =>
    let i := i.skipBlanks
    match i.rest with
    | [] => brokenValue i (bothWays (i.faultAhead .endInValue))
    | c :: rest =>
      let after := i.next c rest
      if c = 'n' then scalar i (fun _ t => .null t) ((literal ['u', 'l', 'l'] after).map ((), ·))
      else if c = 't' then
        scalar i (fun _ t => .bool true t) ((literal ['r', 'u', 'e'] after).map ((), ·))
      else if c = 'f' then
        scalar i (fun _ t => .bool false t) ((literal ['a', 'l', 's', 'e'] after).map ((), ·))
      else if c = '-' ∨ c.isDigit then
        scalar i .number ((numeral i).map fun (n, j) => (n.value j.place, j))
      else if c = '"' then scalar i .string (stringToken after)
      else if c = '[' then
        let (elements, i') := scanElements fuel (depth + 1) after
        (.array ⟨i.place, after.place, after.settleList, nestingLimit ≤ depth⟩ elements, i')
      else if c = '\x7b' then
        let (members, i') := scanMembers fuel (depth + 1) after
        (.object ⟨i.place, after.place, after.settle '\x7d', nestingLimit ≤ depth⟩ members, i')
      else brokenValue i (bothWays (i.faultAhead .expectedValue))

/-- The elements of a list after its opening bracket. -/
def scanElements : (fuel : Nat) → (depth : Nat) → Input → Scanned (Elements Position)
  | 0, _, i => brokenElements (bothWays (i.fault .endInList))
  | fuel + 1, depth, i =>
    let i := i.skipBlanks
    match i.rest with
    | [] => brokenElements (bothWays (i.faultAhead .endInList))
    | c :: rest => if c = ']' then (.close, .ok (i.next c rest)) else scanElement fuel depth i

/-- The elements of a list from one that has to be there. -/
def scanElement : (fuel : Nat) → (depth : Nat) → Input → Scanned (Elements Position)
  | 0, _, i => brokenElements (bothWays (i.fault .endInList))
  | fuel + 1, depth, i =>
    let (first, after) := scanValue fuel depth i
    let (rest, i) : Scanned (Elements Position) := match after with
      | .error f => brokenElements f
      | .ok i =>
        let i := i.skipBlanks
        match i.rest with
        | [] => brokenElements (bothWays (i.faultAhead .endInList))
        | c :: rest =>
          if c = ']' then (.close, .ok (i.next c rest))
          else if c = ',' then
            let i := (i.next c rest).skipBlanks
            match i.rest with
            | ']' :: _ => brokenElements (i.faultAhead .trailingComma, i.faultAhead .expectedValue)
            | _ => scanElement fuel depth i
          else brokenElements (bothWays (i.faultAhead .expectedCommaOrBracket))
    (.cons first rest, i)

/-- The members of an object after its opening brace. -/
def scanMembers : (fuel : Nat) → (depth : Nat) → Input → Scanned (Members Position)
  | 0, _, i => brokenMembers (bothWays (i.fault .endInObject))
  | fuel + 1, depth, i =>
    let i := i.skipBlanks
    match i.rest with
    | [] => brokenMembers (bothWays (i.faultAhead .endInObject))
    | c :: rest =>
      if c = '\x7d' then (.close, .ok (i.next c rest))
      else if c = '"' then scanMember fuel depth (i.next c rest)
      else brokenMembers (bothWays (i.faultAhead .keyNotString))

/-- The members of an object from one whose first quotation mark has been passed. -/
def scanMember : (fuel : Nat) → (depth : Nat) → Input → Scanned (Members Position)
  | 0, _, i => brokenMembers (bothWays (i.fault .endInObject))
  | fuel + 1, depth, i =>
    match stringToken i with
    | .error f => brokenMembers f
    | .ok (name, i) =>
      let token : NameToken Position := ⟨i.place, i.settle '\x7d'⟩
      let i := i.skipBlanks
      let (value, after) : Scanned (Document Position) := match i.rest with
        | [] => brokenValue i (bothWays (i.faultAhead .endInObject))
        | c :: rest =>
          if c = ':' then scanValue fuel depth (i.next c rest)
          else brokenValue i (bothWays (i.faultAhead .expectedColon))
      match after with
      | .error f => (.cons name token value i.place (.broken f.1 f.2), .error f)
      | .ok i =>
        let settled := i.settle '\x7d'
        let i := i.skipBlanks
        let (rest, i) : Scanned (Members Position) := match i.rest with
          | [] => brokenMembers (bothWays (i.faultAhead .endInObject))
          | c :: rest =>
            if c = '\x7d' then (.close, .ok (i.next c rest))
            else if c = ',' then
              let i := (i.next c rest).skipBlanks
              match i.rest with
              | [] => brokenMembers (i.faultAhead .endInValue, i.faultAhead .endInObject)
              | c :: rest =>
                if c = '"' then scanMember fuel depth (i.next c rest)
                else if c = '\x7d' then
                  brokenMembers (i.faultAhead .trailingComma, i.faultAhead .keyNotString)
                else brokenMembers (bothWays (i.faultAhead .keyNotString))
            else brokenMembers (bothWays (i.faultAhead .expectedCommaOrBrace))
        (.cons name token value settled rest, i)

end

/-- The first value of a text, and where the text goes on. Every two steps of the scan pass a
character, which bounds the fuel. -/
def scan (text : String) : Scanned (Document Position) :=
  let cs := text.toList
  scanValue (2 * cs.length + 2) 0 ⟨cs, .start⟩

/-- The document that a text starts with; what follows it is left alone. -/
def Document.ofText (text : String) : Document Position := (scan text).1

/-- The fault of a text that goes on after a value has been scanned. -/
def trailingFault? : Except Faults Input → Option (Fault Position)
  | .error _ => none
  | .ok i =>
    let i := i.skipBlanks
    if i.rest.isEmpty then none else some (i.faultAhead .trailingCharacters)

/-- What `read` makes of the document of a text that is one value and nothing else. -/
def readWhole {ε α : Type} (fault : Fault Position → ε) (read : Document Position → Except ε α)
    (text : String) : Except ε α := do
  let (document, after) := scan text
  let a ← read document
  match trailingFault? after with
  | none => return a
  | some f => .error (fault f)

/-- The value of a text that is one JSON value and nothing else. -/
def Json.ofText (text : String) : Except (Fault Position) Json :=
  readWhole id Document.toJson text

end SchemaCompiler
