import SchemaCompiler.Filter.Basic
import SchemaCompiler.Filter.Token
import SchemaCompiler.Json.Scan

/-!
# The grammar of filter programs

`Filter.ofProgram?` reads a program. Operators bind the tighter the later they stand in `|`, `,`,
`//`, `or`, `and`, `==`, `+`; of `|` and `//` the right operand takes what follows, of the others
the left one. A sign binds tighter than all of them, and the parts of a path tighter than a sign.
-/

namespace SchemaCompiler

namespace Filter

structure Operator where
  strength : Nat
  toRight : Bool
  apply : Filter → Filter → Filter

def operator? : FilterToken → Option Operator
  | .symbol "|" => some ⟨0, true, pipe⟩
  | .symbol "," => some ⟨1, false, both⟩
  | .symbol "//" => some ⟨2, true, orElse⟩
  | .word "or" => some ⟨3, false, disj⟩
  | .word "and" => some ⟨4, false, conj⟩
  | .symbol "==" => some ⟨5, false, equal⟩
  | .symbol "!=" => some ⟨5, false, unequal⟩
  | .symbol "+" => some ⟨6, false, add⟩
  | _ => none

/-- The words that name no filter. -/
def keywords : List String :=
  ["include", "import", "def", "as", "and", "or", "if", "then", "elif", "else", "end", "try",
    "catch", "reduce", "foreach", "label", "break", "__loc__"]

def ofNumeral (digits : List Char) : Option Filter :=
  let digits := match digits.dropWhile (· == '0') with
    | [] => ['0']
    | c :: cs => if c.isDigit then c :: cs else '0' :: c :: cs
  match Json.ofText (String.ofList digits) with
  | .ok value => some (.literal value)
  | .error _ => none

def named (name : String) (arguments : List Filter) : Option Filter :=
  if keywords.contains name then none
  else match name, arguments with
    | "null", [] => some (.literal .null)
    | "true", [] => some (.literal (.bool true))
    | "false", [] => some (.literal (.bool false))
    | name, arguments => some (.call name arguments)

/-- Whether question marks follow, and the tokens after them. -/
def questionMarks : List FilterToken → Bool × List FilterToken
  | .symbol "?" :: ts => (true, (questionMarks ts).2)
  | ts => (false, ts)

/-- A part of a path that may be made lenient. -/
abbrev Part := Bool → PathPart

def key (name : String) : Filter := .literal (.string name)

/-- `.name` -/
def member (name : String) : Filter := .path .identity [.index (key name) false]

/-- A filter and the parts after it, which may be none. -/
def withParts (f : Filter) : List PathPart → Filter
  | [] => f
  | parts => .path f parts

/-- What has been read if the next token is `text`. -/
def close {α : Type} (text : String) (a : α) : List FilterToken → Option (α × List FilterToken)
  | .symbol s :: ts => if s = text then some (a, ts) else none
  | _ => none

mutual

/-- A filter with operators at least as strong as `strength`, with `,` only if `commas`. -/
def parseChain : (fuel : Nat) → (commas : Bool) → (strength : Nat) → List FilterToken →
    Option (Filter × List FilterToken)
  | 0, _, _, _ => none
  | fuel + 1, commas, strength, ts => do
    let (f, ts) ← parseSigned fuel ts
    parseOperators fuel commas strength f ts

/-- The operators after a first operand. -/
def parseOperators : (fuel : Nat) → (commas : Bool) → (strength : Nat) → Filter →
    List FilterToken → Option (Filter × List FilterToken)
  | 0, _, _, _, _ => none
  | _ + 1, _, _, f, [] => some (f, [])
  | fuel + 1, commas, strength, f, t :: ts =>
    match operator? t with
    | none => some (f, t :: ts)
    | some op =>
      if op.strength < strength || (t == .symbol "," && !commas) then some (f, t :: ts)
      else do
        let (g, ts) ←
          parseChain fuel commas (if op.toRight then op.strength else op.strength + 1) ts
        parseOperators fuel commas strength (op.apply f g) ts

def parseSigned : (fuel : Nat) → List FilterToken → Option (Filter × List FilterToken)
  | 0, _ => none
  | fuel + 1, .symbol "-" :: ts => do
    let (f, ts) ← parseSigned fuel ts
    some (.negate f, ts)
  | fuel + 1, ts => do
    let (f, ts) ← parseTerm fuel ts
    let (lenient, ts) := questionMarks ts
    let (parts, ts) ← parseParts fuel ts
    some (withParts (if lenient then .attempt f else f) parts, ts)

/-- A term, and of a path that starts with a point all parts. -/
def parseTerm : (fuel : Nat) → List FilterToken → Option (Filter × List FilterToken)
  | 0, _ => none
  | _ + 1, .numeral digits :: ts => do some (← ofNumeral digits, ts)
  | _ + 1, .string s :: ts => some (.literal (.string s), ts)
  | _ + 1, .variable name :: ts => some (.variable name, ts)
  | _ + 1, .symbol ".." :: ts => some (.descendants, ts)
  | fuel + 1, .member name :: ts => do
    let (parts, ts) ← parseParts fuel (.member name :: ts)
    some (withParts .identity parts, ts)
  | fuel + 1, .symbol "." :: .string s :: ts => do
    let (parts, ts) ← parseParts fuel (.symbol "." :: .string s :: ts)
    some (withParts .identity parts, ts)
  | _ + 1, .symbol "." :: ts => some (.identity, ts)
  | _ + 1, .symbol "[" :: .symbol "]" :: ts => some (.list none, ts)
  | fuel + 1, .symbol "[" :: ts => do
    let (f, ts) ← parseChain fuel true 0 ts
    close "]" (.list (some f)) ts
  | fuel + 1, .symbol "(" :: ts => do
    let (f, ts) ← parseChain fuel true 0 ts
    close ")" f ts
  | _ + 1, .symbol "\x7b" :: .symbol "\x7d" :: ts => some (.record [], ts)
  | fuel + 1, .symbol "\x7b" :: ts => do
    let (entries, ts) ← parseEntries fuel ts
    some (.record entries, ts)
  | fuel + 1, .word "if" :: ts => parseCondition fuel ts
  | fuel + 1, .word name :: .symbol "(" :: ts => do
    let (arguments, ts) ← parseArguments fuel ts
    some (← named name arguments, ts)
  | _ + 1, .word name :: ts => do some (← named name [], ts)
  | _ + 1, _ => none

/-- A condition after its `if` or `elif`. -/
def parseCondition : (fuel : Nat) → List FilterToken → Option (Filter × List FilterToken)
  | 0, _ => none
  | fuel + 1, ts => do
    let (c, ts) ← parseChain fuel true 0 ts
    let .word "then" :: ts := ts | none
    let (t, ts) ← parseChain fuel true 0 ts
    match ts with
    | .word "end" :: ts => some (.cond c t .identity, ts)
    | .word "else" :: ts =>
      let (e, ts) ← parseChain fuel true 0 ts
      let .word "end" :: ts := ts | none
      some (.cond c t e, ts)
    | .word "elif" :: ts =>
      let (e, ts) ← parseCondition fuel ts
      some (.cond c t e, ts)
    | _ => none

def parseArguments : (fuel : Nat) → List FilterToken → Option (List Filter × List FilterToken)
  | 0, _ => none
  | fuel + 1, ts => do
    let (f, ts) ← parseChain fuel true 0 ts
    match ts with
    | .symbol ")" :: ts => some ([f], ts)
    | .symbol ";" :: ts =>
      let (rest, ts) ← parseArguments fuel ts
      some (f :: rest, ts)
    | _ => none

/-- Entries of a record up to the closing brace. -/
def parseEntries : (fuel : Nat) → List FilterToken →
    Option (List (Filter × Filter) × List FilterToken)
  | 0, _ => none
  | fuel + 1, ts => do
    let (entry, ts) ← parseEntry fuel ts
    match ts with
    | .symbol "\x7d" :: ts => some ([entry], ts)
    | .symbol "," :: ts =>
      let (rest, ts) ← parseEntries fuel ts
      some (entry :: rest, ts)
    | _ => none

/-- An entry of a record; a name alone stands for the member of that name. -/
def parseEntry : (fuel : Nat) → List FilterToken →
    Option ((Filter × Filter) × List FilterToken)
  | 0, _ => none
  | fuel + 1, ts => do
    let (k, default, ts) ← match ts with
      | .word name :: ts => some (key name, some (member name), ts)
      | .string name :: ts => some (key name, some (member name), ts)
      | .variable name :: ts => some (key name, some (.variable name), ts)
      | .symbol "(" :: ts => do
        let (f, ts) ← parseChain fuel true 0 ts
        let (f, ts) ← close ")" f ts
        some (f, none, ts)
      | _ => none
    match ts, default with
    | .symbol ":" :: ts, _ =>
      let (f, ts) ← parseChain fuel false 0 ts
      some ((k, f), ts)
    | ts, some f => some ((k, f), ts)
    | _, none => none

def parseParts : (fuel : Nat) → List FilterToken → Option (List PathPart × List FilterToken)
  | 0, _ => none
  | fuel + 1, .member name :: ts => parseMoreParts fuel (.index (key name)) ts
  | fuel + 1, .symbol "." :: .string name :: ts => parseMoreParts fuel (.index (key name)) ts
  | fuel + 1, .symbol "." :: .symbol "[" :: ts => do
    let (part, ts) ← parseBracket fuel ts
    parseMoreParts fuel part ts
  | fuel + 1, .symbol "[" :: ts => do
    let (part, ts) ← parseBracket fuel ts
    parseMoreParts fuel part ts
  | _ + 1, ts => some ([], ts)

/-- The question marks after a part, and the parts after it. -/
def parseMoreParts : (fuel : Nat) → Part → List FilterToken →
    Option (List PathPart × List FilterToken)
  | 0, _, _ => none
  | fuel + 1, part, ts => do
    let (lenient, ts) := questionMarks ts
    let (parts, ts) ← parseParts fuel ts
    some (part lenient :: parts, ts)

/-- A part in brackets after the opening one. -/
def parseBracket : (fuel : Nat) → List FilterToken → Option (Part × List FilterToken)
  | 0, _ => none
  | _ + 1, .symbol "]" :: ts => some (.each, ts)
  | fuel + 1, .symbol ":" :: ts => do
    let (b, ts) ← parseChain fuel true 0 ts
    close "]" (.slice none (some b)) ts
  | fuel + 1, ts => do
    let (a, ts) ← parseChain fuel true 0 ts
    match ts with
    | .symbol "]" :: ts => some (.index a, ts)
    | .symbol ":" :: .symbol "]" :: ts => some (.slice (some a) none, ts)
    | .symbol ":" :: ts =>
      let (b, ts) ← parseChain fuel true 0 ts
      close "]" (.slice (some a) (some b)) ts
    | _ => none

end

/-- The filter of some tokens. Between two tokens the fuel is spent at most eight times. -/
def ofTokens? (ts : List FilterToken) : Option Filter := do
  let (f, rest) ← parseChain (8 * ts.length + 8) true 0 ts
  if rest.isEmpty then some f else none

def ofProgram? (program : String) : Option Filter :=
  (FilterToken.ofProgram program).bind ofTokens?

end Filter

end SchemaCompiler
