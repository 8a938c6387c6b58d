import SchemaCompiler.Text.Blank
import SchemaCompiler.Text.Escape

/-!
# Tokens of filter programs

A program is cut into words, variables, numerals, strings and symbols; white space and comments
stand between them. A run of operator characters is one symbol, and so is a point with the word
after it.
-/

namespace SchemaCompiler

inductive FilterToken where
  | word (name : String)
  /-- `$name` -/
  | variable (name : String)
  | numeral (digits : List Char)
  | string (value : String)
  /-- `.name` -/
  | member (name : String)
  | symbol (text : String)
  deriving DecidableEq, Repr

namespace FilterToken

def startsWord (c : Char) : Bool := c.isAlpha || c == '_'

def continuesWord (c : Char) : Bool := c.isAlphanum || c == '_'

def isOperator (c : Char) : Bool := "|=!<>+-*/%".toList.contains c

def isMark (c : Char) : Bool := ":;,?()[]\x7b\x7d".toList.contains c

/-- The word at the start of a text, and the text after it. -/
def takeWord (cs : List Char) : String × List Char :=
  (String.ofList (cs.takeWhile continuesWord), cs.dropWhile continuesWord)

/-- At least one digit, and the text after the digits. -/
def takeDigits (cs : List Char) : Option (List Char × List Char) :=
  let digits := cs.takeWhile Char.isDigit
  if digits.isEmpty then none else some (digits, cs.dropWhile Char.isDigit)

/-- Digits with a fraction and an exponent, each of which may be missing. -/
def takeNumeral (cs : List Char) : Option (List Char × List Char) := do
  let (whole, cs) ← takeDigits cs
  let (fraction, cs) ← match cs with
    | '.' :: cs => do
      let (digits, cs) ← takeDigits cs
      some ('.' :: digits, cs)
    | cs => some ([], cs)
  let (exponent, cs) ← match cs with
    | e :: cs =>
      if e == 'e' || e == 'E' then do
        let (sign, cs) := match cs with
          | '-' :: cs => (['-'], cs)
          | '+' :: cs => ([], cs)
          | cs => ([], cs)
        let (digits, cs) ← takeDigits cs
        some (e :: sign ++ digits, cs)
      else some ([], e :: cs)
    | [] => some ([], [])
  some (whole ++ fraction ++ exponent, cs)

/-- The string up to a quotation mark, and the text after that. -/
def takeString : List Char → Option (List Char × List Char)
  | [] => none
  | '"' :: cs => some ([], cs)
  | '\\' :: 'u' :: a :: b :: c :: d :: cs => do
    let unit ← hexQuad? a b c d
    if isHighSurrogate unit || isLowSurrogate unit then none else
      let (rest, cs) ← takeString cs
      some (Char.ofNat unit :: rest, cs)
  | '\\' :: c :: cs => do
    let char ← simpleEscape? c
    let (rest, cs) ← takeString cs
    some (char :: rest, cs)
  | c :: cs => do
    let (rest, cs) ← takeString cs
    some (c :: rest, cs)

/-- The text past its white space and comments. -/
def skipSpace : (inComment : Bool) → List Char → List Char
  | _, [] => []
  | true, c :: cs => skipSpace (c != '\n') cs
  | false, c :: cs =>
    if isWhite c then skipSpace false cs else if c == '#' then skipSpace true cs else c :: cs

def take : List Char → Option (FilterToken × List Char)
  | [] => none
  | '.' :: '.' :: cs => some (.symbol "..", cs)
  | '.' :: c :: cs =>
    if startsWord c then
      let (name, cs) := takeWord (c :: cs)
      some (.member name, cs)
    else some (.symbol ".", c :: cs)
  | '.' :: cs => some (.symbol ".", cs)
  | '"' :: cs => do
    let (s, cs) ← takeString cs
    some (.string (String.ofList s), cs)
  | '$' :: c :: cs =>
    if startsWord c then
      let (name, cs) := takeWord (c :: cs)
      some (.variable name, cs)
    else none
  | c :: cs =>
    if startsWord c then
      let (name, cs) := takeWord (c :: cs)
      some (.word name, cs)
    else if c.isDigit then do
      let (digits, cs) ← takeNumeral (c :: cs)
      some (.numeral digits, cs)
    else if isOperator c then
      let run := (c :: cs).takeWhile isOperator
      some (.symbol (String.ofList run), (c :: cs).dropWhile isOperator)
    else if isMark c then some (.symbol (String.singleton c), cs)
    else none

/-- The tokens of a text, at most `fuel`. -/
def takeAll : (fuel : Nat) → List Char → Option (List FilterToken)
  | 0, _ => none
  | fuel + 1, cs =>
    match skipSpace false cs with
    | [] => some []
    | cs => do
      let (token, cs) ← take cs
      return token :: (← takeAll fuel cs)

def ofProgram (program : String) : Option (List FilterToken) :=
  takeAll (program.toList.length + 1) program.toList

end FilterToken

end SchemaCompiler
