import SchemaCompiler.Options
import SchemaCompiler.Text.Decimal

/-!
# Command line arguments

`Settings.ofArguments` reads the arguments of the command from left to right. A parameter has a
value, which is in the same argument or is the next one; a switch has none. All but `-v` may be
given once.
-/

namespace SchemaCompiler

/-- What the command is asked to do. -/
structure Settings where
  /-- A file or a text to read the schema from; standard input if none. -/
  input : Option String := none
  /-- The file that the code is written to; standard output if none. -/
  output : Option String := none
  options : Options := {}
  /-- Where the schema is in the input. -/
  pointer : Option String := none
  /-- The filter that makes the schema of the input. -/
  filter : Option String := none
  strict : Bool := false
  deriving DecidableEq, Repr

/-- A setting that has a value. -/
inductive Parameter where
  | input
  | output
  | name
  | style
  | depth
  | pointer
  | filter
  deriving DecidableEq, Repr

/-- A setting without a value. -/
inductive Switch where
  | types
  | comments
  | privateDefinitions
  | strict
  | verbose
  | help
  | version
  deriving DecidableEq, Repr

inductive Setting where
  | parameter (p : Parameter)
  | switch (s : Switch)
  deriving DecidableEq, Repr

namespace Setting

def long? : String → Option Setting
  | "input" => some (.parameter .input)
  | "output" => some (.parameter .output)
  | "name" => some (.parameter .name)
  | "module" => some (.parameter .style)
  | "depth" => some (.parameter .depth)
  | "json-pointer" => some (.parameter .pointer)
  | "jq-expr" => some (.parameter .filter)
  | "types" => some (.switch .types)
  | "jsdoc" => some (.switch .comments)
  | "no-export-definitions" => some (.switch .privateDefinitions)
  | "strict" => some (.switch .strict)
  | "verbose" => some (.switch .verbose)
  | "help" => some (.switch .help)
  | "version" => some (.switch .version)
  | _ => none

def short? : Char → Option Setting
  | 'i' => some (.parameter .input)
  | 'o' => some (.parameter .output)
  | 'n' => some (.parameter .name)
  | 'm' => some (.parameter .style)
  | 't' => some (.switch .types)
  | 'd' => some (.switch .comments)
  | 'v' => some (.switch .verbose)
  | 'h' => some (.switch .help)
  | 'V' => some (.switch .version)
  | _ => none

end Setting

inductive UsageError where
  | unexpectedArgument (argument : String)
  | repeated (setting : Setting)
  | missingValue (parameter : Parameter)
  | badValue (parameter : Parameter) (value : String)
  | unexpectedValue (switch : Switch)
  deriving DecidableEq, Repr

inductive NoSettings where
  | usage (error : UsageError)
  | showHelp
  | showVersion
  deriving DecidableEq, Repr

/-- A count below `2 ^ 64`; a plus sign may stand before it. -/
def readCount? (text : String) : Option Nat :=
  let digits := match text.toList with
    | '+' :: cs => cs
    | cs => cs
  (decimal? digits).filter (· < Nat.pow 2 64)

namespace Settings

/-- The settings with a parameter set, if the value is one for it. -/
def assign? (s : Settings) (value : String) : Parameter → Option Settings
  | .input => some { s with input := some value }
  | .output => if value.isEmpty then none else some { s with output := some value }
  | .name => some { s with options.name := value }
  | .style => (ModuleStyle.ofName? value).map fun style => { s with options.style := style }
  | .depth => (readCount? value).map fun depth => { s with options.maxDepth := depth }
  | .pointer => some { s with pointer := some value }
  | .filter => some { s with filter := some value }

end Settings

/-- The settings that the arguments so far ask for. -/
structure Reader where
  settings : Settings := {}
  given : List Setting := []
  /-- A parameter whose value is the next argument. -/
  awaiting : Option Parameter := none

namespace Reader

def give (r : Reader) (setting : Setting) : Except NoSettings Reader :=
  if r.given.contains setting then .error (.usage (.repeated setting))
  else .ok { r with given := setting :: r.given }

def assign (r : Reader) (p : Parameter) (value : String) : Except NoSettings Reader := do
  let r ← r.give (.parameter p)
  match r.settings.assign? value p with
  | some settings => return { r with settings, awaiting := none }
  | none => .error (.usage (.badValue p value))

def flip (r : Reader) (s : Switch) : Except NoSettings Reader :=
  match s with
  | .help => .error .showHelp
  | .version => .error .showVersion
  | .verbose => .ok r
  | .types => do
    let r ← r.give (.switch s)
    return { r with settings.options.withTypes := true }
  | .comments => do
    let r ← r.give (.switch s)
    return { r with settings.options.withComments := true }
  | .privateDefinitions => do
    let r ← r.give (.switch s)
    return { r with settings.options.exportDefinitions := false }
  | .strict => do
    let r ← r.give (.switch s)
    return { r with settings.strict := true }

/-- An argument `--name` or `--name=value`, less its dashes. -/
def readLong (r : Reader) (text : List Char) : Except NoSettings Reader :=
  let name := String.ofList (text.takeWhile (· != '='))
  match Setting.long? name, text.dropWhile (· != '=') with
  | none, _ => .error (.usage (.unexpectedArgument ("--" ++ name)))
  | some (.parameter p), [] => .ok { r with awaiting := some p }
  | some (.parameter p), _ :: value => r.assign p (String.ofList value)
  | some (.switch s), [] => r.flip s
  | some (.switch s), _ :: _ => .error (.usage (.unexpectedValue s))

/-- An argument of short names, less its dash; the first parameter among them takes the rest as
its value, less an equals sign. -/
def readShort (r : Reader) : List Char → Except NoSettings Reader
  | [] => .ok r
  | c :: rest =>
    match Setting.short? c, rest with
    | none, _ => .error (.usage (.unexpectedArgument (String.ofList ['-', c])))
    | some (.switch s), rest => do (← r.flip s).readShort rest
    | some (.parameter p), [] => .ok { r with awaiting := some p }
    | some (.parameter p), '=' :: value => r.assign p (String.ofList value)
    | some (.parameter p), value => r.assign p (String.ofList value)

/-- An argument that names settings waits for no value. -/
def expectNone (r : Reader) : Except NoSettings Unit :=
  match r.awaiting with
  | some p => .error (.usage (.missingValue p))
  | none => .ok ()

/-- Read all arguments; after `--` there may be none. -/
def readAll (r : Reader) : List String → Except NoSettings Settings
  | [] => do
    r.expectNone
    return r.settings
  | argument :: rest =>
    match argument.toList, r.awaiting with
    | ['-', '-'], _ => do
      r.expectNone
      match rest with
      | [] => return r.settings
      | unexpected :: _ => .error (.usage (.unexpectedArgument unexpected))
    | '-' :: '-' :: text, _ => do
      r.expectNone
      (← r.readLong text).readAll rest
    | '-' :: c :: text, _ => do
      r.expectNone
      (← r.readShort (c :: text)).readAll rest
    | _, some p => do (← r.assign p argument).readAll rest
    | _, none => .error (.usage (.unexpectedArgument argument))

end Reader

def Settings.ofArguments (arguments : List String) : Except NoSettings Settings :=
  Reader.readAll {} arguments

namespace Parameter

def long : Parameter → String
  | .input => "--input <INPUT>"
  | .output => "--output <OUTPUT>"
  | .name => "--name <NAME>"
  | .style => "--module <MODULE>"
  | .depth => "--depth <DEPTH>"
  | .pointer => "--json-pointer <JSON_POINTER>"
  | .filter => "--jq-expr <JQ_EXPR>"

end Parameter

namespace Switch

def long : Switch → String
  | .types => "--types"
  | .comments => "--jsdoc"
  | .privateDefinitions => "--no-export-definitions"
  | .strict => "--strict"
  | .verbose => "--verbose"
  | .help => "--help"
  | .version => "--version"

end Switch

def Setting.long : Setting → String
  | .parameter p => p.long
  | .switch s => s.long

def UsageError.message : UsageError → String
  | .unexpectedArgument argument => "unexpected argument '" ++ argument ++ "' found"
  | .repeated setting =>
    "the argument '" ++ setting.long ++ "' cannot be used multiple times"
  | .missingValue p => "a value is required for '" ++ p.long ++ "' but none was supplied"
  | .badValue p value => "invalid value '" ++ value ++ "' for '" ++ p.long ++ "'"
  | .unexpectedValue s => "unexpected value for '" ++ s.long ++ "' found; no more were expected"

end SchemaCompiler
