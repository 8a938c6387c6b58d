import SchemaCompiler.CommandLine.Arguments
import SchemaCompiler.CommandLine.FileTree
import SchemaCompiler.Error
import SchemaCompiler.Text.Blank

/-!
# Running the command

`runCommand` reads a schema, converts it and writes the code, by the means of a `Host`: the file
system, or a `FileTree` in memory. It answers what goes to standard output and standard error, and
the exit code: `0`, or `1` if the conversion or a file operation has failed or diagnostics count as
failures, or `2` for arguments that are not in order.
-/

namespace SchemaCompiler

/-- The means by which the command reads and writes. -/
structure Host (m : Type → Type) where
  readInput : m (Except FileFault String)
  readFile (path : String) : m (Except FileFault String)
  writeFile (path text : String) : m (Except FileFault Unit)
  createDirectory (path : String) : m (Except FileFault Unit)
  isDirectory (path : String) : m Bool

namespace Host

variable {m : Type → Type} [Monad m]

/-- Create a directory in one that is there, unless it is there already. -/
def ensureDirectory (host : Host m) (path : String) : m (Except FileFault Unit) := do
  match ← host.createDirectory path with
  | .ok () => return .ok ()
  | .error fault => if ← host.isDirectory path then return .ok () else return .error fault

/-- Create a directory and at most `fuel` of those above it. -/
def ensureWithin (host : Host m) : (fuel : Nat) → String → m (Except FileFault Unit)
  | 0, path => host.ensureDirectory path
  | fuel + 1, path => do
    match ← host.ensureDirectory path, parentPath? path with
    | .error .missing, some parent =>
      match ← host.ensureWithin fuel parent with
      | .ok () => host.ensureDirectory path
      | .error fault => return .error fault
    | made, _ => return made

/-- Create a directory and those above it that are missing. -/
def createDirectories (host : Host m) (path : String) : m (Except FileFault Unit) :=
  host.ensureWithin (pathNames path).length path

end Host

structure Outcome where
  exitCode : Nat
  output : String := ""
  messages : List String := []
  deriving DecidableEq, Repr

inductive CommandError where
  | input (fault : FileFault)
  | inputFile (path : String) (fault : FileFault)
  | conversion (cause : ConversionError)
  | directory (path : String) (fault : FileFault)
  | outputFile (path : String) (fault : FileFault)
  deriving DecidableEq, Repr

def CommandError.message : CommandError → String
  | .input fault => "failed to read schema from stdin: " ++ fault.message
  | .inputFile path fault => s!"failed to read schema file `{path}`: {fault.message}"
  | .conversion cause => ": ".intercalate (cause.message :: cause.cause?.toList)
  | .directory path fault => s!"failed to create {path}: {fault.message}"
  | .outputFile path fault => s!"failed to write {path}: {fault.message}"

/-- Whether an argument is a schema itself and no file: it starts with a bracket or a brace. -/
def isInlineJson (text : String) : Bool :=
  match text.toList.dropWhile isWhite with
  | '\x7b' :: _ => true
  | '[' :: _ => true
  | _ => false

namespace Settings

/-- Convert a text: a schema, or a document that has it at the pointer and in the filter's
output. -/
def convert (s : Settings) (text : String) : Except ConversionError Conversion :=
  if s.pointer.isNone && s.filter.isNone then convertText text s.options
  else do
    let document ← readJsonText text
    let selected ← s.pointer.elim (.ok document) (selectValue · document)
    let schema ← s.filter.elim (.ok selected) (filterOutput · selected)
    convertValue schema s.options

variable {m : Type → Type} [Monad m]

/-- A file operation whose fault is a failure of the command. -/
def orFail {α : Type} (failure : FileFault → CommandError) (operation : m (Except FileFault α)) :
    ExceptT CommandError m α :=
  ExceptT.mk do return (← operation).mapError failure

/-- The text that the settings name as input. -/
def readSource (s : Settings) (host : Host m) : ExceptT CommandError m String :=
  match s.input with
  | none => orFail .input host.readInput
  | some "-" => orFail .input host.readInput
  | some text =>
    if isInlineJson text then return text else orFail (.inputFile text) (host.readFile text)

/-- Write the code to a file in directories that are made for it. -/
def writeCode (host : Host m) (path code : String) : ExceptT CommandError m Unit := do
  if let some parent := parentPath? path then
    orFail (.directory parent) (host.createDirectories parent)
  orFail (.outputFile path) (host.writeFile path code)

def execute (s : Settings) (host : Host m) : ExceptT CommandError m Outcome := do
  let text ← s.readSource host
  let conversion ← ExceptT.mk (pure ((s.convert text).mapError .conversion))
  let failures := if s.strict then conversion.diagnostics.length else 0
  let exitCode := if failures = 0 then 0 else 1
  let verdict :=
    if failures = 0 then [] else [s!"✗ {failures} diagnostic(s) in strict mode"]
  match s.output with
  | none => return ⟨exitCode, conversion.code, verdict⟩
  | some path =>
    writeCode host path conversion.code
    return ⟨exitCode, "", s!"✓ wrote {path}" :: verdict⟩

end Settings

def versionText : String := "json-valibot 0.1.0\n"

def helpText : String := "convert a JSON Schema document into Valibot validator code

Usage: json-valibot [OPTIONS]

Options:
  -i, --input <INPUT>                schema file, inline JSON, or '-' for stdin (the default)
  -o, --output <OUTPUT>              output file (stdout if omitted)
  -n, --name <NAME>                  binding name of the root schema [default: schema]
  -m, --module <MODULE>              module style: esm, cjs or none [default: esm]
  -t, --types                        also emit the root's TypeScript type
  -d, --jsdoc                        copy descriptions into JSDoc comments
      --depth <DEPTH>                depth beyond which schemas become `v.any()` [default: 10]
      --no-export-definitions        keep definition bindings private to the module
      --json-pointer <JSON_POINTER>  JSON Pointer selecting the schema inside the input
      --jq-expr <JQ_EXPR>            jq filter applied to the input before conversion
      --strict                       exit non-zero when the conversion produced diagnostics
  -v, --verbose                      more logging, repeatable
  -h, --help                         Print help
  -V, --version                      Print version
"

variable {m : Type → Type} [Monad m]

def runCommand (host : Host m) (arguments : List String) : m Outcome :=
  match Settings.ofArguments arguments with
  | .error .showVersion => return { exitCode := 0, output := versionText }
  | .error .showHelp => return { exitCode := 0, output := helpText }
  | .error (.usage error) => return { exitCode := 2, messages := ["error: " ++ error.message] }
  | .ok settings => do
    match ← (settings.execute host).run with
    | .ok outcome => return outcome
    | .error error => return { exitCode := 1, messages := ["error: " ++ error.message] }

/-! ## A host in memory -/

namespace FileTree

/-- Make a change to the tree, if it does not fail. -/
def change (f : FileTree → Except FileFault FileTree) :
    StateM FileTree (Except FileFault Unit) := do
  match f (← get) with
  | .ok t =>
    set t
    return .ok ()
  | .error fault => return .error fault

/-- A host whose files are a tree in memory, with the given standard input. -/
def host (input : String) : Host (StateM FileTree) where
  readInput := return .ok input
  readFile path := return (← get).textAt path
  writeFile path text := change (·.writeFile path text)
  createDirectory path := change (·.createDirectory path)
  isDirectory path := return (← get).hasDirectory path

/-- The tree with a file at a path, and the directories above it. -/
def withFile (t : FileTree) (path text : String) : FileTree :=
  let steps : StateM FileTree Unit := do
    if let some parent := parentPath? path then
      let _ ← (host "").createDirectories parent
    let _ ← (host "").writeFile path text
  (steps.run t).2

end FileTree

end SchemaCompiler
