import SchemaCompiler.CommandLine.Run

/-!
# The command

The command with the file system as its host.
-/

namespace SchemaCompiler

/-- The fault that an error of the system is. -/
def FileFault.ofError : IO.Error → FileFault
  | .noFileOrDirectory .. => .missing
  | .alreadyExists .. => .exists
  | .inappropriateType _ code _ =>
    if code = 21 ∨ code = 0 - 21 then .isDirectory else .notDirectory
  | error => .other error.toString

def caught {α : Type} (operation : IO α) : IO (Except FileFault α) := do
  match ← operation.toBaseIO with
  | .ok a => return .ok a
  | .error error => return .error (.ofError error)

def textOf (bytes : ByteArray) : Except FileFault String :=
  match String.fromUTF8? bytes with
  | some text => .ok text
  | none => .error .notText

def systemHost : Host IO where
  readInput := do return (← caught do (← IO.getStdin).readBinToEnd) >>= textOf
  readFile path := do return (← caught (IO.FS.readBinFile path)) >>= textOf
  writeFile path text := caught (IO.FS.writeFile path text)
  createDirectory path := caught (IO.FS.createDir path)
  isDirectory path := do
    match ← caught (IO.FS.readBinFile path) with
    | .error .isDirectory => return true
    | _ => return false

end SchemaCompiler

open SchemaCompiler in
def main (arguments : List String) : IO UInt32 := do
  let outcome ← runCommand systemHost arguments
  IO.print outcome.output
  for message in outcome.messages do
    IO.eprintln message
  return outcome.exitCode.toUInt32
