/-
# The program

Reads the source file, writes the output and the messages, and exits with the code that
`CommandLine.respond` decides on.
-/

import TensorLiveness.CommandLine.Directory

namespace TensorLiveness
namespace CommandLine

/-- Whether `code` is the system's error `number`, which may come negated. -/
def isSystemError (number code : UInt32) : Bool := code = number || code = 0 - number

/-- A file error as the library names it. -/
def fileErrorOf : IO.Error → FileError
  | .noFileOrDirectory .. => .notFound
  | .inappropriateType _ code _ =>
    if isSystemError 20 code then .notADirectory else .isDirectory
  | .permissionDenied .. => .other "Permission denied (os error 13)"
  | .invalidArgument _ code details =>
    if isSystemError 36 code then .nameTooLong else .other details
  | e => .other (toString e)

/-- Read a file as text. -/
def readSource (path : String) : IO (Except FileError String) := do
  try
    return decodeText (← IO.FS.readBinFile path)
  catch e => return .error (fileErrorOf e)

/-- Write a text to a file, or to the standard output if there is none. -/
def writeText (output : Option String) (text : String) : IO (Except FileError Unit) := do
  try
    match output with
    | some path => IO.FS.writeFile path text
    | none =>
      let stdout ← IO.getStdout
      stdout.putStr text
      stdout.flush
    return .ok ()
  catch e => return .error (fileErrorOf e)

/-- Write messages to the error stream. -/
def sayAll (messages : List String) : IO Unit :=
  messages.forM fun message => IO.eprintln message

end CommandLine
end TensorLiveness

open TensorLiveness CommandLine in
def main (args : List String) : IO UInt32 := do
  match Invocation.ofArguments args with
  | .error message =>
    sayAll [tagged ("error: " ++ message)]
    return 2
  | .ok inv =>
    let r := respond inv (← readSource inv.source)
    sayAll r.messages
    match r.text with
    | none => return UInt32.ofNat r.exitCode
    | some text =>
      match ← writeText inv.output text with
      | .ok () => return UInt32.ofNat r.exitCode
      | .error e =>
        sayAll [fileMessage (inv.output.getD "stdout") e]
        return 2
