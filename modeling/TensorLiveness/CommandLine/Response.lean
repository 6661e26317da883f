/-
# What the program answers

The messages, the text and the exit code for a source file.  The code is 0 if nothing was
found wrong, 1 if the source or the function was turned down, 2 if a file could not
be read or written or the analysis came upon a fault.
-/

import TensorLiveness.CommandLine.FileError
import TensorLiveness.CommandLine.Invocation
import TensorLiveness.Program.Printer
import TensorLiveness.Report.Provenance

namespace TensorLiveness
namespace CommandLine

open Analysis Report

/-- What a run has to say and to write: messages for the error stream, the text for the
output if there is one, and the exit code if the text can be written. -/
structure Response where
  messages : List String
  text : Option String
  exitCode : Nat
deriving DecidableEq

/-- A message of the program. -/
def tagged (message : String) : String := "tlc: " ++ message

/-- The message on a file that cannot be read or written. -/
def fileMessage (path : String) (e : FileError) : String :=
  tagged ("error: " ++ path ++ ": " ++ e.message)

/-- The response to a source text that was turned down. -/
def rejectionResponse : Rejection → Response
  | .syntactic [] => ⟨[tagged "parse failed with no output"], none, 1⟩
  | .syntactic errors => ⟨errors.map fun e => tagged ("parse error: " ++ e.message), none, 1⟩
  | .names ds => ⟨ds.map fun d => tagged d.render, none, 1⟩
  | .fault f => ⟨[tagged ("internal error: " ++ f.message)], none, 2⟩

/-- The text to write. -/
def Emit.text (emit : Emit) (source : String) (c : Checked) : String :=
  match emit with
  | .liveness => c.text
  | .json => c.document.pretty 0 ++ "\n"
  | .identities => c.identitiesText
  | .ir => c.function.print c.program.vars c.entry
  | .buildInfo => (Provenance.of source c).render

/-- The exit code of a run that wrote its text. -/
def exitCode (emit : Emit) (status : Status) : Nat :=
  match emit, status with
  | .ir, _ | _, .valid | _, .incomplete => 0
  | _, .unsupportedForm | _, .aliasingConflict => 1

/-- The response to a source text. -/
def respondToSource (inv : Invocation) (source : String) : Response :=
  match check source ⟨inv.entry, inv.emit.terminal⟩ with
  | .error r => rejectionResponse r
  | .ok c =>
    let found := if inv.emit = .liveness then [] else c.outcome.diagnostics
    ⟨(c.warnings ++ found).map fun d => tagged d.render, some (inv.emit.text source c),
      exitCode inv.emit c.outcome.status⟩

/-- The response to what was read from the source file. -/
def respond (inv : Invocation) : Except FileError String → Response
  | .error e => ⟨[fileMessage inv.source e], none, 2⟩
  | .ok source => respondToSource inv source

/-- The response after the text could not be written. -/
def Response.afterWriteError (r : Response) (path : String) (e : FileError) : Response :=
  ⟨r.messages ++ [fileMessage path e], none, 2⟩

end CommandLine
end TensorLiveness
