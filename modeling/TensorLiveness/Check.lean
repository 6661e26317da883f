/-
# From a source text to a result

Reads a source text, gives its names their handles, picks the function that was asked
for and analyses it.  Each stage may turn the source down: for its syntax, for its
names (a missing entry function among them), or because the analysis came upon a
fault.
-/

import TensorLiveness.Analysis.Outcome
import TensorLiveness.Program.Resolution
import TensorLiveness.Syntax.Parser

namespace TensorLiveness

open Analysis Identity Syntax Text

/-- Which function to analyse, and up to which pass. -/
structure Request where
  entry : String
  terminal : Pass
deriving DecidableEq

/-- Why a source text has no result. -/
inductive Rejection
  | syntactic (errors : List ParseError)
  | names (diagnostics : List Diagnostic)
  | fault (fault : Fault)
deriving DecidableEq

/-- The summary of a rejection. -/
def Rejection.message : Rejection → String
  | .syntactic errors => toString errors.length ++ " parse error(s)"
  | .names ds =>
    toString (ds.filter Diagnostic.isError).length ++ " error(s) during name resolution"
  | .fault f => f.message

/-- The program that a source text describes, with the findings that are no errors. -/
def readProgram (source : String) : Except Rejection (Program × List Diagnostic) :=
  match parse source with
  | (some m, []) =>
    let (program, diagnostics) := Program.ofModule m
    if anyError diagnostics then .error (.names diagnostics) else .ok (program, diagnostics)
  | (_, errors) => .error (.syntactic errors)

/-- The finding that there is no function of this name. -/
def missingEntry (source entry : String) (program : Program) : Diagnostic :=
  let d := Diagnostic.error .missingEntry ⟨source.utf8ByteSize, source.utf8ByteSize⟩
    ("entry function '@" ++ entry ++ "' not found")
  if program.functions.isEmpty then d
  else d.hinted ("available functions: " ++
    ", ".intercalate (program.functions.map fun f => "@" ++ f.1))

/-- An analysed source text. -/
structure Checked where
  program : Program
  entry : String
  function : Program.Function
  outcome : Outcome
  warnings : List Diagnostic

/-- Check a source text. -/
def check (source : String) (request : Request) : Except Rejection Checked := do
  let (program, warnings) ← readProgram source
  match program.function? request.entry with
  | none => .error (.names [missingEntry source request.entry program])
  | some f =>
    match analyze program.vars f request.terminal with
    | .error e => .error (.fault e)
    | .ok outcome => .ok ⟨program, request.entry, f, outcome, warnings⟩

end TensorLiveness
