/-
# What is asked for on the command line

A source file, the function to check, what to write about it, and where to:

| `--emit` | passes | text |
| --- | --- | --- |
| `liveness` | all | live sets, shared classes, findings |
| `json` | all | the result as a document |
| `identities` | up to `forward` | the identities of each binder |
| `ir` | `form_check` | the function with its names resolved |
| `build-info` | all | the provenance |
-/

import TensorLiveness.Analysis.Pass

namespace TensorLiveness
namespace CommandLine

open Analysis

/-- What to write. -/
inductive Emit
  | liveness
  | json
  | identities
  | ir
  | buildInfo
deriving DecidableEq

/-- The word for an emit mode. -/
def Emit.word : Emit → String
  | .liveness => "liveness"
  | .json => "json"
  | .identities => "identities"
  | .ir => "ir"
  | .buildInfo => "build-info"

/-- The emit mode of a word. -/
def Emit.ofWord? (w : String) : Option Emit :=
  [Emit.liveness, .json, .identities, .ir, .buildInfo].find? (·.word = w)

/-- The last pass that an emit mode needs. -/
def Emit.terminal : Emit → Pass
  | .liveness | .json | .buildInfo => .sharing
  | .identities => .identities
  | .ir => .form

/-- What was asked for on the command line. -/
structure Invocation where
  source : String
  entry : String
  emit : Emit
  output : Option String
deriving DecidableEq

/-- What has been read of the arguments. -/
structure Arguments where
  source : Option String
  entry : Option String
  emit : Option Emit
  output : Option String
deriving DecidableEq

/-- Read arguments.  Options may stand before or behind the source file, each at most
once. -/
def readArguments (a : Arguments) : List String → Except String Arguments
  | [] => .ok a
  | "--verbose" :: rest => readArguments a rest
  | "--entry" :: value :: rest =>
    if a.entry.isSome then .error "--entry is given twice"
    else readArguments { a with entry := some value } rest
  | "--emit" :: value :: rest =>
    match a.emit, Emit.ofWord? value with
    | some _, _ => .error "--emit is given twice"
    | none, none => .error ("--emit does not know " ++ value)
    | none, some emit => readArguments { a with emit := some emit } rest
  | "--output" :: value :: rest | "-o" :: value :: rest =>
    if a.output.isSome then .error "--output is given twice"
    else readArguments { a with output := some value } rest
  | value :: rest =>
    if value.startsWith "-" ∨ a.source.isSome then .error ("unexpected argument " ++ value)
    else readArguments { a with source := some value } rest

/-- What a list of arguments asks for. -/
def Invocation.ofArguments (args : List String) : Except String Invocation := do
  let a ← readArguments ⟨none, none, none, none⟩ args
  match a.source with
  | none => .error "a source file is required"
  | some source =>
    .ok ⟨source, a.entry.getD "main", a.emit.getD .liveness, a.output⟩

end CommandLine
end TensorLiveness
