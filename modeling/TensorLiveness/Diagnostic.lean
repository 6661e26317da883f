/-
# Diagnostics

What a phase has to say about a program.  Diagnostics are values: a phase collects
them, and its caller decides whether the program is usable.
-/

import TensorLiveness.Text.Span

namespace TensorLiveness

open Text

/-- The kinds of findings that have a number. -/
inductive Code
  | undefinedVariable
  | duplicateBinder
  | duplicateFunction
  | missingEntry
  | closureCall
  | compoundArgument
  | compoundCondition
  | compoundProjection
  | compoundResult
  | nestedSequence
  | compoundField
  | sharingConflict
deriving DecidableEq

/-- The number of a kind of finding. -/
def Code.text : Code → String
  | .undefinedVariable => "E0001"
  | .duplicateBinder => "E0002"
  | .duplicateFunction => "E0003"
  | .missingEntry => "E0004"
  | .closureCall => "E0100"
  | .compoundArgument => "E0101"
  | .compoundCondition => "E0102"
  | .compoundProjection => "E0103"
  | .compoundResult => "E0104"
  | .nestedSequence => "E0105"
  | .compoundField => "E0106"
  | .sharingConflict => "E0200"

/-- All kinds, by number. -/
def Code.all : List Code :=
  [.undefinedVariable, .duplicateBinder, .duplicateFunction, .missingEntry, .closureCall,
    .compoundArgument, .compoundCondition, .compoundProjection, .compoundResult,
    .nestedSequence, .compoundField, .sharingConflict]

/-- How serious a diagnostic is. -/
inductive Level
  | error
  | warning
deriving DecidableEq

/-- The word for a level. -/
def Level.text : Level → String
  | .error => "error"
  | .warning => "warning"

/-- A finding, with what led to it (`causes`), what it refers to (`related`) and what
could be done about it (`hint`). -/
structure Diagnostic where
  code : Option Code
  level : Level
  span : Span
  message : String
  hint : Option String
  related : List (Span × String)
  causes : List (String × Option Span)
deriving DecidableEq

namespace Diagnostic

/-- A bare message. -/
def plain (level : Level) (span : Span) (message : String) : Diagnostic :=
  ⟨none, level, span, message, none, [], []⟩

/-- An error of a numbered kind. -/
def error (code : Code) (span : Span) (message : String) : Diagnostic :=
  { plain .error span message with code := some code }

/-- The same diagnostic with this code. -/
def coded (d : Diagnostic) (code : Code) : Diagnostic := { d with code := some code }

/-- The same diagnostic with this hint. -/
def hinted (d : Diagnostic) (hint : String) : Diagnostic := { d with hint := some hint }

/-- The same diagnostic, referring to one place more. -/
def relatedTo (d : Diagnostic) (span : Span) (label : String) : Diagnostic :=
  { d with related := d.related ++ [(span, label)] }

/-- The same diagnostic with one cause more. -/
def because (d : Diagnostic) (message : String) (span : Option Span) : Diagnostic :=
  { d with causes := d.causes ++ [(message, span)] }

/-- Whether a diagnostic makes its program unusable. -/
def isError (d : Diagnostic) : Bool := d.level = .error

/-- A diagnostic as text: headline, causes, hint. -/
def render (d : Diagnostic) : String :=
  let code := match d.code with
    | some c => "[" ++ c.text ++ "]"
    | none => ""
  let causes := d.causes.map fun c => "\n  cause: " ++ c.1
  let hint := match d.hint with
    | some h => "\n  hint: " ++ h
    | none => ""
  d.level.text ++ code ++ ": " ++ d.message ++ String.join causes ++ hint

end Diagnostic

/-- Whether there is an error among the diagnostics. -/
def anyError (ds : List Diagnostic) : Bool := ds.any Diagnostic.isError

end TensorLiveness
