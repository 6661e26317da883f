/-
# Results for reading

The live sets in textual order, the classes that share a buffer, and the findings; or,
shorter, the identities of each binder.
-/

import TensorLiveness.Program.Printer
import TensorLiveness.Report.Points

namespace TensorLiveness
namespace Report

open Analysis Identity Program

/-- Names between braces. -/
def nameSet (names : List String) : String := "\x7b" ++ ", ".intercalate names ++ "\x7d"

/-- The line of a mark, unless nothing is known of it. -/
def PlacedMark.line? (vars : BinderTable) (l : Liveness) (m : PlacedMark) : Option String :=
  let headed (label : String) : Option String :=
    (m.live? l).map fun set => label ++ ": " ++ nameSet (l.namesOf set)
  let body := match m.mark with
    | .binding v => headed (vars.display v)
    | .branch label => some (label ++ ":")
    | .exit => headed "exit"
  body.map (indentation (m.depth + 1) ++ ·)

/-- The lines of a text of which `line` has been read.  A line end may have a carriage
return before it, and the last line needs no line end. -/
def linesFrom (line : List Char) : List Char → List (List Char)
  | [] => if line = [] then [] else [line]
  | '\n' :: cs =>
    (if line.getLast? = some '\r' then line.dropLast else line) :: linesFrom [] cs
  | c :: cs => linesFrom (line ++ [c]) cs

/-- The lines of a finding. -/
def diagnosticLines (d : Diagnostic) : List String :=
  (linesFrom [] d.render.toList).map fun line => "  " ++ String.ofList line

/-- A section with its headline, left out if it is empty. -/
def headedSection (title : String) (lines : List String) : List String :=
  if lines.isEmpty then [] else title :: lines

/-- Lines as a text. -/
def unlines (lines : List String) : String := String.join (lines.map (· ++ "\n"))

/-- The live sets, the shared classes and the findings. -/
def liveReport (name : String) (f : Function) (vars : BinderTable) (o : Outcome) : String :=
  let shared := o.liveness.classes.filter (1 < ·.length)
  unlines <|
    ("liveness @" ++ name ++ ": " ++ o.status.display) ::
      (functionMarks f).filterMap (PlacedMark.line? vars o.liveness) ++
      headedSection "shared:" (shared.map fun c => "  " ++ nameSet (c.map o.liveness.name)) ++
      (if o.diagnostics.isEmpty then []
        else "diagnostics:" :: o.diagnostics.flatMap diagnosticLines)

/-- The identities of each binder. -/
def identityReport (name : String) (vars : BinderTable) (o : Outcome) : String :=
  unlines <|
    ("identities @" ++ name ++ ": " ++ o.status.display) ::
      o.liveness.identities.map fun e =>
        "  " ++ vars.display e.1 ++ ": " ++ nameSet (o.liveness.namesOf e.2)

end Report
end TensorLiveness
