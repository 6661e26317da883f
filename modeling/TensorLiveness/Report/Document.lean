/-
# Results for other programs

A result as a JSON document.  Identities go by their names; points are in textual order.
-/

import TensorLiveness.Report.Json
import TensorLiveness.Report.Points

namespace TensorLiveness
namespace Report

open Analysis Identity Program

/-- A verdict as one word. -/
def statusWord : Status → String
  | .valid => "valid"
  | .unsupportedForm => "unsupported_form"
  | .aliasingConflict => "aliasing_conflict"
  | .incomplete => "partial"

/-- A sequence as text. -/
def scopePhrase (vars : BinderTable) : Scope → String
  | .body => "body"
  | .thenOf v => "then " ++ vars.display v
  | .elseOf v => "else " ++ vars.display v

/-- A point with its live set. -/
structure PointEntry where
  point : String
  scope : String
  live : List String
deriving DecidableEq

/-- The entry of a mark, unless it is a headline or nothing is known of it. -/
def PlacedMark.entry? (vars : BinderTable) (l : Liveness) (m : PlacedMark) : Option PointEntry :=
  let entry (label : String) : Option PointEntry :=
    (m.live? l).map fun set => ⟨label, scopePhrase vars m.scope, l.namesOf set⟩
  match m.mark with
  | .binding v => entry (vars.display v)
  | .branch _ => none
  | .exit => entry "exit"

/-- The entries of all points of a function. -/
def pointEntries (f : Function) (vars : BinderTable) (l : Liveness) : List PointEntry :=
  (functionMarks f).filterMap (PlacedMark.entry? vars l)

/-- A point as a document. -/
def PointEntry.json (e : PointEntry) : Json :=
  .object [("point", .text e.point), ("scope", .text e.scope), ("live", .texts e.live)]

/-- A conflict as a document. -/
def conflictJson (l : Liveness) (c : Conflict) : Json :=
  .object [("out", .text (l.name c.out)), ("input", .text (l.name c.input)),
    ("site", .text (l.name c.site)), ("shared_points", .texts (c.commonPoints.map l.name))]

/-- A finding as a document. -/
def diagnosticJson (d : Diagnostic) : Json :=
  .object [("code", .textOrNull (d.code.map Code.text)), ("level", .text d.level.text),
    ("message", .text d.message), ("span", .list [.number d.span.start, .number d.span.stop]),
    ("causes", .texts (d.causes.map (·.1))), ("hint", .textOrNull d.hint)]

/-- A result as a document. -/
def document (name : String) (f : Function) (vars : BinderTable) (o : Outcome) : Json :=
  let l := o.liveness
  .object [
    ("function", .text name),
    ("status", .text (statusWord o.status)),
    ("passes", .texts (o.passes.map Pass.name)),
    ("identities", .list (l.identities.map fun e =>
      .object [("binder", .text (vars.display e.1)), ("identities", .texts (l.namesOf e.2))])),
    ("points", .list ((pointEntries f vars l).map PointEntry.json)),
    ("classes", .list (l.classes.map fun c => .texts (c.map l.name))),
    ("conflicts", .list (o.conflicts.map (conflictJson l))),
    ("diagnostics", .list (o.diagnostics.map diagnosticJson))]

end Report
end TensorLiveness
