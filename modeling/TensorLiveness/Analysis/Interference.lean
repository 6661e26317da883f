/-
# Demands against live sets

Two buffers may share memory if they are never live at one point, the point of the
conditional that joins them excepted.  The demands are taken in order: one whose
classes interfere is a conflict and changes nothing, any other joins its classes.
The points of a class are kept with its root.
-/

import TensorLiveness.Analysis.LivePoints
import TensorLiveness.Diagnostic
import TensorLiveness.Sharing.Forest

namespace TensorLiveness
namespace Analysis

open Identity Program Sharing Text

/-- A demand that cannot be met: the points other than `site` at which both sides are
live. -/
structure Conflict where
  out : Handle
  input : Handle
  site : Handle
  commonPoints : List Handle
deriving DecidableEq

/-- The smallest member of a set. -/
def smallest? (set : HandleSet) : Option Handle := set.toList.head?

/-- For each identity, the points at which it is live. -/
abbrev PointMap := Std.ExtTreeMap Handle HandleSet

/-- The points of an identity or of a class. -/
def PointMap.pointsOf (points : PointMap) (v : Handle) : HandleSet := (points[v]?).getD ∅

/-- One point more for an identity. -/
def PointMap.addPoint (points : PointMap) (point v : Handle) : PointMap :=
  points.insert v ((PointMap.pointsOf points v).insert point)

/-- The points of every identity. -/
def invertLive (live : Std.ExtTreeMap Handle HandleSet) : PointMap :=
  live.toList.foldl (fun points e => e.2.toList.foldl (fun p v => p.addPoint e.1 v) points)
    (∅ : Std.ExtTreeMap Handle HandleSet)

/-- The classes formed so far, the points of each, and the conflicts found. -/
structure Validation where
  forest : Forest Handle
  points : PointMap
  conflicts : List Conflict
  diagnostics : List Diagnostic

/-- Every leaf in a class of its own. -/
def Validation.start (s : Store) (live : Std.ExtTreeMap Handle HandleSet) : Validation :=
  ⟨s.leaves.foldl Forest.insert .empty, invertLive live, [], []⟩

/-- The finding on a conflict between the classes of `out` and `input`. -/
def conflictError (vars : BinderTable) (s : Store) (demand : Demand) (out input : Handle)
    (shared : List Handle) : Diagnostic :=
  let name := s.nameOf vars
  ((Diagnostic.error .sharingConflict ((vars.span? demand.site).getD .nowhere)
    (name demand.input ++ " cannot share a buffer with the result of " ++
      name demand.site)).because
        (name input ++ " and " ++ name out ++ " are both live at " ++
          ", ".intercalate (shared.map name)) none).hinted
            "this in-place reuse is not memory-safe; plan memory without it"

namespace Validation

/-- The points other than `site` at which the classes of two roots are live. -/
def commonPoints (w : Validation) (site a b : Handle) : List Handle :=
  ((w.points.pointsOf a ∩ w.points.pointsOf b).erase site).toList

/-- Move the points of a class to the class that took it up. -/
def movePoints (points : PointMap) (root absorbed : Handle) : PointMap :=
  (points.erase absorbed).insert root
    (PointMap.pointsOf points root ∪ PointMap.pointsOf points absorbed)

/-- Join two classes that do not interfere, or note the conflict. -/
def joinRoots (vars : BinderTable) (s : Store) (w : Validation) (demand : Demand)
    (out input : Handle) : Except Fault Validation :=
  match w.commonPoints demand.site out input with
  | [] =>
    match w.forest.union out input with
    | (none, _) => .error (.unknownIdentity out)
    | (some root, forest) =>
      let absorbed := if root = out then input else out
      .ok { w with forest := forest, points := movePoints w.points root absorbed }
  | shared => .ok { w with
      conflicts := w.conflicts ++ [⟨demand.out, demand.input, demand.site, shared⟩]
      diagnostics := w.diagnostics ++ [conflictError vars s demand out input shared] }

/-- Take one demand.  Sides without a buffer have nothing to share; of several buffers the
smallest identity counts. -/
def take (vars : BinderTable) (s : Store) (w : Validation) (demand : Demand) :
    Except Fault Validation := do
  let outs ← s.identities demand.out
  match smallest? outs with
  | none => .ok w
  | some out =>
    let inputs ← s.identities demand.input
    match smallest? inputs with
    | none => .ok w
    | some input =>
      match w.forest.find out with
      | (none, _) => .error (.unknownIdentity out)
      | (some out, forest) =>
        match forest.find input with
        | (none, _) => .error (.unknownIdentity input)
        | (some input, forest) =>
          let w := { w with forest := forest }
          if out = input then .ok w else joinRoots vars s w demand out input

end Validation

/-- Take all demands in order. -/
def validate (vars : BinderTable) (s : Store) (live : Std.ExtTreeMap Handle HandleSet)
    (pending : List Demand) : Except Fault Validation :=
  pending.foldlM (Validation.take vars s) (.start s live)

end Analysis
end TensorLiveness
