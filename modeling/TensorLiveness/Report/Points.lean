/-
# The points of a function in textual order

A binder comes before what is inside its value, the then-branch before the else-branch,
and the exit of a sequence last.
-/

import TensorLiveness.Analysis.Outcome

namespace TensorLiveness
namespace Report

open Analysis Identity Program

/-- A point as it appears in the text, or the headline of a branch. -/
inductive Mark
  | binding (v : Handle)
  | branch (label : String)
  | exit
deriving DecidableEq

/-- A mark with its nesting depth and the sequence it belongs to. -/
structure PlacedMark where
  depth : Nat
  scope : Scope
  mark : Mark
deriving DecidableEq

mutual

/-- The marks of a let sequence. -/
def marks (scope : Scope) (depth : Nat) : Expr → List PlacedMark
  | .letIn v value body =>
    ⟨depth, scope, .binding v⟩ :: branchMarks scope depth v value ++ marks scope depth body
  | _ => [⟨depth, scope, .exit⟩]

/-- The marks inside the value that is bound to `v`. -/
def branchMarks (scope : Scope) (depth : Nat) (v : Handle) : Expr → List PlacedMark
  | .cond _ thenBranch elseBranch _ =>
    ⟨depth + 1, scope, .branch "then"⟩ :: marks (.thenOf v) (depth + 2) thenBranch ++
      ⟨depth + 1, scope, .branch "else"⟩ :: marks (.elseOf v) (depth + 2) elseBranch
  | _ => []

end

/-- The marks of a function. -/
def functionMarks (f : Function) : List PlacedMark := marks .body 0 f.body

/-- What is live at a mark; `none` at a headline and where no set was computed. -/
def PlacedMark.live? (l : Liveness) (m : PlacedMark) : Option HandleSet :=
  match m.mark with
  | .binding v => l.liveAt? v
  | .branch _ => none
  | .exit => (l.exit? m.scope).bind l.liveAt?

end Report
end TensorLiveness
