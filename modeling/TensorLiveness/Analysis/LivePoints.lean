/-
# Live identities, from the results up

A program point is a binding (named by its binder) or the end of a sequence (named by a
minted exit handle).  What is live at a point is what the point itself uses and what
the points behind it need and the point does not define.

| point | uses | defines |
| --- | --- | --- |
| end of a sequence | its result | |
| alias, constant, tuple, projection, closure | its binder | |
| operator | the next point | |
| call | the variables among its arguments | its binder |
| conditional | its condition and the free variables of its branches | its binder |

An alias and its like use their own binder: the buffers that it stands for are needed
from there on, whichever name they have later.  A branch is followed by what follows
its conditional, less what the conditional defines.
-/

import TensorLiveness.Analysis.Propagation

namespace TensorLiveness
namespace Analysis

open Identity Program

/-- A let sequence of a function: its body, or a branch of the conditional bound to a
variable. -/
inductive Scope
  | body
  | thenOf (v : Handle)
  | elseOf (v : Handle)
deriving DecidableEq

/-- A scope as text, without the names of variables. -/
def Scope.display : Scope → String
  | .body => "body"
  | .thenOf v => "then." ++ Handle.display v
  | .elseOf v => "else." ++ Handle.display v

/-- The live set of each point seen so far, and the exits of the sequences, newest first. -/
structure LivePoints where
  store : Store
  live : Std.ExtTreeMap Handle HandleSet
  exits : List (Scope × Handle)

namespace LivePoints

/-- What is live at a point. -/
def liveAt (m : LivePoints) (point : Handle) : Except Fault HandleSet :=
  match m.live[point]? with
  | some set => .ok set
  | none => .error (.pointWithoutLiveSet point)

/-- Note what is live at a point. -/
def setLive (m : LivePoints) (point : Handle) (set : HandleSet) : LivePoints :=
  { m with live := m.live.insert point set }

/-- The same points over another store. -/
def withStore (m : LivePoints) (s : Store) : LivePoints := { m with store := s }

/-- What `uses` stands for, and what is live at `next` less what `defined` stands for. -/
def liveBefore (m : LivePoints) (uses : Handle) (defined : Option Handle) (next : Handle) :
    Except Fault (HandleSet × LivePoints) := do
  let _ ← m.store.identities uses
  let after ← m.liveAt next
  let (snapshot, s) := m.store.freshSet "live" after
  let (remaining, s) ← match defined with
    | some d => s.freshDifference snapshot d
    | none => .ok (snapshot, s)
  let (merged, s) ← s.freshUnionOf [uses, remaining]
  .ok (← s.identities merged, m.withStore s)

/-- Give `point` the set that `liveBefore` makes. -/
def record (m : LivePoints) (point uses : Handle) (defined : Option Handle) (next : Handle) :
    Except Fault LivePoints := do
  let (set, m) ← m.liveBefore uses defined next
  .ok (m.setLive point set)

/-- Mint the exit of a sequence that results in `result` and is followed by `next`. -/
def openExit (m : LivePoints) (scope : Scope) (result : Expr) (next : Handle) :
    Except Fault (Handle × LivePoints) :=
  match result.var? with
  | none => .error .unnamedResult
  | some r => do
    let (exit, s) := m.store.freshEmpty (scope.display ++ ".exit")
    let m ← (m.withStore s).record exit r none next
    .ok (exit, { m with exits := (scope, exit) :: m.exits })

/-- Mint the point behind a branch of the conditional bound to `v`. -/
def openBranch (m : LivePoints) (v next : Handle) : Except Fault (Handle × LivePoints) := do
  let after ← m.liveAt next
  let (snapshot, s) := m.store.freshSet "live" after
  let (branchNext, s) ← s.freshDifference snapshot v
  let set ← s.identities branchNext
  .ok (branchNext, (m.withStore s).setLive branchNext set)

/-- The variables among the arguments of a call. -/
def argumentVars (v : Handle) : List Expr → Except Fault (List Handle)
  | [] => .ok []
  | .var u :: args => do .ok (u :: (← argumentVars v args))
  | .const _ :: args => argumentVars v args
  | _ :: _ => .error (.unsupportedForm v "non-variable call argument")

/-- The point of a call bound to `v`. -/
def recordCall (m : LivePoints) (v : Handle) (args : List Expr) (next : Handle) :
    Except Fault LivePoints := do
  let uses ← argumentVars v args
  let (used, s) ← m.store.freshUnionOf uses
  (m.withStore s).record v used (some v) next

/-- The point of a conditional bound to `v`. -/
def recordCond (m : LivePoints) (v : Handle) (test thenBranch elseBranch : Expr) (next : Handle) :
    Except Fault LivePoints :=
  match test.var? with
  | none => .error (.unsupportedForm v "non-variable condition")
  | some c => do
    let (freeThen, s) ← m.store.freshUnionOf thenBranch.freeVars
    let (freeElse, s) ← s.freshUnionOf elseBranch.freeVars
    let (used, s) ← s.freshUnionOf [freeThen, freeElse, c]
    (m.withStore s).record v used (some v) next

end LivePoints

mutual

/-- Go backwards through the bindings of a let sequence whose exit is `exit`; the answer is
the first point of the sequence. -/
def walkBack (m : LivePoints) (exit : Handle) : Expr → Except Fault (Handle × LivePoints)
  | .letIn v value body => do
    let (next, m) ← walkBack m exit body
    let m ← walkBackBinding m v next value
    .ok (v, m)
  | _ => .ok (exit, m)

/-- The point of the binding of `v`, which is followed by `next`, and the points inside. -/
def walkBackBinding (m : LivePoints) (v next : Handle) : Expr → Except Fault LivePoints
  | .var _ | .const _ | .tuple _ | .get .. | .closure .. => m.record v v none next
  | .op _ => m.record v next none next
  | .call callee args _ =>
    if callee.isOp then m.recordCall v args next
    else .error (.unsupportedForm v "closure application")
  | .cond test thenBranch elseBranch _ => do
    let m ← m.recordCond v test thenBranch elseBranch next
    let (thenNext, m) ← m.openBranch v next
    let (thenExit, m) ← m.openExit (.thenOf v) thenBranch.result thenNext
    let (_, m) ← walkBack m thenExit thenBranch
    let (elseNext, m) ← m.openBranch v next
    let (elseExit, m) ← m.openExit (.elseOf v) elseBranch.result elseNext
    let (_, m) ← walkBack m elseExit elseBranch
    .ok m
  | .letIn .. => .error (.unsupportedForm v "nested let sequence")

end

/-- All points of a function body, behind which nothing is live. -/
def livePoints (s : Store) (body : Expr) : Except Fault LivePoints := do
  let (seed, s) := s.freshEmpty "exit.seed"
  let m : LivePoints := ⟨s, (∅ : Std.ExtTreeMap Handle HandleSet).insert seed ∅, []⟩
  let (exit, m) ← m.openExit .body body.result seed
  let (_, m) ← walkBack m exit body
  .ok m

end Analysis
end TensorLiveness
