/-
# Identities, from the parameters down

Each parameter gets a leaf for every buffer it holds.  Then each binder, in the order of
the text, gets what its value stands for:

| value | identities |
| --- | --- |
| alias | those of the variable |
| constant, operator | none |
| closure | those of its free variables |
| call | new ones, by the type of the result |
| tuple | those of its fields, and a record of them |
| projection | those of the field |
| conditional | new ones, by the type of the result |

A conditional also demands that its result takes the buffers of whichever branch runs.
The demands are collected, then-branch before else-branch, for a later check.
-/

import TensorLiveness.Identity.Store
import TensorLiveness.Program.FreeVars

namespace TensorLiveness
namespace Analysis

open Identity Program

/-- A demand: the result `input` of a branch and the result `out` of the conditional bound
to `site` are to share a buffer. -/
structure Demand where
  out : Handle
  input : Handle
  site : Handle
deriving DecidableEq

/-- The name that identities made for a binder go by. -/
def hintOf (vars : BinderTable) (v : Handle) : String :=
  (vars.name? v).getD (Handle.display v)

/-- Mint a leaf for each field of a tuple parameter.  All of them have to be buffers. -/
def leavesForFields (name : String) (whole : Ty) (s : Store) (i : Nat) :
    List Ty → Except Fault (List Handle × Store)
  | [] => .ok ([], s)
  | .tensor :: tys => do
    let (v, s) := s.freshLeaf (name ++ "." ++ toString i)
    let (vs, s) ← leavesForFields name whole s (i + 1) tys
    .ok (v :: vs, s)
  | _ :: _ => .error (.unsupportedParam name whole.display)

/-- Bind a parameter to new leaves. -/
def bindParameter (vars : BinderTable) (s : Store) (param : Handle) : Except Fault Store :=
  let name := (vars.name? param).getD "param"
  match vars.ty? param with
  | none => .error (.untypedParam param)
  | some .tensor =>
    let (v, s) := s.freshLeaf name
    s.bindLike param v
  | some (.tuple tys) => do
    let (vs, s) ← leavesForFields name (.tuple tys) s 0 tys
    let (v, s) ← s.freshUnionOf vs
    let s ← s.bindLike param v
    .ok (s.recordFields param (vs.map some))
  | some ty => .error (.unsupportedParam name ty.display)

/-- Bind the parameters of a function. -/
def bindParameters (vars : BinderTable) (s : Store) (params : List Handle) : Except Fault Store :=
  params.foldlM (bindParameter vars) s

/-- The demands of the fields that are tracked on both sides; `demands` gives those of one
field. -/
def fieldDemands (demands : Handle → Handle → Except Fault (List Demand)) :
    Fields → Fields → Except Fault (List Demand)
  | some out :: outs, some input :: inputs => do
    let first ← demands out input
    let rest ← fieldDemands demands outs inputs
    .ok (first ++ rest)
  | _ :: outs, _ :: inputs => fieldDemands demands outs inputs
  | _, _ => .ok []

/-- The demands that `out` shares with `input`: one if neither has a record, else those of
their fields.  Records are followed at most `depth` deep. -/
def demandsWithin (s : Store) (site : Handle) :
    Nat → Handle → Handle → Except Fault (List Demand)
  | depth, out, input =>
    match s.fields? out, s.fields? input with
    | none, none => .ok [⟨out, input, site⟩]
    | some outs, some inputs =>
      if outs.length = inputs.length then
        match depth with
        | depth + 1 => fieldDemands (demandsWithin s site depth) outs inputs
        | 0 => .error (.shapeMismatch out input)
      else .error (.shapeMismatch out input)
    | _, _ => .error (.shapeMismatch out input)

/-- How deep two records can go side by side without coming to the same two again.  Beyond
that depth they go round in a circle. -/
def recordDepth (s : Store) : Nat := s.records.size * s.records.size

/-- The demands between the result of a conditional and that of a branch. -/
def resultDemands (s : Store) (site out input : Handle) : Except Fault (List Demand) :=
  demandsWithin s site (recordDepth s) out input

/-- The identities found and the demands collected so far. -/
structure Propagation where
  store : Store
  pending : List Demand

namespace Propagation

/-- The same demands over another store. -/
def withStore (p : Propagation) (s : Store) : Propagation := { p with store := s }

/-- Bind `v` to what was minted. -/
def bindMinted (p : Propagation) (v : Handle) (minted : Handle × Store) :
    Except Fault Propagation := do
  let s ← minted.2.bindLike v minted.1
  .ok (p.withStore s)

/-- Bind `v` to nothing. -/
def bindEmpty (vars : BinderTable) (p : Propagation) (v : Handle) : Except Fault Propagation :=
  p.bindMinted v (p.store.freshEmpty (hintOf vars v))

/-- Bind `v` to a tuple of these fields. -/
def bindTuple (p : Propagation) (v : Handle) (fields : Fields) : Except Fault Propagation := do
  let p ← p.bindMinted v (← p.store.freshUnion fields)
  .ok (p.withStore (p.store.recordFields v fields))

/-- Bind `v` to a field of `source`. -/
def bindField (vars : BinderTable) (p : Propagation) (v source : Handle) (index : Nat) :
    Except Fault Propagation :=
  match p.store.fields? source with
  | none => .error (.notATuple source)
  | some fields =>
    match fields[index]? with
    | none => .error (.noSuchField source index fields.length)
    | some (some field) => do
      let s ← p.store.bindLike v field
      .ok (p.withStore s)
    | some none => p.bindEmpty vars v

/-- Bind `v` to the result of a conditional whose branches have these results. -/
def bindCond (vars : BinderTable) (p : Propagation) (v thenResult elseResult : Handle) (ty : Ty) :
    Except Fault Propagation := do
  let (out, s) := p.store.freshValue (hintOf vars v) ty
  let first ← resultDemands s v out thenResult
  let second ← resultDemands s v out elseResult
  let s ← s.bindLike v out
  .ok ⟨s, p.pending ++ first ++ second⟩

end Propagation

mutual

/-- Go through a let sequence; the answer is the variable that it results in. -/
def propagate (vars : BinderTable) (p : Propagation) :
    Expr → Except Fault (Handle × Propagation)
  | .letIn v value body => do
    let p ← propagateBinding vars p v value
    propagate vars p body
  | .var v => .ok (v, p)
  | _ => .error .unnamedResult

/-- Bind `v` to what its value stands for. -/
def propagateBinding (vars : BinderTable) (p : Propagation) (v : Handle) :
    Expr → Except Fault Propagation
  | .var u => do
    let s ← p.store.bindLike v u
    .ok (p.withStore s)
  | .const _ | .op _ => p.bindEmpty vars v
  | .closure params body => do
    p.bindMinted v (← p.store.freshUnionOf (body.freeVarsUnder params))
  | .call callee _ ty =>
    if callee.isOp then p.bindMinted v (p.store.freshValue (hintOf vars v) ty)
    else .error (.unsupportedForm v "closure application")
  | .tuple fields =>
    if fields.all Expr.isAtom then p.bindTuple v (fields.map Expr.var?)
    else .error (.unsupportedForm v "non-variable tuple field")
  | .get source index =>
    match source.var? with
    | some u => p.bindField vars v u index
    | none => .error (.unsupportedForm v "projection of a non-variable")
  | .cond _ thenBranch elseBranch ty => do
    let (thenResult, p) ← propagate vars p thenBranch
    let (elseResult, p) ← propagate vars p elseBranch
    p.bindCond vars v thenResult elseResult ty
  | .letIn .. => .error (.unsupportedForm v "nested let sequence")

end

end Analysis
end TensorLiveness
