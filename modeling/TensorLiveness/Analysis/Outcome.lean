/-
# The analysis

Runs the passes that a request calls for and puts their results together.  The form is
checked first; a function that does not have it is not analysed any further, which
is no fault.
-/

import TensorLiveness.Analysis.Form
import TensorLiveness.Analysis.Interference
import TensorLiveness.Analysis.Pass

namespace TensorLiveness
namespace Analysis

open Identity Program Sharing

/-- The verdict on a function. -/
inductive Status
  | valid
  | unsupportedForm
  | aliasingConflict
  | incomplete
deriving DecidableEq

/-- A verdict as text. -/
def Status.display : Status → String
  | .valid => "valid"
  | .unsupportedForm => "unsupported form"
  | .aliasingConflict => "aliasing conflict"
  | .incomplete => "partial"

/-- What the passes have found out so far. -/
structure Run where
  store : Store
  pending : List Demand
  live : Std.ExtTreeMap Handle HandleSet
  exits : List (Scope × Handle)
  forest : Forest Handle
  conflicts : List Conflict
  diagnostics : List Diagnostic
  status : Status
  passes : List Pass

namespace Run

/-- The state before the first pass. -/
def start (vars : BinderTable) : Run :=
  ⟨.empty vars.size, [], ∅, [], .empty, [], [], .valid, []⟩

/-- Check the form. -/
def withForm (vars : BinderTable) (f : Function) (r : Run) : Run :=
  let errors := formErrors vars f
  { r with
    diagnostics := r.diagnostics ++ errors
    status := if anyError errors then .unsupportedForm else r.status }

/-- Bind the parameters. -/
def withParameters (vars : BinderTable) (f : Function) (r : Run) : Except Fault Run := do
  let s ← bindParameters vars r.store f.params
  .ok { r with store := s }

/-- Find the identities of the binders, and the demands. -/
def withIdentities (vars : BinderTable) (f : Function) (r : Run) : Except Fault Run := do
  let (_, p) ← propagate vars ⟨r.store, r.pending⟩ f.body
  .ok { r with store := p.store, pending := p.pending }

/-- Find the live sets. -/
def withLiveness (f : Function) (r : Run) : Except Fault Run := do
  let m ← livePoints r.store f.body
  .ok { r with store := m.store, live := m.live, exits := m.exits }

/-- Check the demands. -/
def withSharing (vars : BinderTable) (r : Run) : Except Fault Run := do
  let w ← validate vars r.store r.live r.pending
  .ok { r with
    forest := w.forest
    conflicts := w.conflicts
    diagnostics := r.diagnostics ++ w.diagnostics
    status := if w.conflicts.isEmpty then r.status else .aliasingConflict }

/-- Run one pass, unless the form was found wanting. -/
def step (vars : BinderTable) (f : Function) (r : Run) (pass : Pass) : Except Fault Run := do
  if r.status = .unsupportedForm then .ok r
  else
    let r ← match pass with
      | .form => .ok (r.withForm vars f)
      | .parameters => r.withParameters vars f
      | .identities => r.withIdentities vars f
      | .liveness => r.withLiveness f
      | .sharing => r.withSharing vars
    .ok { r with passes := r.passes ++ [pass] }

end Run

/-- What is known of the buffers of a function. -/
structure Liveness where
  live : Std.ExtTreeMap Handle HandleSet
  identities : List (Handle × HandleSet)
  roots : List (Handle × Handle)
  classes : List (List Handle)
  exits : List (Scope × Handle)
  names : Std.ExtTreeMap Handle String

namespace Liveness

/-- What is live at a point. -/
def liveAt? (l : Liveness) (point : Handle) : Option HandleSet := l.live[point]?

/-- What a binder stands for. -/
def identitiesOf? (l : Liveness) (v : Handle) : Option HandleSet := l.identities.lookup v

/-- The root of an identity's class. -/
def representative? (l : Liveness) (v : Handle) : Option Handle := l.roots.lookup v

/-- The exit of a sequence. -/
def exit? (l : Liveness) (scope : Scope) : Option Handle := l.exits.lookup scope

/-- The name of a handle. -/
def name (l : Liveness) (v : Handle) : String := (l.names[v]?).getD (Handle.display v)

/-- The names of the members of a set. -/
def namesOf (l : Liveness) (set : HandleSet) : List String := set.toList.map l.name

end Liveness

/-- The result of an analysis. -/
structure Outcome where
  status : Status
  liveness : Liveness
  pending : List Demand
  conflicts : List Conflict
  diagnostics : List Diagnostic
  passes : List Pass

/-- What is known of the buffers, if it is fit for use. -/
def Outcome.published? (o : Outcome) : Option Liveness :=
  if o.status = .valid then some o.liveness else none

namespace Run

/-- What the binders of the program stand for. -/
def identities (r : Run) : List (Handle × HandleSet) :=
  r.store.entries.filter fun e => !r.store.isMinted e.1

/-- Every handle that a result mentions. -/
def mentioned (r : Run) : List Handle :=
  r.live.toList.flatMap (fun e => e.1 :: e.2.toList) ++
    r.identities.flatMap (fun e => e.1 :: e.2.toList) ++
    r.forest.roots.map (·.1) ++
    r.pending.flatMap (fun d => [d.out, d.input, d.site])

/-- The names of the handles that a result mentions. -/
def names (vars : BinderTable) (r : Run) : Std.ExtTreeMap Handle String :=
  r.mentioned.foldl (fun names v => names.insert v (r.store.nameOf vars v)) ∅

/-- The result after the pass `terminal`. -/
def outcome (vars : BinderTable) (terminal : Pass) (r : Run) : Outcome where
  status := if r.status = .valid ∧ terminal ≠ .sharing then .incomplete else r.status
  liveness :=
    ⟨r.live, r.identities, r.forest.roots, r.forest.classes, r.exits, r.names vars⟩
  pending := r.pending
  conflicts := r.conflicts
  diagnostics := r.diagnostics
  passes := r.passes

end Run

/-- Analyse a function up to the pass `terminal`. -/
def analyze (vars : BinderTable) (f : Function) (terminal : Pass) : Except Fault Outcome := do
  let r ← terminal.required.foldlM (Run.step vars f) (Run.start vars)
  .ok (r.outcome vars terminal)

end Analysis
end TensorLiveness
