/-
# Passes

The five steps of the analysis, what each needs and makes, and which of them a request
for the results of one calls for.
-/

namespace TensorLiveness
namespace Analysis

/-- A step of the analysis. -/
inductive Pass
  | form
  | parameters
  | identities
  | liveness
  | sharing
deriving DecidableEq

/-- Something that a pass makes. -/
inductive Artifact
  | formReport
  | paramIdentity
  | identityMap
  | pendingMerges
  | livenessMap
  | inverseLive
  | forest
deriving DecidableEq

namespace Pass

/-- The passes in the order in which they run. -/
def all : List Pass := [.form, .parameters, .identities, .liveness, .sharing]

/-- The name of a pass. -/
def name : Pass → String
  | .form => "form_check"
  | .parameters => "init_params"
  | .identities => "forward"
  | .liveness => "backward"
  | .sharing => "merge_validate"

/-- The pass of a name. -/
def ofName? (s : String) : Option Pass := all.find? (·.name = s)

/-- The passes that a pass builds on. -/
def inputs : Pass → List Pass
  | .form => []
  | .parameters => [.form]
  | .identities => [.parameters]
  | .liveness => [.identities]
  | .sharing => [.liveness]

/-- What a pass makes. -/
def outputs : Pass → List Artifact
  | .form => [.formReport]
  | .parameters => [.paramIdentity]
  | .identities => [.identityMap, .pendingMerges]
  | .liveness => [.livenessMap]
  | .sharing => [.inverseLive, .forest]

/-- What holds after a pass. -/
def guarantee : Pass → String
  | .form => "body is ANF: op callees, var/constant args, var conditions"
  | .parameters => "every parameter bound to one identity per tensor field"
  | .identities => "every binder, including branch binders, has an identity set"
  | .liveness => "every binding and sequence exit has a live set"
  | .sharing => "no two simultaneously live identities share a class"

/-- The passes that run before a pass. -/
def before : Pass → List Pass
  | .form => []
  | .parameters => [.form]
  | .identities => [.form, .parameters]
  | .liveness => [.form, .parameters, .identities]
  | .sharing => [.form, .parameters, .identities, .liveness]

/-- The passes that run when the results of `p` are asked for, in order. -/
def required (p : Pass) : List Pass := p.before ++ [p]

/-- What a required pass builds on is required too, and runs earlier. -/
example : ∀ p ∈ all, ∀ q ∈ p.required, ∀ r ∈ q.inputs, r ∈ q.before ∧ r ∈ p.required := by
  decide

end Pass

end Analysis
end TensorLiveness
