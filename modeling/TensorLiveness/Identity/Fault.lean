/-
# Faults

Why an analysis cannot give a result.  A fault means that the program breaks a rule that
its types or its form should have kept; it is not a finding about buffers.
-/

import TensorLiveness.Program.Binder

namespace TensorLiveness
namespace Identity

open Program

/-- A reason for giving up. -/
inductive Fault
  | unsupportedParam (name : String) (ty : String)
  | untypedParam (v : Handle)
  | unbound (v : Handle)
  | notATuple (v : Handle)
  | noSuchField (v : Handle) (index arity : Nat)
  | shapeMismatch (out input : Handle)
  | unsupportedForm (v : Handle) (kind : String)
  | unnamedResult
  | pointWithoutLiveSet (v : Handle)
  | unknownIdentity (v : Handle)
deriving DecidableEq

/-- The text of a fault. -/
def Fault.message : Fault → String
  | .unsupportedParam name ty => "parameter '" ++ name ++ "' has unsupported type " ++ ty
  | .untypedParam v => "parameter " ++ Handle.display v ++ " has no recorded type"
  | .unbound v => "no identity recorded for " ++ Handle.display v
  | .notATuple v => "no tuple fields recorded for " ++ Handle.display v
  | .noSuchField v index arity =>
    "tuple index " ++ toString index ++ " out of range for " ++ Handle.display v ++ " with " ++
      toString arity ++ " fields"
  | .shapeMismatch out input =>
    "tuple shape mismatch between " ++ Handle.display out ++ " and " ++ Handle.display input
  | .unsupportedForm v kind => "unsupported " ++ kind ++ " bound to " ++ Handle.display v
  | .unnamedResult => "sequence result is not a variable"
  | .pointWithoutLiveSet v => "no live set recorded for point " ++ Handle.display v
  | .unknownIdentity v => "identity " ++ Handle.display v ++ " is not in the sharing forest"

end Identity
end TensorLiveness
