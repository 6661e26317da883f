/-
# Types

`Tensor` is the type of a planned buffer and `Func` that of a function value.  Any
other name is carried along.
-/

namespace TensorLiveness
namespace Program

/-- A type. -/
inductive Ty
  | tensor
  | func
  | tuple (fields : List Ty)
  | other (name : String)

mutual

/-- A type as text. -/
def Ty.display : Ty → String
  | .tensor => "Tensor"
  | .func => "Func"
  | .tuple fields => "(" ++ ", ".intercalate (Ty.displayAll fields) ++ ")"
  | .other name => name

/-- Types as text. -/
def Ty.displayAll : List Ty → List String
  | [] => []
  | t :: ts => t.display :: Ty.displayAll ts

end

end Program
end TensorLiveness
