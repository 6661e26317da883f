/-
# The form that is analysed

The analysis takes functions in which every intermediate value has a name: calls of bare
operators on variables and constants, tuples of variables and constants, projections
of variables, conditions and results that are variables, and no let sequence inside a
binding.  Every deviation is a finding, at the binding that it is part of.
-/

import TensorLiveness.Diagnostic
import TensorLiveness.Program.Expr

namespace TensorLiveness
namespace Analysis

open Program Text

/-- A finding at the binding of `site`. -/
def finding (vars : BinderTable) (site : Option Handle) (code : Code) (what : String) :
    Diagnostic :=
  let place := match site with
    | some v => " in the binding of " ++ vars.display v
    | none => ""
  .error code ((site.bind vars.span?).getD .nowhere) (what ++ place)

/-- An argument that has no name. -/
def argumentErrors (vars : BinderTable) (site : Option Handle) (arg : Expr) : List Diagnostic :=
  if arg.isAtom then []
  else [(finding vars site .compoundArgument
    ("call argument is a " ++ arg.kind ++ ", not a variable or constant")).hinted
      "bind the argument with `let` first"]

/-- A tuple field that has no name. -/
def fieldErrors (vars : BinderTable) (site : Option Handle) (i : Nat) (field : Expr) :
    List Diagnostic :=
  if field.isAtom then []
  else [(finding vars site .compoundField
    ("tuple field " ++ toString i ++ " is a " ++ field.kind ++
      ", not a variable or constant")).hinted "bind the field with `let` first"]

/-- A callee that is no operator. -/
def calleeErrors (vars : BinderTable) (site : Option Handle) (callee : Expr) : List Diagnostic :=
  if callee.isOp then []
  else [(finding vars site .closureCall
    ("call of a " ++ callee.kind ++ " is not supported")).hinted
      "only primitive operators may be called"]

/-- A projection of what has no name. -/
def sourceErrors (vars : BinderTable) (site : Option Handle) (source : Expr) : List Diagnostic :=
  if source.var?.isSome then []
  else [finding vars site .compoundProjection
    ("projection of a " ++ source.kind ++ ", not a variable")]

/-- A condition that has no name. -/
def testErrors (vars : BinderTable) (site : Option Handle) (test : Expr) : List Diagnostic :=
  if test.var?.isSome then []
  else [(finding vars site .compoundCondition
    ("condition is a " ++ test.kind ++ ", not a variable")).hinted
      "bind the condition with `let` first"]

/-- A result that has no name. -/
def resultErrors (vars : BinderTable) (position : Position) (site : Option Handle) (e : Expr) :
    List Diagnostic :=
  match position with
  | .operand => []
  | .sequence =>
    if e.var?.isSome then []
    else [(finding vars site .compoundResult
      ("sequence result is a " ++ e.kind ++ ", not a variable")).hinted
        "bind the result with `let` and return the variable"]

/-- A binding whose value is itself a let sequence. -/
def bindingErrors (vars : BinderTable) (v : Handle) (value : Expr) : List Diagnostic :=
  if value.isLet then
    [(finding vars (some v) .nestedSequence "nested let sequence").hinted
      "flatten the sequence into the enclosing one"]
  else []

mutual

/-- The findings in an expression inside the binding of `site`. -/
def exprErrors (vars : BinderTable) (position : Position) (site : Option Handle) :
    Expr → List Diagnostic
  | .var _ => []
  | .const c => resultErrors vars position site (.const c)
  | .op name => resultErrors vars position site (.op name)
  | .call callee args ty =>
    resultErrors vars position site (.call callee args ty) ++
      calleeErrors vars site callee ++ args.flatMap (argumentErrors vars site) ++
      exprErrors vars .operand site callee ++ argsErrors vars site args
  | .tuple fields =>
    resultErrors vars position site (.tuple fields) ++ fieldsErrors vars site 0 fields
  | .get source index =>
    resultErrors vars position site (.get source index) ++
      sourceErrors vars site source ++ exprErrors vars .operand site source
  | .cond test thenBranch elseBranch ty =>
    resultErrors vars position site (.cond test thenBranch elseBranch ty) ++
      testErrors vars site test ++ exprErrors vars .operand site test ++
      exprErrors vars .sequence site thenBranch ++ exprErrors vars .sequence site elseBranch
  | .closure params body =>
    resultErrors vars position site (.closure params body) ++
      exprErrors vars .operand site body
  | .letIn v value body =>
    match position with
    | .sequence =>
      bindingErrors vars v value ++ exprErrors vars .operand (some v) value ++
        exprErrors vars .sequence site body
    | .operand =>
      exprErrors vars .operand site value ++ exprErrors vars .operand site body

/-- The findings inside arguments. -/
def argsErrors (vars : BinderTable) (site : Option Handle) : List Expr → List Diagnostic
  | [] => []
  | e :: es => exprErrors vars .operand site e ++ argsErrors vars site es

/-- The findings on and inside tuple fields, from the field number `i` on. -/
def fieldsErrors (vars : BinderTable) (site : Option Handle) (i : Nat) :
    List Expr → List Diagnostic
  | [] => []
  | e :: es =>
    fieldErrors vars site i e ++ exprErrors vars .operand site e ++
      fieldsErrors vars site (i + 1) es

end

/-- The findings in a function. -/
def formErrors (vars : BinderTable) (f : Function) : List Diagnostic :=
  exprErrors vars .sequence none f.body

end Analysis
end TensorLiveness
