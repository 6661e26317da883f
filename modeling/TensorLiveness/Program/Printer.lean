/-
# Programs as text

A function is printed so that it reads back: every binder with its type, a block's
statements on lines of their own, a one-element tuple with its comma.
-/

import TensorLiveness.Number.Shortest
import TensorLiveness.Program.Expr

namespace TensorLiveness
namespace Program

/-- The space before a line. -/
def indentation (depth : Nat) : String := String.ofList (List.replicate (2 * depth) ' ')

/-- A binder with its type. -/
def BinderTable.declaration (vars : BinderTable) (h : Handle) : String :=
  vars.display h ++ ": " ++ ((vars.ty? h).getD .tensor).display

/-- Parameters with their types. -/
def BinderTable.declarations (vars : BinderTable) (hs : List Handle) : String :=
  ", ".intercalate (hs.map vars.declaration)

/-- The text of an expression in its place: as the result of a block it has a line of its
own. -/
def placed (position : Position) (depth : Nat) (text : String) : String :=
  match position with
  | .sequence => indentation depth ++ text ++ "\n"
  | .operand => text

/-- Lines between braces, the closing one on its own line. -/
def braced (depth : Nat) (lines : String) : String :=
  "\x7b\n" ++ lines ++ indentation depth ++ "\x7d"

/-- One statement of a block. -/
def statement (vars : BinderTable) (depth : Nat) (v : Handle) (value : String) : String :=
  indentation depth ++ "let " ++ vars.declaration v ++ " = " ++ value ++ ";\n"

mutual

/-- An expression as text, in a block of the given depth. -/
def Expr.print (vars : BinderTable) (position : Position) (depth : Nat) : Expr → String
  | .var v => placed position depth (vars.display v)
  | .const value => placed position depth value.render
  | .op name => placed position depth name
  | .call callee args _ =>
    placed position depth (callee.print vars .operand depth ++ "(" ++
      ", ".intercalate (Expr.printAll vars depth args) ++ ")")
  | .tuple fields =>
    let closing := if fields.length = 1 then ",)" else ")"
    placed position depth
      ("(" ++ ", ".intercalate (Expr.printAll vars depth fields) ++ closing)
  | .get source index =>
    placed position depth (source.print vars .operand depth ++ "." ++ toString index)
  | .cond test thenBranch elseBranch _ =>
    placed position depth ("if (" ++ test.print vars .operand depth ++ ") " ++
      braced depth (thenBranch.print vars .sequence (depth + 1)) ++ " else " ++
      braced depth (elseBranch.print vars .sequence (depth + 1)))
  | .closure params body =>
    placed position depth ("fn(" ++ vars.declarations params ++ ") " ++
      braced depth (body.print vars .sequence (depth + 1)))
  | .letIn v value body =>
    match position with
    | .sequence =>
      statement vars depth v (value.print vars .operand depth) ++
        body.print vars .sequence depth
    | .operand =>
      braced depth (statement vars (depth + 1) v (value.print vars .operand (depth + 1)) ++
        body.print vars .sequence (depth + 1))

/-- Expressions as text. -/
def Expr.printAll (vars : BinderTable) (depth : Nat) : List Expr → List String
  | [] => []
  | e :: es => e.print vars .operand depth :: Expr.printAll vars depth es

end

/-- A function as text. -/
def Function.print (vars : BinderTable) (name : String) (f : Function) : String :=
  "fn @" ++ name ++ "(" ++ vars.declarations f.params ++ ") " ++
    braced 0 (f.body.print vars .sequence 1) ++ "\n"

end Program
end TensorLiveness
