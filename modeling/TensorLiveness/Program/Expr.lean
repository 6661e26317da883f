/-
# Programs

The single-assignment form that is analysed.  A let sequence is a chain of `letIn`
that ends in its result; `bindings` and `result` take it apart.
-/

import TensorLiveness.Number.Binary64
import TensorLiveness.Program.Binder

namespace TensorLiveness
namespace Program

open Number

/-- An expression.  Calls and conditionals carry the type of their result. -/
inductive Expr
  | var (v : Handle)
  | const (value : Binary64)
  | op (name : String)
  | call (callee : Expr) (args : List Expr) (ty : Ty)
  | tuple (fields : List Expr)
  | get (source : Expr) (index : Nat)
  | cond (test thenBranch elseBranch : Expr) (ty : Ty)
  | closure (params : List Handle) (body : Expr)
  | letIn (v : Handle) (value body : Expr)

/-- Where an expression stands: it is a let sequence (or the rest of one), or it is part
of another expression. -/
inductive Position
  | sequence
  | operand
deriving DecidableEq

namespace Expr

/-- The variable that an expression is. -/
def var? : Expr → Option Handle
  | .var v => some v
  | _ => none

/-- An expression that needs no evaluation. -/
def isAtom : Expr → Bool
  | .var _ | .const _ => true
  | _ => false

/-- A bare operator. -/
def isOp : Expr → Bool
  | .op _ => true
  | _ => false

/-- A let sequence. -/
def isLet : Expr → Bool
  | .letIn .. => true
  | _ => false

/-- The word for a kind of expression. -/
def kind : Expr → String
  | .var _ => "variable"
  | .const _ => "constant"
  | .op _ => "operator reference"
  | .call .. => "call"
  | .tuple _ => "tuple"
  | .get .. => "tuple projection"
  | .cond .. => "conditional"
  | .closure .. => "closure"
  | .letIn .. => "let sequence"

/-- The bindings of a let sequence. -/
def bindings : Expr → List (Handle × Expr)
  | .letIn v value body => (v, value) :: body.bindings
  | _ => []

/-- The result of a let sequence. -/
def result : Expr → Expr
  | .letIn _ _ body => body.result
  | e => e

/-- The let sequence with these bindings before `e`. -/
def letAll (bs : List (Handle × Expr)) (e : Expr) : Expr :=
  bs.foldr (fun b body => .letIn b.1 b.2 body) e

/-- A sequence is its bindings before its result. -/
@[simp] theorem letAll_bindings_result : ∀ e : Expr, letAll e.bindings e.result = e
  | .letIn v value body => congrArg (Expr.letIn v value) (letAll_bindings_result body)
  | .var _ | .const _ | .op _ | .call .. | .tuple _ | .get .. | .cond .. | .closure .. => rfl

/-- The result of a sequence is no sequence. -/
@[simp] theorem isLet_result : ∀ e : Expr, e.result.isLet = false
  | .letIn _ _ body => isLet_result body
  | .var _ | .const _ | .op _ | .call .. | .tuple _ | .get .. | .cond .. | .closure .. => rfl

end Expr

/-- A function. -/
structure Function where
  params : List Handle
  body : Expr

end Program

/-- A program: its binders and its functions, by name and in order. -/
structure Program where
  vars : Program.BinderTable
  functions : List (String × Program.Function)

/-- The function of this name. -/
def Program.function? (p : Program) (name : String) : Option Program.Function :=
  p.functions.lookup name

end TensorLiveness
