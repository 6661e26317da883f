/-
# Free variables

The variables that an expression mentions and does not bind, in the order of their
first mention.  A binder hides its name from its own position to the end of the walk,
which is lexical scoping as long as binders are unique and used in scope.
-/

import Std.Data.ExtTreeMap
import Std.Data.ExtTreeSet
import TensorLiveness.Program.Expr

namespace TensorLiveness
namespace Program

/-- The binders met so far and the free variables found so far. -/
structure FreeVarWalk where
  bound : Std.ExtTreeSet Handle
  found : List Handle

namespace FreeVarWalk

/-- Meet a variable. -/
def mention (w : FreeVarWalk) (v : Handle) : FreeVarWalk :=
  if v ∈ w.bound ∨ v ∈ w.found then w else { w with found := w.found ++ [v] }

/-- Meet binders. -/
def bindAll (w : FreeVarWalk) (vs : List Handle) : FreeVarWalk :=
  { w with bound := vs.foldl (fun s v => s.insert v) w.bound }

end FreeVarWalk

mutual

/-- Walk through an expression. -/
def Expr.walkFree : Expr → FreeVarWalk → FreeVarWalk
  | .var v, w => w.mention v
  | .const _, w => w
  | .op _, w => w
  | .call callee args _, w => Expr.walkFreeAll args (callee.walkFree w)
  | .tuple fields, w => Expr.walkFreeAll fields w
  | .get source _, w => source.walkFree w
  | .cond test thenBranch elseBranch _, w =>
    elseBranch.walkFree (thenBranch.walkFree (test.walkFree w))
  | .closure params body, w => body.walkFree (w.bindAll params)
  | .letIn v value body, w => body.walkFree ((value.walkFree w).bindAll [v])

/-- Walk through expressions from left to right. -/
def Expr.walkFreeAll : List Expr → FreeVarWalk → FreeVarWalk
  | [], w => w
  | e :: es, w => Expr.walkFreeAll es (e.walkFree w)

end

/-- The free variables of a closure with these parameters and this body. -/
def Expr.freeVarsUnder (params : List Handle) (body : Expr) : List Handle :=
  (body.walkFree ((⟨∅, []⟩ : FreeVarWalk).bindAll params)).found

/-- The free variables of an expression. -/
def Expr.freeVars (e : Expr) : List Handle := e.freeVarsUnder []

/-- Answers given earlier, by the occurrence asked about.  A closure's body has an answer
of its own, apart from that of the same expression taken plainly. -/
structure FreeVarMemo where
  plain : Std.ExtTreeMap Nat (List Handle)
  closures : Std.ExtTreeMap Nat (List Handle)

namespace FreeVarMemo

/-- The memo without answers. -/
def empty : FreeVarMemo := ⟨∅, ∅⟩

/-- The free variables of the expression at an occurrence. -/
def freeVars (m : FreeVarMemo) (occurrence : Nat) (e : Expr) : List Handle × FreeVarMemo :=
  match m.plain[occurrence]? with
  | some vs => (vs, m)
  | none => (e.freeVars, { m with plain := m.plain.insert occurrence e.freeVars })

/-- The free variables of the closure with the body at an occurrence. -/
def freeVarsUnder (m : FreeVarMemo) (occurrence : Nat) (params : List Handle) (body : Expr) :
    List Handle × FreeVarMemo :=
  match m.closures[occurrence]? with
  | some vs => (vs, m)
  | none =>
    let vs := body.freeVarsUnder params
    (vs, { m with closures := m.closures.insert occurrence vs })

/-- The number of answers kept. -/
def size (m : FreeVarMemo) : Nat := m.plain.size + m.closures.size

end FreeVarMemo

end Program
end TensorLiveness
