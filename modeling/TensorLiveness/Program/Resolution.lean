/-
# Names to handles

Every binder of a module gets a handle, in the order in which the text binds: the
parameters of a function, then each `let` behind its value, then the parameters of
closures where they stand.  A name refers to the innermost binder in scope.  A `let`
is in scope behind its statement, up to the end of its block.

A binder without a type takes the type of its value, which then is also the type of
the call or conditional that computes it.

| finding | when | placeholder |
| --- | --- | --- |
| `duplicateFunction` | an earlier function has the name | the function is left out |
| `duplicateBinder` | an earlier binder of the module has the name | none: it binds |
| `undefinedVariable` | no binder in scope has the name | the constant zero |
-/

import TensorLiveness.Diagnostic
import TensorLiveness.Program.Expr
import TensorLiveness.Syntax.Tree

namespace TensorLiveness
namespace Program

open Number Text

/-- The binders in scope, innermost first. -/
abbrev Env := List (String × Handle)

mutual

/-- The type that is written. -/
def Ty.ofSyntax : Syntax.TypeTerm → Ty
  | .named i =>
    if i.name = "Tensor" then .tensor else if i.name = "Func" then .func else .other i.name
  | .tuple fields _ => .tuple (Ty.ofSyntaxAll fields)

/-- The types that are written. -/
def Ty.ofSyntaxAll : List Syntax.TypeTerm → List Ty
  | [] => []
  | t :: ts => Ty.ofSyntax t :: Ty.ofSyntaxAll ts

end

/-- The type of the field at `index`; `Tensor` if there is none. -/
def Ty.field (index : Nat) : Ty → Ty
  | .tuple fields => (fields[index]?).getD .tensor
  | _ => .tensor

mutual

/-- The type that an expression has by its form. -/
def Expr.infer (vars : BinderTable) : Expr → Ty
  | .var v => (vars.ty? v).getD .tensor
  | .const _ | .call .. => .tensor
  | .op _ | .closure .. => .func
  | .tuple fields => .tuple (Expr.inferAll vars fields)
  | .get source index => (source.infer vars).field index
  | .cond _ thenBranch _ _ => thenBranch.infer vars
  | .letIn _ _ body => body.infer vars

/-- The types that expressions have by their form. -/
def Expr.inferAll (vars : BinderTable) : List Expr → List Ty
  | [] => []
  | e :: es => e.infer vars :: Expr.inferAll vars es

end

/-- The same value with `ty` as the type of its result, if it is a call or a conditional. -/
def Expr.withResultType (ty : Ty) : Expr → Expr
  | .call callee args _ => .call callee args ty
  | .cond test thenBranch elseBranch _ => .cond test thenBranch elseBranch ty
  | e => e

/-- What resolution has found out so far: the binders, the place of the first binder of
each name, and the findings. -/
structure Resolver where
  vars : BinderTable
  binders : List (String × Span)
  diagnostics : List Diagnostic

namespace Resolver

/-- The state before anything is resolved. -/
def start : Resolver := ⟨.empty, [], []⟩

/-- One finding more. -/
def report (s : Resolver) (d : Diagnostic) : Resolver :=
  { s with diagnostics := s.diagnostics ++ [d] }

/-- Take note of a binder's name. -/
def note (s : Resolver) (name : Syntax.Name) : Resolver :=
  match s.binders.lookup name.name with
  | some first =>
    s.report <| ((Diagnostic.error .duplicateBinder name.span
      ("duplicate binder '%" ++ name.name ++ "'")).relatedTo first
        "first bound here").hinted "binders must be unique (single-assignment form)"
  | none => { s with binders := s.binders ++ [(name.name, name.span)] }

/-- Allocate a binder. -/
def bind (s : Resolver) (name : Syntax.Name) (ty : Ty) (span : Span) : Handle × Resolver :=
  let s := s.note name
  let (v, vars) := s.vars.fresh ⟨name.name, ty, span⟩
  (v, { s with vars := vars })

/-- Allocate parameters and bring them into scope. -/
def bindParams (env : Env) (s : Resolver) : List Syntax.Param → (List Handle × Env) × Resolver
  | [] => (([], env), s)
  | p :: ps =>
    let (v, s) := s.bind p.name (Ty.ofSyntax p.ty) p.span
    let ((vs, env), s) := bindParams ((p.name.name, v) :: env) s ps
    ((v :: vs, env), s)

/-- What a name refers to. -/
def reference (env : Env) (s : Resolver) (name : Syntax.Name) : Expr × Resolver :=
  match env.lookup name.name with
  | some v => (.var v, s)
  | none =>
    (.const .zero, s.report <| Diagnostic.error .undefinedVariable name.span
      ("undefined variable '%" ++ name.name ++ "'"))

/-- What a call calls. -/
def callee (env : Env) (s : Resolver) : Syntax.Callee → Expr × Resolver
  | .op name => (.op name.name, s)
  | .var name => s.reference env name

mutual

/-- Resolve an expression. -/
def expr (env : Env) (s : Resolver) : Syntax.Expr → Expr × Resolver
  | .var name _ => s.reference env name
  | .number value _ => (.const value, s)
  | .op name _ => (.op name.name, s)
  | .call f args _ =>
    let (f, s) := s.callee env f
    let (args, s) := exprs env s args
    (.call f args .tensor, s)
  | .tuple fields _ =>
    let (fields, s) := exprs env s fields
    (.tuple fields, s)
  | .get source index _ =>
    let (source, s) := expr env s source
    (.get source index, s)
  | .cond test thenBlock elseBlock _ =>
    let (test, s) := expr env s test
    let (thenBranch, s) := block env s thenBlock
    let (elseBranch, s) := block env s elseBlock
    (.cond test thenBranch elseBranch .tensor, s)
  | .closure params body _ =>
    let ((params, env), s) := s.bindParams env params
    let (body, s) := block env s body
    (.closure params body, s)

/-- Resolve expressions from left to right. -/
def exprs (env : Env) (s : Resolver) : List Syntax.Expr → List Expr × Resolver
  | [] => ([], s)
  | e :: es =>
    let (e, s) := expr env s e
    let (es, s) := exprs env s es
    (e :: es, s)

/-- Resolve a block to a let sequence. -/
def block (env : Env) (s : Resolver) : Syntax.Block → Expr × Resolver
  | .bind name ty value span rest =>
    let (value, s) := expr env s value
    let ty := (ty.map Ty.ofSyntax).getD (value.infer s.vars)
    let (v, s) := s.bind name ty span
    let (body, s) := block ((name.name, v) :: env) s rest
    (.letIn v (value.withResultType ty) body, s)
  | .result value _ => expr env s value

end

/-- Resolve a function. -/
def function (s : Resolver) (f : Syntax.FunctionDecl) : Function × Resolver :=
  let ((params, env), s) := s.bindParams [] f.params
  let (body, s) := s.block env f.body
  (⟨params, body⟩, s)

/-- Resolve functions; `seen` holds the names of the earlier ones. -/
def functions (seen : List (String × Span)) (s : Resolver) :
    List Syntax.FunctionDecl → List (String × Function) × Resolver
  | [] => ([], s)
  | f :: fs =>
    match seen.lookup f.name.name with
    | some first =>
      functions seen (s.report <| (Diagnostic.error .duplicateFunction f.name.span
        ("duplicate function '@" ++ f.name.name ++ "'")).relatedTo first
          "first defined here") fs
    | none =>
      let (g, s) := s.function f
      let (gs, s) := functions ((f.name.name, f.name.span) :: seen) s fs
      ((f.name.name, g) :: gs, s)

end Resolver

/-- The program that a module describes, with all findings.  With an error among them the
program holds placeholders. -/
def ofModule (m : Syntax.Module) : TensorLiveness.Program × List Diagnostic :=
  let (functions, s) := Resolver.start.functions [] m.functions
  (⟨s.vars, functions⟩, s.diagnostics)

end Program
end TensorLiveness
