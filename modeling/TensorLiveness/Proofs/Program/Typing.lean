/-
# Types of binders and of values

Reading a program gives every binder a type, and every call and conditional that a `let` binds the
type of its binder (`ty?_of_resultType?`).  That the type of a binder is the type of its value is
not checked anywhere; `HasType` says which type a value has when the variables in it have the types
of the table.

| value | type |
| --- | --- |
| variable | that of the variable |
| constant | `Tensor` |
| operator, closure | `Func` |
| tuple | the types of its fields |
| projection | that of the component |
| call | any |
| conditional | the one that the results of both branches have |
-/

import TensorLiveness.Proofs.Program.Flat
import TensorLiveness.Proofs.Program.Resolution

namespace TensorLiveness
namespace Program

/-- The type that a call or a conditional carries. -/
def Expr.resultType? : Expr → Option Ty
  | .call _ _ ty | .cond _ _ _ ty => some ty
  | _ => none

theorem Expr.resultType?_withResultType {e : Expr} {ty ty' : Ty}
    (h : (e.withResultType ty).resultType? = some ty') : ty = ty' := by
  cases e <;> first | exact Option.some.inj h | cases h

theorem Expr.branchBindings_withResultType (ty : Ty) (e : Expr) :
    (e.withResultType ty).branchBindings = e.branchBindings := by
  cases e <;> rfl

namespace Resolver

/-- Between two states of the resolver no type was lost, and of the bindings `bs` the calls and
the conditionals carry the types of their binders. -/
structure Typed (s t : Resolver) (bs : List (Handle × Expr)) : Prop where
  keeps {v : Handle} {ty : Ty} : s.vars.ty? v = some ty → t.vars.ty? v = some ty
  typed {v : Handle} {value : Expr} {ty : Ty} : (v, value) ∈ bs → value.resultType? = some ty →
    t.vars.ty? v = some ty

namespace Typed

variable {s t r : Resolver} {bs bs' : List (Handle × Expr)}

theorem refl (h : t.vars = s.vars) : Typed s t [] :=
  ⟨fun hty => h ▸ hty, fun hb => absurd hb List.not_mem_nil⟩

theorem trans (h : Typed s t bs) (h' : Typed t r bs') : Typed s r (bs ++ bs') :=
  ⟨fun hty => h'.keeps (h.keeps hty), fun hb hty =>
    (List.mem_append.1 hb).elim (fun hb => h'.keeps (h.typed hb hty)) fun hb => h'.typed hb hty⟩

theorem forget (h : Typed s t bs) : Typed s t [] :=
  ⟨h.keeps, fun hb => absurd hb List.not_mem_nil⟩

end Typed

/-- A binder gets its type, and the binders before it keep theirs. -/
theorem bind_typed (s : Resolver) (name : Syntax.Name) (ty : Ty) (span : Text.Span) :
    Typed s (s.bind name ty span).2 [] ∧
      (s.bind name ty span).2.vars.ty? (s.bind name ty span).1 = some ty := by
  refine ⟨⟨fun {v ty'} h => ?_, fun hb => absurd hb List.not_mem_nil⟩, ?_⟩
  · obtain ⟨binder, hbinder, hty⟩ := Option.map_eq_some_iff.1 h
    obtain ⟨hlt, rfl⟩ := Array.getElem?_eq_some_iff.1 hbinder
    rw [BinderTable.ty?, entries_bind, Array.getElem?_push_lt hlt, Option.map_some, hty]
  · rw [BinderTable.ty?, entries_bind, handle_bind, BinderTable.size, Array.getElem?_push_size]
    rfl

theorem bindParams_typed : ∀ (ps : List Syntax.Param) (env : Env) (s : Resolver),
    Typed s (s.bindParams env ps).2 []
  | [], _, _ => .refl rfl
  | p :: ps, _, s =>
    (bind_typed s p.name (Ty.ofSyntax p.ty) p.span).1.trans (bindParams_typed ps _ _)

theorem reference_typed (env : Env) (s : Resolver) (name : Syntax.Name) :
    Typed s (s.reference env name).2 (s.reference env name).1.branchBindings ∧
      (s.reference env name).1.allBindings = [] := by
  unfold reference
  split
  · exact ⟨.refl rfl, rfl⟩
  · exact ⟨.refl rfl, rfl⟩

/-- An expression is no let sequence. -/
theorem allBindings_expr (e : Syntax.Expr) (env : Env) (s : Resolver) :
    (s.expr env e).1.allBindings = [] := by
  cases e with
  | var name span => exact (reference_typed env s name).2
  | _ => rfl

mutual

/-- **Resolution hands the types of binders to calls and conditionals.** -/
theorem expr_typed : ∀ (e : Syntax.Expr) (env : Env) (s : Resolver),
    Typed s (s.expr env e).2 (s.expr env e).1.branchBindings
  | .var name _, env, s => (reference_typed env s name).1
  | .number _ _, _, _ => .refl rfl
  | .op _ _, _, _ => .refl rfl
  | .call (.op _) args _, env, s => exprs_typed args env s
  | .call (.var name) args _, env, s =>
    (reference_typed env s name).1.forget.trans (exprs_typed args env (s.reference env name).2)
  | .tuple fields _, env, s => exprs_typed fields env s
  | .get source _ _, env, s => (expr_typed source env s).forget
  | .cond test thenBlock elseBlock _, env, s =>
    (expr_typed test env s).forget.trans <|
      (block_typed thenBlock env (s.expr env test).2).trans
        (block_typed elseBlock env ((s.expr env test).2.block env thenBlock).2)
  | .closure params body _, env, s =>
    (bindParams_typed params env s).trans (block_typed body (s.bindParams env params).1.2
      (s.bindParams env params).2).forget

theorem exprs_typed : ∀ (es : List Syntax.Expr) (env : Env) (s : Resolver),
    Typed s (s.exprs env es).2 []
  | [], _, _ => .refl rfl
  | e :: es, env, s => (expr_typed e env s).forget.trans (exprs_typed es env (s.expr env e).2)

/-- The same for a block. -/
theorem block_typed : ∀ (b : Syntax.Block) (env : Env) (s : Resolver),
    Typed s (s.block env b).2 (s.block env b).1.allBindings
  | .result value _, env, s => by
    rw [block, allBindings_expr]
    exact (expr_typed value env s).forget
  | .bind name ty value span rest, env, s => by
    have hvalue := expr_typed value env s
    let ty' := (ty.map Ty.ofSyntax).getD ((s.expr env value).1.infer (s.expr env value).2.vars)
    obtain ⟨hbind, hty⟩ := bind_typed (s.expr env value).2 name ty' span
    let bound := (s.expr env value).2.bind name ty' span
    have hrest := block_typed rest ((name.name, bound.1) :: env) bound.2
    rw [block, Expr.allBindings, Expr.branchBindings_withResultType, ← List.singleton_append]
    refine hvalue.trans ⟨fun h => hrest.keeps (hbind.keeps h), fun {v x ty''} hb hx => ?_⟩
    rcases List.mem_append.1 hb with hb | hb
    · obtain ⟨rfl, rfl⟩ := Prod.mk.inj (List.mem_singleton.1 hb)
      exact Expr.resultType?_withResultType hx ▸ hrest.keeps hty
    · exact hrest.typed hb hx

end

theorem functions_typed : ∀ (fs : List Syntax.FunctionDecl) (seen : List (String × Text.Span))
    (s : Resolver), Typed s (s.functions seen fs).2
      ((s.functions seen fs).1.flatMap fun g => g.2.body.allBindings) := by
  intro fs
  induction fs with
  | nil => exact fun _ s => .refl rfl
  | cons f fs ih =>
    intro seen s
    rw [functions]
    split
    · exact (Typed.refl (vars_report s _)).trans (ih seen (s.report _))
    · have hparams := bindParams_typed f.params [] s
      have hbody := block_typed f.body (s.bindParams [] f.params).1.2 (s.bindParams [] f.params).2
      exact (hparams.trans hbody).trans (ih ((f.name.name, f.name.span) :: seen) (s.function f).2)

end Resolver

/-! ### Types of values -/

/-- A parameter may be a buffer or a tuple of buffers. -/
inductive Ty.OfBuffers : Ty → Prop
  | tensor : OfBuffers .tensor
  | tuple {tys : List Ty} : (∀ ty ∈ tys, ty = .tensor) → OfBuffers (.tuple tys)

/-- The type of a field of a tuple. -/
def Expr.fieldType? (vars : BinderTable) : Expr → Option Ty
  | .var u => vars.ty? u
  | .const _ => some .tensor
  | _ => none

/-- A value has the type `ty` when the variables have the types of the table. -/
inductive HasType (vars : BinderTable) : Expr → Ty → Prop
  | var {u : Handle} {ty : Ty} : vars.ty? u = some ty → HasType vars (.var u) ty
  | const (value : Number.Binary64) : HasType vars (.const value) .tensor
  | op (name : String) : HasType vars (.op name) .func
  | closure (params : List Handle) (body : Expr) : HasType vars (.closure params body) .func
  | call (callee : Expr) (args : List Expr) (declared ty : Ty) :
    HasType vars (.call callee args declared) ty
  | tuple {fields : List Expr} {tys : List Ty} :
    fields.map (Expr.fieldType? vars) = tys.map some → HasType vars (.tuple fields) (.tuple tys)
  | get {u : Handle} {index : Nat} {tys : List Ty} {ty : Ty} : vars.ty? u = some (.tuple tys) →
    tys[index]? = some ty → HasType vars (.get (.var u) index) ty
  | cond {test thenBranch elseBranch : Expr} {declared ty : Ty} {a b : Handle} :
    thenBranch.result = .var a → vars.ty? a = some ty → elseBranch.result = .var b →
    vars.ty? b = some ty → HasType vars (.cond test thenBranch elseBranch declared) ty

end Program

open Program in
/-- **The calls and the conditionals of a program that could be read carry the types of their
binders.** -/
theorem ty?_of_resultType? {source entry : String} {p : Program} {warnings : List Diagnostic}
    {f : Function} (hread : readProgram source = .ok (p, warnings))
    (hf : p.function? entry = some f) {v : Handle} {value : Expr} {ty : Ty}
    (hb : (v, value) ∈ f.body.allBindings) (hty : value.resultType? = some ty) :
    p.vars.ty? v = some ty := by
  obtain ⟨m, _, hm, _⟩ := readProgram_eq_ok_iff.1 hread
  obtain rfl : (ofModule m).1 = p := congrArg Prod.fst hm
  refine (Resolver.functions_typed m.functions [] .start).typed ?_ hty
  exact List.mem_flatMap_of_mem (mem_functions_of_function? hf) hb

end TensorLiveness
