/-
# Programs under other handles

`e.renumber ρ` is the expression `e` with the handle `ρ v` for each `v`.  What a pass asks of an
expression does not depend on the numbers:

| question | answer for `e.renumber ρ` |
| --- | --- |
| which variable, which form, which kind | the same, renumbered |
| inferred type | the same, if the tables agree (`infer_renumber`) |
| free variables | renumbered, if `ρ` is injective (`freeVarsUnder_renumber`) |
| findings of the form check | of the same kinds, whatever the tables (`kinds_exprErrors`) |

Only the handles that occur or are bound in `e` matter (`renumber_congr`).
-/

import Mathlib.Data.List.Basic
import TensorLiveness.Analysis.Form
import TensorLiveness.Proofs.Program.Resolution

namespace TensorLiveness
namespace Program

mutual

/-- The expression with `ρ v` in the place of each handle `v`. -/
def Expr.renumber (ρ : Handle → Handle) : Expr → Expr
  | .var v => .var (ρ v)
  | .const value => .const value
  | .op name => .op name
  | .call callee args ty => .call (callee.renumber ρ) (Expr.renumberAll ρ args) ty
  | .tuple fields => .tuple (Expr.renumberAll ρ fields)
  | .get source index => .get (source.renumber ρ) index
  | .cond test thenBranch elseBranch ty =>
    .cond (test.renumber ρ) (thenBranch.renumber ρ) (elseBranch.renumber ρ) ty
  | .closure params body => .closure (params.map ρ) (body.renumber ρ)
  | .letIn v value body => .letIn (ρ v) (value.renumber ρ) (body.renumber ρ)

/-- The same for expressions. -/
def Expr.renumberAll (ρ : Handle → Handle) : List Expr → List Expr
  | [] => []
  | e :: es => e.renumber ρ :: Expr.renumberAll ρ es

end

/-- The function with `ρ v` in the place of each handle `v`. -/
def Function.renumber (ρ : Handle → Handle) (f : Function) : Function :=
  ⟨f.params.map ρ, f.body.renumber ρ⟩

variable {ρ σ : Handle → Handle}

theorem Expr.renumberAll_eq (ρ : Handle → Handle) (es : List Expr) :
    Expr.renumberAll ρ es = es.map (Expr.renumber ρ) := by
  induction es with
  | nil => rfl
  | cons e es ih => rw [renumberAll, ih, List.map_cons]

mutual

/-- **Only the handles that occur or are bound matter.** -/
theorem Expr.renumber_congr : ∀ (e : Expr), (∀ v ∈ e.binders ++ e.occurrences, ρ v = σ v) →
    e.renumber ρ = e.renumber σ
  | .var v, h => by rw [renumber, renumber, h v List.mem_cons_self]
  | .const _, _ => rfl
  | .op _, _ => rfl
  | .call callee args ty, h => by
    rw [binders, occurrences] at h
    rw [renumber, renumber, callee.renumber_congr fun v hv => h v ?_,
      Expr.renumberAll_congr args fun v hv => h v ?_]
    all_goals
      rw [List.mem_append] at hv
      simp only [List.mem_append]
      tauto
  | .tuple fields, h => by rw [renumber, renumber, Expr.renumberAll_congr fields h]
  | .get source index, h => by rw [renumber, renumber, source.renumber_congr h]
  | .cond test thenBranch elseBranch ty, h => by
    rw [binders, occurrences] at h
    rw [renumber, renumber, test.renumber_congr fun v hv => h v ?_,
      thenBranch.renumber_congr fun v hv => h v ?_, elseBranch.renumber_congr fun v hv => h v ?_]
    all_goals
      rw [List.mem_append] at hv
      simp only [List.mem_append]
      tauto
  | .closure params body, h => by
    rw [binders, occurrences] at h
    have hparams : ∀ v ∈ params, ρ v = σ v := fun v hv =>
      h v (List.mem_append_left _ (List.mem_append_left _ hv))
    have hbody : ∀ v ∈ body.binders ++ body.occurrences, ρ v = σ v := by
      intro v hv
      by_cases hv' : v ∈ params
      · exact hparams v hv'
      · refine h v ?_
        rw [List.mem_append] at hv
        simp only [List.mem_append, List.mem_filter, decide_eq_true_iff]
        tauto
    rw [renumber, renumber, List.map_congr_left hparams, body.renumber_congr hbody]
  | .letIn v value body, h => by
    rw [binders, occurrences] at h
    have hv : ρ v = σ v := h v (by simp)
    have hbody : ∀ u ∈ body.binders ++ body.occurrences, ρ u = σ u := by
      intro u hu
      by_cases heq : u = v
      · exact heq ▸ hv
      · refine h u ?_
        rw [List.mem_append] at hu
        simp only [List.mem_append, List.mem_cons, List.mem_filter, decide_eq_true_iff]
        tauto
    rw [renumber, renumber, hv, body.renumber_congr hbody, value.renumber_congr fun u hu => h u ?_]
    rw [List.mem_append] at hu
    simp only [List.mem_append]
    tauto

/-- The same for expressions. -/
theorem Expr.renumberAll_congr : ∀ (es : List Expr),
    (∀ v ∈ Expr.bindersAll es ++ Expr.occurrencesAll es, ρ v = σ v) →
      Expr.renumberAll ρ es = Expr.renumberAll σ es
  | [], _ => rfl
  | e :: es, h => by
    rw [bindersAll, occurrencesAll] at h
    rw [renumberAll, renumberAll, e.renumber_congr fun v hv => h v ?_,
      Expr.renumberAll_congr es fun v hv => h v ?_]
    all_goals
      rw [List.mem_append] at hv
      simp only [List.mem_append]
      tauto

end

mutual

@[simp] theorem Expr.renumber_id : ∀ e : Expr, e.renumber id = e
  | .var _ | .const _ | .op _ => rfl
  | .call callee args ty => by rw [renumber, callee.renumber_id, Expr.renumberAll_id args]
  | .tuple fields => by rw [renumber, Expr.renumberAll_id fields]
  | .get source _ => by rw [renumber, source.renumber_id]
  | .cond test thenBranch elseBranch _ => by
    rw [renumber, test.renumber_id, thenBranch.renumber_id, elseBranch.renumber_id]
  | .closure params body => by rw [renumber, List.map_id, body.renumber_id]
  | .letIn v value body => by rw [renumber, value.renumber_id, body.renumber_id, id_eq]

@[simp] theorem Expr.renumberAll_id : ∀ es : List Expr, Expr.renumberAll id es = es
  | [] => rfl
  | e :: es => by rw [renumberAll, e.renumber_id, Expr.renumberAll_id es]

end

/-! ### Forms -/

namespace Expr

@[simp] theorem var?_renumber (ρ : Handle → Handle) (e : Expr) :
    (e.renumber ρ).var? = e.var?.map ρ := by
  cases e <;> rfl

@[simp] theorem isAtom_renumber (ρ : Handle → Handle) (e : Expr) :
    (e.renumber ρ).isAtom = e.isAtom := by
  cases e <;> rfl

@[simp] theorem isOp_renumber (ρ : Handle → Handle) (e : Expr) :
    (e.renumber ρ).isOp = e.isOp := by
  cases e <;> rfl

@[simp] theorem isLet_renumber (ρ : Handle → Handle) (e : Expr) :
    (e.renumber ρ).isLet = e.isLet := by
  cases e <;> rfl

@[simp] theorem renumber_withResultType (ρ : Handle → Handle) (ty : Ty) (e : Expr) :
    (e.withResultType ty).renumber ρ = (e.renumber ρ).withResultType ty := by
  cases e <;> rfl

end Expr

mutual

/-- **Tables that agree give the same types.** -/
theorem Expr.infer_renumber {vars vars' : BinderTable} (h : ∀ v, vars'.ty? (ρ v) = vars.ty? v) :
    ∀ e : Expr, (e.renumber ρ).infer vars' = e.infer vars
  | .var v => by rw [renumber, infer, infer, h]
  | .const _ | .op _ | .call .. | .closure .. => rfl
  | .tuple fields => by rw [renumber, infer, infer, Expr.inferAll_renumber h fields]
  | .get source _ => by rw [renumber, infer, infer, source.infer_renumber h]
  | .cond _ thenBranch _ _ => by rw [renumber, infer, infer, thenBranch.infer_renumber h]
  | .letIn _ _ body => by rw [renumber, infer, infer, body.infer_renumber h]

/-- The same for expressions. -/
theorem Expr.inferAll_renumber {vars vars' : BinderTable}
    (h : ∀ v, vars'.ty? (ρ v) = vars.ty? v) :
    ∀ es : List Expr, Expr.inferAll vars' (Expr.renumberAll ρ es) = Expr.inferAll vars es
  | [] => rfl
  | e :: es => by
    rw [renumberAll, inferAll, inferAll, e.infer_renumber h, Expr.inferAll_renumber h es]

end

/-! ### Free variables -/

/-- The second walk has met and found the handles of the first under their other numbers. -/
structure FreeVarWalk.Renumbers (ρ : Handle → Handle) (w w' : FreeVarWalk) : Prop where
  bound (v : Handle) : ρ v ∈ w'.bound ↔ v ∈ w.bound
  found : w'.found = w.found.map ρ

namespace FreeVarWalk.Renumbers

variable {w w' : FreeVarWalk} (hρ : Function.Injective ρ)

include hρ

theorem mention (h : Renumbers ρ w w') (v : Handle) :
    Renumbers ρ (w.mention v) (w'.mention (ρ v)) := by
  have hmet : (ρ v ∈ w'.bound ∨ ρ v ∈ w'.found) ↔ v ∈ w.bound ∨ v ∈ w.found := by
    rw [h.bound, h.found, List.mem_map_of_injective hρ]
  unfold FreeVarWalk.mention
  split
  · rename_i hv
    rw [if_pos (hmet.2 hv)]
    exact h
  · rename_i hv
    rw [if_neg fun hv' => hv (hmet.1 hv')]
    exact ⟨h.bound, by rw [h.found, List.map_append, List.map_singleton]⟩

theorem bindAll (h : Renumbers ρ w w') (vs : List Handle) :
    Renumbers ρ (w.bindAll vs) (w'.bindAll (vs.map ρ)) := by
  refine ⟨fun v => ?_, h.found⟩
  rw [mem_bound_bindAll, mem_bound_bindAll, h.bound, List.mem_map_of_injective hρ]

end FreeVarWalk.Renumbers

mutual

/-- A walk meets and finds the same under other numbers. -/
theorem Expr.walkFree_renumber (hρ : Function.Injective ρ) : ∀ (e : Expr) {w w' : FreeVarWalk},
    FreeVarWalk.Renumbers ρ w w' →
      FreeVarWalk.Renumbers ρ (e.walkFree w) ((e.renumber ρ).walkFree w')
  | .var v, _, _, h => h.mention hρ v
  | .const _, _, _, h | .op _, _, _, h => h
  | .call callee args _, _, _, h =>
    Expr.walkFreeAll_renumber hρ args (callee.walkFree_renumber hρ h)
  | .tuple fields, _, _, h => Expr.walkFreeAll_renumber hρ fields h
  | .get source _, _, _, h => source.walkFree_renumber hρ h
  | .cond test thenBranch elseBranch _, _, _, h =>
    elseBranch.walkFree_renumber hρ
      (thenBranch.walkFree_renumber hρ (test.walkFree_renumber hρ h))
  | .closure params body, _, _, h => body.walkFree_renumber hρ (h.bindAll hρ params)
  | .letIn v value body, _, _, h =>
    body.walkFree_renumber hρ ((value.walkFree_renumber hρ h).bindAll hρ [v])

/-- The same for expressions. -/
theorem Expr.walkFreeAll_renumber (hρ : Function.Injective ρ) :
    ∀ (es : List Expr) {w w' : FreeVarWalk}, FreeVarWalk.Renumbers ρ w w' →
      FreeVarWalk.Renumbers ρ (Expr.walkFreeAll es w)
        (Expr.walkFreeAll (Expr.renumberAll ρ es) w')
  | [], _, _, h => h
  | e :: es, _, _, h => Expr.walkFreeAll_renumber hρ es (e.walkFree_renumber hρ h)

end

/-- What is left of a list when some of its handles are taken out. -/
theorem filter_map_renumber (hρ : Function.Injective ρ) (us vs : List Handle) :
    (us.map ρ).filter (· ∉ vs.map ρ) = (us.filter (· ∉ vs)).map ρ := by
  rw [List.filter_map]
  refine congrArg (List.map ρ) (List.filter_congr fun u _ => decide_eq_decide.2 ?_)
  rw [List.mem_map_of_injective hρ]

mutual

/-- **The free occurrences are the same under other numbers,** in the same order. -/
theorem Expr.occurrences_renumber (hρ : Function.Injective ρ) : ∀ e : Expr,
    (e.renumber ρ).occurrences = e.occurrences.map ρ
  | .var _ | .const _ | .op _ => rfl
  | .call callee args _ => by
    rw [renumber, occurrences, occurrences, callee.occurrences_renumber hρ,
      Expr.occurrencesAll_renumber hρ args, List.map_append]
  | .tuple fields => Expr.occurrencesAll_renumber hρ fields
  | .get source _ => source.occurrences_renumber hρ
  | .cond test thenBranch elseBranch _ => by
    rw [renumber, occurrences, occurrences, test.occurrences_renumber hρ,
      thenBranch.occurrences_renumber hρ, elseBranch.occurrences_renumber hρ, List.map_append,
      List.map_append]
  | .closure params body => by
    rw [renumber, occurrences, occurrences, body.occurrences_renumber hρ,
      filter_map_renumber hρ]
  | .letIn v value body => by
    have hfilter := filter_map_renumber hρ body.occurrences [v]
    simp only [List.map_cons, List.map_nil, List.mem_singleton] at hfilter
    rw [renumber, occurrences, occurrences, value.occurrences_renumber hρ,
      body.occurrences_renumber hρ, hfilter, List.map_append]

/-- The same for expressions. -/
theorem Expr.occurrencesAll_renumber (hρ : Function.Injective ρ) : ∀ es : List Expr,
    Expr.occurrencesAll (Expr.renumberAll ρ es) = (Expr.occurrencesAll es).map ρ
  | [] => rfl
  | e :: es => by
    rw [renumberAll, occurrencesAll, occurrencesAll, e.occurrences_renumber hρ,
      Expr.occurrencesAll_renumber hρ es, List.map_append]

end

/-- **The free variables are the same under other numbers,** in the same order. -/
theorem Expr.freeVarsUnder_renumber (hρ : Function.Injective ρ) (params : List Handle)
    (body : Expr) : (body.renumber ρ).freeVarsUnder (params.map ρ) =
      (body.freeVarsUnder params).map ρ := by
  have hstart : FreeVarWalk.Renumbers ρ ⟨∅, []⟩ ⟨∅, []⟩ :=
    ⟨fun _ => iff_of_false Std.ExtTreeSet.not_mem_empty Std.ExtTreeSet.not_mem_empty, rfl⟩
  exact (body.walkFree_renumber hρ (hstart.bindAll hρ params)).found

end Program

/-! ### Findings on the form -/

/-- What kind of finding a diagnostic is. -/
def Diagnostic.kind (d : Diagnostic) : Option Code × Level := (d.code, d.level)

/-- Findings of the same kinds have an error among them or not. -/
theorem anyError_of_kinds {ds ds' : List Diagnostic}
    (h : ds'.map Diagnostic.kind = ds.map Diagnostic.kind) : anyError ds' = anyError ds := by
  have hany : ∀ ds : List Diagnostic,
      anyError ds = (ds.map Diagnostic.kind).any fun k => decide (k.2 = .error) := fun ds => by
    rw [List.any_map]
    rfl
  rw [hany, hany, h]

theorem codes_of_kinds {ds ds' : List Diagnostic}
    (h : ds'.map Diagnostic.kind = ds.map Diagnostic.kind) :
    ds'.map (·.code) = ds.map (·.code) := by
  have hmap : ∀ ds : List Diagnostic, ds.map (·.code) = (ds.map Diagnostic.kind).map (·.1) :=
    fun ds => by
      rw [List.map_map]
      rfl
  rw [hmap, hmap, h]

namespace Analysis

open Program

variable {ρ : Handle → Handle} {vars vars' : BinderTable}

section

variable (site site' : Option Handle) (e : Expr)

theorem kinds_argumentErrors : (argumentErrors vars' site' (e.renumber ρ)).map Diagnostic.kind =
    (argumentErrors vars site e).map Diagnostic.kind := by
  rw [argumentErrors, argumentErrors, Expr.isAtom_renumber]
  split <;> rfl

theorem kinds_fieldErrors (i : Nat) :
    (fieldErrors vars' site' i (e.renumber ρ)).map Diagnostic.kind =
      (fieldErrors vars site i e).map Diagnostic.kind := by
  rw [fieldErrors, fieldErrors, Expr.isAtom_renumber]
  split <;> rfl

theorem kinds_calleeErrors : (calleeErrors vars' site' (e.renumber ρ)).map Diagnostic.kind =
    (calleeErrors vars site e).map Diagnostic.kind := by
  rw [calleeErrors, calleeErrors, Expr.isOp_renumber]
  split <;> rfl

theorem kinds_sourceErrors : (sourceErrors vars' site' (e.renumber ρ)).map Diagnostic.kind =
    (sourceErrors vars site e).map Diagnostic.kind := by
  rw [sourceErrors, sourceErrors, Expr.var?_renumber, Option.isSome_map]
  split <;> rfl

theorem kinds_testErrors : (testErrors vars' site' (e.renumber ρ)).map Diagnostic.kind =
    (testErrors vars site e).map Diagnostic.kind := by
  rw [testErrors, testErrors, Expr.var?_renumber, Option.isSome_map]
  split <;> rfl

theorem kinds_resultErrors (position : Position) :
    (resultErrors vars' position site' (e.renumber ρ)).map Diagnostic.kind =
      (resultErrors vars position site e).map Diagnostic.kind := by
  cases position with
  | operand => rfl
  | sequence =>
    rw [resultErrors, resultErrors, Expr.var?_renumber, Option.isSome_map]
    split <;> rfl

theorem kinds_bindingErrors (v v' : Handle) :
    (bindingErrors vars' v' (e.renumber ρ)).map Diagnostic.kind =
      (bindingErrors vars v e).map Diagnostic.kind := by
  rw [bindingErrors, bindingErrors, Expr.isLet_renumber]
  split <;> rfl

end

mutual

/-- **The form check finds the same,** whatever the handles and their names are. -/
theorem kinds_exprErrors : ∀ (e : Expr) (position : Position) (site site' : Option Handle),
    (exprErrors vars' position site' (e.renumber ρ)).map Diagnostic.kind =
      (exprErrors vars position site e).map Diagnostic.kind
  | .var _, _, _, _ => rfl
  | .const c, position, site, site' =>
    @kinds_resultErrors ρ vars vars' site site' (.const c) position
  | .op name, position, site, site' =>
    @kinds_resultErrors ρ vars vars' site site' (.op name) position
  | .call callee args ty, position, site, site' => by
    have hargs : ((Expr.renumberAll ρ args).flatMap (argumentErrors vars' site')).map
        Diagnostic.kind = (args.flatMap (argumentErrors vars site)).map Diagnostic.kind := by
      rw [Expr.renumberAll_eq, List.flatMap_map, List.map_flatMap, List.map_flatMap]
      exact List.flatMap_congr fun arg _ => kinds_argumentErrors site site' arg
    rw [Expr.renumber, exprErrors, exprErrors]
    simp only [List.map_append]
    rw [show Expr.call (callee.renumber ρ) (Expr.renumberAll ρ args) ty =
      (Expr.call callee args ty).renumber ρ from rfl, kinds_resultErrors site site' _ position,
      kinds_calleeErrors site site' callee, hargs, kinds_exprErrors callee .operand site site',
      kinds_argsErrors args site site']
  | .tuple fields, position, site, site' => by
    rw [Expr.renumber, exprErrors, exprErrors, List.map_append, List.map_append,
      show Expr.tuple (Expr.renumberAll ρ fields) = (Expr.tuple fields).renumber ρ from rfl,
      kinds_resultErrors site site' _ position, kinds_fieldsErrors fields 0 site site']
  | .get source index, position, site, site' => by
    rw [Expr.renumber, exprErrors, exprErrors]
    simp only [List.map_append]
    rw [show Expr.get (source.renumber ρ) index = (Expr.get source index).renumber ρ from rfl,
      kinds_resultErrors site site' _ position, kinds_sourceErrors site site' source,
      kinds_exprErrors source .operand site site']
  | .cond test thenBranch elseBranch ty, position, site, site' => by
    rw [Expr.renumber, exprErrors, exprErrors]
    simp only [List.map_append]
    rw [show Expr.cond (test.renumber ρ) (thenBranch.renumber ρ) (elseBranch.renumber ρ) ty =
      (Expr.cond test thenBranch elseBranch ty).renumber ρ from rfl,
      kinds_resultErrors site site' _ position, kinds_testErrors site site' test,
      kinds_exprErrors test .operand site site', kinds_exprErrors thenBranch .sequence site site',
      kinds_exprErrors elseBranch .sequence site site']
  | .closure params body, position, site, site' => by
    rw [Expr.renumber, exprErrors, exprErrors, List.map_append, List.map_append,
      show Expr.closure (params.map ρ) (body.renumber ρ) = (Expr.closure params body).renumber ρ
        from rfl,
      kinds_resultErrors site site' _ position, kinds_exprErrors body .operand site site']
  | .letIn v value body, .sequence, site, site' => by
    rw [Expr.renumber, exprErrors, exprErrors]
    simp only [List.map_append]
    rw [kinds_bindingErrors value v (ρ v), kinds_exprErrors value .operand (some v) (some (ρ v)),
      kinds_exprErrors body .sequence site site']
  | .letIn v value body, .operand, site, site' => by
    rw [Expr.renumber, exprErrors, exprErrors]
    simp only [List.map_append]
    rw [kinds_exprErrors value .operand site site', kinds_exprErrors body .operand site site']

theorem kinds_argsErrors : ∀ (es : List Expr) (site site' : Option Handle),
    (argsErrors vars' site' (Expr.renumberAll ρ es)).map Diagnostic.kind =
      (argsErrors vars site es).map Diagnostic.kind
  | [], _, _ => rfl
  | e :: es, site, site' => by
    rw [Expr.renumberAll, argsErrors, argsErrors, List.map_append, List.map_append,
      kinds_exprErrors e .operand site site', kinds_argsErrors es site site']

theorem kinds_fieldsErrors : ∀ (es : List Expr) (i : Nat) (site site' : Option Handle),
    (fieldsErrors vars' site' i (Expr.renumberAll ρ es)).map Diagnostic.kind =
      (fieldsErrors vars site i es).map Diagnostic.kind
  | [], _, _, _ => rfl
  | e :: es, i, site, site' => by
    rw [Expr.renumberAll, fieldsErrors, fieldsErrors]
    simp only [List.map_append]
    rw [kinds_fieldErrors site site' e i, kinds_exprErrors e .operand site site',
      kinds_fieldsErrors es (i + 1) site site']

end

end Analysis
end TensorLiveness
