/-
# Propagation under other handles

Where two stores correspond (`Store.Renumbers`) and the tables of binders do, parameters are bound
in step and an expression is propagated in step with the same expression under other numbers
(`Lockstep`): the demands correspond, and so do the faults, up to the names of parameters.

| lemma | about |
| --- | --- |
| `bindParameters_renumber` | the parameters |
| `resultDemands_renumber` | the demands of one branch |
| `propagate_renumber` | a let sequence, by recursion on it |

Names become hints and the text of one fault; nothing else depends on them.
-/

import TensorLiveness.Proofs.Identity.Renumbering
import TensorLiveness.Proofs.Program.Alike

namespace TensorLiveness
namespace Analysis

open Identity Program

/-- The demand with `ρ v` in the place of each handle `v`. -/
def Demand.renumber (ρ : Handle → Handle) (d : Demand) : Demand := ⟨ρ d.out, ρ d.input, ρ d.site⟩

/-- The stores correspond, and so do the demands. -/
structure Propagation.Renumbers (ρ : Handle → Handle) (p q : Propagation) : Prop where
  store : Store.Renumbers ρ p.store q.store
  pending : q.pending = p.pending.map (Demand.renumber ρ)

variable {R : String → String → Prop} {ρ : Handle → Handle} {vars vars' : BinderTable}
  {s t : Store} {p q : Propagation} (hρ : Function.Injective ρ)

/-! ### Parameters -/

section Parameters

include hρ

theorem leavesForFields_renumber {name name' : String} (hname : R name name') (whole : Ty) :
    ∀ (tys : List Ty) {s t : Store} (i : Nat), Store.Renumbers ρ s t →
      Lockstep (Fault.Follows R ρ)
        (fun a a' => a'.1 = a.1.map ρ ∧ Store.Renumbers ρ a.2 a'.2)
        (leavesForFields name whole s i tys) (leavesForFields name' whole t i tys)
  | [], _, _, _, h => .ok ⟨rfl, h⟩
  | .tensor :: tys, s, t, i, h => by
    obtain ⟨hv, h₁⟩ := h.freshLeaf hρ (name ++ "." ++ toString i) (name' ++ "." ++ toString i)
    simp only [leavesForFields]
    refine (leavesForFields_renumber hname whole tys (i + 1) h₁).bind fun a a' ha => ?_
    refine .ok ⟨?_, ha.2⟩
    rw [hv, ha.1, List.map_cons]
  | .func :: _, _, _, _, _ | .tuple _ :: _, _, _, _, _ | .other _ :: _, _, _, _, _ =>
    .error ⟨name', hname, rfl⟩

/-- **A parameter is bound in step.** -/
theorem bindParameter_renumber (hvars : BinderTable.Alike R ρ vars vars')
    (h : Store.Renumbers ρ s t) (v : Handle) : Lockstep (Fault.Follows R ρ) (Store.Renumbers ρ)
      (bindParameter vars s v) (bindParameter vars' t (ρ v)) := by
  have hentry := hvars v
  simp only [bindParameter, BinderTable.name?, BinderTable.ty?]
  generalize vars.entries[v]? = b at hentry ⊢
  generalize vars'.entries[ρ v]? = b' at hentry ⊢
  cases hentry with
  | none => exact .error rfl
  | @some b b' hb =>
    simp only [Option.map_some, Option.getD_some, hb.ty_eq]
    cases b.ty with
    | tensor =>
      obtain ⟨hleaf, h₁⟩ := h.freshLeaf hρ b.name b'.name
      simp only [hleaf]
      exact h₁.bindLike hρ v _
    | tuple tys =>
      refine (leavesForFields_renumber hρ hb.name (.tuple tys) tys 0 h).bind fun a a' ha => ?_
      rw [ha.1]
      refine (ha.2.freshUnionOf hρ a.1).bind fun m m' hm => ?_
      rw [hm.1]
      refine (hm.2.bindLike hρ v m.1).bind fun s₁ t₁ h₁ => ?_
      have hmap : (a.1.map ρ).map some = (a.1.map some).map (Option.map ρ) := by
        rw [List.map_map, List.map_map]
        rfl
      rw [hmap]
      exact .ok (h₁.recordFields hρ v _)
    | func => exact .error ⟨b'.name, hb.name, rfl⟩
    | other _ => exact .error ⟨b'.name, hb.name, rfl⟩

theorem bindParameters_renumber (hvars : BinderTable.Alike R ρ vars vars') (params : List Handle)
    (h : Store.Renumbers ρ s t) : Lockstep (Fault.Follows R ρ) (Store.Renumbers ρ)
      (bindParameters vars s params) (bindParameters vars' t (params.map ρ)) := by
  rw [bindParameters, bindParameters, List.foldlM_map]
  exact Lockstep.foldlM (fun _ _ v h => bindParameter_renumber hρ hvars h v) params h

end Parameters

/-! ### Demands -/

theorem fieldDemands_renumber {demands demands' : Handle → Handle → Except Fault (List Demand)}
    (h : ∀ out input, Lockstep (Fault.Follows R ρ)
      (fun ds ds' => ds' = ds.map (Demand.renumber ρ)) (demands out input)
        (demands' (ρ out) (ρ input))) : ∀ outs inputs : Fields, Lockstep (Fault.Follows R ρ)
    (fun ds ds' => ds' = ds.map (Demand.renumber ρ)) (fieldDemands demands outs inputs)
      (fieldDemands demands' (outs.map (Option.map ρ)) (inputs.map (Option.map ρ)))
  | some out :: outs, some input :: inputs => by
    refine (h out input).bind fun first _ hfirst => ?_
    refine (fieldDemands_renumber h outs inputs).bind fun rest _ hrest => ?_
    rw [hfirst, hrest]
    exact .ok List.map_append.symm
  | none :: outs, _ :: inputs => fieldDemands_renumber h outs inputs
  | some _ :: outs, none :: inputs => fieldDemands_renumber h outs inputs
  | [], [] | [], _ :: _ => .ok rfl
  | none :: _, [] | some _ :: _, [] => .ok rfl

theorem demandsWithin_renumber (h : Store.Renumbers ρ s t) (site : Handle) :
    ∀ (depth : Nat) (out input : Handle), Lockstep (Fault.Follows R ρ)
      (fun ds ds' => ds' = ds.map (Demand.renumber ρ)) (demandsWithin s site depth out input)
        (demandsWithin t (ρ site) depth (ρ out) (ρ input)) := by
  intro depth
  induction depth with
  | zero =>
    intro out input
    rw [demandsWithin, demandsWithin, Store.fields?, Store.fields?, Store.fields?, Store.fields?,
      h.records, h.records]
    cases s.records[out]? <;> cases s.records[input]?
    · exact .ok rfl
    · exact .error rfl
    · exact .error rfl
    · simp only [Option.map_some, List.length_map]
      split <;> exact .error rfl
  | succ depth ih =>
    intro out input
    rw [demandsWithin, demandsWithin, Store.fields?, Store.fields?, Store.fields?, Store.fields?,
      h.records, h.records]
    cases s.records[out]? <;> cases s.records[input]?
    · exact .ok rfl
    · exact .error rfl
    · exact .error rfl
    · simp only [Option.map_some, List.length_map]
      split
      · exact fieldDemands_renumber ih _ _
      · exact .error rfl

/-- **The demands of a branch correspond.** -/
theorem resultDemands_renumber (h : Store.Renumbers ρ s t) (site out input : Handle) :
    Lockstep (Fault.Follows R ρ) (fun ds ds' => ds' = ds.map (Demand.renumber ρ))
      (resultDemands s site out input) (resultDemands t (ρ site) (ρ out) (ρ input)) := by
  have hdepth : recordDepth t = recordDepth s := by rw [recordDepth, recordDepth, h.size]
  rw [resultDemands, resultDemands, hdepth]
  exact demandsWithin_renumber h site _ out input

/-! ### Bindings -/

section Bindings

include hρ

theorem bindMinted_renumber (h : q.pending = p.pending.map (Demand.renumber ρ)) (v : Handle)
    {m m' : Handle × Store} (hm : Store.MintsAlike ρ m m') : Lockstep (Fault.Follows R ρ)
      (Propagation.Renumbers ρ) (p.bindMinted v m) (q.bindMinted (ρ v) m') := by
  rw [Propagation.bindMinted, Propagation.bindMinted, hm.1]
  exact (hm.2.bindLike hρ v m.1).bind fun _ _ hs => .ok ⟨hs, h⟩

theorem bindEmpty_renumber (h : Propagation.Renumbers ρ p q) (v : Handle) :
    Lockstep (Fault.Follows R ρ) (Propagation.Renumbers ρ) (p.bindEmpty vars v)
      (q.bindEmpty vars' (ρ v)) :=
  bindMinted_renumber hρ h.pending v (h.store.freshEmpty hρ _ _)

theorem bindTuple_renumber (h : Propagation.Renumbers ρ p q) (v : Handle) (fields : Fields) :
    Lockstep (Fault.Follows R ρ) (Propagation.Renumbers ρ) (p.bindTuple v fields)
      (q.bindTuple (ρ v) (fields.map (Option.map ρ))) := by
  refine (h.store.freshUnion hρ fields).bind fun m m' hm => ?_
  refine (bindMinted_renumber hρ h.pending v hm).bind fun p₁ q₁ h₁ => ?_
  exact .ok ⟨h₁.store.recordFields hρ v fields, h₁.pending⟩

theorem bindField_renumber (h : Propagation.Renumbers ρ p q) (v source : Handle) (index : Nat) :
    Lockstep (Fault.Follows R ρ) (Propagation.Renumbers ρ) (p.bindField vars v source index)
      (q.bindField vars' (ρ v) (ρ source) index) := by
  rw [Propagation.bindField, Propagation.bindField, Store.fields?, Store.fields?,
    h.store.records]
  cases p.store.records[source]? with
  | none => exact .error rfl
  | some fields =>
    simp only [Option.map_some, List.getElem?_map]
    cases fields[index]? with
    | none =>
      rw [List.length_map]
      exact .error rfl
    | some field =>
      cases field with
      | none => exact bindEmpty_renumber hρ h v
      | some u => exact (h.store.bindLike hρ v u).bind fun _ _ hs => .ok ⟨hs, h.pending⟩

/-- **The result of a conditional is bound in step.** -/
theorem bindCond_renumber (h : Propagation.Renumbers ρ p q) (v thenResult elseResult : Handle)
    (ty : Ty) : Lockstep (Fault.Follows R ρ) (Propagation.Renumbers ρ)
      (p.bindCond vars v thenResult elseResult ty)
      (q.bindCond vars' (ρ v) (ρ thenResult) (ρ elseResult) ty) := by
  obtain ⟨hout, h₁⟩ := Store.Renumbers.freshValue hρ ty (hintOf vars v) (hintOf vars' (ρ v)) h.store
  rw [Propagation.bindCond, Propagation.bindCond]
  simp only [hout]
  refine (resultDemands_renumber h₁ v _ thenResult).bind fun first _ hfirst => ?_
  refine (resultDemands_renumber h₁ v _ elseResult).bind fun second _ hsecond => ?_
  refine (h₁.bindLike hρ v _).bind fun s₂ t₂ h₂ => ?_
  refine .ok ⟨h₂, ?_⟩
  rw [h.pending, hfirst, hsecond, List.map_append, List.map_append]

end Bindings

mutual

/-- **A let sequence is propagated in step with itself under other numbers.** -/
theorem propagate_renumber (hρ : Function.Injective ρ) : ∀ (e : Expr) {p q : Propagation},
    Propagation.Renumbers ρ p q → Lockstep (Fault.Follows R ρ)
      (fun a a' => a'.1 = ρ a.1 ∧ Propagation.Renumbers ρ a.2 a'.2) (propagate vars p e)
        (propagate vars' q (e.renumber ρ))
  | .letIn v value body, _, _, h => by
    rw [Expr.renumber, propagate, propagate]
    exact (propagateBinding_renumber hρ v value h).bind fun _ _ h₁ => propagate_renumber hρ body h₁
  | .var v, _, _, h => .ok ⟨rfl, h⟩
  | .const _, _, _, _ | .op _, _, _, _ | .call .., _, _, _ | .tuple _, _, _, _ | .get .., _, _, _
  | .cond .., _, _, _ | .closure .., _, _, _ => .error rfl

/-- The same for the value of a binding. -/
theorem propagateBinding_renumber (hρ : Function.Injective ρ) (v : Handle) : ∀ (e : Expr)
    {p q : Propagation}, Propagation.Renumbers ρ p q → Lockstep (Fault.Follows R ρ)
      (Propagation.Renumbers ρ) (propagateBinding vars p v e)
        (propagateBinding vars' q (ρ v) (e.renumber ρ))
  | .var u, _, _, h => by
    rw [Expr.renumber, propagateBinding, propagateBinding]
    exact (h.store.bindLike hρ v u).bind fun _ _ hs => .ok ⟨hs, h.pending⟩
  | .const _, _, _, h | .op _, _, _, h => bindEmpty_renumber hρ h v
  | .closure params body, _, _, h => by
    rw [Expr.renumber, propagateBinding, propagateBinding, Expr.freeVarsUnder_renumber hρ]
    exact (h.store.freshUnionOf hρ _).bind fun _ _ hm => bindMinted_renumber hρ h.pending v hm
  | .call callee args ty, _, _, h => by
    rw [Expr.renumber, propagateBinding, propagateBinding, Expr.isOp_renumber]
    split
    · exact bindMinted_renumber hρ h.pending v (h.store.freshValue hρ ty _ _)
    · exact .error rfl
  | .tuple fields, _, _, h => by
    have hatoms : (Expr.renumberAll ρ fields).all Expr.isAtom = fields.all Expr.isAtom := by
      rw [Expr.renumberAll_eq, List.all_map]
      exact List.all_congr rfl fun e => Expr.isAtom_renumber ρ e
    have hvars : (Expr.renumberAll ρ fields).map Expr.var? =
        (fields.map Expr.var?).map (Option.map ρ) := by
      rw [Expr.renumberAll_eq, List.map_map, List.map_map]
      exact List.map_congr_left fun e _ => Expr.var?_renumber ρ e
    rw [Expr.renumber, propagateBinding, propagateBinding, hatoms]
    split
    · rw [hvars]
      exact bindTuple_renumber hρ h v _
    · exact .error rfl
  | .get source index, _, _, h => by
    rw [Expr.renumber, propagateBinding, propagateBinding, Expr.var?_renumber]
    cases source.var? with
    | some u => exact bindField_renumber hρ h v u index
    | none => exact .error rfl
  | .cond test thenBranch elseBranch ty, _, _, h => by
    rw [Expr.renumber, propagateBinding, propagateBinding]
    refine (propagate_renumber hρ thenBranch h).bind fun a a' ha => ?_
    refine (propagate_renumber hρ elseBranch ha.2).bind fun b b' hb => ?_
    change Lockstep _ _ (b.2.bindCond vars v a.1 b.1 ty) (b'.2.bindCond vars' (ρ v) a'.1 b'.1 ty)
    rw [ha.1, hb.1]
    exact bindCond_renumber hρ hb.2 v a.1 b.1 ty
  | .letIn .., _, _, _ => .error rfl

end

end Analysis
end TensorLiveness
