/-
# The conditionals of a run

`choices` lists the conditionals that propagation comes to, in order, with what is known behind
their branches.  Nothing is asked of the form of a sequence: its binders may be repeated, and it may
hold what propagation cannot deal with.

`Traces` says that a list of conditionals belongs to a part of a run: the demands are theirs, and so
is a failure to match.  It is put together part by part (`Traces.bind`), and `traces_choices` is the
induction over a sequence.  `matching_exact` says that at each conditional of a run the results of
both branches are matched in bounded time and exactly.
-/

import TensorLiveness.Proofs.Analysis.Matching

namespace TensorLiveness
namespace Analysis

open Identity Program Store

/-- A conditional behind its branches: what is known there, the variable it is bound to, the
results of its branches and its type. -/
structure Choice where
  before : Propagation
  site : Handle
  thenResult : Handle
  elseResult : Handle
  ty : Ty

namespace Choice

variable (vars : BinderTable) (c : Choice)

/-- The store with a value of the type in it. -/
def store : Store := (c.before.store.freshValue (hintOf vars c.site) c.ty).2

/-- The value that the results of the branches are matched against. -/
def result : Handle := (c.before.store.freshValue (hintOf vars c.site) c.ty).1

/-- What the conditional demands. -/
def demands : Except Fault (List Demand) := do
  let first ← resultDemands (c.store vars) c.site (c.result vars) c.thenResult
  let second ← resultDemands (c.store vars) c.site (c.result vars) c.elseResult
  .ok (first ++ second)

end Choice

/-- What follows a computation that succeeds. -/
def followUp {α β : Type} (x : Except Fault α) (f : α → List β) : List β :=
  match x with
  | .ok a => f a
  | .error _ => []

mutual

/-- The conditionals that propagation comes to in a sequence, in order. -/
def choices (vars : BinderTable) (p : Propagation) : Expr → List Choice
  | .letIn v value body =>
    innerChoices vars p v value ++
      followUp (propagateBinding vars p v value) fun q => choices vars q body
  | _ => []

/-- The conditionals that propagation comes to in a value bound to `v`. -/
def innerChoices (vars : BinderTable) (p : Propagation) (v : Handle) : Expr → List Choice
  | .cond _ thenBranch elseBranch ty =>
    choices vars p thenBranch ++ followUp (propagate vars p thenBranch) fun a =>
      choices vars a.2 elseBranch ++ followUp (propagate vars a.2 elseBranch) fun b =>
        [⟨b.2, v, a.1, b.1, ty⟩]
  | _ => []

end

section Run

variable {vars : BinderTable} {p q : Propagation} {v : Handle} {value : Expr} {cs : List Choice}

/-- The demands made from `p` to `q` are those of the conditionals `cs`, in order. -/
def DemandsOf (vars : BinderTable) (p q : Propagation) (cs : List Choice) : Prop :=
  ∃ dss, List.Forall₂ (fun c ds => c.demands vars = .ok ds) cs dss ∧
    q.pending = p.pending ++ dss.flatten

theorem DemandsOf.nil (h : q.pending = p.pending) : DemandsOf vars p q [] :=
  ⟨[], .nil, by rw [h, List.flatten_nil, List.append_nil]⟩

theorem DemandsOf.append {r : Propagation} {cs' : List Choice} (h : DemandsOf vars p q cs)
    (h' : DemandsOf vars q r cs') : DemandsOf vars p r (cs ++ cs') := by
  obtain ⟨dss, hdss, hpending⟩ := h
  obtain ⟨dss', hdss', hpending'⟩ := h'
  refine ⟨dss ++ dss', List.rel_append hdss hdss', ?_⟩
  rw [hpending', hpending, List.flatten_append, List.append_assoc]

/-- The conditionals `cs` are those of a part of a run: stores are sound there, demands are theirs
if it succeeds, and a failure to match is the failure of one of them. -/
structure Traces {α : Type} (vars : BinderTable) (p : Propagation) (x : Except Fault α)
    (after : α → Propagation) (cs : List Choice) : Prop where
  ends : Ends x (fun a => Keeps p.store (after a).store ∧ DemandsOf vars p (after a) cs)
    fun e => ∀ o i, e = .shapeMismatch o i → ∃ c ∈ cs, c.demands vars = .error e
  sound : ∀ c ∈ cs, c.before.store.Sound

/-- A part that collects nothing and does not fail to match comes to no conditional. -/
theorem traces_nil {α : Type} {x : Except Fault α} {after : α → Propagation}
    (h : Ends x (fun a => Keeps p.store (after a).store ∧ (after a).pending = p.pending)
      fun e => ∀ o i, e ≠ .shapeMismatch o i) : Traces vars p x after [] :=
  ⟨h.mono (fun _ ha => ⟨ha.1, .nil ha.2⟩) fun _ he o i hmismatch => absurd hmismatch (he o i),
    fun _ hc => absurd hc List.not_mem_nil⟩

/-- **Two parts in a row** come to the conditionals of the first, then to those of the second. -/
theorem Traces.bind {α β : Type} {x : Except Fault α} {after : α → Propagation}
    {f : α → Except Fault β} {after' : β → Propagation} {cs' : α → List Choice}
    (h : Traces vars p x after cs)
    (hf : ∀ a, Keeps p.store (after a).store → Traces vars (after a) (f a) after' (cs' a)) :
    Traces vars p (x >>= f) after' (cs ++ followUp x cs') := by
  cases x with
  | error e =>
    -- What would follow is not come to, and the failure is that of the first part.
    rw [followUp, List.append_nil]
    exact ⟨h.ends, h.sound⟩
  | ok a =>
    obtain ⟨hk, hdemands⟩ := h.ends
    have hrest := hf a hk
    refine ⟨hrest.ends.mono (fun b hb => ⟨hk.trans hb.1, hdemands.append hb.2⟩) ?_, fun c hc => ?_⟩
    · intro e he o i hmismatch
      obtain ⟨c, hc, herror⟩ := he o i hmismatch
      exact ⟨c, List.mem_append_right _ hc, herror⟩
    · exact (List.mem_append.1 hc).elim (h.sound c) (hrest.sound c)

/-- A value without branches is bound like a simple one, or not at all. -/
theorem exists_simple_or_unsupported (vars : BinderTable) (p : Propagation) (v : Handle)
    (hcond : value.isCond = false) :
    (∃ x : Expr, x.Simple ∧ propagateBinding vars p v value = propagateBinding vars p v x) ∨
      ∃ kind, propagateBinding vars p v value = .error (.unsupportedForm v kind) := by
  cases value with
  | var u => exact Or.inl ⟨_, .var u, rfl⟩
  | const value => exact Or.inl ⟨_, .const value, rfl⟩
  | op name => exact Or.inl ⟨_, .op name, rfl⟩
  | call callee args ty =>
    cases callee with
    | op name => exact Or.inl ⟨.call (.op name) [] ty, .call name ty nofun, rfl⟩
    | _ => exact Or.inr ⟨_, rfl⟩
  | tuple fields =>
    by_cases hatoms : fields.all Expr.isAtom = true
    · exact Or.inl ⟨_, .tuple (List.all_eq_true.1 hatoms), rfl⟩
    · exact Or.inr ⟨_, by rw [propagateBinding, if_neg hatoms]⟩
  | get source index =>
    cases source with
    | var u => exact Or.inl ⟨_, .get u index, rfl⟩
    | _ => exact Or.inr ⟨_, rfl⟩
  | cond test thenBranch elseBranch ty => cases hcond
  | closure params body => exact Or.inl ⟨_, .closure params body, rfl⟩
  | letIn w value body => exact Or.inr ⟨_, rfl⟩

/-- A value without branches has nothing to match. -/
theorem traces_of_not_cond (hcond : value.isCond = false) (hs : p.store.Sound)
    (hlt : v < p.store.firstMinted) : Traces vars p (propagateBinding vars p v value) id [] := by
  refine traces_nil ?_
  rcases exists_simple_or_unsupported vars p v hcond with ⟨x, hsimple, heq⟩ | ⟨kind, heq⟩
  · rw [heq]
    refine (propagateSimple_ends hsimple hs hlt).mono (fun q hq => ⟨hq.1, hq.2.2⟩)
      fun e he o i hmismatch => ?_
    subst hmismatch
    cases he
  · rw [heq]
    exact fun o i => nofun

/-- A conditional is bound once its demands are known. -/
theorem bindCond_eq_bind (p : Propagation) (v a b : Handle) (ty : Ty) :
    p.bindCond vars v a b ty = (⟨p, v, a, b, ty⟩ : Choice).demands vars >>= fun ds =>
      ((⟨p, v, a, b, ty⟩ : Choice).store vars).bindLike v ((⟨p, v, a, b, ty⟩ : Choice).result vars)
        >>= fun t => .ok ⟨t, p.pending ++ ds⟩ := by
  simp only [Propagation.bindCond, Choice.demands, Choice.store, Choice.result, List.append_assoc]
  generalize p.store.freshValue (hintOf vars v) ty = value
  cases resultDemands value.2 v value.1 a with
  | error e => rfl
  | ok first => cases resultDemands value.2 v value.1 b <;> rfl

/-- The binding of a conditional demands what the conditional does. -/
theorem traces_bindCond {a b : Handle} {ty : Ty} (hs : p.store.Sound)
    (hlt : v < p.store.firstMinted) :
    Traces vars p (p.bindCond vars v a b ty) id [⟨p, v, a, b, ty⟩] := by
  refine ⟨?_, fun c hc => List.mem_singleton.1 hc ▸ hs⟩
  rw [bindCond_eq_bind]
  cases hdemands : (⟨p, v, a, b, ty⟩ : Choice).demands vars with
  | error e => exact fun _ _ _ => ⟨_, List.mem_singleton.2 rfl, hdemands⟩
  | ok ds =>
    -- The value that was minted has a set, so that binding `v` to it does not fail.
    obtain ⟨hgrow, hmem, _⟩ := freshValue_spec ty (hintOf vars v) hs
    refine ((bindLike_ends hgrow.sound (hgrow.firstMinted_eq ▸ hlt)).mono (fun _ ht => ht)
      fun e he => absurd hmem he.1).bind fun t ht => ⟨hgrow.keeps.trans ht.1, [ds], ?_, ?_⟩
    · exact .cons hdemands .nil
    · rw [List.flatten_singleton]
      rfl

mutual

/-- **The conditionals of a sequence are those of its run.** -/
theorem traces_choices : ∀ (e : Expr) {p : Propagation}, p.store.Sound →
    (∀ u ∈ e.binders, u < p.store.firstMinted) →
      Traces vars p (propagate vars p e) (·.2) (choices vars p e)
  | .letIn v value body, p, hs, hlt => by
    simp only [Expr.binders, List.mem_append, List.mem_cons] at hlt
    refine (traces_innerChoices value hs (hlt v (Or.inr (Or.inl rfl)))
      fun u hu => hlt u (Or.inl hu)).bind fun q hk => traces_choices body hk.sound fun u hu => ?_
    rw [hk.firstMinted_eq]
    exact hlt u (Or.inr (Or.inr hu))
  | .var u, p, hs, _ => traces_nil ⟨.refl hs, rfl⟩
  | .const _, _, _, _ | .op _, _, _, _ | .call .., _, _, _ | .tuple _, _, _, _
  | .get .., _, _, _ | .cond .., _, _, _ | .closure .., _, _, _ =>
    traces_nil fun (_ _ : Handle) => Fault.noConfusion

/-- The same for one binding. -/
theorem traces_innerChoices : ∀ (value : Expr) {p : Propagation} {v : Handle}, p.store.Sound →
    v < p.store.firstMinted → (∀ u ∈ value.binders, u < p.store.firstMinted) →
      Traces vars p (propagateBinding vars p v value) id (innerChoices vars p v value)
  | .cond test thenBranch elseBranch ty, p, v, hs, hv, hlt => by
    simp only [Expr.binders, List.mem_append] at hlt
    refine (traces_choices thenBranch hs fun u hu => hlt u (Or.inl (Or.inr hu))).bind
      fun a hk => ?_
    refine (traces_choices elseBranch hk.sound fun u hu => ?_).bind fun b hk' => ?_
    · rw [hk.firstMinted_eq]
      exact hlt u (Or.inr hu)
    · exact traces_bindCond hk'.sound ((hk.trans hk').firstMinted_eq.symm ▸ hv)
  | .var _, _, _, hs, hv, _ | .const _, _, _, hs, hv, _ | .op _, _, _, hs, hv, _
  | .call .., _, _, hs, hv, _ | .tuple _, _, _, hs, hv, _ | .get .., _, _, hs, hv, _
  | .closure .., _, _, hs, hv, _ | .letIn .., _, _, hs, hv, _ => traces_of_not_cond rfl hs hv

end

/-- Whatever the records of the program's variables are, a value that is minted for a conditional
is as deep as its type and no deeper. -/
theorem Choice.matchedExactly {c : Choice} (hs : c.before.store.Sound) (input : Handle) :
    MatchedExactly (c.store vars) c.site (c.result vars) input c.ty := by
  obtain ⟨x, es, hmade, _, hx⟩ := freshValue_makes c.ty (hintOf vars c.site) hs
  obtain ⟨_, hdepth⟩ := depth_le_size c.ty (hintOf vars c.site) hs
  exact matchedExactly_of_shaped (shaped_of_made hmade hx)
    (Nat.le_trans hdepth (Nat.le_mul_self _))

end Run

/-- **The results of branches are matched in bounded time and exactly.**  Binders may be repeated
and records may hold themselves, as long as the binders have a place in the table.  At each
conditional that propagation comes to, the result of either branch is matched in as many calls as
the type of the conditional has nodes, with one demand for each path that leads to an entry on both
sides, or fails just when a path leads to two handles that do not fit.  The demands of a run are
those of its conditionals, in order, and where it fails to match, one of them does. -/
theorem matching_exact {vars : BinderTable} {f : Function} {s : Store}
    (hlt : ∀ v ∈ f.params ++ f.body.binders, v < vars.size)
    (hs : bindParameters vars (.empty vars.size) f.params = .ok s) :
    (∀ c ∈ choices vars ⟨s, []⟩ f.body, ∀ input ∈ [c.thenResult, c.elseResult],
      MatchedExactly (c.store vars) c.site (c.result vars) input c.ty) ∧
    (∀ r q, propagate vars ⟨s, []⟩ f.body = .ok (r, q) → ∃ dss,
      List.Forall₂ (fun c ds => c.demands vars = .ok ds) (choices vars ⟨s, []⟩ f.body) dss ∧
        q.pending = dss.flatten) ∧
    ∀ o i, propagate vars ⟨s, []⟩ f.body = .error (.shapeMismatch o i) →
      ∃ c ∈ choices vars ⟨s, []⟩ f.body, c.demands vars = .error (.shapeMismatch o i) := by
  have hk : Keeps (.empty vars.size) s := ((bindParameters_ends f.params (sound_empty vars.size)
    fun v hv => have hv := hlt v (List.mem_append_left _ hv); ⟨hv, hv⟩).of_ok hs).1
  have htraces : Traces vars ⟨s, []⟩ (propagate vars ⟨s, []⟩ f.body) (·.2)
      (choices vars ⟨s, []⟩ f.body) := traces_choices f.body hk.sound fun u hu => by
    rw [hk.firstMinted_eq]
    exact hlt u (List.mem_append_right _ hu)
  refine ⟨fun c hc input _ => Choice.matchedExactly (htraces.sound c hc) input, fun r q h => ?_,
    fun o i h => htraces.ends.of_error h o i rfl⟩
  obtain ⟨_, dss, hdss, hpending⟩ := htraces.ends.of_ok h
  exact ⟨dss, hdss, hpending⟩

/-- The binders of `selfHoldingFunction`. -/
def selfHoldingVars : BinderTable :=
  ⟨#[⟨"c", .tensor, ⟨0, 1⟩⟩, ⟨"x", .tensor, ⟨1, 2⟩⟩, ⟨"t", .tuple [.tensor, .tensor], ⟨2, 3⟩⟩,
    ⟨"z", .tuple [.tensor, .tensor], ⟨3, 4⟩⟩,
    ⟨"w", .tuple [.tuple [.tensor, .tensor], .tuple [.tensor, .tensor]], ⟨4, 5⟩⟩]⟩

/-- A function that binds its second parameter once more, to a tuple of the parameter, and takes
the tuple for the result of a conditional. -/
def selfHoldingFunction : Function :=
  ⟨[0, 1], .letIn 2 (.tuple [.var 1, .const .zero]) <|
    .letIn 3 (.cond (.var 0) (.var 2) (.var 2) (.tuple [.tensor, .tensor])) <|
    .letIn 1 (.tuple [.var 1, .var 3]) <|
    .letIn 4 (.cond (.var 0) (.var 1) (.var 1)
      (.tuple [.tuple [.tensor, .tensor], .tuple [.tensor, .tensor]])) (.var 4)⟩

/-- The first conditional demands one field, as the other one is not tracked.  The tuple that holds
itself is followed to where the type of the second conditional has a buffer. -/
theorem matching_exact_selfHolding : ∃ s c₁ c₂ path,
    bindParameters selfHoldingVars (.empty selfHoldingVars.size) selfHoldingFunction.params =
      .ok s ∧
    choices selfHoldingVars ⟨s, []⟩ selfHoldingFunction.body = [c₁, c₂] ∧
    Lists (c₁.store selfHoldingVars) 3 (Facing (c₁.store selfHoldingVars) 10 2) [⟨8, 1, 3⟩] ∧
    (c₂.store selfHoldingVars).records[1]? = some [some 1, some 3] ∧
    FirstMisfit (c₂.store selfHoldingVars) (Facing (c₂.store selfHoldingVars) 18 1) path 12 1 ∧
    ∃ calls ≤ 7, Matches (c₂.store selfHoldingVars) 4 18 1 calls
      (.error (.shapeMismatch 12 1)) := by
  have hlt : ∀ v ∈ selfHoldingFunction.params ++ selfHoldingFunction.body.binders,
      v < selfHoldingVars.size := by decide
  have hrun : ((bindParameters selfHoldingVars (.empty selfHoldingVars.size)
      selfHoldingFunction.params).toOption.any fun s =>
        let cs := choices selfHoldingVars ⟨s, []⟩ selfHoldingFunction.body
        decide (cs.length = 2) &&
        cs[0]?.any (fun c => decide (c.site = 3 ∧ c.thenResult = 2 ∧ c.result selfHoldingVars = 10 ∧
          resultDemands (c.store selfHoldingVars) 3 10 2 = .ok [⟨8, 1, 3⟩])) &&
        cs[1]?.any fun c => decide (c.site = 4 ∧ c.thenResult = 1 ∧ c.result selfHoldingVars = 18 ∧
          c.ty.nodes = 7 ∧ (c.store selfHoldingVars).records[1]? = some [some 1, some 3] ∧
          resultDemands (c.store selfHoldingVars) 4 18 1 = .error (.shapeMismatch 12 1))) =
      true := by decide +kernel
  obtain ⟨s, hs, htest⟩ := exists_ok_of_any hrun
  simp only [Bool.and_eq_true] at htest
  obtain ⟨⟨hlength, hfirst⟩, hsecond⟩ := htest
  obtain ⟨c₁, c₂, hchoices⟩ := List.length_eq_two.1 (of_decide_eq_true hlength)
  rw [hchoices] at hfirst hsecond
  obtain ⟨hsite₁, hthen₁, hresult₁, hdemands⟩ := of_decide_eq_true hfirst
  obtain ⟨hsite₂, hthen₂, hresult₂, hnodes, hrecord, hfails⟩ := of_decide_eq_true hsecond
  obtain ⟨hmatched, _⟩ := matching_exact hlt hs
  rw [hchoices] at hmatched
  have h₁ := hmatched c₁ List.mem_cons_self c₁.thenResult List.mem_cons_self
  have h₂ := hmatched c₂ (List.mem_cons_of_mem _ List.mem_cons_self) c₂.thenResult
    List.mem_cons_self
  rw [hsite₁, hthen₁, hresult₁] at h₁
  rw [hsite₂, hthen₂, hresult₂] at h₂
  obtain ⟨path, o, i, heq, hmisfit⟩ := h₂.firstMisfit hfails
  obtain ⟨rfl, rfl⟩ := Fault.shapeMismatch.inj heq
  obtain ⟨calls, hle, hcalls⟩ := h₂.calls
  exact ⟨s, c₁, c₂, path, hs, hchoices, h₁.lists hdemands, hrecord, hmisfit, calls, hnodes ▸ hle,
    (hcalls _ _).2 ⟨rfl, hfails.symm⟩⟩

end Analysis
end TensorLiveness
