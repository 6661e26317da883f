/-
# Stopping early

An analysis that is asked for the results of an earlier pass finds a part of what it would find in
the end.  Each pass only adds to the passes that have run and to the diagnostics (`Run.Adds`); once
the identities are found, no pass changes what a binder of the program stands for
(`Run.SameIdentities`), and once the live sets are found, none changes them (`Run.SamePoints`).
Nothing is asked of the function: its binders may be repeated, and they need no place in the table.

| statement | about |
| --- | --- |
| `bindParameters_later`, `propagate_later` | the store behind the passes that bind |
| `step_adds`, `step_sameIdentities`, `step_samePoints` | one pass |
| `foldlM_keeps` | any number of passes |
| `analyze_stopped` | two analyses of one function |
-/

import Mathlib.Data.List.Sort
import TensorLiveness.Proofs.Analysis.Run
import TensorLiveness.Proofs.Analysis.WalkSteps

namespace TensorLiveness
namespace Analysis

open Identity Program Store

variable {vars : BinderTable} {f : Function}

/-! ### Binding -/

theorem leavesForFields_later {name : String} {whole : Ty} :
    ∀ (tys : List Ty) (s : Store) (i : Nat),
    Ends (leavesForFields name whole s i tys) (fun m => Later s m.2) fun _ => True
  | [], s, _ => .refl s
  | .tensor :: tys, s, i => by
    have hleaf := (mintsOnly_mint s (name ++ "." ++ toString i) fun v => {v}).toLater
    refine (leavesForFields_later tys _ (i + 1)).bind fun m hm => ?_
    exact hleaf.trans hm
  | .func :: _, _, _ | .tuple _ :: _, _, _ | .other _ :: _, _, _ => trivial

theorem bindParameter_later (s : Store) (param : Handle) :
    Ends (bindParameter vars s param) (Later s) fun _ => True := by
  unfold bindParameter
  dsimp only
  split
  · trivial
  · have hleaf := (mintsOnly_mint s ((vars.name? param).getD "param") fun v => {v}).toLater
    exact (bindLike_later _ param _).mono (fun t ht => hleaf.trans ht) fun _ h => h
  · refine (leavesForFields_later _ s 0).bind fun fields hfields => ?_
    refine (freshUnion_later fields.2 (fields.1.map some)).bind fun tuple htuple => ?_
    refine (bindLike_later tuple.2 param tuple.1).bind fun t ht => ?_
    exact ((hfields.trans htuple).trans ht).trans (mintsOnly_recordFields t param _).toLater
  · trivial

theorem bindParameters_later (s : Store) (params : List Handle) :
    Ends (bindParameters vars s params) (Later s) fun _ => True := by
  rw [bindParameters]
  induction params generalizing s with
  | nil => exact Later.refl s
  | cons param params ih =>
    rw [List.foldlM_cons]
    refine (bindParameter_later s param).bind fun t ht => ?_
    exact (ih t).mono (fun r hr => ht.trans hr) fun _ h => h

section Propagation

variable (p : Propagation) (v : Handle)

theorem bindMinted_later (minted : Handle × Store) (h : Later p.store minted.2) :
    Ends (p.bindMinted v minted) (fun q => Later p.store q.store) fun _ => True :=
  (bindLike_later minted.2 v minted.1).bind fun _ ht => h.trans ht

theorem bindEmpty_later :
    Ends (p.bindEmpty vars v) (fun q => Later p.store q.store) fun _ => True :=
  bindMinted_later p v _ (mintsOnly_mint p.store (hintOf vars v) fun _ => ∅).toLater

theorem bindUnion_later (fields : Fields) : Ends (p.store.freshUnion fields >>= p.bindMinted v)
    (fun q => Later p.store q.store) fun _ => True :=
  (freshUnion_later p.store fields).bind fun m hm => bindMinted_later p v m hm

theorem bindTuple_later (fields : Fields) :
    Ends (p.bindTuple v fields) (fun q => Later p.store q.store) fun _ => True :=
  (freshUnion_later p.store fields).bind fun m hm => (bindMinted_later p v m hm).bind fun q hq =>
    hq.trans (mintsOnly_recordFields q.store v fields).toLater

theorem bindField_later (source : Handle) (index : Nat) :
    Ends (p.bindField vars v source index) (fun q => Later p.store q.store) fun _ => True := by
  rw [Propagation.bindField]
  split
  · trivial
  · split
    · trivial
    · exact (bindLike_later p.store v _).bind fun _ ht => ht
    · exact bindEmpty_later p v

theorem bindCond_later (thenResult elseResult : Handle) (ty : Ty) :
    Ends (p.bindCond vars v thenResult elseResult ty) (fun q => Later p.store q.store)
      fun _ => True := by
  have hvalue := (mintsOnly_freshValue ty p.store (hintOf vars v)).toLater
  refine (Ends.any _).bind fun first _ => (Ends.any _).bind fun second _ => ?_
  exact (bindLike_later _ v _).bind fun s hs => hvalue.trans hs

end Propagation

mutual

/-- **A sequence is bound** behind what was there. -/
theorem propagate_later : ∀ (e : Expr) (p : Propagation),
    Ends (propagate vars p e) (fun q => Later p.store q.2.store) fun _ => True
  | .letIn v value body, p => by
    refine (propagateBinding_later v value p).bind fun p₁ h₁ => ?_
    exact (propagate_later body p₁).mono (fun _ h => h₁.trans h) fun _ h => h
  | .var _, p => .refl p.store
  | .const _, _ | .op _, _ | .call .., _ | .tuple _, _ | .get .., _ | .cond .., _
  | .closure .., _ => trivial

/-- The same for one binding. -/
theorem propagateBinding_later (v : Handle) : ∀ (e : Expr) (p : Propagation),
    Ends (propagateBinding vars p v e) (fun q => Later p.store q.store) fun _ => True
  | .var u, p => (bindLike_later p.store v u).bind fun _ ht => ht
  | .const _, p | .op _, p => bindEmpty_later p v
  | .closure params body, p => bindUnion_later p v _
  | .call callee _ ty, p => by
    rw [propagateBinding]
    split
    · exact bindMinted_later p v _ (mintsOnly_freshValue ty p.store _).toLater
    · trivial
  | .tuple fields, p => by
    rw [propagateBinding]
    split
    · exact bindTuple_later p v _
    · trivial
  | .get source index, p => by
    rw [propagateBinding]
    split
    · exact bindField_later p v _ index
    · trivial
  | .cond _ thenBranch elseBranch ty, p => by
    refine (propagate_later thenBranch p).bind fun q₁ h₁ => ?_
    refine (propagate_later elseBranch q₁.2).bind fun q₂ h₂ => ?_
    exact (bindCond_later q₂.2 v q₁.1 q₂.1 ty).mono (fun _ h => (h₁.trans h₂).trans h) fun _ h => h
  | .letIn .., _ => trivial

end

/-! ### One pass -/

namespace Run

/-- What every pass does. -/
structure Adds (r r' : Run) : Prop where
  passes : r.passes <+: r'.passes
  diagnostics : r.diagnostics <+: r'.diagnostics
  later : Later r.store r'.store

/-- What the passes do that come once the identities are found. -/
structure SameIdentities (r r' : Run) : Prop where
  store : MintsOnly r.store r'.store
  pending_eq : r'.pending = r.pending

/-- What the passes do that come once the live sets are found. -/
structure SamePoints (r r' : Run) : Prop where
  live_eq : r'.live = r.live
  exits_eq : r'.exits = r.exits

variable {r r' r'' : Run} {pass : Pass}

/-- **Passes in a row** keep what each of them keeps. -/
theorem foldlM_keeps {R : Run → Run → Prop} (hrefl : ∀ r, R r r)
    (htrans : ∀ {r r' r''}, R r r' → R r' r'' → R r r'') {passes : List Pass}
    (hstep : ∀ pass ∈ passes, ∀ {r r'}, step vars f r pass = .ok r' → R r r')
    (h : passes.foldlM (step vars f) r = .ok r') : R r r' := by
  induction passes generalizing r with
  | nil => exact Except.ok.inj h ▸ hrefl r
  | cons pass passes ih =>
    rw [List.foldlM_cons] at h
    obtain ⟨r₁, hr₁, h⟩ := bind_eq_ok.1 h
    have hrest := ih (fun pass hpass => hstep pass (List.mem_cons_of_mem _ hpass)) h
    exact htrans (hstep pass List.mem_cons_self hr₁) hrest

theorem Adds.refl (r : Run) : Adds r r := ⟨List.prefix_rfl, List.prefix_rfl, .refl r.store⟩

theorem Adds.trans (h : Adds r r') (h' : Adds r' r'') : Adds r r'' :=
  ⟨h.passes.trans h'.passes, h.diagnostics.trans h'.diagnostics, h.later.trans h'.later⟩

theorem SameIdentities.refl (r : Run) : SameIdentities r r := ⟨.refl r.store, rfl⟩

theorem SameIdentities.trans (h : SameIdentities r r') (h' : SameIdentities r' r'') :
    SameIdentities r r'' := ⟨h.store.trans h'.store, h'.pending_eq.trans h.pending_eq⟩

theorem SamePoints.refl (r : Run) : SamePoints r r := ⟨rfl, rfl⟩

theorem SamePoints.trans (h : SamePoints r r') (h' : SamePoints r' r'') : SamePoints r r'' :=
  ⟨h'.live_eq.trans h.live_eq, h'.exits_eq.trans h.exits_eq⟩

/-- What a pass makes of a run. -/
def made (vars : BinderTable) (f : Function) (r : Run) : Pass → Except Fault Run
  | .form => .ok (r.withForm vars f)
  | .parameters => r.withParameters vars f
  | .identities => r.withIdentities vars f
  | .liveness => r.withLiveness f
  | .sharing => r.withSharing vars

/-- A pass does not run, or it notes itself after what it does. -/
theorem step_cases (h : step vars f r pass = .ok r') : r' = r ∨
    ∃ r₁, made vars f r pass = .ok r₁ ∧ r' = { r₁ with passes := r₁.passes ++ [pass] } := by
  rw [step] at h
  split at h
  · exact Or.inl (Except.ok.inj h).symm
  · have hmade : (made vars f r pass >>= fun r₁ =>
        .ok { r₁ with passes := r₁.passes ++ [pass] }) = .ok r' := by
      cases pass <;> exact h
    obtain ⟨r₁, hr₁, h⟩ := bind_eq_ok.1 hmade
    exact Or.inr ⟨r₁, hr₁, (Except.ok.inj h).symm⟩

theorem made_adds (h : made vars f r pass = .ok r') : Adds r r' := by
  cases pass with
  | form =>
    obtain rfl := Except.ok.inj h
    exact ⟨List.prefix_rfl, List.prefix_append _ _, .refl r.store⟩
  | parameters =>
    obtain ⟨s, hs, h⟩ := bind_eq_ok.1 h
    obtain rfl := Except.ok.inj h
    exact ⟨List.prefix_rfl, List.prefix_rfl, (bindParameters_later r.store f.params).of_ok hs⟩
  | identities =>
    obtain ⟨⟨v, p⟩, hp, h⟩ := bind_eq_ok.1 h
    obtain rfl := Except.ok.inj h
    exact ⟨List.prefix_rfl, List.prefix_rfl, (propagate_later f.body _).of_ok hp⟩
  | liveness =>
    obtain ⟨m, hm, h⟩ := bind_eq_ok.1 h
    obtain rfl := Except.ok.inj h
    have hminted := mintsOnly_of_steps (livePoints_steps hm)
    exact ⟨List.prefix_rfl, List.prefix_rfl, hminted.toLater⟩
  | sharing =>
    obtain ⟨w, -, h⟩ := bind_eq_ok.1 h
    obtain rfl := Except.ok.inj h
    exact ⟨List.prefix_rfl, List.prefix_append _ _, .refl r.store⟩

/-- **Every pass adds** to the passes, to the diagnostics and to the store. -/
theorem step_adds (h : step vars f r pass = .ok r') : Adds r r' := by
  rcases step_cases h with rfl | ⟨r₁, hr₁, rfl⟩
  · exact .refl r'
  · have hadds := made_adds hr₁
    exact ⟨hadds.passes.trans (List.prefix_append _ _), hadds.diagnostics, hadds.later⟩

/-- **Live sets and demands are found without binding a binder.** -/
theorem step_sameIdentities (hpass : pass = .liveness ∨ pass = .sharing)
    (h : step vars f r pass = .ok r') : SameIdentities r r' := by
  rcases step_cases h with rfl | ⟨r₁, hr₁, rfl⟩
  · exact .refl r'
  · have hsame : SameIdentities r r₁ := by
      rcases hpass with rfl | rfl
      · obtain ⟨m, hm, hr₁⟩ := bind_eq_ok.1 hr₁
        obtain rfl := Except.ok.inj hr₁
        exact ⟨mintsOnly_of_steps (livePoints_steps hm), rfl⟩
      · obtain ⟨w, -, hr₁⟩ := bind_eq_ok.1 hr₁
        obtain rfl := Except.ok.inj hr₁
        exact ⟨.refl r.store, rfl⟩
    exact ⟨hsame.store, hsame.pending_eq⟩

/-- **Demands are checked without a change to the live sets.** -/
theorem step_samePoints (h : step vars f r .sharing = .ok r') : SamePoints r r' := by
  rcases step_cases h with rfl | ⟨r₁, hr₁, rfl⟩
  · exact .refl r'
  · obtain ⟨w, -, hr₁⟩ := bind_eq_ok.1 hr₁
    obtain rfl := Except.ok.inj hr₁
    exact ⟨rfl, rfl⟩

/-! ### Two analyses -/

theorem ordered_identities (r : Run) : r.identities.Pairwise fun a b => a.1 < b.1 :=
  r.store.ordered_entries.filter _

theorem mem_identities {v : Handle} {set : HandleSet} :
    (v, set) ∈ r.identities ↔ r.store.sets[v]? = some set ∧ v < r.store.firstMinted := by
  rw [identities, List.mem_filter, mem_entries]
  simp [isMinted]

/-- What is minted above the binders of the program does not show in what they stand for. -/
theorem SameIdentities.identities_eq (h : SameIdentities r r')
    (hle : r.store.firstMinted ≤ r.store.supply.next) : r'.identities = r.identities := by
  have hirrefl : Std.Irrefl fun a b : Handle × HandleSet => a.1 < b.1 :=
    ⟨fun a => Nat.lt_irrefl a.1⟩
  have hantisymm : Std.Antisymm fun a b : Handle × HandleSet => a.1 < b.1 :=
    ⟨fun a b hab hba => absurd hba (Nat.lt_asymm hab)⟩
  refine r'.ordered_identities.eq_of_mem_iff r.ordered_identities fun ⟨v, set⟩ => ?_
  rw [mem_identities, mem_identities, h.store.firstMinted_eq]
  refine and_congr_left fun hlt => ?_
  rw [h.store.getElem?_eq (Nat.lt_of_lt_of_le hlt hle)]

/-- The passes that run behind `p` up to `q`. -/
def behind (p q : Pass) : List Pass := q.required.drop p.required.length

theorem required_eq {p q : Pass} (h : p ∈ q.before) :
    q.required = p.required ++ behind p q := by
  revert h
  cases p <;> cases q <;> decide

theorem behind_identities {p q : Pass} (h : p ∈ q.before) (hp : .identities ∈ p.required) :
    ∀ pass ∈ behind p q, pass = .liveness ∨ pass = .sharing := by
  revert h hp
  cases p <;> cases q <;> decide

theorem behind_liveness {q : Pass} (h : .liveness ∈ q.before) :
    ∀ pass ∈ behind .liveness q, pass = .sharing := by
  revert h
  cases q <;> decide

end Run

/-- The analysis up to `first`, with the outcome `o`, is what an analysis with the outcome `o'` that
goes on behind that would have been if it had stopped there. -/
structure StoppedAt (vars : BinderTable) (f : Function) (first : Pass) (o o' : Outcome) :
    Prop where
  passes : o.passes <+: o'.passes
  diagnostics : o.diagnostics <+: o'.diagnostics
  identities : .identities ∈ first.required → o.liveness.identities = o'.liveness.identities
  pending : .identities ∈ first.required → o.pending = o'.pending
  live : first = .liveness → o.liveness.live = o'.liveness.live
  exits : first = .liveness → o.liveness.exits = o'.liveness.exits
  incomplete : anyError (formErrors vars f) = false → o.status = .incomplete
  rejected : anyError (formErrors vars f) = true → o = o' ∧ o.status = .unsupportedForm

/-- Where the form is rejected, there is nothing that a later pass adds. -/
theorem StoppedAt.of_rejected {first : Pass} {o o' : Outcome} (hform : formErrors vars f ≠ [])
    (ho : o = o') (hstatus : o.status = .unsupportedForm) : StoppedAt vars f first o o' := by
  have herror := anyError_formErrors.2 hform
  subst ho
  refine ⟨List.prefix_rfl, List.prefix_rfl, fun _ => rfl, fun _ => rfl, fun _ => rfl, fun _ => rfl,
    fun hnone => ?_, fun _ => ⟨rfl, hstatus⟩⟩
  rw [herror] at hnone
  cases hnone

/-- **Stopping early gives a part of what there is in the end.** -/
theorem analyze_stopped {first last : Pass} {o' : Outcome} (hbefore : first ∈ last.before)
    (h : analyze vars f last = .ok o') :
    ∃ o, analyze vars f first = .ok o ∧ StoppedAt vars f first o o' := by
  have hne : first ≠ .sharing := by
    rintro rfl
    cases last <;> exact absurd hbefore (by decide)
  obtain ⟨r', hr', rfl⟩ := analyze_eq_ok.1 h
  by_cases hform : formErrors vars f = []
  · rw [Run.upTo, Run.required_eq hbefore, List.foldlM_append, bind_eq_ok] at hr'
    obtain ⟨r, hr, hbehind⟩ := hr'
    have hadds : Run.Adds r r' :=
      Run.foldlM_keeps .refl .trans (fun _ _ _ _ hstep => Run.step_adds hstep) hbehind
    have hstart : Run.Adds (Run.start vars) r :=
      Run.foldlM_keeps .refl .trans (fun _ _ _ _ hstep => Run.step_adds hstep) hr
    have hle : r.store.firstMinted ≤ r.store.supply.next := by
      rw [hstart.later.firstMinted_eq]
      exact hstart.later.next_le
    have hsame : .identities ∈ first.required → Run.SameIdentities r r' := fun hfirst =>
      Run.foldlM_keeps .refl .trans (fun pass hpass _ _ hstep => Run.step_sameIdentities
        (Run.behind_identities hbefore hfirst pass hpass) hstep) hbehind
    have hpoints : first = .liveness → Run.SamePoints r r' := by
      rintro rfl
      refine Run.foldlM_keeps .refl .trans (fun pass hpass _ _ hstep => ?_) hbehind
      obtain rfl := Run.behind_liveness hbefore pass hpass
      exact Run.step_samePoints hstep
    have hnone : anyError (formErrors vars f) = false := by rw [hform]; rfl
    refine ⟨r.outcome vars first, analyze_eq_ok.2 ⟨r, hr, rfl⟩, hadds.passes, hadds.diagnostics,
      fun hfirst => ((hsame hfirst).identities_eq hle).symm,
      fun hfirst => (hsame hfirst).pending_eq.symm, fun hfirst => (hpoints hfirst).live_eq.symm,
      fun hfirst => (hpoints hfirst).exits_eq.symm, fun _ => ?_, fun herror => ?_⟩
    · exact if_pos ⟨Run.status_of_upTo hform hne hr, hne⟩
    · rw [hnone] at herror
      cases herror
  · rw [Run.upTo_rejected hform] at hr'
    obtain rfl := Except.ok.inj hr'
    refine ⟨_, analyze_eq_ok.2 ⟨_, Run.upTo_rejected hform first, rfl⟩, ?_⟩
    exact .of_rejected hform (by simp [Run.outcome]) (by simp [Run.outcome])

/-- The one parameter of `outsideFunction`. -/
def outsideVars : BinderTable := ⟨#[⟨"x", .tensor, ⟨0, 1⟩⟩]⟩

/-- A function that binds the handle `7` twice, which has no place in the table and is minted later
as well. -/
def outsideFunction : Function :=
  ⟨[0], .letIn 7 (.cond (.var 0) (.var 0) (.var 0) .tensor) (.letIn 7 (.op "add") (.var 7))⟩

/-- An analysis of it up to the live sets has those of the whole one, which accepts it. -/
theorem analyze_stopped_outside : ∃ o o', analyze outsideVars outsideFunction .liveness = .ok o ∧
    analyze outsideVars outsideFunction .sharing = .ok o' ∧ o.status = .incomplete ∧
    o'.status = .valid ∧ o.liveness.liveAt? 7 = some {1} ∧
    o.liveness.identitiesOf? 0 = some {1} := by
  have hrun : ((analyze outsideVars outsideFunction .sharing).toOption.any fun o =>
      o.status = .valid ∧ o.liveness.liveAt? 7 = some {1} ∧
        o.liveness.identitiesOf? 0 = some {1}) = true := by decide +kernel
  obtain ⟨o', ho', htest⟩ := exists_ok_of_any hrun
  obtain ⟨hstatus, hlive, hidentities⟩ := of_decide_eq_true htest
  have hbefore : Pass.liveness ∈ Pass.before .sharing := by decide
  obtain ⟨o, ho, h⟩ := analyze_stopped hbefore ho'
  refine ⟨o, o', ho, ho', h.incomplete (by decide +kernel), hstatus, ?_, ?_⟩
  · rw [Liveness.liveAt?, h.live rfl]
    exact hlive
  · rw [Liveness.identitiesOf?, h.identities (by decide)]
    exact hidentities

end Analysis
end TensorLiveness
