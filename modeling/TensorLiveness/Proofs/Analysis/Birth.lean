/-
# Nothing is live before it exists

`InScope` tells for every place of a sequence which variables are in lexical scope just before
it.  Three facts about it make up `live_within_scope`:

| lemma | says |
| --- | --- |
| `InScope.live_within` | what is live at a place stands for variables in scope there |
| `InScope.rooted` | what variables in scope stand for was made for a variable in scope |
| `InScope.mem_places_of_bound` | a variable of a branch is in scope in that branch only |

The first goes backwards with the equations of the live sets: only a call and a conditional take
identities away, and all other bindings stand for what their values mention.  The other two go
forwards along the text.  A variable that is bound to an operator is left out: the binding hands
what comes next on to the front, whether it exists there or not.
-/

import Mathlib
import TensorLiveness.Proofs.Analysis.Capture
import TensorLiveness.Proofs.Analysis.Evaluation

namespace TensorLiveness
namespace Analysis

open Identity Program Store

/-! ### Places and scopes -/

mutual

/-- The places of a sequence and of its branches, from the front. -/
def places (scope : Scope) : Expr → List Place
  | .letIn v value body => .binding v :: (placesInside v value ++ places scope body)
  | _ => [.exit scope]

/-- The places of the branches of a value. -/
def placesInside (v : Handle) : Expr → List Place
  | .cond _ thenBranch elseBranch _ =>
    places (.thenOf v) thenBranch ++ places (.elseOf v) elseBranch
  | _ => []

end

/-- The first place of a sequence. -/
def firstPlace (scope : Scope) : Expr → Place
  | .letIn v _ _ => .binding v
  | _ => .exit scope

/-- The variable that a place belongs to: the one that is bound there, or the conditional of
whose branch it is the end. -/
def Place.owner? : Place → Option Handle
  | .binding v => some v
  | .exit scope => scope.owner?

/-- The variables in lexical scope just before a place of a sequence, if `vs` are in scope before
the sequence; at the end of a sequence these are all that are in scope there. -/
inductive InScope : Scope → List Handle → Expr → Place → List Handle → Prop
  | result (scope : Scope) (vs : List Handle) (r : Handle) :
    InScope scope vs (.var r) (.exit scope) vs
  | binding (scope : Scope) (vs : List Handle) (v : Handle) (value body : Expr) :
    InScope scope vs (.letIn v value body) (.binding v) vs
  | inside {scope inner : Scope} {vs ws : List Handle} {v : Handle} {value taken body : Expr}
    {place : Place} : BranchOf v value inner taken → InScope inner vs taken place ws →
    InScope scope vs (.letIn v value body) place ws
  | behind {scope : Scope} {vs ws : List Handle} {v : Handle} {value body : Expr}
    {place : Place} : InScope scope (v :: vs) body place ws →
    InScope scope vs (.letIn v value body) place ws

namespace BranchOf

variable {v w : Handle} {value taken other body : Expr} {inner outer : Scope}

theorem flat (h : BranchOf v value inner taken) (hflat : (Expr.letIn v value body).Flat) :
    taken.Flat := by
  cases hflat with
  | bind _ hvalue _ => cases h <;> cases hvalue
  | cond v c ty hthen helse _ =>
    cases h with
    | thenBranch => exact hthen
    | elseBranch => exact helse

theorem mem_placesInside (h : BranchOf v value inner taken) {place : Place}
    (hplace : place ∈ places inner taken) : place ∈ placesInside v value := by
  cases h with
  | thenBranch => exact List.mem_append_left _ hplace
  | elseBranch => exact List.mem_append_right _ hplace

/-- A variable is bound in one branch only. -/
theorem unique (h : BranchOf v value inner taken) (h' : BranchOf v value outer other)
    (ha : value.Ascending) (hw : w ∈ taken.binders) (hw' : w ∈ other.binders) :
    inner = outer ∧ taken = other := by
  cases h with
  | thenBranch =>
    cases h' with
    | thenBranch => exact ⟨rfl, rfl⟩
    | elseBranch => exact absurd (ha.lt_of_mem_branches hw hw') (Nat.lt_irrefl w)
  | elseBranch =>
    cases h' with
    | thenBranch => exact absurd (ha.lt_of_mem_branches hw' hw) (Nat.lt_irrefl w)
    | elseBranch => exact ⟨rfl, rfl⟩

/-- What is bound in the branches of a value is bound in one of them. -/
theorem exists_of_mem {b : Handle × Expr} (h : b ∈ value.branchBindings) (v : Handle) :
    ∃ inner taken, BranchOf v value inner taken ∧ b ∈ taken.allBindings := by
  cases value with
  | cond test thenBranch elseBranch ty =>
    rcases List.mem_append.1 h with h | h
    · exact ⟨_, thenBranch, .thenBranch .., h⟩
    · exact ⟨_, elseBranch, .elseBranch .., h⟩
  | _ => cases h

end BranchOf

theorem flat_body {v : Handle} {value body : Expr} (h : (Expr.letIn v value body).Flat) :
    body.Flat := by
  cases h with
  | bind _ _ hbody => exact hbody
  | cond _ _ _ _ _ hbody => exact hbody

/-- A sequence, what is left of it behind some bindings, or the same of a branch in it. -/
inductive Subsequence : Scope → Expr → Scope → Expr → Prop
  | whole (scope : Scope) (e : Expr) : Subsequence scope e scope e
  | inside {scope inner outer : Scope} {v : Handle} {value taken body e : Expr} :
    BranchOf v value inner taken → Subsequence inner taken outer e →
    Subsequence scope (.letIn v value body) outer e
  | behind {scope outer : Scope} {v : Handle} {value body e : Expr} :
    Subsequence scope body outer e → Subsequence scope (.letIn v value body) outer e

namespace Subsequence

variable {scope inner : Scope} {e taken : Expr}

/-- Every branch of a conditional that is bound in a sequence is part of it. -/
theorem of_branch (he : e.Flat) {z : Handle} {value : Expr} (hz : (z, value) ∈ e.allBindings)
    (hbranch : BranchOf z value inner taken) : ∀ scope, Subsequence scope e inner taken := by
  induction he with
  | result r => cases hz
  | bind v hx _ ih =>
    intro scope
    rw [hx.allBindings_letIn] at hz
    rcases List.mem_cons.1 hz with heq | hz
    · obtain ⟨rfl, rfl⟩ := Prod.mk.inj heq
      exact .inside hbranch (.whole ..)
    · exact .behind (ih hz scope)
  | cond v c ty _ _ _ iht ihf ihb =>
    intro scope
    rw [Expr.allBindings_cond, List.mem_append, List.mem_append, List.mem_cons] at hz
    rcases hz with (hz | hz) | heq | hz
    · exact .inside (.thenBranch ..) (iht hz _)
    · exact .inside (.elseBranch ..) (ihf hz _)
    · obtain ⟨rfl, rfl⟩ := Prod.mk.inj heq
      exact .inside hbranch (.whole ..)
    · exact .behind (ihb hz scope)

theorem flat (h : Subsequence scope e inner taken) (he : e.Flat) : taken.Flat := by
  induction h with
  | whole => exact he
  | inside hbranch _ ih => exact ih (hbranch.flat he)
  | behind _ ih => exact ih (flat_body he)

theorem mem_places (h : Subsequence scope e inner taken) {place : Place}
    (hplace : place ∈ places inner taken) : place ∈ places scope e := by
  induction h with
  | whole => exact hplace
  | inside hbranch _ ih =>
    exact List.mem_cons_of_mem _ (List.mem_append_left _ (hbranch.mem_placesInside (ih hplace)))
  | behind _ ih => exact List.mem_cons_of_mem _ (List.mem_append_right _ (ih hplace))

theorem mem_allBindings (h : Subsequence scope e inner taken) {b : Handle × Expr}
    (hb : b ∈ taken.allBindings) : b ∈ e.allBindings := by
  induction h with
  | whole => exact hb
  | inside hbranch _ ih => exact Expr.mem_allBindings_of_inside (hbranch.branchBindings (ih hb))
  | behind _ ih => exact Expr.mem_allBindings_of_body (ih hb)

theorem mem_binders (h : Subsequence scope e inner taken) {w : Handle}
    (hw : w ∈ taken.binders) : w ∈ e.binders := by
  induction h with
  | whole => exact hw
  | inside hbranch _ ih => exact List.mem_append_left _ (hbranch.binders (ih hw))
  | behind _ ih => exact List.mem_append_right _ (List.mem_cons_of_mem _ (ih hw))

end Subsequence

theorem exit_mem_places {e : Expr} (he : e.Flat) : ∀ scope, .exit scope ∈ places scope e := by
  induction he with
  | result r => exact fun scope => List.mem_cons_self
  | bind _ _ _ ih => exact fun scope => List.mem_cons_of_mem _ (List.mem_append_right _ (ih scope))
  | cond _ _ _ _ _ _ _ _ ihb =>
    exact fun scope => List.mem_cons_of_mem _ (List.mem_append_right _ (ihb scope))

/-- Every binding is a place. -/
theorem binding_mem_places {e : Expr} (he : e.Flat) {z : Handle} {value : Expr}
    (hz : (z, value) ∈ e.allBindings) : ∀ scope, .binding z ∈ places scope e := by
  induction he with
  | result r => cases hz
  | bind v hx _ ih =>
    intro scope
    rw [hx.allBindings_letIn] at hz
    rcases List.mem_cons.1 hz with heq | hz
    · obtain ⟨rfl, rfl⟩ := Prod.mk.inj heq
      exact List.mem_cons_self
    · exact List.mem_cons_of_mem _ (List.mem_append_right _ (ih hz scope))
  | cond v c ty _ _ _ iht ihf ihb =>
    intro scope
    rw [places, placesInside, List.mem_cons, List.mem_append, List.mem_append]
    rw [Expr.allBindings_cond, List.mem_append, List.mem_append, List.mem_cons] at hz
    rcases hz with (hz | hz) | heq | hz
    · exact Or.inr (Or.inl (Or.inl (iht hz _)))
    · exact Or.inr (Or.inl (Or.inr (ihf hz _)))
    · obtain ⟨rfl, rfl⟩ := Prod.mk.inj heq
      exact Or.inl rfl
    · exact Or.inr (Or.inr (ihb hz scope))

/-- Every place has a scope. -/
theorem exists_inScope {e : Expr} (he : e.Flat) : ∀ {scope : Scope} {place : Place},
    place ∈ places scope e → ∀ vs, ∃ ws, InScope scope vs e place ws := by
  induction he with
  | result r =>
    intro scope place h vs
    obtain rfl := List.mem_singleton.1 h
    exact ⟨vs, .result scope vs r⟩
  | @bind v x body hx _ ih =>
    intro scope place h vs
    have hinside : placesInside v x = [] := by cases hx <;> rfl
    rw [places, hinside, List.nil_append] at h
    rcases List.mem_cons.1 h with rfl | h
    · exact ⟨vs, .binding ..⟩
    · obtain ⟨ws, hws⟩ := ih h (v :: vs)
      exact ⟨ws, .behind hws⟩
  | @cond v c t f body ty _ _ _ iht ihf ihb =>
    intro scope place h vs
    rw [places, placesInside, List.mem_cons, List.mem_append, List.mem_append] at h
    rcases h with rfl | (h | h) | h
    · exact ⟨vs, .binding ..⟩
    · obtain ⟨ws, hws⟩ := iht h vs
      exact ⟨ws, .inside (.thenBranch ..) hws⟩
    · obtain ⟨ws, hws⟩ := ihf h vs
      exact ⟨ws, .inside (.elseBranch ..) hws⟩
    · obtain ⟨ws, hws⟩ := ihb h (v :: vs)
      exact ⟨ws, .behind hws⟩

namespace InScope

variable {scope : Scope} {vs ws : List Handle} {e : Expr} {place : Place}

theorem mem_places (h : InScope scope vs e place ws) : place ∈ places scope e := by
  induction h with
  | result => exact List.mem_cons_self
  | binding => exact List.mem_cons_self
  | inside hbranch _ ih =>
    exact List.mem_cons_of_mem _ (List.mem_append_left _ (hbranch.mem_placesInside ih))
  | behind _ ih => exact List.mem_cons_of_mem _ (List.mem_append_right _ ih)

theorem first (scope : Scope) (vs : List Handle) {e : Expr} (he : e.Flat) :
    InScope scope vs e (firstPlace scope e) vs := by
  cases he with
  | result r => exact .result scope vs r
  | bind => exact .binding ..
  | cond => exact .binding ..

/-- What is in scope was in scope before the sequence or is bound in it. -/
theorem mem_or_mem_binders (h : InScope scope vs e place ws) {w : Handle} (hw : w ∈ ws) :
    w ∈ vs ∨ w ∈ e.binders := by
  induction h with
  | result => exact Or.inl hw
  | binding => exact Or.inl hw
  | inside hbranch _ ih =>
    exact (ih hw).imp_right fun h => List.mem_append_left _ (hbranch.binders h)
  | behind _ ih =>
    rcases ih hw with h | h
    · rcases List.mem_cons.1 h with rfl | h
      · exact Or.inr (List.mem_append_right _ List.mem_cons_self)
      · exact Or.inl h
    · exact Or.inr (List.mem_append_right _ (List.mem_cons_of_mem _ h))

/-- **What is in scope at a place is older than the variable that the place belongs to.** -/
theorem lt_owner (h : InScope scope vs e place ws) : e.Ascending →
    (∀ u ∈ vs, ∀ w ∈ e.binders, u < w) →
    (∀ z, scope.owner? = some z → ∀ u ∈ vs ++ e.binders, u < z) →
    ∀ {z w : Handle}, place.owner? = some z → w ∈ ws → w < z := by
  induction h with
  | result scope vs r =>
    intro _ _ howner z w hz hw
    exact howner z hz w (List.mem_append_left _ hw)
  | binding scope vs v value body =>
    intro _ hvs _ z w hz hw
    obtain rfl := Option.some.inj hz
    exact hvs w hw v (List.mem_append_right _ List.mem_cons_self)
  | @inside scope inner vs ws v value taken body place hbranch _ ih =>
    intro ha hvs _
    refine ih (hbranch.ascending ha.value)
      (fun u hu w hw => hvs u hu w (List.mem_append_left _ (hbranch.binders hw)))
      fun z hz u hu => ?_
    obtain rfl := Option.some.inj (hbranch.owner?_eq.symm.trans hz)
    rcases List.mem_append.1 hu with hu | hu
    · exact hvs u hu v (List.mem_append_right _ List.mem_cons_self)
    · exact ha.lt_of_mem_binders (hbranch.binders hu)
  | @behind scope vs ws v value body place _ ih =>
    intro ha hvs howner
    refine ih ha.body (fun u hu w hw => ?_) fun z hz u hu => howner z hz u ?_
    · rcases List.mem_cons.1 hu with rfl | hu
      · exact ha.lt_of_mem_body hw
      · exact hvs u hu w (List.mem_append_right _ (List.mem_cons_of_mem _ hw))
    · rw [Expr.binders, List.mem_append, List.mem_append, List.mem_cons]
      rw [List.mem_append, List.mem_cons] at hu
      tauto

/-- **A variable that is bound in a branch is in scope in that branch only.** -/
theorem mem_places_of_bound (h : InScope scope vs e place ws) : e.Flat → e.Ascending →
    ∀ {z w : Handle} {value taken : Expr} {inner : Scope}, (z, value) ∈ e.allBindings →
      BranchOf z value inner taken → w ∈ taken.binders → w ∉ vs → w ∈ ws →
        place ∈ places inner taken := by
  induction h with
  | result => exact fun _ _ _ _ _ _ _ _ _ _ hnot hw => absurd hw hnot
  | binding => exact fun _ _ _ _ _ _ _ _ _ _ hnot hw => absurd hw hnot
  | @inside scope outer vs ws v x other body place hother hplace ih =>
    intro hflat ha z w value taken inner hz hbranch hbound hnot hw
    have hbinder := (hplace.mem_or_mem_binders hw).resolve_left hnot
    rcases List.mem_append.1 hz with hz | hz
    · obtain ⟨scope', branch, hbranch', hz⟩ := BranchOf.exists_of_mem hz v
      have hbound' :=
        (Subsequence.of_branch (hbranch'.flat hflat) hz hbranch scope').mem_binders hbound
      obtain ⟨rfl, rfl⟩ := hother.unique hbranch' ha.value hbinder hbound'
      exact ih (hother.flat hflat) (hother.ascending ha.value) hz hbranch hbound hnot hw
    · rcases List.mem_cons.1 hz with heq | hz
      · obtain ⟨rfl, rfl⟩ := Prod.mk.inj heq
        obtain ⟨rfl, rfl⟩ := hother.unique hbranch ha.value hbinder hbound
        exact hplace.mem_places
      · have hlater := ha.lt_of_mem_body
          ((Subsequence.of_branch (flat_body hflat) hz hbranch scope).mem_binders hbound)
        exact absurd (ha.lt_of_mem_binders (hother.binders hbinder)) (Nat.lt_asymm hlater)
  | @behind scope vs ws v x body place hplace ih =>
    intro hflat ha z w value taken inner hz hbranch hbound hnot hw
    -- what is bound in front of the body is not bound in the body
    have hfront : w ∉ x.binders := fun hx => by
      have hlt := ha.lt_of_mem_binders hx
      rcases hplace.mem_or_mem_binders hw with h | h
      · rcases List.mem_cons.1 h with rfl | h
        · exact Nat.lt_irrefl w hlt
        · exact hnot h
      · exact Nat.lt_asymm hlt (ha.lt_of_mem_body h)
    rcases List.mem_append.1 hz with hz | hz
    · obtain ⟨scope', branch, hbranch', hz⟩ := BranchOf.exists_of_mem hz v
      exact absurd (hbranch'.binders
        ((Subsequence.of_branch (hbranch'.flat hflat) hz hbranch scope').mem_binders hbound)) hfront
    · rcases List.mem_cons.1 hz with heq | hz
      · obtain ⟨rfl, rfl⟩ := Prod.mk.inj heq
        exact absurd (hbranch.binders hbound) hfront
      · refine ih (flat_body hflat) ha.body hz hbranch hbound (fun hmem => ?_) hw
        have hlt := ha.lt_of_mem_body
          ((Subsequence.of_branch (flat_body hflat) hz hbranch scope).mem_binders hbound)
        rcases List.mem_cons.1 hmem with rfl | hmem
        · exact Nat.lt_irrefl w hlt
        · exact hnot hmem

end InScope

/-! ### Identities of variables in scope -/

section Within

variable {ids : Handle → HandleSet}

/-- Everything in the set is an identity of one of the variables. -/
def Within (ids : Handle → HandleSet) (set : HandleSet) (vs : List Handle) : Prop :=
  ∀ x ∈ set, ∃ u ∈ vs, x ∈ ids u

namespace Within

variable {set after : HandleSet} {vs : List Handle} {v : Handle}

theorem cons (h : Within ids set vs) (v : Handle) : Within ids set (v :: vs) := fun x hx => by
  obtain ⟨u, hu, hxu⟩ := h x hx
  exact ⟨u, List.mem_cons_of_mem _ hu, hxu⟩

/-- Without the identities of `v` the variable `v` is not called for. -/
theorem diff (h : Within ids set (v :: vs)) : Within ids (set \ ids v) vs := fun x hx => by
  obtain ⟨hx, hv⟩ := Std.ExtTreeSet.mem_diff_iff.1 hx
  obtain ⟨u, hu, hxu⟩ := h x hx
  rcases List.mem_cons.1 hu with rfl | hu
  · exact absurd hxu hv
  · exact ⟨u, hu, hxu⟩

theorem union (h : Within ids set vs) (h' : Within ids after vs) : Within ids (set ∪ after) vs :=
  fun x hx => (Std.ExtTreeSet.mem_union_iff.1 hx).elim (h x) (h' x)

end Within

/-- A sequence that can be traced back to the variables `vs` in scope before it: it mentions
no others, and what a value stands for comes from what the value mentions. -/
structure Traced (ids : Handle → HandleSet) (vs : List Handle) (e : Expr) : Prop where
  flat : e.Flat
  closed {u : Handle} : u ∈ e.occurrences → u ∈ vs
  inherits {v : Handle} {value : Expr} : (v, value) ∈ e.allBindings → Inherits ids v value

namespace Traced

variable {vs : List Handle} {v : Handle} {value branch rest : Expr} {inner : Scope}

theorem body (h : Traced ids vs (.letIn v value rest)) : Traced ids (v :: vs) rest := by
  refine ⟨flat_body h.flat, fun {u} hu => ?_,
    fun hb => h.inherits (Expr.mem_allBindings_of_body hb)⟩
  by_cases hne : u = v
  · exact hne ▸ List.mem_cons_self
  · exact List.mem_cons_of_mem _ (h.closed
      (List.mem_append_right _ (List.mem_filter.2 ⟨hu, decide_eq_true hne⟩)))

theorem taken (h : Traced ids vs (.letIn v value rest)) (hbranch : BranchOf v value inner branch) :
    Traced ids vs branch :=
  ⟨hbranch.flat h.flat, fun hu => h.closed (List.mem_append_left _ (hbranch.occurrences hu)),
    fun hb => h.inherits (Expr.mem_allBindings_of_inside (hbranch.branchBindings hb))⟩

theorem value_closed (h : Traced ids vs (.letIn v value rest)) {u : Handle}
    (hu : u ∈ value.occurrences) : u ∈ vs := h.closed (List.mem_append_left _ hu)

/-- **One binding:** if what is live behind it stands for variables in scope there, then what is
live at it stands for variables in scope in front of it. -/
theorem liveBinding_within (h : Traced ids vs (.letIn v value rest))
    (hop : ∀ name, value ≠ .op name) {next after : HandleSet}
    (hafter : Within ids after (v :: vs)) :
    Within ids (liveBinding ids v next after value) vs := by
  have hmade : Within ids (unionAll ids value.occurrences ∪ (after \ ids v)) vs := by
    refine Within.union (fun x hx => ?_) hafter.diff
    obtain ⟨u, hu, hx⟩ := mem_unionAll.1 hx
    exact ⟨u, h.value_closed hu, hx⟩
  have hinherited : value.isMade = false → Within ids (ids v ∪ after) vs := fun hnot => by
    have hv : Within ids (ids v) vs := fun x hx => by
      obtain ⟨u, hu, hxu⟩ := h.inherits Expr.binding_mem_allBindings hnot x hx
      exact ⟨u, h.value_closed hu, hxu⟩
    refine hv.union fun x hx => ?_
    obtain ⟨u, hu, hxu⟩ := hafter x hx
    rcases List.mem_cons.1 hu with rfl | hu
    · exact hv x hxu
    · exact ⟨u, hu, hxu⟩
  cases value with
  | op name => exact absurd rfl (hop name)
  | call callee args ty => exact hmade
  | cond test thenBranch elseBranch ty => exact hmade
  | _ => exact hinherited rfl

end Traced

/-- What is live at the first point of a sequence stands for variables in scope before it. -/
theorem liveFirst_within {e : Expr} {incoming : HandleSet} (he : e.Flat) : ∀ {vs : List Handle},
    Traced ids vs e → (∀ v name, (v, .op name) ∉ e.allBindings) → Within ids incoming vs →
      Within ids (liveFirst ids incoming e) vs := by
  have hstep : ∀ {v : Handle} {value body : Expr} {vs : List Handle},
      (∀ {vs}, Traced ids vs body → (∀ v name, (v, .op name) ∉ body.allBindings) →
        Within ids incoming vs → Within ids (liveFirst ids incoming body) vs) →
      Traced ids vs (.letIn v value body) →
      (∀ u name, (u, .op name) ∉ (Expr.letIn v value body).allBindings) → Within ids incoming vs →
        Within ids (liveFirst ids incoming (.letIn v value body)) vs := by
    intro v value body vs ih h hop hincoming
    refine h.liveBinding_within (fun name heq => ?_)
      (ih h.body (fun u name hb => ?_) (hincoming.cons v))
    · exact hop v name (heq ▸ Expr.binding_mem_allBindings)
    · exact hop u name (Expr.mem_allBindings_of_body hb)
  induction he with
  | result r =>
    intro vs h _ hincoming
    exact Within.union (fun x hx => ⟨r, h.closed List.mem_cons_self, hx⟩) hincoming
  | bind v _ _ ih => exact hstep ih
  | cond v c ty _ _ _ _ _ ihb => exact hstep ihb

namespace InScope

variable {scope : Scope} {vs ws : List Handle} {e : Expr} {place : Place}

/-- **What is live at a place stands for variables in scope there.** -/
theorem live_within (h : InScope scope vs e place ws) : Traced ids vs e →
    (∀ v name, (v, .op name) ∉ e.allBindings) → ∀ {incoming : HandleSet},
      Within ids incoming vs → ∃ set, (place, set) ∈ liveEntries ids scope incoming e ∧
        Within ids set ws := by
  induction h with
  | result scope vs r =>
    intro h hop incoming hincoming
    exact ⟨_, List.mem_cons_self, liveFirst_within h.flat h hop hincoming⟩
  | binding scope vs v value body =>
    intro h hop incoming hincoming
    exact ⟨_, List.mem_cons_self, liveFirst_within h.flat h hop hincoming⟩
  | @inside scope inner vs ws v value taken body place hbranch _ ih =>
    intro h hop incoming hincoming
    have hbody : ∀ u name, (u, .op name) ∉ body.allBindings := fun u name hb =>
      hop u name (Expr.mem_allBindings_of_body hb)
    have hafter : Within ids (liveFirst ids incoming body) (v :: vs) :=
      liveFirst_within h.body.flat h.body hbody (hincoming.cons v)
    -- the result of the conditional is taken away before the branch is entered
    obtain ⟨set, hmem, hset⟩ := ih (h.taken hbranch)
      (fun u name hb => hop u name (Expr.mem_allBindings_of_inside (hbranch.branchBindings hb)))
      hafter.diff
    exact ⟨set, List.mem_cons_of_mem _ (List.mem_append_left _ (hbranch.liveInside hmem)), hset⟩
  | @behind scope vs ws v value body place _ ih =>
    intro h hop incoming hincoming
    obtain ⟨set, hmem, hset⟩ := ih h.body
      (fun u name hb => hop u name (Expr.mem_allBindings_of_body hb)) (hincoming.cons v)
    exact ⟨set, List.mem_cons_of_mem _ (List.mem_append_right _ hmem), hset⟩

/-- **What variables in scope stand for was made for a variable in scope,** if that is so before
the sequence. -/
theorem rooted (origin : Handle → Prop) (h : InScope scope vs e place ws) : Traced ids vs e →
    (∀ {v value}, (v, value) ∈ e.allBindings → value.isMade = true → origin v) →
    (∀ u ∈ vs, ∀ x ∈ ids u, ∃ w ∈ vs, origin w ∧ x ∈ ids w) →
      ∀ u ∈ ws, ∀ x ∈ ids u, ∃ w ∈ ws, origin w ∧ x ∈ ids w := by
  induction h with
  | result => exact fun _ _ hvs => hvs
  | binding => exact fun _ _ hvs => hvs
  | inside hbranch _ ih =>
    exact fun h hmade => ih (h.taken hbranch) fun hb =>
      hmade (Expr.mem_allBindings_of_inside (hbranch.branchBindings hb))
  | @behind scope vs ws v value body place _ ih =>
    intro h hmade hvs
    refine ih h.body (fun hb => hmade (Expr.mem_allBindings_of_body hb)) fun u hu x hx => ?_
    have hearlier : ∀ u ∈ vs, x ∈ ids u → ∃ w ∈ v :: vs, origin w ∧ x ∈ ids w := fun u hu hx => by
      obtain ⟨w, hw, horigin, hxw⟩ := hvs u hu x hx
      exact ⟨w, List.mem_cons_of_mem _ hw, horigin, hxw⟩
    rcases List.mem_cons.1 hu with rfl | hu
    · cases hnot : value.isMade with
      | true => exact ⟨u, List.mem_cons_self, hmade Expr.binding_mem_allBindings hnot, hx⟩
      | false =>
        obtain ⟨u', hu', hxu⟩ := h.inherits Expr.binding_mem_allBindings hnot x hx
        exact hearlier u' (h.value_closed hu') hxu
    · exact hearlier u hu hx

end InScope

end Within

/-! ### Analysed programs -/

/-- The program point of a place. -/
def Place.point? (l : Liveness) : Place → Option Handle
  | .binding v => some v
  | .exit scope => l.exit? scope

/-- An identity is live at the point of a place. -/
def Place.HasLive (l : Liveness) (place : Place) (x : Handle) : Prop :=
  ∃ point live, place.point? l = some point ∧ l.liveAt? point = some live ∧ x ∈ live

/-- An identity is published for a variable. -/
def Liveness.StandsFor (l : Liveness) (v x : Handle) : Prop :=
  ∃ ids, l.identitiesOf? v = some ids ∧ x ∈ ids

/-- A solved place has a point, and its set is published there. -/
theorem LivePoints.Solved.liveAt? {m : LivePoints} {place : Place} {set : HandleSet}
    (h : m.Solved place set) {l : Liveness} (hlive : l.live = m.live) (hexits : l.exits = m.exits) :
    ∃ point, place.point? l = some point ∧ l.liveAt? point = some set := by
  cases h with
  | binding hset => exact ⟨_, rfl, by rw [Liveness.liveAt?, hlive, hset]⟩
  | exit hlookup _ hset =>
    exact ⟨_, by rw [Place.point?, Liveness.exit?, hexits, hlookup],
      by rw [Liveness.liveAt?, hlive, hset]⟩

namespace Passed

variable {vars : BinderTable} {f : Function} {p : Propagation} {m : LivePoints}

theorem traced (h : Passed vars f p m) : Traced p.store.setOf f.params f.body :=
  ⟨h.flat, h.resolved.closed, h.inherits⟩

/-- The parameters are smaller than what is bound in the body. -/
theorem param_lt (h : Passed vars f p m) {u w : Handle} (hu : u ∈ f.params)
    (hw : w ∈ f.body.binders) : u < w :=
  (List.pairwise_append.1 h.resolved.sorted).2.2 u hu w hw

/-- The variables in scope somewhere in the body are published. -/
theorem standsFor_iff (h : Passed vars f p m) {l : Liveness}
    (hids : ∀ v < vars.size, l.identitiesOf? v = m.store.sets[v]?) {v x : Handle}
    (hv : v ∈ f.params ++ f.body.binders) : l.StandsFor v x ↔ x ∈ p.store.setOf v := by
  by_cases hmem : v ∈ p.store.sets
  · rw [Liveness.StandsFor, h.identitiesOf?_eq hids hmem (h.resolved.lt_size hv)]
    exact ⟨fun ⟨ids, hids, hx⟩ => Option.some.inj hids ▸ hx, fun hx => ⟨_, rfl, hx⟩⟩
  · refine ⟨fun ⟨ids, hids', _⟩ => ?_, fun hx => absurd (mem_of_mem_setOf hx) hmem⟩
    rw [hids v (h.resolved.lt_size hv)] at hids'
    have hset := Std.ExtTreeMap.mem_iff_isSome_getElem?.2 (Option.isSome_of_eq_some hids')
    rcases h.minted.only hset with hset | hset | hle
    · exact absurd hset hmem
    · exact absurd hset List.not_mem_nil
    · have hminted := Nat.le_trans h.grows.sound.firstMinted_le hle
      rw [h.grows.firstMinted_eq] at hminted
      exact absurd hminted (Nat.not_le.2 (h.resolved.lt_size hv))

/-- What is live at a place of the body stands for variables in scope there. -/
theorem live_inScope (h : Passed vars f p m) (hop : ∀ v name, (v, .op name) ∉ f.body.allBindings)
    {place : Place} {ws : List Handle} (hscope : InScope .body f.params f.body place ws) :
    ∃ set, m.Solved place set ∧ Within p.store.setOf set ws := by
  obtain ⟨set, hmem, hset⟩ := hscope.live_within h.traced hop fun x hx =>
    absurd hx Std.ExtTreeSet.not_mem_empty
  exact ⟨set, h.solved _ hmem, hset⟩

/-- What is made for a variable stands for no variable that is in scope where it is made. -/
theorem not_within_of_owner (h : Passed vars f p m) {place : Place} {ws : List Handle}
    (hscope : InScope .body f.params f.body place ws) {z : Handle} {value : Expr}
    (hz : (z, value) ∈ f.body.allBindings) (hmade : value.isMade = true)
    (howner : place.owner? = some z) {set : HandleSet} (hset : Within p.store.setOf set ws)
    {x : Handle} (hx : x ∈ p.store.setOf z) : x ∉ set := by
  intro hlive
  obtain ⟨u, hu, hxu⟩ := hset x hlive
  have hlt : u < z := hscope.lt_owner h.resolved.ascending (fun _ hu _ hw => h.param_lt hu hw)
    (fun _ hz => nomatch hz) howner hu
  exact Nat.lt_irrefl x ((h.denotes hz).newest hmade hlt hxu hx)

/-- What is made in a branch stands for variables in scope in that branch only. -/
theorem mem_places_of_within (h : Passed vars f p m) {place : Place} {ws : List Handle}
    (hscope : InScope .body f.params f.body place ws) {z w : Handle} {value taken made : Expr}
    {inner : Scope} (hz : (z, value) ∈ f.body.allBindings) (hbranch : BranchOf z value inner taken)
    (hw : (w, made) ∈ taken.allBindings) (hmade : made.isMade = true) {set : HandleSet}
    (hset : Within p.store.setOf set ws) {x : Handle} (hx : x ∈ p.store.setOf w)
    (hlive : x ∈ set) : place ∈ places inner taken := by
  have hpart := Subsequence.of_branch h.flat hz hbranch .body
  have hflat := hpart.flat h.flat
  have hbound : w ∈ taken.binders :=
    hflat.map_fst_allBindings_sublist.subset (List.mem_map_of_mem (f := (·.1)) hw)
  have hbody : w ∈ f.body.binders := hpart.mem_binders hbound
  have hw : (w, made) ∈ f.body.allBindings := hpart.mem_allBindings hw
  obtain ⟨u, hu, hxu⟩ := hset x hlive
  -- the variable that the identity was made for is `w` itself
  obtain ⟨v, hv, horigin, hxv⟩ := hscope.rooted (Originates f) h.traced
    (fun hb hmade => Or.inr ⟨_, hb, hmade⟩) (fun u hu x hx => ⟨u, hu, Or.inl hu, hx⟩) u hu x hxu
  have hnew := (h.denotes hw).newest hmade
  have heq : v = w := by
    rcases Nat.lt_trichotomy v w with hlt | heq | hlt
    · exact absurd (hnew hlt hxv hx) (Nat.lt_irrefl x)
    · exact heq
    · rcases horigin with hparam | ⟨value', hb, hmade'⟩
      · exact absurd (h.param_lt hparam hbody) (Nat.lt_asymm hlt)
      · exact absurd ((h.denotes hb).newest hmade' hlt hx hxv) (Nat.lt_irrefl x)
  refine hscope.mem_places_of_bound h.flat h.resolved.ascending hz hbranch hbound (fun hparam => ?_)
    (heq ▸ hv)
  exact Nat.lt_irrefl w (h.param_lt hparam hbody)

end Passed

/-- **Nothing is live before it exists.**  Take an analysed program without variables that are
bound to operators.  What is live at a place stands for variables in scope just before it.  So
what a call or a conditional makes is not live where it is bound, nor at the ends of the branches
of the conditional; what is made in a branch is live in that branch only; and at the start only
parameters stand for what is live. -/
theorem live_within_scope {source entry : String} {program : Program} {warnings : List Diagnostic}
    {f : Function} {terminal : Pass} {o : Outcome}
    (hread : readProgram source = .ok (program, warnings))
    (hentry : program.function? entry = some f) (hform : formErrors program.vars f = [])
    (hterminal : terminal = .liveness ∨ terminal = .sharing)
    (hanalyze : analyze program.vars f terminal = .ok o)
    (hop : ∀ v name, (v, .op name) ∉ f.body.allBindings) :
    (∀ place ∈ places .body f.body, ∃ visible point live,
      InScope .body f.params f.body place visible ∧ place.point? o.liveness = some point ∧
      o.liveness.liveAt? point = some live ∧
      ∀ x ∈ live, ∃ u ∈ visible, o.liveness.StandsFor u x) ∧
    (∀ z value x, (z, value) ∈ f.body.allBindings → value.isMade = true →
      o.liveness.StandsFor z x → ¬ (Place.binding z).HasLive o.liveness x ∧
      ∀ inner taken, BranchOf z value inner taken → ¬ (Place.exit inner).HasLive o.liveness x) ∧
    (∀ z value inner taken w made x, (z, value) ∈ f.body.allBindings →
      BranchOf z value inner taken → (w, made) ∈ taken.allBindings → made.isMade = true →
      o.liveness.StandsFor w x → ∀ place ∈ places .body f.body, place.HasLive o.liveness x →
      place ∈ places inner taken) ∧
    ∀ x, (firstPlace .body f.body).HasLive o.liveness x →
      ∃ u ∈ f.params, o.liveness.StandsFor u x := by
  obtain ⟨p, m, h, hlive, hexits, hids⟩ :=
    exists_passed (readProgram_scoped hread hentry) hform hterminal hanalyze
  have hplace : ∀ {place}, place ∈ places .body f.body → ∃ ws point set,
      InScope .body f.params f.body place ws ∧ place.point? o.liveness = some point ∧
      o.liveness.liveAt? point = some set ∧ Within p.store.setOf set ws := fun hmem => by
    obtain ⟨ws, hscope⟩ := exists_inScope h.flat hmem f.params
    obtain ⟨set, hsolved, hset⟩ := h.live_inScope hop hscope
    obtain ⟨point, hpoint, hat⟩ := hsolved.liveAt? hlive hexits
    exact ⟨ws, point, set, hscope, hpoint, hat, hset⟩
  have hwithin : ∀ {place ws set x}, InScope .body f.params f.body place ws →
      Within p.store.setOf set ws → x ∈ set → ∃ u ∈ ws, o.liveness.StandsFor u x :=
    fun {place ws set x} hscope hset hx => by
      obtain ⟨u, hu, hxu⟩ := hset x hx
      exact ⟨u, hu, (h.standsFor_iff hids (List.mem_append.2 (hscope.mem_or_mem_binders hu))).2 hxu⟩
  -- what is published as live at a place is the set that the place has
  have hhas : ∀ {place ws x}, InScope .body f.params f.body place ws →
      place.HasLive o.liveness x → ∃ set, Within p.store.setOf set ws ∧ x ∈ set := by
    rintro place ws x hscope ⟨point, live, hpoint, hat, hx⟩
    obtain ⟨set, hsolved, hset⟩ := h.live_inScope hop hscope
    obtain ⟨point', hpoint', hat'⟩ := hsolved.liveAt? hlive hexits
    obtain rfl := Option.some.inj (hpoint.symm.trans hpoint')
    obtain rfl := Option.some.inj (hat.symm.trans hat')
    exact ⟨live, hset, hx⟩
  have hids' : ∀ {v value x}, (v, value) ∈ f.body.allBindings → o.liveness.StandsFor v x →
      x ∈ p.store.setOf v := fun hb hx => by
    refine (h.standsFor_iff hids (List.mem_append_right _ ?_)).1 hx
    exact h.flat.map_fst_allBindings_sublist.subset (List.mem_map_of_mem (f := (·.1)) hb)
  have howner : ∀ {place z value x}, place ∈ places .body f.body → place.owner? = some z →
      (z, value) ∈ f.body.allBindings → value.isMade = true → o.liveness.StandsFor z x →
      ¬ place.HasLive o.liveness x := fun hmem howner hz hmade hx hhaslive => by
    obtain ⟨ws, hscope⟩ := exists_inScope h.flat hmem f.params
    obtain ⟨set, hset, hxset⟩ := hhas hscope hhaslive
    exact h.not_within_of_owner hscope hz hmade howner hset (hids' hz hx) hxset
  refine ⟨fun place hmem => ?_, fun z value x hz hmade hx => ⟨?_, fun inner taken hbranch => ?_⟩,
    fun z value inner taken w made x hz hbranch hw hmade hx place hmem hhaslive => ?_,
    fun x hhaslive => ?_⟩
  · obtain ⟨ws, point, set, hscope, hpoint, hat, hset⟩ := hplace hmem
    exact ⟨ws, point, set, hscope, hpoint, hat, fun x hx => hwithin hscope hset hx⟩
  · exact howner (binding_mem_places h.flat hz .body) rfl hz hmade hx
  · have hpart := Subsequence.of_branch h.flat hz hbranch .body
    exact howner (hpart.mem_places (exit_mem_places (hpart.flat h.flat) inner)) hbranch.owner?_eq
      hz hmade hx
  · obtain ⟨ws, hscope⟩ := exists_inScope h.flat hmem f.params
    obtain ⟨set, hset, hxset⟩ := hhas hscope hhaslive
    have hw' := (Subsequence.of_branch h.flat hz hbranch .body).mem_allBindings hw
    exact h.mem_places_of_within hscope hz hbranch hw hmade hset (hids' hw' hx) hxset
  · have hscope := InScope.first .body f.params h.flat
    obtain ⟨set, hset, hxset⟩ := hhas hscope hhaslive
    exact hwithin hscope hset hxset

/-- The buffer that is made in the branch of `branchSource` is live at the end of that branch, and
nowhere outside. -/
theorem live_within_scope_of_branch : ∃ f o x,
    readProgram branchSource = .ok (branchProgram, []) ∧
      branchProgram.function? "main" = some f ∧ formErrors branchProgram.vars f = [] ∧
      analyze branchProgram.vars f .sharing = .ok o ∧
      (∀ v name, (v, .op name) ∉ f.body.allBindings) ∧ o.liveness.StandsFor 2 x ∧
      (Place.exit (.thenOf 3)).HasLive o.liveness x ∧
      ∀ place ∈ places .body f.body, place.HasLive o.liveness x →
        place ∈ [.binding 2, .exit (.thenOf 3)] := by
  have hread : readProgram branchSource = .ok (branchProgram, []) := by cbv
  have hentry : branchProgram.function? "main" = some ⟨[0, 1], .letIn 3 branchCond (.var 3)⟩ := rfl
  have hrun : ((analyze branchProgram.vars ⟨[0, 1], .letIn 3 branchCond (.var 3)⟩
      .sharing).toOption.any fun o => o.liveness.identitiesOf? 2 = some {6} ∧
        (o.liveness.exit? (.thenOf 3)).bind o.liveness.liveAt? = some {6}) = true := by
    decide +kernel
  obtain ⟨o, hanalyze, htest⟩ := exists_ok_of_any hrun
  obtain ⟨hids, hlive⟩ := of_decide_eq_true htest
  obtain ⟨point, hpoint, hat⟩ := Option.bind_eq_some_iff.1 hlive
  have hop : ∀ v name,
      (v, Expr.op name) ∉ (Expr.letIn 3 branchCond (.var 3)).allBindings := by
    simp [branchCond, Expr.allBindings, Expr.branchBindings]
  obtain ⟨-, -, hinside, -⟩ := live_within_scope hread hentry rfl (Or.inr rfl) hanalyze hop
  have hstands : o.liveness.StandsFor 2 6 := ⟨_, hids, mem_singleton.2 rfl⟩
  refine ⟨_, o, 6, hread, hentry, rfl, hanalyze, hop, hstands,
    ⟨point, _, hpoint, hat, mem_singleton.2 rfl⟩, ?_⟩
  exact hinside 3 branchCond (.thenOf 3) _ 2 _ 6 (by simp [Expr.allBindings]) (.thenBranch ..)
    List.mem_cons_self rfl hstands

end Analysis
end TensorLiveness
