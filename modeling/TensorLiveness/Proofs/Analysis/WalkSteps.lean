/-
# The steps of the walk back

All that the walk back from the results does is to mint handles, to give points live sets and to
note exits, and whatever set it mints or gives is made of identities that are there already
(`LivePoints.Step`).  So a fact that each of these steps keeps holds behind the whole walk, however
the expressions are nested.

| operation | lemma |
| --- | --- |
| `freshUnionOf`, `freshDifference` | `steps_freshUnionOf`, `steps_freshDifference` |
| one point | `steps_record` and those behind it |
| a sequence | `walkBack_steps`, by recursion on it |
-/

import Mathlib.Logic.Relation
import TensorLiveness.Proofs.Analysis.LivePoints
import TensorLiveness.Proofs.Identity.Numbering

namespace TensorLiveness
namespace Analysis

open Identity Program Store

namespace LivePoints

/-- The identity is in the set of a handle or live at a point. -/
def Holds (m : LivePoints) (e : Handle) : Prop :=
  (∃ v, e ∈ m.store.setOf v) ∨
    ∃ (point : Handle) (set : HandleSet), m.live[point]? = some set ∧ e ∈ set

/-- One step: the set that is minted or given to a point is made of identities that are held. -/
inductive Step : LivePoints → LivePoints → Prop
  | mint (m : LivePoints) (hint : String) (set : HandleSet) (held : ∀ e ∈ set, m.Holds e) :
    Step m (m.withStore (m.store.freshSet hint set).2)
  | setLive (m : LivePoints) (point : Handle) (set : HandleSet) (held : ∀ e ∈ set, m.Holds e) :
    Step m (m.setLive point set)
  | addExit (m : LivePoints) (exit : Scope × Handle) :
    Step m { m with exits := exit :: m.exits }

/-- Any number of steps. -/
abbrev Steps : LivePoints → LivePoints → Prop := Relation.ReflTransGen Step

variable {m m' : LivePoints} {t : Store} {v next : Handle}

theorem holds_of_mem_setOf {e : Handle} (h : e ∈ m.store.setOf v) : m.Holds e := Or.inl ⟨v, h⟩

theorem holds_of_liveAt {point : Handle} {set : HandleSet} (h : m.liveAt point = .ok set) :
    ∀ e ∈ set, m.Holds e := fun _ he => Or.inr ⟨point, set, liveAt_eq_ok.1 h, he⟩

theorem holds_of_identities {set : HandleSet} (h : m.store.identities v = .ok set) :
    ∀ e ∈ set, m.Holds e := by
  obtain ⟨-, rfl⟩ := identities_eq_ok.1 h
  exact fun e he => holds_of_mem_setOf he

/-! ### Operations on the store -/

theorem steps_freshSet (m : LivePoints) (hint : String) {set : HandleSet}
    (held : ∀ e ∈ set, m.Holds e) : Steps m (m.withStore (m.store.freshSet hint set).2) :=
  .single (.mint m hint set held)

theorem steps_freshEmpty (m : LivePoints) (hint : String) :
    Steps m (m.withStore (m.store.freshEmpty hint).2) :=
  steps_freshSet m hint fun _ he => absurd he Std.ExtTreeSet.not_mem_empty

theorem steps_freshUnionOf (m : LivePoints) {vs : List Handle}
    (h : m.store.freshUnionOf vs = .ok (v, t)) : Steps m (m.withStore t) := by
  rw [freshUnionOf, freshUnion, bind_eq_ok] at h
  obtain ⟨set, hset, h⟩ := h
  have hmint := steps_freshSet m "merge" fun e he => by
    obtain ⟨u, -, he⟩ := ((union_spec hset).2 e).1 he
    exact holds_of_mem_setOf he
  rwa [Except.ok.inj h] at hmint

theorem steps_freshDifference (m : LivePoints) {a b : Handle}
    (h : m.store.freshDifference a b = .ok (v, t)) : Steps m (m.withStore t) := by
  rw [freshDifference, bind_eq_ok] at h
  obtain ⟨removed, -, h⟩ := h
  obtain ⟨set, hset, h⟩ := bind_eq_ok.1 h
  have held : ∀ e ∈ set \ removed, m.Holds e := fun e he =>
    holds_of_identities hset e (Std.ExtTreeSet.mem_diff_iff.1 he).1
  have hmint := steps_freshSet m "remove" held
  rwa [Except.ok.inj h] at hmint

/-! ### Points -/

theorem steps_liveBefore {uses : Handle} {defined : Option Handle} {set : HandleSet}
    (h : m.liveBefore uses defined next = .ok (set, m')) :
    Steps m m' ∧ ∀ e ∈ set, m'.Holds e := by
  have hmerge : ∀ {s : Store} {r : Handle}, Steps m (m.withStore s) →
      (s.freshUnionOf [uses, r] >>= fun u => u.2.identities u.1 >>= fun set =>
        .ok (set, m.withStore u.2)) = .ok (set, m') → Steps m m' ∧ ∀ e ∈ set, m'.Holds e :=
    fun {s r} hs h => by
      obtain ⟨⟨_, t⟩, ht, h⟩ := bind_eq_ok.1 h
      obtain ⟨_, hid, h⟩ := bind_eq_ok.1 h
      obtain ⟨rfl, rfl⟩ := Prod.mk.inj (Except.ok.inj h)
      exact ⟨hs.trans (steps_freshUnionOf (m.withStore s) ht),
        holds_of_identities (m := m.withStore t) hid⟩
  obtain ⟨_, -, h⟩ := bind_eq_ok.1 h
  obtain ⟨after, hafter, h⟩ := bind_eq_ok.1 h
  have hsnap := steps_freshSet m "live" (holds_of_liveAt hafter)
  cases defined with
  | none => exact hmerge hsnap h
  | some d =>
    obtain ⟨⟨_, t⟩, ht, h⟩ := bind_eq_ok.1 h
    exact hmerge (hsnap.trans (steps_freshDifference (m.withStore _) ht)) h

/-- **A point is given a set of what was there before.** -/
theorem steps_record {point uses : Handle} {defined : Option Handle}
    (h : m.record point uses defined next = .ok m') : Steps m m' := by
  obtain ⟨⟨set, m₁⟩, hset, h⟩ := bind_eq_ok.1 h
  obtain rfl := Except.ok.inj h
  obtain ⟨hsteps, held⟩ := steps_liveBefore hset
  exact hsteps.tail (.setLive m₁ point set held)

theorem steps_openExit {scope : Scope} {result : Expr} {exit : Handle}
    (h : m.openExit scope result next = .ok (exit, m')) : Steps m m' := by
  unfold openExit at h
  split at h
  · cases h
  · obtain ⟨m₁, hrecord, h⟩ := bind_eq_ok.1 h
    obtain ⟨-, rfl⟩ := Prod.mk.inj (Except.ok.inj h)
    exact ((steps_freshEmpty m _).trans (steps_record hrecord)).tail (.addExit m₁ _)

theorem steps_openBranch {branchNext : Handle}
    (h : m.openBranch v next = .ok (branchNext, m')) : Steps m m' := by
  obtain ⟨after, hafter, h⟩ := bind_eq_ok.1 h
  obtain ⟨⟨_, t⟩, ht, h⟩ := bind_eq_ok.1 h
  obtain ⟨_, hid, h⟩ := bind_eq_ok.1 h
  obtain ⟨rfl, rfl⟩ := Prod.mk.inj (Except.ok.inj h)
  have hsnap := steps_freshSet m "live" (holds_of_liveAt hafter)
  exact (hsnap.trans (steps_freshDifference (m.withStore _) ht)).tail
    (.setLive (m.withStore t) _ _ (holds_of_identities hid))

theorem steps_recordCall {args : List Expr} (h : m.recordCall v args next = .ok m') :
    Steps m m' := by
  obtain ⟨_, -, h⟩ := bind_eq_ok.1 h
  obtain ⟨⟨_, s⟩, hs, h⟩ := bind_eq_ok.1 h
  exact (steps_freshUnionOf m hs).trans (steps_record h)

theorem steps_recordCond {test thenBranch elseBranch : Expr}
    (h : m.recordCond v test thenBranch elseBranch next = .ok m') : Steps m m' := by
  unfold recordCond at h
  split at h
  · cases h
  · obtain ⟨⟨_, s₁⟩, hs₁, h⟩ := bind_eq_ok.1 h
    obtain ⟨⟨_, s₂⟩, hs₂, h⟩ := bind_eq_ok.1 h
    obtain ⟨⟨_, s₃⟩, hs₃, h⟩ := bind_eq_ok.1 h
    exact (steps_freshUnionOf m hs₁).trans ((steps_freshUnionOf (m.withStore s₁) hs₂).trans
      ((steps_freshUnionOf (m.withStore s₂) hs₃).trans (steps_record h)))

end LivePoints

open LivePoints

mutual

/-- **A sequence is walked through step by step.** -/
theorem walkBack_steps : ∀ (e : Expr) {m m' : LivePoints} {exit first : Handle},
    walkBack m exit e = .ok (first, m') → Steps m m'
  | .letIn v value body, _, _, _, _, h => by
    obtain ⟨⟨_, m₁⟩, hm₁, h⟩ := bind_eq_ok.1 h
    obtain ⟨_, hm₂, h⟩ := bind_eq_ok.1 h
    obtain ⟨-, rfl⟩ := Prod.mk.inj (Except.ok.inj h)
    exact (walkBack_steps body hm₁).trans (walkBackBinding_steps v value hm₂)
  | .var _, _, _, _, _, h | .const _, _, _, _, _, h | .op _, _, _, _, _, h
  | .call .., _, _, _, _, h | .tuple _, _, _, _, _, h | .get .., _, _, _, _, h
  | .cond .., _, _, _, _, h | .closure .., _, _, _, _, h => by
    obtain ⟨-, rfl⟩ := Prod.mk.inj (Except.ok.inj h)
    exact .refl

/-- The same for one binding. -/
theorem walkBackBinding_steps (v : Handle) : ∀ (e : Expr) {m m' : LivePoints} {next : Handle},
    walkBackBinding m v next e = .ok m' → Steps m m'
  | .var _, _, _, _, h | .const _, _, _, _, h | .tuple _, _, _, _, h
  | .get .., _, _, _, h | .closure .., _, _, _, h | .op _, _, _, _, h => steps_record h
  | .call callee args _, _, _, _, h => by
    rw [walkBackBinding] at h
    split at h
    · exact steps_recordCall h
    · cases h
  | .cond _ thenBranch elseBranch _, _, _, _, h => by
    obtain ⟨_, hcond, h⟩ := bind_eq_ok.1 h
    obtain ⟨⟨_, _⟩, hthenNext, h⟩ := bind_eq_ok.1 h
    obtain ⟨⟨_, _⟩, hthenExit, h⟩ := bind_eq_ok.1 h
    obtain ⟨⟨_, _⟩, hthen, h⟩ := bind_eq_ok.1 h
    obtain ⟨⟨_, _⟩, helseNext, h⟩ := bind_eq_ok.1 h
    obtain ⟨⟨_, _⟩, helseExit, h⟩ := bind_eq_ok.1 h
    obtain ⟨⟨_, _⟩, helse, h⟩ := bind_eq_ok.1 h
    obtain rfl := Except.ok.inj h
    have hthenSteps := (steps_openBranch hthenNext).trans
      ((steps_openExit hthenExit).trans (walkBack_steps thenBranch hthen))
    have helseSteps := (steps_openBranch helseNext).trans
      ((steps_openExit helseExit).trans (walkBack_steps elseBranch helse))
    exact (steps_recordCond hcond).trans (hthenSteps.trans helseSteps)
  | .letIn .., _, _, _, h => by cases h

end

/-- The live sets of a body come step by step out of a store without any. -/
theorem livePoints_steps {s : Store} {body : Expr} {m : LivePoints}
    (h : livePoints s body = .ok m) : Steps ⟨s, ∅, []⟩ m := by
  have hseed := steps_freshEmpty ⟨s, ∅, []⟩ "exit.seed"
  unfold livePoints at h
  generalize s.freshEmpty "exit.seed" = minted at hseed h
  obtain ⟨seed, s₁⟩ := minted
  obtain ⟨⟨exit, m₂⟩, hexit, h⟩ := bind_eq_ok.1 h
  obtain ⟨⟨first, m₃⟩, hwalk, h⟩ := bind_eq_ok.1 h
  obtain rfl := Except.ok.inj h
  have hfirst := hseed.tail (.setLive ⟨s₁, ∅, []⟩ seed ∅ fun e he =>
    absurd he Std.ExtTreeSet.not_mem_empty)
  exact hfirst.trans ((steps_openExit hexit).trans (walkBack_steps body hwalk))

/-- The walk back binds nothing but what it mints. -/
theorem mintsOnly_of_steps {m m' : LivePoints} (h : Steps m m') : MintsOnly m.store m'.store := by
  induction h with
  | refl => exact .refl m.store
  | tail _ hstep ih =>
    cases hstep with
    | mint hint set held => exact ih.trans (mintsOnly_mint _ hint fun _ => set)
    | setLive point set held => exact ih
    | addExit exit => exact ih

end Analysis
end TensorLiveness
