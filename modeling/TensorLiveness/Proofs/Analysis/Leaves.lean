/-
# The walk back makes no buffers

Going from the results up, the analysis mints handles for unions, differences and snapshots of sets.
None of them is a leaf: every set on the way is made of identities that were there before
(`LivePoints.MadeOf`), since each step keeps to them.  So the leaves that validation starts from are
those that propagation has left behind (`isLeaf_livePoints`).
-/

import TensorLiveness.Proofs.Analysis.WalkSteps

namespace TensorLiveness

open Identity Program Store

namespace Identity.Store

variable {P : Handle → Prop} {s t : Store} {v : Handle}

/-- All sets have members with `P` only. -/
def MadeOf (P : Handle → Prop) (s : Store) : Prop := ∀ v, ∀ e ∈ s.setOf v, P e

theorem MadeOf.mint (h : s.MadeOf P) (hint : String) (set : Handle → HandleSet)
    (hset : ∀ e ∈ set s.supply.next, P e) : (s.mint hint set).2.MadeOf P := by
  intro v e he
  rw [setOf_mint] at he
  split at he
  · exact hset e he
  · exact h v e he

end Identity.Store

namespace Analysis

variable {P : Handle → Prop}

namespace LivePoints

variable {m m' : LivePoints}

/-- All sets of handles and all live sets have members with `P` only. -/
structure MadeOf (P : Handle → Prop) (m : LivePoints) : Prop where
  store : m.store.MadeOf P
  live {point : Handle} {set : HandleSet} : m.live[point]? = some set → ∀ e ∈ set, P e

namespace MadeOf

theorem holds (h : m.MadeOf P) {e : Handle} (he : m.Holds e) : P e := by
  rcases he with ⟨v, he⟩ | ⟨point, set, hset, he⟩
  · exact h.store v e he
  · exact h.live hset e he

/-- A step makes its set of what is there. -/
theorem step (h : m.MadeOf P) (hstep : Step m m') : m'.MadeOf P := by
  cases hstep with
  | mint hint set held =>
    exact ⟨h.store.mint hint (fun _ => set) fun e he => h.holds (held e he), h.live⟩
  | setLive point set held =>
    refine ⟨h.store, fun {p set'} hp => ?_⟩
    rw [getElem?_setLive] at hp
    split at hp
    · exact Option.some.inj hp ▸ fun e he => h.holds (held e he)
    · exact h.live hp
  | addExit exit => exact ⟨h.store, h.live⟩

theorem steps (h : m.MadeOf P) (hsteps : Steps m m') : m'.MadeOf P := by
  induction hsteps with
  | refl => exact h
  | tail _ hstep ih => exact ih.step hstep

end MadeOf

end LivePoints

/-- **The walk back makes no buffers:** its leaves are those that it starts with. -/
theorem isLeaf_livePoints {s : Store} (hs : s.Sound) {body : Expr} {m : LivePoints}
    (h : livePoints s body = .ok m) (hext : Store.Extends [] s m.store) (e : Handle) :
    m.store.isLeaf e = true ↔ s.isLeaf e = true := by
  have hmade : s.MadeOf fun e => s.isLeaf e = true := fun v e he =>
    decide_eq_true (hs.leaf he).self
  rw [isLeaf, decide_eq_true_eq]
  constructor
  · intro hleaf
    have hstart : LivePoints.MadeOf (fun e => s.isLeaf e = true) ⟨s, ∅, []⟩ :=
      ⟨hmade, fun h => by simp at h⟩
    refine (hstart.steps (livePoints_steps h)).store e e ?_
    rw [setOf_of_getElem? hleaf]
    exact mem_singleton.2 rfl
  · intro hleaf
    have hself : s.sets[e]? = some {e} := of_decide_eq_true hleaf
    exact (hext.sets (mem_of_getElem? hself)).trans hself

end Analysis
end TensorLiveness
