/-
# Live sets with one binding more

An inserted number or operator uses no buffer and defines none, so nothing is live with it that is
not live without it: what is live at a place of the longer sequence is live, under its old handles,
at a place of the sequence (`PlacesFollow`).  The places keep their names, up to the inserted one,
which has the set of the place behind it.

| sequence | lemma |
| --- | --- |
| the same under other handles | `LivesWithin.renumber` |
| a binding more in front | `LivesWithin.insert` |
| a binding more anywhere | `LivesWithin.inserts` |

There is one exception.  An operator uses what the next binder stands for, and at a call or at a
conditional that is not live yet; so where an operator is inserted, what the next binder stands for
has to be live at it.
-/

import TensorLiveness.Proofs.Analysis.Insertion
import TensorLiveness.Proofs.Analysis.LivePoints

namespace TensorLiveness
namespace Analysis

open Identity Program

variable {σ : Handle → Handle} {ids ids' : Handle → HandleSet} {k v z : Handle}
  {value rest e e' x x' b b' : Expr}

/-! ### Sets -/

/-- The second set has members of the first only, under other handles. -/
def Bounds (σ : Handle → Handle) (a a' : HandleSet) : Prop := ∀ u ∈ a', u ∈ renumberSet σ a

namespace Bounds

variable {a a' c c' : HandleSet}

theorem refl (σ : Handle → Handle) (a : HandleSet) : Bounds σ a (renumberSet σ a) := fun _ h => h

theorem of_empty (a : HandleSet) : Bounds σ a ∅ := fun _ h => absurd h Std.ExtTreeSet.not_mem_empty

theorem union (h : Bounds σ a a') (h' : Bounds σ c c') : Bounds σ (a ∪ c) (a' ∪ c') := by
  intro u hu
  rw [renumberSet_union, Std.ExtTreeSet.mem_union_iff]
  exact (Std.ExtTreeSet.mem_union_iff.1 hu).imp (h u) (h' u)

/-- What is taken out of both is the same. -/
theorem sdiff {d : HandleSet} (h : Bounds σ a d) (c : HandleSet) :
    Bounds σ (a \ c) (d \ renumberSet σ c) := by
  intro u hu
  obtain ⟨hu, hnot⟩ := Std.ExtTreeSet.mem_diff_iff.1 hu
  obtain ⟨w, hw, rfl⟩ := mem_renumberSet.1 (h u hu)
  refine mem_renumberSet.2 ⟨w, Std.ExtTreeSet.mem_diff_iff.2 ⟨hw, fun hc => hnot ?_⟩, rfl⟩
  exact mem_renumberSet.2 ⟨w, hc, rfl⟩

theorem of_union_self (h : Bounds σ (a ∪ a) a') : Bounds σ a a' := by
  rwa [show a ∪ a = a from Std.ExtTreeSet.ext_mem fun u => by simp] at h

theorem mono (h : Bounds σ a a') (hac : ∀ u ∈ a, u ∈ c) : Bounds σ c a' := by
  intro u hu
  obtain ⟨w, hw, rfl⟩ := mem_renumberSet.1 (h u hu)
  exact mem_renumberSet.2 ⟨w, hac w hw, rfl⟩

end Bounds

/-- The variables stand for the same under other handles. -/
def IdsFollow (σ : Handle → Handle) (ids ids' : Handle → HandleSet) : Prop :=
  ∀ v, ids' (σ v) = renumberSet σ (ids v)

theorem IdsFollow.within (h : IdsFollow σ ids ids') (v : Handle) : Bounds σ (ids v) (ids' (σ v)) :=
  h v ▸ .refl σ (ids v)

theorem IdsFollow.unionAll (h : IdsFollow σ ids ids') (us : List Handle) :
    Bounds σ (Analysis.unionAll ids us) (Analysis.unionAll ids' (us.map σ)) := by
  induction us with
  | nil => exact .of_empty _
  | cons u us ih => exact (h.within u).union ih

/-! ### Places -/

/-- What is live at a place of the second list is live, under other handles, at one of the first.
If that is the binding of `z`, the place is the binding of `z`, too. -/
def PlacesFollow (σ : Handle → Handle) (z : Handle) (ps ps' : List (Place × HandleSet)) : Prop :=
  ∀ p' ∈ ps', ∃ p ∈ ps, Bounds σ p.2 p'.2 ∧ (p.1 = .binding z → p'.1 = .binding (σ z))

namespace PlacesFollow

variable {p p' : Place × HandleSet} {ps ps' qs qs' : List (Place × HandleSet)}

theorem nil (ps : List (Place × HandleSet)) : PlacesFollow σ z ps [] := fun _ h =>
  absurd h List.not_mem_nil

theorem append (h : PlacesFollow σ z ps ps') (h' : PlacesFollow σ z qs qs') :
    PlacesFollow σ z (ps ++ qs) (ps' ++ qs') := by
  intro p' hp'
  rcases List.mem_append.1 hp' with hp' | hp'
  · obtain ⟨p, hp, hpp'⟩ := h p' hp'
    exact ⟨p, List.mem_append_left _ hp, hpp'⟩
  · obtain ⟨p, hp, hpp'⟩ := h' p' hp'
    exact ⟨p, List.mem_append_right _ hp, hpp'⟩

theorem singleton (hset : Bounds σ p.2 p'.2) (hplace : p.1 = .binding z → p'.1 = .binding (σ z)) :
    PlacesFollow σ z [p] [p'] := fun _ hq =>
  ⟨p, List.mem_cons_self, List.mem_singleton.1 hq ▸ ⟨hset, hplace⟩⟩

theorem cons (h : PlacesFollow σ z ps ps') (hset : Bounds σ p.2 p'.2)
    (hplace : p.1 = .binding z → p'.1 = .binding (σ z)) :
    PlacesFollow σ z (p :: ps) (p' :: ps') := (singleton hset hplace).append h

end PlacesFollow

/-! ### Sequences -/

/-- The second sequence has no more live than the first, under other handles. -/
structure LivesWithin (σ : Handle → Handle) (z : Handle) (ids ids' : Handle → HandleSet)
    (e e' : Expr) : Prop where
  first : Bounds σ (firstIds ids e) (firstIds ids' e')
  live {incoming incoming' : HandleSet} : Bounds σ incoming incoming' →
    Bounds σ (liveFirst ids incoming e) (liveFirst ids' incoming' e')
  places {incoming incoming' : HandleSet} (scope scope' : Scope) : Bounds σ incoming incoming' →
    PlacesFollow σ z (liveEntries ids scope incoming e) (liveEntries ids' scope' incoming' e')

namespace LivesWithin

variable (hids : IdsFollow σ ids ids')

include hids

theorem result (r : Handle) : LivesWithin σ z ids ids' (.var r) (.var (σ r)) := by
  refine ⟨.of_empty _, fun h => (hids.within r).union h, fun scope scope' h => ?_⟩
  exact .singleton ((hids.within r).union h) fun hplace => nomatch hplace

/-- A binding in front of both, of values that correspond. -/
theorem letIn (h : LivesWithin σ z ids ids' b b')
    (hbinding : ∀ {next next' after after' : HandleSet}, Bounds σ next next' →
      Bounds σ after after' →
      Bounds σ (liveBinding ids v next after x) (liveBinding ids' (σ v) next' after' x'))
    (hinside : ∀ {after after' : HandleSet}, Bounds σ after after' →
      PlacesFollow σ z (liveInside ids v after x) (liveInside ids' (σ v) after' x')) :
    LivesWithin σ z ids ids' (.letIn v x b) (.letIn (σ v) x' b') := by
  refine ⟨hids.within v, fun hin => hbinding h.first (h.live hin), fun scope scope' hin => ?_⟩
  refine ((hinside (h.live hin)).append (h.places scope scope' hin)).cons
    (hbinding h.first (h.live hin)) fun hplace => ?_
  exact congrArg (fun v => Place.binding (σ v)) (Place.binding.inj hplace)

/-- A simple value is bound. -/
theorem bind (hσ : Function.Injective σ) (hx : x.Simple) (v : Handle)
    (h : LivesWithin σ z ids ids' b b') :
    LivesWithin σ z ids ids' (.letIn v x b) (.letIn (σ v) (x.renumber σ) b') := by
  refine h.letIn hids (fun {next next' after after'} hnext hafter => ?_) fun _ => ?_
  · cases hx with
    | op name => exact hnext.union hafter
    | @call name args ty _ =>
      refine Bounds.union ?_ (hids v ▸ hafter.sdiff _)
      have hocc := Expr.occurrences_renumber hσ (.call (.op name) args ty)
      exact hocc ▸ hids.unionAll _
    | var u => exact (hids.within v).union hafter
    | const value => exact (hids.within v).union hafter
    | tuple hatoms => exact (hids.within v).union hafter
    | get u index => exact (hids.within v).union hafter
    | closure params body => exact (hids.within v).union hafter
  · have hx' : ∀ after, liveInside ids' (σ v) after (x.renumber σ) = [] := fun after => by
      cases hx <;> rfl
    rw [hx']
    exact .nil _

/-- A conditional between branches that correspond is bound. -/
theorem cond {t t' f f' c c' : Expr} (v : Handle) (ty : Ty)
    (hocc : (Expr.cond c' t' f' ty).occurrences = (Expr.cond c t f ty).occurrences.map σ)
    (ht : LivesWithin σ z ids ids' t t') (hf : LivesWithin σ z ids ids' f f')
    (h : LivesWithin σ z ids ids' b b') : LivesWithin σ z ids ids' (.letIn v (.cond c t f ty) b)
      (.letIn (σ v) (.cond c' t' f' ty) b') := by
  refine h.letIn hids (fun {next next' after after'} _ hafter => ?_) fun hafter => ?_
  · exact Bounds.union (hocc ▸ hids.unionAll _) (hids v ▸ hafter.sdiff _)
  · exact (ht.places _ _ (hids v ▸ hafter.sdiff _)).append
      (hf.places _ _ (hids v ▸ hafter.sdiff _))

/-- **The same sequence under other handles.** -/
theorem renumber (hσ : Function.Injective σ) (he : e.Flat) :
    LivesWithin σ z ids ids' e (e.renumber σ) := by
  induction he with
  | result r => exact result hids r
  | bind v hx _ ih => exact ih.bind hids hσ hx v
  | cond v c ty _ _ _ iht ihf ihb =>
    exact cond hids v ty (Expr.occurrences_renumber hσ (.cond (.var c) _ _ ty)) iht ihf ihb

omit hids

/-- The first place of a sequence has what is live there. -/
theorem exists_first_place (he : e.Flat) (scope : Scope) (incoming : HandleSet) :
    ∃ place, (place, liveFirst ids incoming e) ∈ liveEntries ids scope incoming e ∧
      ∀ v, place = .binding v → ∃ x b, e = .letIn v x b := by
  cases he with
  | result r => exact ⟨.exit scope, List.mem_cons_self, fun v h => nomatch h⟩
  | bind v _ _ | cond v c ty _ _ _ =>
    refine ⟨.binding v, List.mem_cons_self, fun w h => ?_⟩
    obtain rfl := Place.binding.inj h
    exact ⟨_, _, rfl⟩

/-- **A number or an operator is bound in front.** -/
theorem insert (h : LivesWithin σ z ids ids' rest b') (hrest : rest.Flat) (hk : ids' k = ∅)
    (hvalue : value.Bufferless) (hz : ∀ x b, rest ≠ .letIn z x b)
    (hop : value.isOp = true → ∀ incoming, ∀ u ∈ firstIds ids rest,
      u ∈ liveFirst ids incoming rest) :
    LivesWithin σ z ids ids' rest (.letIn k value b') := by
  have hlive : ∀ {incoming incoming' : HandleSet}, Bounds σ incoming incoming' →
      Bounds σ (liveFirst ids incoming rest) (liveFirst ids' incoming' (.letIn k value b')) := by
    intro incoming incoming' hin
    have hself : Bounds σ (liveFirst ids incoming rest) (ids' k) := hk ▸ .of_empty _
    have hunion : ∀ {a : HandleSet}, Bounds σ (liveFirst ids incoming rest) a →
        Bounds σ (liveFirst ids incoming rest) (a ∪ liveFirst ids' incoming' b') := fun ha =>
      (ha.union (h.live hin)).of_union_self
    cases hvalue with
    | const c => exact hunion hself
    | op name => exact hunion (h.first.mono (hop rfl incoming))
  refine ⟨?_, hlive, fun {incoming incoming'} scope scope' hin => ?_⟩
  · exact (hk ▸ .of_empty _ : Bounds σ (firstIds ids rest) (ids' k))
  · have hinside : liveInside ids' k (liveFirst ids' incoming' b') value = [] := by
      cases hvalue <;> rfl
    rw [liveEntries, hinside, List.nil_append]
    intro p' hp'
    rcases List.mem_cons.1 hp' with rfl | hp'
    · obtain ⟨place, hplace, hbinding⟩ := exists_first_place hrest scope incoming
      refine ⟨_, hplace, hlive hin, fun hpz => ?_⟩
      obtain ⟨x, b, hrest⟩ := hbinding z hpz
      exact absurd hrest (hz x b)
    · exact h.places scope scope' hin p' hp'

/-- **A number or an operator is bound somewhere in a sequence.** -/
theorem inserts {N : Nat} (hids : IdsFollow σ ids ids') (hσ : Function.Injective σ)
    (hN : ∀ v < N, σ v = skip k v) (hk : ids' k = ∅) (hvalue : value.Bufferless)
    (hz : ∀ x b, rest ≠ .letIn z x b)
    (hop : value.isOp = true → ∀ incoming, ∀ u ∈ firstIds ids rest,
      u ∈ liveFirst ids incoming rest) (h : Expr.Inserts k value rest e e') :
    e.Flat → e.Under N → LivesWithin σ z ids ids' e e' := by
  have hrenumber : ∀ {e : Expr}, e.Under N → e.renumber (skip k) = e.renumber σ := fun h =>
    (h.renumber_eq hN).symm
  have hocc : ∀ {v : Handle} {e b : Expr} {us : List Handle}, (Expr.letIn v e b).Under N →
      us = e.occurrences.map (skip k) → us = e.occurrences.map σ := fun hunder hus =>
    hus.trans (List.map_congr_left fun u hu =>
      (hN u (hunder.value u (List.mem_append_right _ hu))).symm)
  induction h with
  | here =>
    intro he hunder
    rw [hrenumber hunder]
    exact (renumber hids hσ he).insert he hk hvalue hz hop
  | later v x _ ih =>
    intro he hunder
    rw [← hN v hunder.binder, hrenumber hunder.value]
    cases he with
    | bind _ hx hb => exact (ih hb hunder.body).bind hids hσ hx v
    | cond _ c ty ht hf hb =>
      exact cond hids v ty (Expr.occurrences_renumber hσ (.cond (.var c) _ _ ty))
        (renumber hids hσ ht) (renumber hids hσ hf) (ih hb hunder.body)
  | @thenBranch v test taken taken' other ty b h ih =>
    intro he hunder
    have hcond : (Expr.cond (test.renumber (skip k)) taken' (other.renumber (skip k))
        ty).occurrences = (Expr.cond test taken other ty).occurrences.map σ := hocc hunder (by
      simp only [Expr.occurrences, h.occurrences_eq hvalue, List.map_append,
        Expr.occurrences_renumber (strictMono_skip k).injective])
    rw [← hN v hunder.binder, hrenumber hunder.body]
    rw [hrenumber hunder.value.elseBranch] at hcond ⊢
    obtain ⟨ht, hf, hb⟩ := he.branches
    exact cond hids v ty hcond (ih ht hunder.value.thenBranch) (renumber hids hσ hf)
      (renumber hids hσ hb)
  | @elseBranch v test other taken taken' ty b h ih =>
    intro he hunder
    have hcond : (Expr.cond (test.renumber (skip k)) (other.renumber (skip k)) taken'
        ty).occurrences = (Expr.cond test other taken ty).occurrences.map σ := hocc hunder (by
      simp only [Expr.occurrences, h.occurrences_eq hvalue, List.map_append,
        Expr.occurrences_renumber (strictMono_skip k).injective])
    rw [← hN v hunder.binder, hrenumber hunder.body]
    rw [hrenumber hunder.value.thenBranch] at hcond ⊢
    obtain ⟨hf, ht, hb⟩ := he.branches
    exact cond hids v ty hcond (renumber hids hσ hf) (ih ht hunder.value.elseBranch)
      (renumber hids hσ hb)

end LivesWithin

end Analysis
end TensorLiveness
