/-
# The passes over a sequence with one binding more

The second sequence is the first with a binding of a number or of an operator inserted
(`Expr.Inserts`).  The binding stands for nothing, but it mints a handle, and so all handles that
are minted later move up by one more:

| handles | move by |
| --- | --- |
| of the program | `skip k`, where `k` is the new binder |
| minted before the binding | `skip k` |
| minted behind it | `skip k`, and one more |

`propagate_inserts` carries the correspondence through propagation: up to the binding it is that of
`skip k`, there it changes (`Store.Renumbers.bindsEmpty`), and behind it propagation goes in step
with itself again (`propagate_renumber`).  `identities_inserts` says so of a function.
-/

import TensorLiveness.Proofs.Analysis.Faults.Propagation
import TensorLiveness.Proofs.Analysis.Renumbering
import TensorLiveness.Proofs.Analysis.Run
import TensorLiveness.Proofs.Program.Insertion

namespace TensorLiveness
namespace Program

/-! ### Handles of an expression -/

namespace Expr

variable {N : Nat} {v : Handle} {e x b c t f : Expr} {ty : Ty}

/-- All handles of an expression are below `N`. -/
def Under (N : Nat) (e : Expr) : Prop := ∀ v ∈ e.binders ++ e.occurrences, v < N

namespace Under

theorem renumber_eq (h : e.Under N) {ρ σ : Handle → Handle} (heq : ∀ v < N, ρ v = σ v) :
    e.renumber ρ = e.renumber σ :=
  e.renumber_congr fun v hv => heq v (h v hv)

theorem binder (h : (letIn v x b).Under N) : v < N :=
  h v (List.mem_append_left _ (List.mem_append_right _ List.mem_cons_self))

theorem value (h : (letIn v x b).Under N) : x.Under N := fun u hu => by
  refine h u (List.mem_append.2 ((List.mem_append.1 hu).imp (fun hu => ?_) fun hu => ?_)) <;>
    exact List.mem_append_left _ hu

theorem body (h : (letIn v x b).Under N) : b.Under N := fun u hu => by
  rcases List.mem_append.1 hu with hu | hu
  · exact h u (List.mem_append_left _ (List.mem_append_right _ (List.mem_cons_of_mem _ hu)))
  · by_cases hne : u = v
    · exact hne ▸ h.binder
    · exact h u (List.mem_append_right _ (List.mem_append_right _
        (List.mem_filter.2 ⟨hu, decide_eq_true hne⟩)))

theorem thenBranch (h : (cond c t f ty).Under N) : t.Under N := fun u hu => by
  refine h u (List.mem_append.2 ((List.mem_append.1 hu).imp (fun hu => ?_) fun hu => ?_)) <;>
    exact List.mem_append_left _ (List.mem_append_right _ hu)

theorem elseBranch (h : (cond c t f ty).Under N) : f.Under N := fun u hu => by
  refine h u (List.mem_append.2 ((List.mem_append.1 hu).imp (fun hu => ?_) fun hu => ?_)) <;>
    exact List.mem_append_right _ hu

/-- The result of a flat sequence is one of its handles. -/
theorem result (h : e.Under N) (he : e.Flat) (hv : e.result = .var v) : v < N := by
  obtain ⟨r, hr, hmem⟩ := he.exists_result
  obtain rfl := Expr.var.inj (hv.symm.trans hr)
  refine h _ (List.mem_append.2 (hmem.symm.imp_left fun hmem => ?_))
  exact he.map_fst_allBindings_sublist.subset hmem

end Under

end Expr

/-- Handles of a resolved function are in its table. -/
theorem Function.Scoped.under {f : Function} (h : f.Scoped N) : f.body.Under N := fun _ hv =>
  h.lt_size ((List.mem_append.1 hv).elim (List.mem_append_right _)
    fun hv => List.mem_append_left _ (h.closed hv))

end Program

namespace Identity

open Program

theorem renumberSet_congr {ρ σ : Handle → Handle} {a : HandleSet} (h : ∀ v ∈ a, ρ v = σ v) :
    renumberSet ρ a = renumberSet σ a := by
  refine Std.ExtTreeSet.ext_mem fun v => ?_
  simp only [mem_renumberSet]
  exact exists_congr fun u => and_congr_right fun hu => by rw [h u hu]

namespace Store

variable {ρ : Handle → Handle} {s t t' : Store} {k : Handle}

/-- The store `t'` comes out of `t` by binding `k` to the next handle, which stands for nothing. -/
structure BindsEmpty (k : Handle) (t t' : Store) : Prop where
  firstMinted_eq : t'.firstMinted = t.firstMinted
  next_eq : t'.supply.next = t.supply.next + 1
  records_eq : t'.records = t.records
  sets {v : Handle} : v ≠ k → v ≠ t.supply.next → t'.sets[v]? = t.sets[v]?
  setOf_eq {v : Handle} : v = k ∨ v = t.supply.next → t'.setOf v = ∅

/-- A handle that stands for nothing may be bound, again if need be, to the next handle. -/
theorem exists_bindsEmpty (hint : String) (hk : t.setOf k = ∅)
    (hrecord : t.records[t.supply.next]? = none) : ∃ t',
      (t.freshEmpty hint).2.bindLike k (t.freshEmpty hint).1 = .ok t' ∧ BindsEmpty k t t' := by
  have hget : ∀ v, (t.freshEmpty hint).2.sets[v]? =
      if t.supply.next = v then some ∅ else t.sets[v]? := fun v => by
    rw [show (t.freshEmpty hint).2.sets = t.sets.insert t.supply.next ∅ from rfl,
      Std.ExtTreeMap.getElem?_insert]
    simp only [Std.LawfulEqOrd.compare_eq_iff_eq]
  have hid : (t.freshEmpty hint).2.identities (t.freshEmpty hint).1 = .ok ∅ := by
    rw [Store.identities, show (t.freshEmpty hint).1 = t.supply.next from rfl, hget, if_pos rfl]
  have hnone : (t.freshEmpty hint).2.records[(t.freshEmpty hint).1]? = none := hrecord
  rw [Store.bindLike, hnone]
  split
  · refine ⟨_, rfl, rfl, rfl, rfl, fun {v} _ hv => ?_, fun {v} hv => ?_⟩
    · rw [hget, if_neg (Ne.symm hv)]
    · rw [setOf, hget]
      split
      · rfl
      · rename_i hne
        obtain rfl := hv.resolve_right (Ne.symm hne)
        exact hk
  · rw [hid]
    refine ⟨_, rfl, rfl, rfl, rfl, fun {v} hvk hv => ?_, fun {v} hv => ?_⟩
    · change ((t.freshEmpty hint).2.sets.insert k ∅)[v]? = _
      rw [Std.ExtTreeMap.getElem?_insert]
      simp only [Std.LawfulEqOrd.compare_eq_iff_eq, if_neg (Ne.symm hvk)]
      rw [hget, if_neg (Ne.symm hv)]
    · change (((t.freshEmpty hint).2.sets.insert k ∅)[v]?).getD ∅ = ∅
      rw [Std.ExtTreeMap.getElem?_insert]
      simp only [Std.LawfulEqOrd.compare_eq_iff_eq]
      split
      · rfl
      · rename_i hne
        rw [hget, if_pos (hv.resolve_left (Ne.symm hne)).symm]
        rfl

namespace Renumbers

/-- Handles that have been minted stay where they are. -/
theorem skip_lt (h : Renumbers ρ s t) (hρ : StrictMono ρ) {v : Handle}
    (hv : v < s.supply.next) : skip t.supply.next (ρ v) = ρ v := by
  have hnext : ρ s.supply.next = t.supply.next := h.next 0
  exact skip_of_lt (hnext ▸ hρ hv)

/-- Those that have not move up. -/
theorem skip_next (h : Renumbers ρ s t) (i : Nat) :
    skip t.supply.next (ρ (s.supply.next + i)) = ρ (s.supply.next + (i + 1)) := by
  rw [h.next, h.next, skip_of_le (Nat.le_add_right _ _), Nat.add_assoc]

/-- Entries that correspond still do when those that are not there yet move up. -/
theorem skip_entry (h : Renumbers ρ s t) (hρ : StrictMono ρ) {β : Type} {g g' : β → β}
    {m m' : Std.ExtTreeMap Handle β} (hm : ∀ v : Handle, m'[ρ v]? = m[v]?.map g)
    (hnone : ∀ v : Handle, s.supply.next ≤ v → m[v]? = none)
    (hg : ∀ (v : Handle) (b : β), m[v]? = some b → g b = g' b) (v : Handle) :
    m'[skip t.supply.next (ρ v)]? = m[v]?.map g' := by
  rcases Nat.lt_or_ge v s.supply.next with hv | hv
  · rw [h.skip_lt hρ hv, hm]
    cases hb : m[v]? with
    | none => rfl
    | some b => exact congrArg some (hg v b hb)
  · obtain ⟨i, rfl⟩ := Nat.exists_eq_add_of_le hv
    rw [h.skip_next, hm, hnone _ (Nat.le_add_right _ _), hnone _ hv]
    rfl

/-- **A handle that stands for nothing is bound** in the second store only.  The handle that is
minted for it shifts all that follow. -/
theorem bindsEmpty (h : Renumbers ρ s t) (hρ : StrictMono ρ) (hs : s.Sound)
    (hk : ∀ v, ρ v ≠ k) (ht : BindsEmpty k t t') :
    Renumbers (fun v => skip t.supply.next (ρ v)) s t' := by
  have hnext : ρ s.supply.next = t.supply.next := h.next 0
  have hunbound : ∀ v, s.supply.next ≤ v → v ∉ s.sets := fun v hv hmem =>
    Nat.not_lt.2 hv (hs.lt_next hmem)
  -- the new handles are among those that nothing in the first store moves to
  have hsets : ∀ v, t'.sets[skip t.supply.next (ρ v)]? =
      t.sets[skip t.supply.next (ρ v)]? := fun v => by
    rcases Nat.lt_or_ge v s.supply.next with hv | hv
    · rw [h.skip_lt hρ hv]
      exact ht.sets (hk v) (Nat.ne_of_lt (hnext ▸ hρ hv))
    · obtain ⟨i, rfl⟩ := Nat.exists_eq_add_of_le hv
      rw [h.skip_next]
      refine ht.sets (hk _) (Nat.ne_of_gt (hnext ▸ hρ ?_))
      exact Nat.lt_add_of_pos_right (Nat.succ_pos i)
  refine ⟨fun i => ?_, fun v => ?_, fun v => ?_, fun v => ?_, by rw [ht.records_eq, h.size],
    fun {v} hv => ?_⟩
  · rw [ht.next_eq, h.skip_next, h.next, Nat.add_comm i 1, Nat.add_assoc]
  · rw [ht.firstMinted_eq, ← h.minted]
    rcases Nat.lt_or_ge v s.supply.next with hlt | hge
    · rw [h.skip_lt hρ hlt]
    · have hminted := (h.minted v).2 (Nat.le_trans hs.firstMinted_le hge)
      refine iff_of_true ?_ hminted
      rw [skip_of_le (hnext ▸ hρ.monotone hge)]
      exact Nat.le_succ_of_le hminted
  · rw [hsets]
    refine h.skip_entry hρ h.sets (fun v hv => Std.ExtTreeMap.getElem?_eq_none (hunbound v hv))
      (fun v set hset => renumberSet_congr fun e he => (h.skip_lt hρ ?_).symm) v
    exact hs.lt_of_mem_setOf (setOf_of_getElem? hset ▸ he)
  · rw [ht.records_eq]
    refine h.skip_entry hρ h.records (fun v hv => hs.record_eq_none (hunbound v hv))
      (fun v fields hfields => List.map_congr_left fun field hfield => ?_) v
    cases field with
    | none => rfl
    | some u => exact congrArg some (h.skip_lt hρ (hs.lt_next (hs.field_bound hfields hfield))).symm
  · by_cases hnew : v = k ∨ v = t.supply.next
    · exact ht.setOf_eq hnew
    · rw [not_or] at hnew
      rw [setOf, ht.sets hnew.1 hnew.2]
      refine h.silent fun u hu => ?_
      rcases Nat.lt_or_ge u s.supply.next with hlt | hge
      · exact hv u ((h.skip_lt hρ hlt).trans hu)
      · obtain ⟨i, rfl⟩ := Nat.exists_eq_add_of_le hge
        cases i with
        | zero => exact hnew.2 (hu.symm.trans hnext)
        | succ i => exact hv (s.supply.next + i) ((h.skip_next i).trans hu)

end Renumbers

end Store

end Identity

namespace Analysis

open Identity Program

variable {vars vars' : BinderTable} {p q p₁ : Propagation} {k : Handle}
  {value rest e e' : Expr}

/-! ### Propagation -/

namespace Propagation

/-- The store is sound, and demands are about handles of the program and about bound handles. -/
structure Steady (p : Propagation) : Prop where
  sound : p.store.Sound
  known {d : Demand} : d ∈ p.pending → ∀ v ∈ [d.out, d.input, d.site],
    v ∈ p.store.sets ∨ v < p.store.firstMinted

theorem Steady.lt_next (h : p.Steady) {d : Demand} (hd : d ∈ p.pending) {v : Handle}
    (hv : v ∈ [d.out, d.input, d.site]) : v < p.store.supply.next :=
  (h.known hd v hv).elim h.sound.lt_next fun hlt => Nat.lt_of_lt_of_le hlt h.sound.firstMinted_le

/-- Propagation keeps this up. -/
theorem Steady.propagate (h : p.Steady) (he : e.Flat) (hlt : e.Under p.store.firstMinted)
    {r : Handle} (hq : Analysis.propagate vars p e = .ok (r, q)) :
    q.Steady ∧ q.store.firstMinted = p.store.firstMinted ∧ e.result = .var r := by
  have hbound : ∀ u ∈ e.allBindings.map (·.1), u < p.store.firstMinted := fun u hu =>
    hlt u (List.mem_append_left _ (he.map_fst_allBindings_sublist.subset hu))
  have hends := (propagate_ends he h.sound hbound).of_ok hq
  refine ⟨⟨hends.keeps.sound, fun {d} hd => ?_⟩, hends.keeps.firstMinted_eq, hends.result_eq⟩
  rw [hends.keeps.firstMinted_eq]
  by_cases hold : d ∈ p.pending
  · exact fun v hv => (h.known hold v hv).imp_left hends.keeps.mem
  · obtain ⟨hout, hinput⟩ := (hends.demands hd).resolve_left hold
    obtain ⟨value, hsite, -⟩ := (pending_of_propagate he hq d hd).resolve_left hold
    simp only [List.mem_cons, List.not_mem_nil, or_false]
    rintro v (rfl | rfl | rfl)
    · exact Or.inl hout
    · exact hinput.imp_right fun hu => hlt _ (List.mem_append_right _ hu.1)
    · exact Or.inr (hbound _ (List.mem_map_of_mem hsite))

theorem Steady.propagateBinding (h : p.Steady) {v : Handle} (he : (Expr.letIn v value rest).Flat)
    (hlt : (Expr.letIn v value rest).Under p.store.firstMinted)
    (hq : Analysis.propagateBinding vars p v value = .ok q) :
    q.Steady ∧ q.store.firstMinted = p.store.firstMinted := by
  -- the binding alone is a sequence, too
  have halone : (Expr.letIn v value (.var v)).Flat := by
    cases he with
    | bind _ hsimple _ => exact .bind v hsimple (.result v)
    | cond _ c ty hthen helse _ => exact .cond v c ty hthen helse (.result v)
  have hunder : (Expr.letIn v value (.var v)).Under p.store.firstMinted := fun u hu => by
    simp only [Expr.binders, Expr.occurrences, List.mem_append, List.mem_cons, List.mem_filter,
      List.not_mem_nil, or_false] at hu
    rcases hu with (hu | rfl) | hu | ⟨rfl, _⟩
    · exact hlt.value u (List.mem_append_left _ hu)
    · exact hlt.binder
    · exact hlt.value u (List.mem_append_right _ hu)
    · exact hlt.binder
  have hrun : Analysis.propagate vars p (.letIn v value (.var v)) = .ok (v, q) :=
    bind_eq_ok.2 ⟨q, hq, rfl⟩
  obtain ⟨hsteady, hfirst, -⟩ := h.propagate halone hunder hrun
  exact ⟨hsteady, hfirst⟩

end Propagation

/-- **At the inserted binding** the correspondence changes. -/
theorem propagateBinding_inserted {ρ : Handle → Handle} (hvalue : value.Bufferless)
    (h : Propagation.Renumbers ρ p q) (hρ : StrictMono ρ) (hp : p.Steady)
    (hk : ∀ v, ρ v ≠ k) : ∃ q₁, propagateBinding vars' q k value = .ok q₁ ∧
      Propagation.Renumbers (fun v => skip q.store.supply.next (ρ v)) p q₁ := by
  have hs := hp.sound
  have hunbound : q.store.records[q.store.supply.next]? = none := by
    have hnext : ρ p.store.supply.next = q.store.supply.next := h.store.next 0
    rw [← hnext, h.store.records, hs.record_eq_none fun hmem => Nat.lt_irrefl _ (hs.lt_next hmem)]
    rfl
  obtain ⟨t, ht, hempty⟩ :=
    Store.exists_bindsEmpty (hintOf vars' k) (h.store.silent hk) hunbound
  refine ⟨q.withStore t, ?_, h.store.bindsEmpty hρ hs hk hempty, ?_⟩
  · have hbind : q.bindEmpty vars' k = .ok (q.withStore t) := bind_eq_ok.2 ⟨t, ht, rfl⟩
    cases hvalue <;> exact hbind
  · refine h.pending.trans (List.map_congr_left fun d hd => ?_)
    have hkept : ∀ v ∈ [d.out, d.input, d.site], skip q.store.supply.next (ρ v) = ρ v :=
      fun v hv => h.store.skip_lt hρ (hp.lt_next hd hv)
    rw [Demand.renumber, Demand.renumber, hkept _ (by simp), hkept _ (by simp),
      hkept _ (by simp)]

/-- Two propagations of a sequence, one with a binding more: handles of the program correspond by
`skip k`, and minted ones as `σ` says. -/
structure InStep (k : Handle) (σ : Handle → Handle) (p q : Propagation) : Prop where
  mono : StrictMono σ
  eq_skip {v : Handle} : v < p.store.firstMinted → σ v = skip k v
  renumbers : Propagation.Renumbers σ p q

namespace InStep

variable {σ : Handle → Handle} {v : Handle}

theorem next (h : InStep k σ p q) (hfirst : p₁.store.firstMinted = p.store.firstMinted)
    {q₁ : Propagation} (hrenumbers : Propagation.Renumbers σ p₁ q₁) : InStep k σ p₁ q₁ :=
  ⟨h.mono, fun hv => h.eq_skip (hfirst ▸ hv), hrenumbers⟩

/-- Two propagations that are in step stay so. -/
theorem propagate (h : InStep k σ p q) (hp : p.Steady) (he : e.Flat)
    (hunder : e.Under p.store.firstMinted) {r : Handle}
    (hp₁ : Analysis.propagate vars p e = .ok (r, p₁)) :
    ∃ q₁, Analysis.propagate vars' q (e.renumber (skip k)) = .ok (skip k r, q₁) ∧
      InStep k σ p₁ q₁ := by
  obtain ⟨-, hfirst, hresult⟩ := hp.propagate he hunder hp₁
  obtain ⟨⟨r', q₁⟩, hq₁, hr', hrenumbers⟩ :=
    (propagate_renumber (R := fun _ _ => True) h.mono.injective e h.renumbers).exists_ok hp₁
  obtain rfl : r' = skip k r := hr'.trans (h.eq_skip (hunder.result he hresult))
  rw [hunder.renumber_eq fun v hv => h.eq_skip hv] at hq₁
  exact ⟨q₁, hq₁, h.next hfirst hrenumbers⟩

theorem propagateBinding (h : InStep k σ p q) (hp : p.Steady) (he : (Expr.letIn v value rest).Flat)
    (hunder : (Expr.letIn v value rest).Under p.store.firstMinted)
    (hp₁ : Analysis.propagateBinding vars p v value = .ok p₁) :
    ∃ q₁, Analysis.propagateBinding vars' q (skip k v) (value.renumber (skip k)) = .ok q₁ ∧
      InStep k σ p₁ q₁ := by
  obtain ⟨-, hfirst⟩ := hp.propagateBinding he hunder hp₁
  obtain ⟨q₁, hq₁, hrenumbers⟩ := (propagateBinding_renumber (R := fun _ _ => True)
    h.mono.injective v value h.renumbers).exists_ok hp₁
  rw [h.eq_skip hunder.binder, hunder.value.renumber_eq fun v hv => h.eq_skip hv] at hq₁
  exact ⟨q₁, hq₁, h.next hfirst hrenumbers⟩

/-- The same for the result of a conditional. -/
theorem bindCond (h : InStep k σ p q) {t f : Handle} {ty : Ty} (hv : v < p.store.firstMinted)
    (ht : t < p.store.firstMinted) (hf : f < p.store.firstMinted)
    (hp₁ : p.bindCond vars v t f ty = .ok p₁)
    (hfirst : p₁.store.firstMinted = p.store.firstMinted) :
    ∃ q₁, q.bindCond vars' (skip k v) (skip k t) (skip k f) ty = .ok q₁ ∧ InStep k σ p₁ q₁ := by
  obtain ⟨q₁, hq₁, hrenumbers⟩ :=
    (bindCond_renumber (R := fun _ _ => True) h.mono.injective h.renumbers v t f ty).exists_ok hp₁
  rw [h.eq_skip hv, h.eq_skip ht, h.eq_skip hf] at hq₁
  exact ⟨q₁, hq₁, h.next hfirst hrenumbers⟩

/-- Two propagations that are in step behind the branches of a conditional are so behind the whole
sequence. -/
theorem behindBranches {p₀ p₂ p₃ q₃ : Propagation} (h : InStep k σ p₃ q₃) (hp : p.Steady)
    {test thenBranch elseBranch body : Expr} {ty : Ty}
    (he : (Expr.letIn v (.cond test thenBranch elseBranch ty) body).Flat)
    (hunder : (Expr.letIn v (.cond test thenBranch elseBranch ty) body).Under p.store.firstMinted)
    {t u r : Handle} (hp₂ : Analysis.propagate vars p thenBranch = .ok (t, p₂))
    (hp₃ : Analysis.propagate vars p₂ elseBranch = .ok (u, p₃))
    (hp₀ : p₃.bindCond vars v t u ty = .ok p₀)
    (hp₁ : Analysis.propagate vars p₀ body = .ok (r, p₁)) :
    ∃ q₀ q₁, q₃.bindCond vars' (skip k v) (skip k t) (skip k u) ty = .ok q₀ ∧
      Analysis.propagate vars' q₀ (body.renumber (skip k)) = .ok (skip k r, q₁) ∧
      InStep k σ p₁ q₁ := by
  obtain ⟨hthen, helse, hbody⟩ := he.branches
  obtain ⟨hsteady₂, hfirst₂, ht⟩ := hp.propagate hthen hunder.value.thenBranch hp₂
  obtain ⟨-, hfirst₃, hu⟩ :=
    hsteady₂.propagate helse (hfirst₂.symm ▸ hunder.value.elseBranch) hp₃
  have hfirst₃ := hfirst₃.trans hfirst₂
  obtain ⟨hsteady₀, hfirst₀⟩ := hp.propagateBinding he hunder
    (bind_eq_ok.2 ⟨_, hp₂, bind_eq_ok.2 ⟨_, hp₃, hp₀⟩⟩)
  obtain ⟨q₀, hq₀, hstep₀⟩ := h.bindCond (hfirst₃.symm ▸ hunder.binder)
    (hfirst₃.symm ▸ hunder.value.thenBranch.result hthen ht)
    (hfirst₃.symm ▸ hunder.value.elseBranch.result helse hu) hp₀ (hfirst₀.trans hfirst₃.symm)
  obtain ⟨q₁, hq₁, hstep₁⟩ := hstep₀.propagate hsteady₀ hbody (hfirst₀.symm ▸ hunder.body) hp₁
  exact ⟨q₀, q₁, hq₀, hq₁, hstep₁⟩

/-- At the inserted binding minted handles move up. -/
theorem insert (h : InStep k (skip k) p q) (hp : p.Steady) (hvalue : value.Bufferless) :
    ∃ q₁, Analysis.propagateBinding vars' q k value = .ok q₁ ∧
      InStep k (fun v => skip q.store.supply.next (skip k v)) p q₁ := by
  obtain ⟨q₁, hq₁, hrenumbers⟩ := propagateBinding_inserted hvalue h.renumbers (strictMono_skip k)
    hp (skip_ne k)
  refine ⟨q₁, hq₁, (strictMono_skip _).comp (strictMono_skip k), fun {v} hv => ?_, hrenumbers⟩
  exact h.renumbers.store.skip_lt (strictMono_skip k)
    (Nat.lt_of_lt_of_le hv hp.sound.firstMinted_le)

end InStep

/-- **A sequence with a binding inserted is propagated in step with the sequence.** -/
theorem propagate_inserts (hvalue : value.Bufferless) (h : Expr.Inserts k value rest e e') :
    ∀ {p q p₁ : Propagation} {r : Handle}, e.Flat → e.Under p.store.firstMinted → p.Steady →
      InStep k (skip k) p q → propagate vars p e = .ok (r, p₁) →
      ∃ σ q₁, propagate vars' q e' = .ok (skip k r, q₁) ∧ InStep k σ p₁ q₁ := by
  induction h with
  | here =>
    intro p q p₁ r he hunder hp hstep hp₁
    obtain ⟨q₀, hq₀, hstep₀⟩ := hstep.insert hp hvalue
    obtain ⟨q₁, hq₁, hstep₁⟩ := hstep₀.propagate hp he hunder hp₁
    exact ⟨_, q₁, bind_eq_ok.2 ⟨q₀, hq₀, hq₁⟩, hstep₁⟩
  | @later v x b b' _ ih =>
    intro p q p₁ r he hunder hp hstep hp₁
    obtain ⟨p₀, hp₀, hrest⟩ := bind_eq_ok.1 hp₁
    obtain ⟨hsteady, hfirst⟩ := hp.propagateBinding he hunder hp₀
    obtain ⟨q₀, hq₀, hstep₀⟩ := hstep.propagateBinding hp he hunder hp₀
    have hbody : b.Flat := by cases he <;> assumption
    obtain ⟨σ, q₁, hq₁, hstep₁⟩ := ih hbody (hfirst.symm ▸ hunder.body) hsteady hstep₀ hrest
    exact ⟨σ, q₁, bind_eq_ok.2 ⟨q₀, hq₀, hq₁⟩, hstep₁⟩
  | thenBranch v test other ty b _ ih =>
    intro p q p₁ r he hunder hp hstep hp₁
    obtain ⟨p₀, hp₀, hrest⟩ := bind_eq_ok.1 hp₁
    obtain ⟨⟨t, p₂⟩, hp₂, hp₀⟩ := bind_eq_ok.1 hp₀
    obtain ⟨⟨u, p₃⟩, hp₃, hp₀⟩ := bind_eq_ok.1 hp₀
    obtain ⟨htaken, hother, -⟩ := he.branches
    obtain ⟨hsteady₂, hfirst₂, -⟩ := hp.propagate htaken hunder.value.thenBranch hp₂
    obtain ⟨σ, q₂, hq₂, hstep₂⟩ := ih htaken hunder.value.thenBranch hp hstep hp₂
    obtain ⟨q₃, hq₃, hstep₃⟩ :=
      hstep₂.propagate hsteady₂ hother (hfirst₂.symm ▸ hunder.value.elseBranch) hp₃
    obtain ⟨q₀, q₁, hq₀, hq₁, hstep₁⟩ := hstep₃.behindBranches hp he hunder hp₂ hp₃ hp₀ hrest
    refine ⟨σ, q₁, bind_eq_ok.2 ⟨q₀, ?_, hq₁⟩, hstep₁⟩
    exact bind_eq_ok.2 ⟨_, hq₂, bind_eq_ok.2 ⟨_, hq₃, hq₀⟩⟩
  | elseBranch v test other ty b _ ih =>
    intro p q p₁ r he hunder hp hstep hp₁
    obtain ⟨p₀, hp₀, hrest⟩ := bind_eq_ok.1 hp₁
    obtain ⟨⟨t, p₂⟩, hp₂, hp₀⟩ := bind_eq_ok.1 hp₀
    obtain ⟨⟨u, p₃⟩, hp₃, hp₀⟩ := bind_eq_ok.1 hp₀
    obtain ⟨hother, htaken, -⟩ := he.branches
    obtain ⟨hsteady₂, hfirst₂, -⟩ := hp.propagate hother hunder.value.thenBranch hp₂
    obtain ⟨q₂, hq₂, hstep₂⟩ := hstep.propagate hp hother hunder.value.thenBranch hp₂
    obtain ⟨σ, q₃, hq₃, hstep₃⟩ :=
      ih htaken (hfirst₂.symm ▸ hunder.value.elseBranch) hsteady₂ hstep₂ hp₃
    obtain ⟨q₀, q₁, hq₀, hq₁, hstep₁⟩ := hstep₃.behindBranches hp he hunder hp₂ hp₃ hp₀ hrest
    refine ⟨σ, q₁, bind_eq_ok.2 ⟨q₀, ?_, hq₁⟩, hstep₁⟩
    exact bind_eq_ok.2 ⟨_, hq₂, bind_eq_ok.2 ⟨_, hq₃, hq₀⟩⟩

/-! ### Form -/

/-- **The inserted binding has no findings.** -/
theorem kinds_exprErrors_inserts (hvalue : value.Bufferless)
    (h : Expr.Inserts k value rest e e') : ∀ site site',
      (exprErrors vars' .sequence site' e').map Diagnostic.kind =
        (exprErrors vars .sequence site e).map Diagnostic.kind := by
  induction h with
  | here =>
    intro site site'
    have hnone : bindingErrors vars' k value = [] ∧
        exprErrors vars' .operand (some k) value = [] := by
      cases hvalue <;> exact ⟨rfl, rfl⟩
    rw [exprErrors, hnone.1, hnone.2]
    exact kinds_exprErrors rest .sequence site site'
  | later v x _ ih =>
    intro site site'
    rw [exprErrors, exprErrors]
    simp only [List.map_append]
    rw [kinds_bindingErrors x v (skip k v), kinds_exprErrors x .operand (some v) (some (skip k v)),
      ih site site']
  | thenBranch v test other ty b _ ih | elseBranch v test other ty b _ ih =>
    intro site site'
    simp only [exprErrors, bindingErrors, resultErrors, Expr.isLet, List.map_append]
    rw [kinds_testErrors (some v) (some (skip k v)) test,
      kinds_exprErrors test .operand (some v) (some (skip k v)), ih (some v) (some (skip k v)),
      kinds_exprErrors other .sequence (some v) (some (skip k v)),
      kinds_exprErrors b .sequence site site']
    rfl

/-! ### Functions -/

section Function

variable {f f' : Function}

/-- Where the parameters end, demands are still to come. -/
theorem steady_of_bindParameters {s : Store} (h : f.Scoped vars.size)
    (hs : bindParameters vars (.empty vars.size) f.params = .ok s) :
    (⟨s, []⟩ : Propagation).Steady ∧ s.firstMinted = vars.size := by
  obtain ⟨hgrows, _⟩ := ready_of_bindParameters h hs
  exact ⟨⟨hgrows.sound, fun hd => absurd hd List.not_mem_nil⟩, hgrows.firstMinted_eq⟩

/-- **The identities of a function with a binding inserted** are found, and they are those of the
function. -/
theorem identities_inserts (hvalue : value.Bufferless) (hf : f.Inserts k value rest f')
    {R : String → String → Prop} (hvars : BinderTable.Alike R (skip k) vars vars')
    (hsize : vars'.size = vars.size + 1) (hk : k ≤ vars.size) (hscoped : f.Scoped vars.size)
    (hform : formErrors vars f = []) {s : Store} {r : Handle}
    (hs : bindParameters vars (.empty vars.size) f.params = .ok s)
    (hp : propagate vars ⟨s, []⟩ f.body = .ok (r, p)) :
    formErrors vars' f' = [] ∧ ∃ s' r' σ q,
      bindParameters vars' (.empty vars'.size) f'.params = .ok s' ∧
      propagate vars' ⟨s', []⟩ f'.body = .ok (r', q) ∧ InStep k σ p q := by
  obtain ⟨hsteady, hfirst⟩ := steady_of_bindParameters hscoped hs
  have hstart : Store.Renumbers (skip k) (.empty vars.size) (.empty vars'.size) := by
    refine Store.renumbers_empty (fun i => ?_) fun v => ?_
    · rw [skip_of_le (Nat.le_add_right_of_le hk), hsize, Nat.add_right_comm]
    · rw [hsize, add_one_le_skip_iff hk]
  obtain ⟨s', hs', hrenumbers⟩ :=
    (bindParameters_renumber (strictMono_skip k).injective hvars f.params hstart).exists_ok hs
  have hstep : InStep k (skip k) ⟨s, []⟩ ⟨s', []⟩ :=
    ⟨strictMono_skip k, fun _ => rfl, hrenumbers, rfl⟩
  obtain ⟨σ, q, hq, hstep'⟩ := propagate_inserts hvalue hf.body (flat_of_formErrors_eq_nil hform)
    (hfirst.symm ▸ hscoped.under) hsteady hstep hp
  refine ⟨?_, s', _, σ, q, hf.params ▸ hs', hq, hstep'⟩
  have hkinds : (formErrors vars' f').map Diagnostic.kind =
      (formErrors vars f).map Diagnostic.kind :=
    kinds_exprErrors_inserts hvalue hf.body none none
  rw [hform] at hkinds
  exact List.map_eq_nil_iff.1 hkinds

end Function

end Analysis

end TensorLiveness
