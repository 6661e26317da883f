/-
# What propagation finds

`Denotes p v value` says what a variable stands for once its binding was taken: an alias what
the other variable stands for, a tuple its fields and a record of them, a call only buffers
that are newer than those of every earlier variable.  It stays true as the store grows
(`Denotes.extends`), so `propagate_spec` can collect it for all bindings of a flat sequence:

| lemma | about |
| --- | --- |
| `propagateSimple_spec` | the binding of a simple value |
| `bindCond_spec` | the binding of a conditional, behind its branches |
| `propagate_spec` | a sequence, by induction on its form |
| `bindParameters_spec` | the parameters |

`Ready s e` is what the induction carries along: the sequence `e` is closed in the store `s`
and its binders are still unbound.
-/

import TensorLiveness.Analysis.Propagation
import TensorLiveness.Proofs.Identity.Store
import TensorLiveness.Proofs.Program.Flat

namespace TensorLiveness
namespace Analysis

open Identity Program Store

variable {vars : BinderTable}

/-! ### Demands -/

theorem fieldDemands_congr {f g : Handle → Handle → Except Fault (List Demand)} :
    ∀ {outs inputs : Fields}, (∀ o i, some o ∈ outs → some i ∈ inputs → f o i = g o i) →
      fieldDemands f outs inputs = fieldDemands g outs inputs
  | [], inputs, _ => by cases inputs <;> rfl
  | out :: outs, [], _ => by cases out <;> rfl
  | out :: outs, input :: inputs, h => by
    have hrest : fieldDemands f outs inputs = fieldDemands g outs inputs :=
      fieldDemands_congr fun o i ho hi =>
        h o i (List.mem_cons_of_mem _ ho) (List.mem_cons_of_mem _ hi)
    cases out with
    | none => exact hrest
    | some out =>
      cases input with
      | none => exact hrest
      | some input =>
        rw [fieldDemands, fieldDemands, hrest, h out input List.mem_cons_self List.mem_cons_self]

/-- The demands between bound handles do not depend on what is bound later. -/
theorem demandsWithin_extends {vs : List Handle} {s t : Store} (hs : s.Sound)
    (h : Extends vs s t) (site : Handle) : ∀ (depth : Nat) {out input : Handle}, out ∈ s.sets →
      input ∈ s.sets → demandsWithin t site depth out input = demandsWithin s site depth out input
  | 0, out, input, hout, hinput => by
    rw [demandsWithin, demandsWithin, fields?, fields?, fields?, fields?, h.records hout,
      h.records hinput]
  | depth + 1, out, input, hout, hinput => by
    rw [demandsWithin, demandsWithin, fields?, fields?, fields?, fields?, h.records hout,
      h.records hinput]
    cases ho : s.records[out]? with
    | none => cases s.records[input]? <;> rfl
    | some outs =>
      cases hi : s.records[input]? with
      | none => rfl
      | some inputs =>
        dsimp only
        rw [fieldDemands_congr fun o i hmo hmi =>
          demandsWithin_extends hs h site depth (hs.field_bound ho hmo) (hs.field_bound hi hmi)]

/-- The demands of one field stand before those of the other fields; there are none if the field
is untracked on one side. -/
theorem fieldDemands_cons_eq_ok {f : Handle → Handle → Except Fault (List Demand)}
    {out input : Option Handle} {outs inputs : Fields} {ds : List Demand}
    (h : fieldDemands f (out :: outs) (input :: inputs) = .ok ds) :
    ∃ first rest, ds = first ++ rest ∧ fieldDemands f outs inputs = .ok rest ∧
      ((∃ o i, out = some o ∧ input = some i ∧ f o i = .ok first) ∨
        (out = none ∨ input = none) ∧ first = []) := by
  cases out with
  | none => exact ⟨[], ds, rfl, h, Or.inr ⟨Or.inl rfl, rfl⟩⟩
  | some o =>
    cases input with
    | none => exact ⟨[], ds, rfl, h, Or.inr ⟨Or.inr rfl, rfl⟩⟩
    | some i =>
      obtain ⟨first, hfirst, h⟩ := bind_eq_ok.1 h
      obtain ⟨rest, hrest, h⟩ := bind_eq_ok.1 h
      exact ⟨first, rest, (Except.ok.inj h).symm, hrest, Or.inl ⟨o, i, rfl, rfl, hfirst⟩⟩

theorem site_of_mem_fieldDemands {site : Handle}
    {f : Handle → Handle → Except Fault (List Demand)}
    (hf : ∀ {o i ds}, f o i = .ok ds → ∀ d ∈ ds, d.site = site) :
    ∀ {outs inputs : Fields} {ds : List Demand}, fieldDemands f outs inputs = .ok ds →
      ∀ d ∈ ds, d.site = site
  | [], inputs, ds, h, d, hd => by
    have : ds = [] := by cases inputs <;> exact (Except.ok.inj h).symm
    exact absurd hd (this ▸ List.not_mem_nil)
  | out :: outs, [], ds, h, d, hd => by
    have : ds = [] := by cases out <;> exact (Except.ok.inj h).symm
    exact absurd hd (this ▸ List.not_mem_nil)
  | out :: outs, input :: inputs, ds, h, d, hd => by
    obtain ⟨first, rest, rfl, hrest, hfield⟩ := fieldDemands_cons_eq_ok h
    rcases List.mem_append.1 hd with hd | hd
    · rcases hfield with ⟨o, i, _, _, hfirst⟩ | ⟨_, rfl⟩
      · exact hf hfirst d hd
      · exact absurd hd List.not_mem_nil
    · exact site_of_mem_fieldDemands hf hrest d hd

/-- A demand names the conditional that it was made for. -/
theorem site_of_mem_demandsWithin {s : Store} {site : Handle} : ∀ (depth : Nat)
    {out input : Handle} {ds : List Demand}, demandsWithin s site depth out input = .ok ds →
      ∀ d ∈ ds, d.site = site := by
  intro depth
  induction depth with
  | zero =>
    intro out input ds h d hd
    rw [demandsWithin] at h
    split at h
    · obtain rfl := Except.ok.inj h
      rw [List.mem_singleton.1 hd]
    · split at h <;> cases h
    · cases h
  | succ depth ih =>
    intro out input ds h d hd
    rw [demandsWithin] at h
    split at h
    · obtain rfl := Except.ok.inj h
      rw [List.mem_singleton.1 hd]
    · split at h
      · exact site_of_mem_fieldDemands ih h d hd
      · cases h
    · cases h

/-! ### What a variable stands for -/

/-- The buffers of `v` are newer than those of every smaller handle. -/
def Newest (s : Store) (v : Handle) : Prop :=
  ∀ ⦃u x y : Handle⦄, u < v → x ∈ s.setOf u → y ∈ s.setOf v → x < y

/-- Every buffer that `input` and the result of the conditional bound to `v` have in common
is demanded: the demands were made with a handle `out` that `v` is bound like. -/
structure Demanded (p : Propagation) (v input : Handle) : Prop where
  mem : input ∈ p.store.sets
  made : ∃ out depth ds, out ∈ p.store.sets ∧ p.store.setOf v = p.store.setOf out ∧
    p.store.records[v]? = p.store.records[out]? ∧
    demandsWithin p.store v depth out input = .ok ds ∧ ∀ d ∈ ds, d ∈ p.pending

/-- In the state `p` the variable `v` stands for what its value denotes. -/
inductive Denotes (p : Propagation) (v : Handle) : Expr → Prop
  | var {u : Handle} : u ∈ p.store.sets → p.store.setOf v = p.store.setOf u →
    p.store.records[v]? = p.store.records[u]? → Denotes p v (.var u)
  | const (value : Number.Binary64) : p.store.setOf v = ∅ → p.store.records[v]? = none →
    Denotes p v (.const value)
  | op (name : String) : p.store.setOf v = ∅ → p.store.records[v]? = none → Denotes p v (.op name)
  | closure {params : List Handle} {body : Expr} :
    (∀ u ∈ body.freeVarsUnder params, u ∈ p.store.sets) →
    (∀ e, e ∈ p.store.setOf v ↔ ∃ u ∈ body.freeVarsUnder params, e ∈ p.store.setOf u) →
    p.store.records[v]? = none → Denotes p v (.closure params body)
  | call {callee : Expr} {args : List Expr} {ty : Ty} : Newest p.store v →
    Denotes p v (.call callee args ty)
  | tuple {fields : List Expr} : (∀ u, some u ∈ fields.map Expr.var? → u ∈ p.store.sets) →
    (∀ e, e ∈ p.store.setOf v ↔ ∃ u, some u ∈ fields.map Expr.var? ∧ e ∈ p.store.setOf u) →
    p.store.records[v]? = some (fields.map Expr.var?) → Denotes p v (.tuple fields)
  | field {u index w : Handle} {fields : Fields} : p.store.records[u]? = some fields →
    fields[index]? = some (some w) → p.store.setOf v = p.store.setOf w →
    p.store.records[v]? = p.store.records[w]? → Denotes p v (.get (.var u) index)
  | untracked {u index : Handle} {fields : Fields} : p.store.records[u]? = some fields →
    fields[index]? = some none → p.store.setOf v = ∅ → p.store.records[v]? = none →
    Denotes p v (.get (.var u) index)
  | cond {test thenBranch elseBranch : Expr} {ty : Ty} {a b : Handle} : Newest p.store v →
    thenBranch.result = .var a → elseBranch.result = .var b → Demanded p v a → Demanded p v b →
    Denotes p v (.cond test thenBranch elseBranch ty)

section Growth

variable {p q : Propagation} {vs : List Handle}

theorem Newest.extends {s t : Store} {v : Handle} (h : Newest s v) (hs : s.Sound)
    (hext : Extends vs s t) (hv : v ∈ s.sets) (hlt : v < s.firstMinted) (hvs : ∀ u ∈ vs, v < u) :
    Newest t v := by
  intro u x y huv hx hy
  have hu : u ∈ s.sets := by
    rcases hext.only (mem_of_mem_setOf hx) with hu | hu | hle
    · exact hu
    · exact absurd (hvs u hu) (Nat.lt_asymm huv)
    · have hminted := Nat.le_trans hs.firstMinted_le hle
      exact absurd (Nat.lt_trans huv hlt) (Nat.not_lt.2 hminted)
  rw [hext.setOf_eq hu] at hx
  rw [hext.setOf_eq hv] at hy
  exact h huv hx hy

theorem Demanded.extends {v input : Handle} (h : Demanded p v input) (hs : p.store.Sound)
    (hext : Extends vs p.store q.store) (hv : v ∈ p.store.sets)
    (hpending : ∀ d ∈ p.pending, d ∈ q.pending) : Demanded q v input := by
  obtain ⟨out, depth, ds, hout, hset, hrecord, hds, hmem⟩ := h.made
  refine ⟨hext.mem h.mem, out, depth, ds, hext.mem hout, ?_, ?_, ?_, fun d hd =>
    hpending d (hmem d hd)⟩
  · rw [hext.setOf_eq hv, hext.setOf_eq hout, hset]
  · rw [hext.records hv, hext.records hout, hrecord]
  · rw [demandsWithin_extends hs hext v depth hout h.mem, hds]

/-- **What a variable stands for stays the same as the store grows.** -/
theorem Denotes.extends {v : Handle} {value : Expr} (h : Denotes p v value) (hs : p.store.Sound)
    (hext : Extends vs p.store q.store) (hv : v ∈ p.store.sets) (hlt : v < p.store.firstMinted)
    (hvs : ∀ u ∈ vs, v < u) (hpending : ∀ d ∈ p.pending, d ∈ q.pending) : Denotes q v value := by
  have hset := hext.setOf_eq hv
  have hrecord := hext.records hv
  cases h with
  | var hu heq hr =>
    exact .var (hext.mem hu) (by rw [hset, hext.setOf_eq hu, heq])
      (by rw [hrecord, hext.records hu, hr])
  | const value heq hr => exact .const value (hset.trans heq) (hrecord.trans hr)
  | op name heq hr => exact .op name (hset.trans heq) (hrecord.trans hr)
  | closure hbound hmem hr =>
    refine .closure (fun u hu => hext.mem (hbound u hu)) (fun e => ?_) (hrecord.trans hr)
    rw [hset, hmem]
    exact exists_congr fun u => and_congr_right fun hu => by rw [hext.setOf_eq (hbound u hu)]
  | call hnew => exact .call (hnew.extends hs hext hv hlt hvs)
  | tuple hbound hmem hr =>
    refine .tuple (fun u hu => hext.mem (hbound u hu)) (fun e => ?_) (hrecord.trans hr)
    rw [hset, hmem]
    exact exists_congr fun u => and_congr_right fun hu => by rw [hext.setOf_eq (hbound u hu)]
  | field hfields hindex heq hr =>
    have hw := hs.field_bound hfields (List.mem_of_getElem? hindex)
    exact .field ((hext.records (hs.recorded hfields)).trans hfields) hindex
      (by rw [hset, hext.setOf_eq hw, heq]) (by rw [hrecord, hext.records hw, hr])
  | untracked hfields hindex heq hr =>
    exact .untracked ((hext.records (hs.recorded hfields)).trans hfields) hindex
      (hset.trans heq) (hrecord.trans hr)
  | cond hnew ha hb hda hdb =>
    exact .cond (hnew.extends hs hext hv hlt hvs) ha hb (hda.extends hs hext hv hpending)
      (hdb.extends hs hext hv hpending)

end Growth

/-! ### Where demands come from -/

section Pending

variable {p q : Propagation} {v : Handle}

theorem pending_of_bindMinted {m : Handle × Store} (h : p.bindMinted v m = .ok q) :
    q.pending = p.pending := by
  obtain ⟨t, _, h⟩ := bind_eq_ok.1 h
  rw [← Except.ok.inj h]
  rfl

/-- A simple value demands nothing. -/
theorem pending_of_simple {value : Expr} (hsimple : value.Simple)
    (h : propagateBinding vars p v value = .ok q) : q.pending = p.pending := by
  cases hsimple with
  | var u =>
    obtain ⟨t, _, h⟩ := bind_eq_ok.1 h
    rw [← Except.ok.inj h]
    rfl
  | const value => exact pending_of_bindMinted h
  | op name => exact pending_of_bindMinted h
  | call name ty _ => exact pending_of_bindMinted h
  | tuple hatoms =>
    rw [propagateBinding, if_pos (List.all_eq_true.2 hatoms), Propagation.bindTuple] at h
    obtain ⟨minted, _, h⟩ := bind_eq_ok.1 h
    obtain ⟨r, hr, h⟩ := bind_eq_ok.1 h
    have hpending : r.pending = p.pending := pending_of_bindMinted hr
    rw [← Except.ok.inj h]
    exact hpending
  | get u index =>
    simp only [propagateBinding, Expr.var?, Propagation.bindField] at h
    split at h
    · cases h
    · split at h
      · cases h
      · obtain ⟨t, _, h⟩ := bind_eq_ok.1 h
        rw [← Except.ok.inj h]
        rfl
      · exact pending_of_bindMinted h
  | closure params body =>
    obtain ⟨minted, _, h⟩ := bind_eq_ok.1 h
    exact pending_of_bindMinted h

/-- A conditional adds demands that name it. -/
theorem pending_of_bindCond {a b : Handle} {ty : Ty} (h : p.bindCond vars v a b ty = .ok q) :
    ∃ ds, q.pending = p.pending ++ ds ∧ ∀ d ∈ ds, d.site = v := by
  rw [Propagation.bindCond] at h
  obtain ⟨first, hfirst, h⟩ := bind_eq_ok.1 h
  obtain ⟨second, hsecond, h⟩ := bind_eq_ok.1 h
  obtain ⟨t, _, h⟩ := bind_eq_ok.1 h
  obtain rfl := Except.ok.inj h
  refine ⟨first ++ second, List.append_assoc _ _ _, fun d hd => ?_⟩
  rcases List.mem_append.1 hd with hd | hd
  · exact site_of_mem_demandsWithin _ hfirst d hd
  · exact site_of_mem_demandsWithin _ hsecond d hd

/-- **Every demand is made for a conditional of the sequence.** -/
theorem pending_of_propagate {e : Expr} (he : e.Flat) : ∀ {p q : Propagation} {r : Handle},
    propagate vars p e = .ok (r, q) → ∀ d ∈ q.pending, d ∈ p.pending ∨
      ∃ value, (d.site, value) ∈ e.allBindings ∧ value.isCond = true := by
  induction he with
  | result r =>
    intro p q r' h d hd
    obtain ⟨rfl, rfl⟩ := Prod.mk.inj (Except.ok.inj h)
    exact Or.inl hd
  | @bind v value body hsimple _ ih =>
    intro p q r h d hd
    obtain ⟨p₁, h₁, h⟩ := bind_eq_ok.1 h
    rw [hsimple.allBindings_letIn]
    rcases ih h d hd with hd | ⟨value, hvalue, hcond⟩
    · exact Or.inl (pending_of_simple hsimple h₁ ▸ hd)
    · exact Or.inr ⟨value, List.mem_cons_of_mem _ hvalue, hcond⟩
  | @cond v c thenBranch elseBranch body ty _ _ _ iht ihe ihb =>
    intro p q r h d hd
    obtain ⟨p₃, h₃, h⟩ := bind_eq_ok.1 h
    obtain ⟨⟨a, p₁⟩, h₁, h₃⟩ := bind_eq_ok.1 h₃
    obtain ⟨⟨b, p₂⟩, h₂, h₃⟩ := bind_eq_ok.1 h₃
    obtain ⟨ds, hds, hsite⟩ := pending_of_bindCond h₃
    rw [Expr.allBindings_cond]
    rcases ihb h d hd with hd | ⟨value, hvalue, hcond⟩
    · rw [hds, List.mem_append] at hd
      rcases hd with hd | hd
      · rcases ihe h₂ d hd with hd | ⟨value, hvalue, hcond⟩
        · rcases iht h₁ d hd with hd | ⟨value, hvalue, hcond⟩
          · exact Or.inl hd
          · exact Or.inr ⟨value, List.mem_append_left _ (List.mem_append_left _ hvalue), hcond⟩
        · exact Or.inr ⟨value, List.mem_append_left _ (List.mem_append_right _ hvalue), hcond⟩
      · rw [hsite d hd]
        exact Or.inr ⟨_, List.mem_append_right _ List.mem_cons_self, rfl⟩
    · exact Or.inr ⟨value, List.mem_append_right _ (List.mem_cons_of_mem _ hvalue), hcond⟩

end Pending

/-! ### One binding -/

section Binding

variable {p q : Propagation} {v : Handle}

/-- Binding to what was minted, before which the store was `s`. -/
theorem bindMinted_spec {s : Store} {m : Handle × Store} (hs : s.Sound)
    (hgrow : Extends [] s m.2) (hv : v ∉ s.sets) (hlt : v < s.firstMinted)
    (h : p.bindMinted v m = .ok q) : Extends [v] m.2 q.store ∧
      q.store.setOf v = m.2.setOf m.1 ∧ q.store.records[v]? = m.2.records[m.1]? := by
  rw [Propagation.bindMinted, bind_eq_ok] at h
  obtain ⟨t, ht, h⟩ := h
  obtain rfl := Except.ok.inj h
  have hnext := Nat.le_trans hs.firstMinted_le hgrow.next_le
  obtain ⟨_, hext, hset, hrecord⟩ := bindLike_spec hgrow.sound
    (hgrow.not_mem hs hv hlt List.not_mem_nil) (Nat.lt_of_lt_of_le hlt hnext) ht
  exact ⟨hext, hset, hrecord⟩

theorem bindEmpty_spec (hs : p.store.Sound) (hv : v ∉ p.store.sets)
    (hlt : v < p.store.firstMinted) (h : p.bindEmpty vars v = .ok q) :
    Extends [v] p.store q.store ∧ q.store.setOf v = ∅ ∧ q.store.records[v]? = none := by
  have hmint := mints_freshEmpty hs (hintOf vars v)
  obtain ⟨hext, hset, hrecord⟩ := bindMinted_spec hs hmint.grows hv hlt h
  exact ⟨hmint.grows.trans_minting hext, hset.trans hmint.setOf_eq, hrecord.trans hmint.record⟩

/-- What is bound to minted buffers only has newer ones than all before. -/
theorem newest_of_minted {s t : Store} (hs : s.Sound) (hlt : v < s.firstMinted)
    (hext : Extends [v] s t) (hminted : ∀ e ∈ t.setOf v, s.supply.next ≤ e) : Newest t v := by
  intro u x y huv hx hy
  have hu : u ∈ s.sets := by
    rcases hext.only (mem_of_mem_setOf hx) with hu | hu | hle
    · exact hu
    · exact absurd huv (List.mem_singleton.1 hu ▸ Nat.lt_irrefl v)
    · have hminted := Nat.le_trans hs.firstMinted_le hle
      exact absurd (Nat.lt_trans huv hlt) (Nat.not_lt.2 hminted)
  rw [hext.setOf_eq hu] at hx
  exact Nat.lt_of_lt_of_le (hs.lt_of_mem_setOf hx) (hminted y hy)

/-- A value of a type is bound to buffers that are newer than all before. -/
theorem newest_of_freshValue {s t : Store} (hs : s.Sound) (hint : String) (ty : Ty)
    (hlt : v < s.firstMinted) (hext : Extends [v] s t)
    (hset : t.setOf v = (s.freshValue hint ty).2.setOf (s.freshValue hint ty).1) :
    Newest t v := by
  obtain ⟨_, _, _, hnew⟩ := freshValue_spec ty hint hs
  exact newest_of_minted hs hlt hext fun e he => hnew e (hset ▸ he)

theorem bindTuple_spec {fields : Fields} (hs : p.store.Sound) (hv : v ∉ p.store.sets)
    (hlt : v < p.store.firstMinted) (h : p.bindTuple v fields = .ok q) :
    Extends [v] p.store q.store ∧
      (∀ u, some u ∈ fields → u ∈ q.store.sets) ∧
      (∀ e, e ∈ q.store.setOf v ↔ ∃ u, some u ∈ fields ∧ e ∈ q.store.setOf u) ∧
      q.store.records[v]? = some fields := by
  rw [Propagation.bindTuple, bind_eq_ok] at h
  obtain ⟨⟨m, t⟩, hfresh, h⟩ := h
  obtain ⟨r, hr, h⟩ := bind_eq_ok.1 h
  obtain rfl := Except.ok.inj h
  obtain ⟨set, hmint, hbound, hmem⟩ := mints_freshUnion hs hfresh
  obtain ⟨hext, hset, _⟩ := bindMinted_spec hs hmint.grows hv hlt hr
  replace hext := hmint.grows.trans_minting hext
  have hset' : r.store.setOf v = set := hset.trans hmint.setOf_eq
  have hfields : ∀ e, e ∈ r.store.setOf v ↔ ∃ u, some u ∈ fields ∧ e ∈ r.store.setOf u := by
    intro e
    rw [hset', hmem]
    exact exists_congr fun u => and_congr_right fun hu => by rw [hext.setOf_eq (hbound u hu)]
  obtain ⟨hext', hrecord⟩ := recordFields_spec hext hv (hext.bound List.mem_cons_self) _
    fun u hu => ⟨hext.mem (hbound u hu), fun e he => (hfields e).2 ⟨u, hu, he⟩⟩
  exact ⟨hext', fun u hu => hext.mem (hbound u hu), hfields, hrecord⟩

/-- **The binding of a simple value.** -/
theorem propagateSimple_spec {value : Expr} (hsimple : value.Simple) (hs : p.store.Sound)
    (hv : v ∉ p.store.sets) (hlt : v < p.store.firstMinted)
    (h : propagateBinding vars p v value = .ok q) :
    Extends [v] p.store q.store ∧ Denotes q v value := by
  have hlt' := Nat.lt_of_lt_of_le hlt hs.firstMinted_le
  cases hsimple with
  | var u =>
    rw [propagateBinding, bind_eq_ok] at h
    obtain ⟨t, ht, h⟩ := h
    obtain rfl := Except.ok.inj h
    obtain ⟨hu, hext, hset, hrecord⟩ := bindLike_spec hs hv hlt' ht
    exact ⟨hext, .var (hext.mem hu) (hset.trans (hext.setOf_eq hu).symm)
      (hrecord.trans (hext.records hu).symm)⟩
  | const value =>
    obtain ⟨hext, hset, hrecord⟩ := bindEmpty_spec hs hv hlt h
    exact ⟨hext, .const value hset hrecord⟩
  | op name =>
    obtain ⟨hext, hset, hrecord⟩ := bindEmpty_spec hs hv hlt h
    exact ⟨hext, .op name hset hrecord⟩
  | call name ty _ =>
    rw [propagateBinding, Expr.isOp, if_pos rfl] at h
    obtain ⟨hgrow, _⟩ := freshValue_spec ty (hintOf vars v) hs
    obtain ⟨hext, hset, _⟩ := bindMinted_spec hs hgrow hv hlt h
    replace hext := hgrow.trans_minting hext
    exact ⟨hext, .call (newest_of_freshValue hs _ ty hlt hext hset)⟩
  | tuple hatoms =>
    rw [propagateBinding, if_pos (List.all_eq_true.2 hatoms)] at h
    obtain ⟨hext, hbound, hmem, hrecord⟩ := bindTuple_spec hs hv hlt h
    exact ⟨hext, .tuple hbound hmem hrecord⟩
  | get u index =>
    rw [propagateBinding] at h
    simp only [Expr.var?, Propagation.bindField] at h
    split at h
    · cases h
    · rename_i fields hfields
      split at h
      · cases h
      · rename_i w hindex
        obtain ⟨t, ht, h⟩ := bind_eq_ok.1 h
        obtain rfl := Except.ok.inj h
        obtain ⟨hw, hext, hset, hrecord⟩ := bindLike_spec hs hv hlt' ht
        exact ⟨hext, .field ((hext.records (hs.recorded hfields)).trans hfields) hindex
          (hset.trans (hext.setOf_eq hw).symm) (hrecord.trans (hext.records hw).symm)⟩
      · rename_i hindex
        obtain ⟨hext, hset, hrecord⟩ := bindEmpty_spec hs hv hlt h
        exact ⟨hext, .untracked ((hext.records (hs.recorded hfields)).trans hfields)
          hindex hset hrecord⟩
  | closure params body =>
    rw [propagateBinding, bind_eq_ok] at h
    obtain ⟨⟨m, t⟩, hfresh, h⟩ := h
    obtain ⟨set, hmint, hbound, hmem⟩ := mints_freshUnionOf hs hfresh
    obtain ⟨hext, hset, hrecord⟩ := bindMinted_spec hs hmint.grows hv hlt h
    replace hext := hmint.grows.trans_minting hext
    have hset' : q.store.setOf v = set := hset.trans hmint.setOf_eq
    refine ⟨hext, .closure (fun u hu => hext.mem (hbound u hu)) (fun e => ?_)
      (hrecord.trans hmint.record)⟩
    rw [hset', hmem]
    exact exists_congr fun u => and_congr_right fun hu => by rw [hext.setOf_eq (hbound u hu)]

/-- **The binding of a conditional,** whose branches have come to `a` and `b`. -/
theorem bindCond_spec {a b : Handle} {ty : Ty} (hs : p.store.Sound) (hv : v ∉ p.store.sets)
    (hlt : v < p.store.firstMinted) (ha : a ∈ p.store.sets) (hb : b ∈ p.store.sets)
    (h : p.bindCond vars v a b ty = .ok q) : Extends [v] p.store q.store ∧
      Newest q.store v ∧ Demanded q v a ∧ Demanded q v b := by
  obtain ⟨hgrow, hmem, _⟩ := freshValue_spec ty (hintOf vars v) hs
  have hnewest {t : Store} := newest_of_freshValue (t := t) hs (hintOf vars v) ty hlt
  rw [Propagation.bindCond] at h
  generalize p.store.freshValue (hintOf vars v) ty = value at hgrow hmem hnewest h
  obtain ⟨out, s⟩ := value
  obtain ⟨first, hfirst, h⟩ := bind_eq_ok.1 h
  obtain ⟨second, hsecond, h⟩ := bind_eq_ok.1 h
  obtain ⟨t, ht, h⟩ := bind_eq_ok.1 h
  obtain rfl := Except.ok.inj h
  obtain ⟨hext', hset, hrecord⟩ := bindMinted_spec (p := p) (q := p.withStore t)
    (m := (out, s)) hs hgrow hv hlt (bind_eq_ok.2 ⟨t, ht, rfl⟩)
  have hext := hgrow.trans_minting hext'
  have hdemanded : ∀ {input ds}, input ∈ p.store.sets → resultDemands s v out input = .ok ds →
      (∀ d ∈ ds, d ∈ p.pending ++ first ++ second) →
      Demanded ⟨t, p.pending ++ first ++ second⟩ v input := fun hinput hds hsub =>
    ⟨hext.mem hinput, out, recordDepth s, _, hext'.mem hmem,
      hset.trans (hext'.setOf_eq hmem).symm, hrecord.trans (hext'.records hmem).symm,
      (demandsWithin_extends hgrow.sound hext' v _ hmem (hgrow.mem hinput)).trans hds, hsub⟩
  refine ⟨hext, hnewest hext hset, hdemanded ha hfirst fun d hd => ?_,
    hdemanded hb hsecond fun d hd => ?_⟩
  · exact List.mem_append_left _ (List.mem_append_right _ hd)
  · exact List.mem_append_right _ hd

end Binding

/-! ### Sequences -/

/-- In the store `s` the sequence `e` is closed, and its binders are unbound: they are behind
all handles of the program that are bound. -/
structure Ready (s : Store) (e : Expr) : Prop where
  sound : s.Sound
  ascending : e.Ascending
  visible {u : Handle} : u ∈ e.occurrences → u ∈ s.sets
  lt_firstMinted {w : Handle} : w ∈ e.binders → w < s.firstMinted
  above {u w : Handle} : w ∈ e.binders → u ∈ s.sets → u < w ∨ s.firstMinted ≤ u

namespace Ready

variable {s t : Store} {vs : List Handle} {v : Handle} {e value body : Expr}

theorem not_mem (h : Ready s e) {w : Handle} (hw : w ∈ e.binders) : w ∉ s.sets := fun hmem =>
  (h.above hw hmem).elim (Nat.lt_irrefl w) (Nat.not_le.2 (h.lt_firstMinted hw))

/-- A part of a sequence is ready when the binders before it are bound. -/
theorem part (h : Ready s e) (hext : Extends vs s t) {e' : Expr} (hasc : e'.Ascending)
    (hocc : ∀ u ∈ e'.occurrences, u ∈ e.occurrences ∨ u ∈ vs)
    (hbinders : ∀ w ∈ e'.binders, w ∈ e.binders)
    (hvs : ∀ u ∈ vs, ∀ w ∈ e'.binders, u < w) : Ready t e' := by
  refine ⟨hext.sound, hasc, fun {u} hu => ?_, fun {w} hw => ?_, fun {u w} hw hu => ?_⟩
  · exact (hocc u hu).elim (fun hu => hext.mem (h.visible hu)) hext.bound
  · rw [hext.firstMinted_eq]
    exact h.lt_firstMinted (hbinders w hw)
  · rw [hext.firstMinted_eq]
    rcases hext.only hu with hu | hu | hle
    · exact h.above (hbinders w hw) hu
    · exact Or.inl (hvs u hu w hw)
    · exact Or.inr (Nat.le_trans h.sound.firstMinted_le hle)

theorem binder_mem : v ∈ (Expr.letIn v value body).binders :=
  List.mem_append_right _ List.mem_cons_self

theorem body_part (h : Ready s (.letIn v value body)) (hext : Extends vs s t)
    (hvs : ∀ u ∈ vs, u ≤ v) (hv : v ∈ vs) : Ready t body := by
  refine h.part hext h.ascending.body (fun u hu => ?_) (fun w hw => ?_) fun u hu w hw => ?_
  · by_cases hne : u = v
    · exact Or.inr (hne ▸ hv)
    · exact Or.inl (List.mem_append_right _ (List.mem_filter.2 ⟨hu, decide_eq_true hne⟩))
  · exact List.mem_append_right _ (List.mem_cons_of_mem _ hw)
  · exact Nat.lt_of_le_of_lt (hvs u hu) (h.ascending.lt_of_mem_body hw)

variable {test thenBranch elseBranch : Expr} {ty : Ty}

theorem then_part (h : Ready s (.letIn v (.cond test thenBranch elseBranch ty) body)) :
    Ready s thenBranch := by
  refine h.part (.refl h.sound) h.ascending.value.thenBranch (fun u hu => Or.inl ?_)
    (fun w hw => ?_) fun u hu => absurd hu List.not_mem_nil
  · exact List.mem_append_left _ (List.mem_append_left _ (List.mem_append_right _ hu))
  · exact List.mem_append_left _ (List.mem_append_left _ (List.mem_append_right _ hw))

theorem else_part (h : Ready s (.letIn v (.cond test thenBranch elseBranch ty) body))
    (hext : Extends vs s t) (hvs : ∀ u ∈ vs, u ∈ thenBranch.binders) : Ready t elseBranch := by
  refine h.part hext h.ascending.value.elseBranch (fun u hu => Or.inl ?_) (fun w hw => ?_)
    fun u hu w hw => h.ascending.value.lt_of_mem_branches (hvs u hu) hw
  · exact List.mem_append_left _ (List.mem_append_right _ hu)
  · exact List.mem_append_left _ (List.mem_append_right _ hw)

/-- Behind its branches a conditional is still unbound. -/
theorem behind_branches (h : Ready s (.letIn v (.cond test thenBranch elseBranch ty) body))
    (hext : Extends vs s t) (hvs : ∀ u ∈ vs, u ∈ thenBranch.binders ++ elseBranch.binders) :
    v ∉ t.sets ∧ v < t.firstMinted := by
  have hlt := h.lt_firstMinted binder_mem
  refine ⟨hext.not_mem h.sound (h.not_mem binder_mem) hlt fun hmem => Nat.lt_irrefl v ?_,
    hext.firstMinted_eq ▸ hlt⟩
  refine h.ascending.lt_of_mem_binders ?_
  exact (List.mem_append.1 (hvs v hmem)).elim
    (fun hv => List.mem_append_left _ (List.mem_append_right _ hv)) (List.mem_append_right _)

end Ready

/-- How `q` comes out of `p` by the binding of `v`, with the branches inside its value. -/
structure Binds (p q : Propagation) (v : Handle) (value : Expr) : Prop where
  grows : Extends (value.branchBindings.map (·.1) ++ [v]) p.store q.store
  pending : ∃ ds, q.pending = p.pending ++ ds
  denotes {w : Handle} {x : Expr} : (w, x) ∈ value.branchBindings ++ [(v, value)] → Denotes q w x
  inside_lt {u : Handle} : u ∈ value.branchBindings.map (·.1) → u < v

/-- How `q` comes out of `p` by a sequence that results in `r`. -/
structure Propagates (p q : Propagation) (e : Expr) (r : Handle) : Prop where
  result_eq : e.result = .var r
  result_mem : r ∈ q.store.sets
  grows : Extends (e.allBindings.map (·.1)) p.store q.store
  pending : ∃ ds, q.pending = p.pending ++ ds
  denotes {v : Handle} {value : Expr} : (v, value) ∈ e.allBindings → Denotes q v value

theorem Propagates.mem_pending {p q : Propagation} {e : Expr} {r : Handle}
    (h : Propagates p q e r) : ∀ d ∈ p.pending, d ∈ q.pending := by
  obtain ⟨ds, hds⟩ := h.pending
  exact fun d hd => hds ▸ List.mem_append_left _ hd

/-- What a sequence has found is still true when variables behind it are bound. -/
theorem Propagates.denotes_later {p₀ p q : Propagation} {e : Expr} {r : Handle}
    (h : Propagates p₀ p e r) {vs : List Handle} (hext : Extends vs p.store q.store)
    (hpending : ∀ d ∈ p.pending, d ∈ q.pending)
    (hvs : ∀ w ∈ e.allBindings.map (·.1), w < p₀.store.firstMinted ∧ ∀ u ∈ vs, w < u)
    {v : Handle} {value : Expr} (hb : (v, value) ∈ e.allBindings) : Denotes q v value := by
  have hv : v ∈ e.allBindings.map (·.1) := List.mem_map_of_mem (f := (·.1)) hb
  obtain ⟨hlt, hless⟩ := hvs v hv
  exact (h.denotes hb).extends h.grows.sound hext (h.grows.bound hv)
    (h.grows.firstMinted_eq ▸ hlt) hless hpending

/-- A binding binds nothing behind its own variable. -/
theorem Binds.le_of_mem {p q : Propagation} {v : Handle} {value : Expr} (h : Binds p q v value)
    {u : Handle} (hu : u ∈ value.branchBindings.map (·.1) ++ [v]) : u ≤ v := by
  rcases List.mem_append.1 hu with hu | hu
  · exact Nat.le_of_lt (h.inside_lt hu)
  · exact Nat.le_of_eq (List.mem_singleton.1 hu)

/-- A binding before a sequence. -/
theorem Binds.propagates {p p₁ q : Propagation} {v r : Handle} {value body : Expr}
    (hready : Ready p.store (.letIn v value body)) (h : Binds p p₁ v value)
    (hbody : ∀ u ∈ body.allBindings.map (·.1), u ∈ body.binders) (hrest : Propagates p₁ q body r) :
    Propagates p q (.letIn v value body) r := by
  have hlt := hready.lt_firstMinted Ready.binder_mem
  refine ⟨hrest.result_eq, hrest.result_mem, ?_, ?_, fun {w x} hb => ?_⟩
  · rw [Expr.allBindings, List.map_append, List.map_cons]
    have := h.grows.trans hrest.grows
    rwa [List.append_assoc] at this
  · obtain ⟨ds, hds⟩ := h.pending
    obtain ⟨ds', hds'⟩ := hrest.pending
    exact ⟨ds ++ ds', by rw [hds', hds, List.append_assoc]⟩
  · rw [Expr.allBindings, ← List.singleton_append, ← List.append_assoc, List.mem_append] at hb
    rcases hb with hb | hb
    · have hw : w ∈ value.branchBindings.map (·.1) ++ [v] := by
        have := List.mem_map_of_mem (f := (·.1)) hb
        rwa [List.map_append] at this
      have hle := h.le_of_mem hw
      refine (h.denotes hb).extends h.grows.sound hrest.grows (h.grows.bound hw) ?_ (fun u hu => ?_)
        hrest.mem_pending
      · exact h.grows.firstMinted_eq ▸ Nat.lt_of_le_of_lt hle hlt
      · exact Nat.lt_of_le_of_lt hle (hready.ascending.lt_of_mem_body (hbody u hu))
    · exact hrest.denotes hb

/-- **A conditional behind its branches.** -/
theorem binds_cond {p p₁ p₂ q : Propagation} {v a b : Handle}
    {test thenBranch elseBranch body : Expr} {ty : Ty}
    (hready : Ready p.store (.letIn v (.cond test thenBranch elseBranch ty) body))
    (hthen : ∀ u ∈ thenBranch.allBindings.map (·.1), u ∈ thenBranch.binders)
    (helse : ∀ u ∈ elseBranch.allBindings.map (·.1), u ∈ elseBranch.binders)
    (hfirst : Propagates p p₁ thenBranch a) (hsecond : Propagates p₁ p₂ elseBranch b)
    (h : p₂.bindCond vars v a b ty = .ok q) :
    Binds p q v (.cond test thenBranch elseBranch ty) := by
  have hasc := hready.ascending
  have hlt := hready.lt_firstMinted Ready.binder_mem
  have hboth := hfirst.grows.trans hsecond.grows
  have hthenlt : ∀ u ∈ thenBranch.allBindings.map (·.1), u < v := fun u hu =>
    hasc.lt_of_mem_binders (List.mem_append_left _ (List.mem_append_right _ (hthen u hu)))
  have helselt : ∀ u ∈ elseBranch.allBindings.map (·.1), u < v := fun u hu =>
    hasc.lt_of_mem_binders (List.mem_append_right _ (helse u hu))
  have hinside : ∀ u ∈ thenBranch.allBindings.map (·.1) ++ elseBranch.allBindings.map (·.1),
      u < v := fun u hu => (List.mem_append.1 hu).elim (hthenlt u) (helselt u)
  obtain ⟨hv, hlt₂⟩ := hready.behind_branches hboth fun u hu => List.mem_append.2
    ((List.mem_append.1 hu).imp (hthen u) (helse u))
  obtain ⟨ds, hds, _⟩ := pending_of_bindCond h
  obtain ⟨hext, hnewest, hda, hdb⟩ := bindCond_spec hboth.sound hv hlt₂
    (hsecond.grows.mem hfirst.result_mem) hsecond.result_mem h
  have hmono : ∀ d ∈ p₂.pending, d ∈ q.pending := fun d hd => hds ▸ List.mem_append_left _ hd
  refine ⟨?_, ?_, fun {w x} hb => ?_, fun {u} hu => ?_⟩
  · rw [Expr.branchBindings, List.map_append]
    exact hboth.trans hext
  · obtain ⟨ds₁, h₁⟩ := hfirst.pending
    obtain ⟨ds₂, h₂⟩ := hsecond.pending
    exact ⟨ds₁ ++ ds₂ ++ ds, by rw [hds, h₂, h₁]; simp only [List.append_assoc]⟩
  · rw [Expr.branchBindings, List.mem_append, List.mem_append, List.mem_singleton] at hb
    rcases hb with (hb | hb) | heq
    · refine hfirst.denotes_later (hsecond.grows.trans hext)
        (fun d hd => hmono d (hsecond.mem_pending d hd))
        (fun w hw => ⟨Nat.lt_trans (hthenlt w hw) hlt, fun u hu => ?_⟩) hb
      rcases List.mem_append.1 hu with hu | hu
      · exact hasc.value.lt_of_mem_branches (hthen w hw) (helse u hu)
      · exact List.mem_singleton.1 hu ▸ hthenlt w hw
    · refine hsecond.denotes_later hext hmono (fun w hw => ⟨?_, fun u hu => ?_⟩) hb
      · exact hfirst.grows.firstMinted_eq ▸ Nat.lt_trans (helselt w hw) hlt
      · exact List.mem_singleton.1 hu ▸ helselt w hw
    · obtain ⟨rfl, rfl⟩ := Prod.mk.inj heq
      exact .cond hnewest hfirst.result_eq hsecond.result_eq hda hdb
  · rw [Expr.branchBindings, List.map_append] at hu
    exact hinside u hu

/-- **Propagation through a flat sequence finds what every variable stands for.** -/
theorem propagate_spec {e : Expr} (he : e.Flat) : ∀ {p q : Propagation} {r : Handle},
    Ready p.store e → propagate vars p e = .ok (r, q) → Propagates p q e r := by
  induction he with
  | result r =>
    intro p q r' hready h
    obtain ⟨rfl, rfl⟩ := Prod.mk.inj (Except.ok.inj h)
    exact ⟨rfl, hready.visible List.mem_cons_self, .refl hready.sound, ⟨[], by simp⟩,
      fun hb => absurd hb List.not_mem_nil⟩
  | @bind v value body hsimple hbody ih =>
    intro p q r hready h
    obtain ⟨p₁, h₁, h⟩ := bind_eq_ok.1 h
    have hpending := pending_of_simple hsimple h₁
    obtain ⟨hext, hdenotes⟩ := propagateSimple_spec hsimple hready.sound
      (hready.not_mem Ready.binder_mem) (hready.lt_firstMinted Ready.binder_mem) h₁
    have hnone := hsimple.branchBindings_eq
    have hbind : Binds p p₁ v value := by
      refine ⟨hnone ▸ hext, ⟨[], by rw [hpending, List.append_nil]⟩, fun {w x} hb => ?_,
        fun {u} hu => ?_⟩
      · rw [hnone, List.nil_append, List.mem_singleton] at hb
        obtain ⟨rfl, rfl⟩ := Prod.mk.inj hb
        exact hdenotes
      · rw [hnone] at hu
        exact absurd hu List.not_mem_nil
    have hbody' := hready.body_part hbind.grows (fun u hu => hbind.le_of_mem hu)
      (List.mem_append_right _ List.mem_cons_self)
    exact hbind.propagates hready (fun u hu => hbody.map_fst_allBindings_sublist.subset hu)
      (ih hbody' h)
  | @cond v c thenBranch elseBranch body ty hthen helse hbody iht ihe ihb =>
    intro p q r hready h
    obtain ⟨p₃, h₃, h⟩ := bind_eq_ok.1 h
    obtain ⟨⟨a, p₁⟩, h₁, h₃⟩ := bind_eq_ok.1 h₃
    obtain ⟨⟨b, p₂⟩, h₂, h₃⟩ := bind_eq_ok.1 h₃
    have hthens := fun u hu => hthen.map_fst_allBindings_sublist.subset (a := u) hu
    have hfirst := iht hready.then_part h₁
    have hsecond := ihe (hready.else_part hfirst.grows hthens) h₂
    have hbind : Binds p p₃ v (.cond (.var c) thenBranch elseBranch ty) :=
      binds_cond hready hthens (fun u hu => helse.map_fst_allBindings_sublist.subset hu) hfirst
        hsecond h₃
    have hbody' := hready.body_part hbind.grows (fun u hu => hbind.le_of_mem hu)
      (List.mem_append_right _ List.mem_cons_self)
    exact hbind.propagates hready (fun u hu => hbody.map_fst_allBindings_sublist.subset hu)
      (ihb hbody' h)

/-! ### Parameters -/

theorem leavesForFields_spec {name : String} {whole : Ty} : ∀ (tys : List Ty) {s t : Store}
    {i : Nat} {vs : List Handle}, s.Sound →
      leavesForFields name whole s i tys = .ok (vs, t) → Extends [] s t ∧ ∀ v ∈ vs, v ∈ t.sets := by
  intro tys
  induction tys with
  | nil =>
    intro s t i vs hs h
    obtain ⟨rfl, rfl⟩ := Prod.mk.inj (Except.ok.inj h)
    exact ⟨.refl hs, fun v hv => absurd hv List.not_mem_nil⟩
  | cons ty tys ih =>
    intro s t i vs hs h
    cases ty with
    | tensor =>
      obtain ⟨⟨ws, t'⟩, hrest, h⟩ := bind_eq_ok.1 h
      obtain ⟨rfl, rfl⟩ := Prod.mk.inj (Except.ok.inj h)
      have hmint := mints_freshLeaf hs (name ++ "." ++ toString i)
      obtain ⟨hext, hmem⟩ := ih hmint.grows.sound hrest
      refine ⟨hmint.grows.trans_minting hext, fun v hv => ?_⟩
      rcases List.mem_cons.1 hv with rfl | hv
      · exact hext.mem hmint.mem
      · exact hmem v hv
    | func => cases h
    | tuple fields => cases h
    | other name => cases h

/-- **A parameter is bound, and nothing else but leaves for it.** -/
theorem bindParameter_spec {s t : Store} {v : Handle} (hs : s.Sound) (hv : v ∉ s.sets)
    (hlt : v < s.firstMinted) (h : bindParameter vars s v = .ok t) : Extends [v] s t := by
  unfold bindParameter at h
  dsimp only at h
  split at h
  · cases h
  · have hmint := mints_freshLeaf hs ((vars.name? v).getD "param")
    exact hmint.grows.trans_minting (bindMinted_spec (p := ⟨s, []⟩) (q := ⟨t, []⟩) hs hmint.grows
      hv hlt (bind_eq_ok.2 ⟨t, h, rfl⟩)).1
  · rename_i tys _
    obtain ⟨⟨vs, s₁⟩, hleaves, h⟩ := bind_eq_ok.1 h
    obtain ⟨⟨m, s₂⟩, hunion, h⟩ := bind_eq_ok.1 h
    obtain ⟨s₃, hbind, h⟩ := bind_eq_ok.1 h
    obtain rfl := Except.ok.inj h
    obtain ⟨hext₁, hmem⟩ := leavesForFields_spec tys hs hleaves
    obtain ⟨set, hmint, hbound, hset⟩ := mints_freshUnionOf hext₁.sound hunion
    have hext₂ := hext₁.trans_minting hmint.grows
    obtain ⟨hlater, hset₃, _⟩ := bindMinted_spec (p := ⟨s₂, []⟩) (q := ⟨s₃, []⟩)
      (m := (m, s₂)) hs hext₂ hv hlt (bind_eq_ok.2 ⟨s₃, hbind, rfl⟩)
    have hext₃ := hext₂.trans_minting hlater
    refine (recordFields_spec hext₃ hv (hext₃.bound List.mem_cons_self) _ fun u hu => ?_).1
    have hu : u ∈ vs := by simpa using hu
    have hu₂ := hmint.grows.mem (hmem u hu)
    refine ⟨hlater.mem hu₂, fun e he => ?_⟩
    rw [hlater.setOf_eq hu₂, hmint.grows.setOf_eq (hmem u hu)] at he
    rw [hset₃, hmint.setOf_eq, hset]
    exact ⟨u, hu, he⟩
  · cases h

/-- The parameters are bound, and nothing else but leaves for them. -/
theorem bindParameters_spec : ∀ {params : List Handle} {s t : Store}, s.Sound →
    params.Nodup → (∀ v ∈ params, v ∉ s.sets ∧ v < s.firstMinted) →
      bindParameters vars s params = .ok t → Extends params s t := by
  intro params
  induction params with
  | nil =>
    intro s t hs _ _ h
    obtain rfl := Except.ok.inj h
    exact .refl hs
  | cons v params ih =>
    intro s t hs hnodup hnew h
    rw [bindParameters, List.foldlM_cons] at h
    obtain ⟨s₁, h₁, h⟩ := bind_eq_ok.1 h
    obtain ⟨hv, hlt⟩ := hnew v List.mem_cons_self
    obtain ⟨hnot, hnodup⟩ := List.nodup_cons.1 hnodup
    have hext := bindParameter_spec hs hv hlt h₁
    refine hext.trans (ih hext.sound hnodup (fun u hu => ?_) h)
    obtain ⟨hu', hult⟩ := hnew u (List.mem_cons_of_mem _ hu)
    exact ⟨hext.not_mem hs hu' hult fun hmem => hnot (List.mem_singleton.1 hmem ▸ hu),
      hext.firstMinted_eq ▸ hult⟩

end Analysis
end TensorLiveness
