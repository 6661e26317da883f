/-
# Every mandatory sharing is honoured

The result of a conditional and the result of the branch that was taken are one value, so their
buffers have to be the same, field by field.  Propagation demands this for every two entries
that a path of tuple indices leads to on both sides (`mem_demandsWithin`).  The validation either
meets a demand or notes a conflict (`joined_of_conflicts_eq`); as liveness with conflicts is not
published, every demand is met by what is published.

`published_spec` says when liveness is published, and `published_honours_demands` what it is
worth.
-/

import Mathlib
import TensorLiveness.Proofs.Analysis.Interference

namespace TensorLiveness
namespace Analysis

open Identity Program Sharing Store

/-! ### Demands on entries -/

/-- Fields that are tracked on both sides are looked into. -/
theorem mem_fieldDemands {demands : Handle → Handle → Except Fault (List Demand)} :
    ∀ {outs inputs : Fields} {ds : List Demand} {k : Nat} {u w : Handle},
      fieldDemands demands outs inputs = .ok ds → outs[k]? = some (some u) →
        inputs[k]? = some (some w) → ∃ ds', demands u w = .ok ds' ∧ ∀ d ∈ ds', d ∈ ds
  | [], inputs, ds, k, u, w, _, hu, _ => by
    rw [List.getElem?_nil] at hu
    cases hu
  | out :: outs, [], ds, k, u, w, _, _, hw => by
    rw [List.getElem?_nil] at hw
    cases hw
  | out :: outs, input :: inputs, ds, k, u, w, h, hu, hw => by
    obtain ⟨first, rest, rfl, hrest, hfield⟩ := fieldDemands_cons_eq_ok h
    cases k with
    | zero =>
      obtain rfl := Option.some.inj hu
      obtain rfl := Option.some.inj hw
      rcases hfield with ⟨o, i, ho, hi, hfirst⟩ | ⟨hnone, _⟩
      · obtain rfl := Option.some.inj ho
        obtain rfl := Option.some.inj hi
        exact ⟨first, hfirst, fun d hd => List.mem_append_left _ hd⟩
      · rcases hnone with h | h <;> cases h
    | succ k =>
      obtain ⟨ds', hds', hsub⟩ := mem_fieldDemands hrest hu hw
      exact ⟨ds', hds', fun d hd => List.mem_append_right _ (hsub d hd)⟩

/-- **Two entries at one path are demanded to share,** if neither is a tuple. -/
theorem mem_demandsWithin {s : Store} {site u w : Handle} : ∀ {path : List Nat} {depth : Nat}
    {out input : Handle} {ds : List Demand}, demandsWithin s site depth out input = .ok ds →
      s.entryAt? path out = some u → s.entryAt? path input = some w → s.records[u]? = none →
        s.records[w]? = none → ⟨u, w, site⟩ ∈ ds := by
  intro path
  induction path with
  | nil =>
    intro depth out input ds h hu hw hru hrw
    obtain rfl := Option.some.inj hu
    obtain rfl := Option.some.inj hw
    rw [demandsWithin, fields?, fields?, hru, hrw] at h
    obtain rfl := Except.ok.inj h
    exact List.mem_singleton.2 rfl
  | cons index path ih =>
    intro depth out input ds h hu hw hru hrw
    obtain ⟨u', hu', hu⟩ := entryAt?_cons_eq_some_iff.1 hu
    obtain ⟨w', hw', hw⟩ := entryAt?_cons_eq_some_iff.1 hw
    obtain ⟨outs, houts, hout⟩ := fieldAt?_eq_some_iff.1 hu'
    obtain ⟨inputs, hinputs, hinput⟩ := fieldAt?_eq_some_iff.1 hw'
    rw [demandsWithin, fields?, fields?, houts, hinputs] at h
    dsimp only at h
    split at h
    · cases depth with
      | zero => cases h
      | succ depth =>
        obtain ⟨ds', hds', hsub⟩ := mem_fieldDemands h hout hinput
        exact hsub _ (ih hds' hu hw hru hrw)
    · cases h

/-- A demanded entry stands for what an entry of the conditional stands for. -/
theorem Demanded.exists_demand {p : Propagation} {z b u w : Handle} {path : List Nat}
    (h : Demanded p z b) (hs : p.store.Sound) (hu : p.store.entryAt? path z = some u)
    (hw : p.store.entryAt? path b = some w) (hru : p.store.records[u]? = none)
    (hrw : p.store.records[w]? = none) : ∃ d ∈ p.pending, d.out ∈ p.store.sets ∧
      d.input ∈ p.store.sets ∧ p.store.setOf d.out = p.store.setOf u ∧ d.input = w := by
  obtain ⟨hb, out, depth, ds, hout, hset, hrecord, hds, hsub⟩ := h
  have hwmem : w ∈ p.store.sets := (entryAt?_extends hs (.refl hs) path hb).2 w hw
  cases path with
  | nil =>
    obtain rfl := Option.some.inj hu
    have hself : p.store.entryAt? [] out = some out := rfl
    have hmem := mem_demandsWithin hds hself hw (hrecord ▸ hru) hrw
    exact ⟨_, hsub _ hmem, hout, hwmem, hset.symm, rfl⟩
  | cons index path =>
    have hentry : p.store.entryAt? (index :: path) out = some u := by
      rw [entryAt?, ← fieldAt?_congr hrecord]
      exact hu
    have humem := (entryAt?_extends hs (.refl hs) (index :: path) hout).2 u hentry
    have hmem := mem_demandsWithin hds hentry hw hru hrw
    exact ⟨_, hsub _ hmem, humem, hwmem, rfl, rfl⟩

/-! ### Validation without conflicts -/

section Validation

variable {vars : BinderTable} {s : Store} {live : Std.ExtTreeMap Handle HandleSet}

/-- **Demands that find no conflict are met.** -/
theorem joined_of_conflicts_eq : ∀ {ds : List Demand} {w u : Validation}, Consistent live w →
    ds.foldlM (Validation.take vars s) w = .ok u → u.conflicts = w.conflicts →
      ∀ {d : Demand} {a b : Handle}, d ∈ ds → Sides s d a b → u.forest.Joined a b := by
  intro ds
  induction ds with
  | nil => exact fun _ _ _ _ _ _ hd => absurd hd List.not_mem_nil
  | cons e ds ih =>
    intro w u hw h hconflicts d a b hd hsides
    rw [List.foldlM_cons] at h
    obtain ⟨w₁, h₁, h⟩ := bind_eq_ok.1 h
    have htaken := take_spec hw.ranked h₁
    have hw₁ := htaken.consistent hw
    obtain ⟨cs₁, hcs₁⟩ := htaken.conflicts
    obtain ⟨_, hmono, cs, hcs⟩ := foldlM_take_spec ds hw₁ h
    have hnone : cs₁ = [] ∧ cs = [] := by
      rw [hcs, hcs₁, List.append_assoc, List.append_right_eq_self] at hconflicts
      exact List.append_eq_nil_iff.1 hconflicts
    rw [hnone.1, List.append_nil] at hcs₁
    rcases List.mem_cons.1 hd with rfl | hd
    · exact hmono a b (htaken.joined_of_conflicts_eq hcs₁ hsides)
    · exact ih hw₁ h (hconflicts.trans hcs₁.symm) hd hsides

end Validation

/-! ### What is published -/

section Published

variable {vars : BinderTable} {f : Function} {terminal : Pass} {o : Outcome}

theorem isSome_published? : o.published?.isSome = true ↔ o.status = .valid := by
  rw [Outcome.published?]
  split
  · rename_i h
    exact iff_of_true rfl h
  · rename_i h
    exact iff_of_false Bool.false_ne_true h

theorem sharing_mem_required : .sharing ∈ terminal.required ↔ terminal = .sharing := by
  cases terminal <;> decide

/-- **Liveness is published when the demands have been validated without a conflict,** and then
nothing was found at all. -/
theorem published_spec (h : analyze vars f terminal = .ok o) :
    (o.published?.isSome = true ↔
      .sharing ∈ o.passes ∧ formErrors vars f = [] ∧ o.conflicts = []) ∧
    (o.published?.isSome = true → o.diagnostics = []) := by
  rw [isSome_published?]
  by_cases hform : formErrors vars f = []
  · obtain ⟨r, hr, ho⟩ := analyze_eq_ok.1 h
    have hpasses : .sharing ∈ o.passes ↔ terminal = .sharing := by
      rw [← ho, ← sharing_mem_required, ← Run.passes_eq hform hr]
      rfl
    by_cases hterminal : terminal = .sharing
    · subst hterminal
      obtain ⟨r, w, hv⟩ := exists_validated hform h
      obtain ⟨hconsistent, _⟩ := foldlM_take_spec _ (consistent_start r.store r.live) hv.validation
      have hstatus : o.status = .valid ↔ w.conflicts = [] := by
        rw [hv.status_eq, ← List.isEmpty_iff]
        split <;> simp [*]
      rw [hstatus, hv.conflicts_eq, hv.diagnostics_eq]
      refine ⟨⟨fun hc => ⟨hpasses.2 rfl, hform, hc⟩, fun hc => hc.2.2⟩, fun hc => ?_⟩
      rw [← List.length_eq_zero_iff, hconsistent.found, hc]
      rfl
    · have hstatus : o.status ≠ .valid := by
        rw [← ho, Run.outcome]
        by_cases hvalid : r.status = .valid <;> simp [hvalid, hterminal]
      exact ⟨iff_of_false hstatus fun hc => hterminal (hpasses.1 hc.1),
        fun hc => absurd hc hstatus⟩
  · have hstatus : o.status ≠ .valid := fun hvalid =>
      hform (formErrors_eq_nil h (by simp [hvalid]))
    exact ⟨iff_of_false hstatus fun hc => hform hc.2.1, fun hc => absurd hc hstatus⟩

end Published

/-- A path of tuple indices leads from `v` through tracked fields to an entry that is no tuple,
whose smallest identity is `x`. -/
def LeadsTo (s : Store) (path : List Nat) (v x : Handle) : Prop :=
  ∃ u, s.entryAt? path v = some u ∧ s.records[u]? = none ∧ smallest? (s.setOf u) = some x

/-- What a path leads to from a bound handle is settled before the live sets are looked for. -/
theorem leadsTo_of_extends {s t : Store} (hs : s.Sound) (hext : Extends [] s t) {path : List Nat}
    {v x : Handle} (hv : v ∈ s.sets) (h : LeadsTo t path v x) : LeadsTo s path v x := by
  obtain ⟨u, hu, hrecord, hx⟩ := h
  obtain ⟨hentry, hmem⟩ := entryAt?_extends hs hext path hv
  rw [hentry] at hu
  have hu' := hmem u hu
  rw [hext.records hu'] at hrecord
  rw [hext.setOf_eq hu'] at hx
  exact ⟨u, hu, hrecord, hx⟩

/-- **The two sides of a conditional are joined, entry by entry.** -/
theorem Passed.joined {vars : BinderTable} {f : Function} {p : Propagation} {m : LivePoints}
    {w : Validation} (h : Passed vars f p m)
    (hw : validate vars m.store m.live p.pending = .ok w) (hconflicts : w.conflicts = [])
    {z b : Handle} {test thenBranch elseBranch : Expr} {ty : Ty}
    (hz : (z, .cond test thenBranch elseBranch ty) ∈ f.body.allBindings)
    (hb : thenBranch.result = .var b ∨ elseBranch.result = .var b) {path : List Nat} {x y : Handle}
    (hx : LeadsTo m.store path z x) (hy : LeadsTo m.store path b y) : w.forest.Joined x y := by
  have hsound := h.grows.sound
  have hdemanded : Demanded p z b := by
    cases h.denotes hz with
    | @cond _ _ _ _ b₁ b₂ _ h₁ h₂ hd₁ hd₂ =>
      rcases hb with hb | hb
      · exact Expr.var.inj (h₁.symm.trans hb) ▸ hd₁
      · exact Expr.var.inj (h₂.symm.trans hb) ▸ hd₂
  have hzmem : z ∈ p.store.sets :=
    h.grows.bound (List.mem_append_right _ (List.mem_map_of_mem (f := (·.1)) hz))
  obtain ⟨u, hu, hru, hxu⟩ := leadsTo_of_extends hsound h.minted hzmem hx
  obtain ⟨v, hv, hrv, hyv⟩ := leadsTo_of_extends hsound h.minted hdemanded.mem hy
  obtain ⟨d, hd, hout, hinput, hset, rfl⟩ := hdemanded.exists_demand hsound hu hv hru hrv
  have hsides : Sides m.store d x y := by
    rw [Sides, h.minted.setOf_eq hout, h.minted.setOf_eq hinput, hset]
    exact ⟨hxu, hyv⟩
  exact joined_of_conflicts_eq (consistent_start m.store m.live) hw hconflicts hd hsides

/-- **Published liveness honours every mandatory sharing.**  Liveness is published exactly when the
demands have been validated, the form check reports nothing and no conflict is noted.  Then nothing
has been found, and the result of every conditional and the results of its branches share their
buffers: wherever one path of tuple indices leads on both sides, the smallest identities have one
representative. -/
theorem published_honours_demands {source entry : String} {program : Program}
    {warnings : List Diagnostic} {f : Function} {terminal : Pass} {o : Outcome}
    (hread : readProgram source = .ok (program, warnings))
    (hentry : program.function? entry = some f)
    (hanalyze : analyze program.vars f terminal = .ok o) :
    (o.published?.isSome = true ↔
      .sharing ∈ o.passes ∧ formErrors program.vars f = [] ∧ o.conflicts = []) ∧
    (o.published?.isSome = true → o.diagnostics = [] ∧
      ∃ r, Run.upTo program.vars f terminal = .ok r ∧
        ∀ {z test thenBranch elseBranch ty},
          (z, .cond test thenBranch elseBranch ty) ∈ f.body.allBindings →
          ∀ b, thenBranch.result = .var b ∨ elseBranch.result = .var b →
            ∀ path x y, LeadsTo r.store path z x → LeadsTo r.store path b y →
              ∃ root, o.liveness.representative? x = some root ∧
                o.liveness.representative? y = some root) := by
  obtain ⟨hiff, hfound⟩ := published_spec hanalyze
  refine ⟨hiff, fun hpublished => ⟨hfound hpublished, ?_⟩⟩
  obtain ⟨hpasses, hform, hconflicts⟩ := hiff.1 hpublished
  obtain ⟨r, hr, rfl⟩ := analyze_eq_ok.1 hanalyze
  replace hpasses : .sharing ∈ r.passes := hpasses
  rw [Run.passes_eq hform hr, sharing_mem_required] at hpasses
  subst hpasses
  refine ⟨r, hr, fun {z test thenBranch elseBranch ty} hz b hb path x y hx hy => ?_⟩
  obtain ⟨s, v, p, m, w, hs, hp, hm, hw, rfl⟩ := (Run.upTo_sharing_eq_ok hform).1 hr
  have hpassed := passed_of_ok (readProgram_scoped hread hentry) hform hs hp hm
  obtain ⟨root, hrx, hry⟩ := hpassed.joined hw hconflicts hz hb hx hy
  exact ⟨root, Forest.lookup_roots.trans hrx, Forest.lookup_roots.trans hry⟩

/-- A program with a conditional between two tuples. -/
def tuplesSource : String :=
  "fn @main(%c: Tensor, %p: (Tensor, Tensor), %q: (Tensor, Tensor)) \x7b " ++
    "let %z = if (%c) \x7b %p \x7d else \x7b %q \x7d; %z \x7d"

/-- The function of `tuplesSource`. -/
def tuplesFunction : Function :=
  ⟨[0, 1, 2], .letIn 3 (.cond (.var 0) (.var 1) (.var 2) (.tuple [.tensor, .tensor])) (.var 3)⟩

/-- What `tuplesSource` says. -/
def tuplesProgram : Program :=
  ⟨⟨#[⟨"c", .tensor, ⟨9, 19⟩⟩, ⟨"p", .tuple [.tensor, .tensor], ⟨21, 41⟩⟩,
    ⟨"q", .tuple [.tensor, .tensor], ⟨43, 63⟩⟩, ⟨"z", .tuple [.tensor, .tensor], ⟨67, 103⟩⟩]⟩,
    [("main", tuplesFunction)]⟩

set_option maxRecDepth 2000 in
theorem readProgram_tuplesSource : readProgram tuplesSource = .ok (tuplesProgram, []) := by
  cbv

/-- The second fields of the result and of the second branch share a buffer. -/
theorem published_honours_tuples : ∃ o r root,
    readProgram tuplesSource = .ok (tuplesProgram, []) ∧
    analyze tuplesProgram.vars tuplesFunction .sharing = .ok o ∧
    Run.upTo tuplesProgram.vars tuplesFunction .sharing = .ok r ∧
    o.published?.isSome = true ∧ LeadsTo r.store [1] 3 12 ∧ LeadsTo r.store [1] 2 9 ∧
    o.liveness.representative? 12 = some root ∧ o.liveness.representative? 9 = some root := by
  have hentry : tuplesProgram.function? "main" = some tuplesFunction := rfl
  have hrun : ((Run.upTo tuplesProgram.vars tuplesFunction .sharing).toOption.any fun r =>
      r.status = .valid ∧ r.store.entryAt? [1] 3 = some 12 ∧ r.store.entryAt? [1] 2 = some 9 ∧
        r.store.records[12]? = none ∧ r.store.records[9]? = none ∧
        smallest? (r.store.setOf 12) = some 12 ∧ smallest? (r.store.setOf 9) = some 9) = true := by
    decide +kernel
  obtain ⟨r, hr, htest⟩ := exists_ok_of_any hrun
  obtain ⟨hvalid, hz, hq, hzrecord, hqrecord, hzset, hqset⟩ := of_decide_eq_true htest
  have hanalyze := analyze_eq_ok.2 ⟨r, hr, rfl⟩
  have hpublished : (r.outcome tuplesProgram.vars .sharing).published?.isSome = true :=
    isSome_published?.2 ((if_neg fun h => h.2 rfl).trans hvalid)
  have hzleads : LeadsTo r.store [1] 3 12 := ⟨12, hz, hzrecord, hzset⟩
  have hqleads : LeadsTo r.store [1] 2 9 := ⟨9, hq, hqrecord, hqset⟩
  obtain ⟨_, r', hr', hshare⟩ :=
    (published_honours_demands readProgram_tuplesSource hentry hanalyze).2 hpublished
  obtain rfl := Except.ok.inj (hr.symm.trans hr')
  obtain ⟨root, hzroot, hqroot⟩ := hshare List.mem_cons_self 2 (Or.inr rfl) [1] 12 9 hzleads hqleads
  exact ⟨_, r, root, readProgram_tuplesSource, hanalyze, hr, hpublished, hzleads, hqleads, hzroot,
    hqroot⟩

end Analysis
end TensorLiveness
