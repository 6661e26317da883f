/-
# Demands that are refused

A demand is refused because the classes of its two sides are live together at a point that is not
its own site.  Validation goes on, and keeps no note of what it refused: the test of a later demand
leaves out the later site, so a later conditional joins the two classes after all, if its own
site is the only point that they had in common (`refused_apart_or_one_point`).  This does happen
(`refused_joined`).

Where two members of the refused classes are live together, the demand that joins them has its site
(`exists_joining_demand`), and all these demands are the same one, since from the refusal on the
members of a class go the same way (`joining_demand_eq`).
-/

import TensorLiveness.Proofs.Analysis.Reference

namespace TensorLiveness
namespace Analysis

open Identity Program Sharing Store

section Demands

variable {vars : BinderTable} {s : Store} {live : Std.ExtTreeMap Handle HandleSet}
  {w u x y : Validation} {ds : List Demand}

/-- The validation from `w` after the first `n` demands. -/
def takeFirst (vars : BinderTable) (s : Store) (w : Validation) (ds : List Demand) (n : Nat) :
    Except Fault Validation :=
  (ds.take n).foldlM (Validation.take vars s) w

theorem takeFirst_cons {d : Demand} (h : Validation.take vars s w d = .ok x) (n : Nat) :
    takeFirst vars s w (d :: ds) (n + 1) = takeFirst vars s x ds n := by
  rw [takeFirst, List.take_succ_cons, List.foldlM_cons, h]
  rfl

/-- The demand at position `j` is refused: it leaves the conflict `c`, and the classes of its
sides, which have the roots `ra` and `rb`, as they are. -/
structure Refuses (vars : BinderTable) (s : Store) (live : Std.ExtTreeMap Handle HandleSet)
    (w : Validation) (ds : List Demand) (c : Conflict) (j : Nat) (a b ra rb : Handle)
    (x y : Validation) : Prop where
  demand : ds[j]? = some ⟨c.out, c.input, c.site⟩
  sides : Sides s ⟨c.out, c.input, c.site⟩ a b
  before : takeFirst vars s w ds j = .ok x
  after : takeFirst vars s w ds (j + 1) = .ok y
  consistent : Consistent live x
  left : x.forest.IsRootOf a ra
  right : x.forest.IsRootOf b rb
  apart : ra ≠ rb
  points_eq : c.commonPoints = x.commonPoints c.site ra rb
  points_ne_nil : c.commonPoints ≠ []
  ranked : y.forest.Ranked
  roots (v r : Handle) : y.forest.IsRootOf v r ↔ x.forest.IsRootOf v r

/-- **A conflict comes from a demand that was refused.** -/
theorem exists_refuses : ∀ (ds : List Demand) {w u : Validation}, Consistent live w →
    ds.foldlM (Validation.take vars s) w = .ok u → ∀ c ∈ u.conflicts, c ∉ w.conflicts →
      ∃ j a b ra rb x y, Refuses vars s live w ds c j a b ra rb x y := by
  intro ds
  induction ds with
  | nil =>
    intro w u _ h c hc hnew
    obtain rfl := Except.ok.inj h
    exact absurd hc hnew
  | cons d ds ih =>
    intro w u hw h c hc hnew
    rw [List.foldlM_cons] at h
    obtain ⟨w₁, h₁, h⟩ := bind_eq_ok.1 h
    have hjudged := take_judged hw.ranked h₁
    have hcons : ∀ n, takeFirst vars s w (d :: ds) (n + 1) = takeFirst vars s w₁ ds n :=
      takeFirst_cons h₁
    by_cases hold : c ∈ w₁.conflicts
    · cases hjudged with
      | skipped => exact absurd hold hnew
      | met => exact absurd hold hnew
      | accepted => exact absurd hold hnew
      | @refused a b ra rb g found hsides ha hb hne hcommon _ hg hroots =>
        obtain rfl := List.mem_singleton.1 ((List.mem_append.1 hold).resolve_left hnew)
        exact ⟨0, a, b, ra, rb, w, _, rfl, hsides, rfl, hcons 0, hw, ha, hb, hne, rfl, hcommon, hg,
          hroots⟩
    · obtain ⟨j, a, b, ra, rb, x, y, hr⟩ := ih (hjudged.taken.consistent hw) h c hc hold
      exact ⟨j + 1, a, b, ra, rb, x, y, { hr with
        before := hcons j ▸ hr.before, after := hcons (j + 1) ▸ hr.after }⟩

/-- What is joined after the first demands is joined after more of them. -/
theorem joined_of_takeFirst_le {j n : Nat} (hjn : j ≤ n) (hx : takeFirst vars s w ds j = .ok x)
    (hcx : Consistent live x) (hy : takeFirst vars s w ds n = .ok y) :
    Consistent live y ∧ ∀ a b, x.forest.Joined a b → y.forest.Joined a b := by
  obtain ⟨m, rfl⟩ := Nat.exists_eq_add_of_le hjn
  rw [takeFirst] at hx
  rw [takeFirst, List.take_add, List.foldlM_append, hx] at hy
  obtain ⟨hcy, hmono, -⟩ := foldlM_take_spec _ hcx hy
  exact ⟨hcy, hmono⟩

/-- After the first `n` demands the two identities are in one class just if `k < n`. -/
def JoinsAt (vars : BinderTable) (s : Store) (w : Validation) (ds : List Demand) (k : Nat)
    (a b : Handle) : Prop :=
  ∀ n, (∃ x, takeFirst vars s w ds n = .ok x ∧ x.forest.Joined a b) ↔ k < n

/-- **Members of two classes are joined by the demand that joins the classes.** -/
theorem joining_demand_eq {j : Nat} (hx : takeFirst vars s w ds j = .ok x)
    (hcx : Consistent live x) {a b a' b' : Handle} (ha : x.forest.Joined a' a)
    (hb : x.forest.Joined b' b) {k k' : Nat} (hk : JoinsAt vars s w ds k a b)
    (hk' : JoinsAt vars s w ds k' a' b') (hjk : j ≤ k) (hjk' : j ≤ k') : k' = k := by
  have hsame : ∀ {n}, j ≤ n → (k < n ↔ k' < n) := by
    intro n hjn
    rw [← hk, ← hk']
    refine exists_congr fun y => and_congr_right fun hy => ?_
    obtain ⟨-, hmono⟩ := joined_of_takeFirst_le hjn hx hcx hy
    constructor
    · exact fun h => (hmono _ _ ha).trans (h.trans (hmono _ _ hb).symm)
    · exact fun h => (hmono _ _ ha).symm.trans (h.trans (hmono _ _ hb))
  have h₁ := (hsame (n := k + 1) (by omega)).1 (Nat.lt_succ_self k)
  have h₂ := (hsame (n := k' + 1) (by omega)).2 (Nat.lt_succ_self k')
  omega

/-- **If the sides of a refused demand are joined in the end,** a later demand did it, at whose site
and nowhere else the two classes had been live together. -/
theorem Refuses.exists_joining {c : Conflict} {j : Nat} {a b ra rb : Handle}
    (h : Refuses vars s live w ds c j a b ra rb x y) (hw : Consistent live w)
    (hu : ds.foldlM (Validation.take vars s) w = .ok u) (hjoined : u.forest.Joined a b) :
    ∃ k d z z', j < k ∧ ds[k]? = some d ∧ JoinsAt vars s w ds k a b ∧
      takeFirst vars s w ds k = .ok z ∧ takeFirst vars s w ds (k + 1) = .ok z' ∧
      z'.conflicts = z.conflicts ∧ c.commonPoints = [d.site] ∧ d.site ≠ c.site := by
  have hall : takeFirst vars s w ds ds.length = .ok u := by rwa [takeFirst, List.take_length]
  have hjle : j ≤ ds.length := (List.getElem?_eq_some_iff.1 h.demand).1.le
  obtain ⟨-, hmono⟩ := joined_of_takeFirst_le hjle h.before h.consistent hall
  -- members of the two classes are apart up to the refusal, and joined in the end
  have hfirst : ∀ {a' b'}, x.forest.IsRootOf a' ra → x.forest.IsRootOf b' rb → ∃ k d z z', j ≤ k ∧
      ds[k]? = some d ∧ JoinsAt vars s w ds k a' b' ∧ takeFirst vars s w ds k = .ok z ∧
      takeFirst vars s w ds (k + 1) = .ok z' ∧ z'.conflicts = z.conflicts ∧
      ∀ p, LiveAt live p a' → LiveAt live p b' → p = d.site := by
    intro a' b' ha' hb'
    have hapart := Forest.not_joined_of_roots h.consistent.ranked ha' hb' h.apart
    have hjoineda := (Forest.joined_iff h.consistent.ranked).2 ⟨ra, ha', h.left⟩
    have hjoinedb := (Forest.joined_iff h.consistent.ranked).2 ⟨rb, h.right, hb'⟩
    have hend : u.forest.Joined a' b' :=
      (hmono _ _ hjoineda).trans (hjoined.trans (hmono _ _ hjoinedb))
    have hstart : ¬ w.forest.Joined a' b' := fun hj =>
      hapart ((joined_of_takeFirst_le (Nat.zero_le j) rfl hw h.before).2 _ _ hj)
    obtain ⟨k, d, hk, hjoins, ⟨z, z', hz, hz', hc⟩, hpoints⟩ :=
      exists_joining_demand ds hw hu hend hstart
    refine ⟨k, d, z, z', ?_, hk, hjoins, hz, hz', hc, hpoints⟩
    by_contra hlt
    obtain ⟨x', hx', hj⟩ := (hjoins j).2 (by omega)
    obtain rfl := Except.ok.inj (h.before.symm.trans hx')
    exact hapart hj
  obtain ⟨k, d, z, z', hjk, hd, hjoins, hz, hz', hc, -⟩ := hfirst h.left h.right
  have hlt : j < k := by
    by_contra hle
    obtain ⟨y', hy', hj⟩ := (hjoins (j + 1)).2 (by omega)
    obtain rfl := Except.ok.inj (h.after.symm.trans hy')
    exact Forest.not_joined_of_roots h.ranked ((h.roots a ra).2 h.left) ((h.roots b rb).2 h.right)
      h.apart hj
  have hpoint : ∀ p ∈ c.commonPoints, p = d.site := by
    intro p hp
    rw [h.points_eq] at hp
    obtain ⟨-, hpa, hpb⟩ := mem_commonPoints.1 hp
    obtain ⟨a', ha', hla⟩ := (h.consistent.points h.left.self).1 hpa
    obtain ⟨b', hb', hlb⟩ := (h.consistent.points h.right.self).1 hpb
    obtain ⟨k', d', -, -, hjk', hd', hjoins', -, -, -, hsite⟩ := hfirst ha' hb'
    have hjoineda := (Forest.joined_iff h.consistent.ranked).2 ⟨ra, ha', h.left⟩
    have hjoinedb := (Forest.joined_iff h.consistent.ranked).2 ⟨rb, hb', h.right⟩
    obtain rfl := joining_demand_eq h.before h.consistent hjoineda hjoinedb hjoins hjoins' hjk hjk'
    obtain rfl := Option.some.inj (hd.symm.trans hd')
    exact hsite p hla hlb
  have hnodup : c.commonPoints.Nodup := by
    rw [h.points_eq]
    exact (sortedLT_of_compare Std.ExtTreeSet.ordered_toList).nodup
  have hsingle : c.commonPoints = [d.site] := by
    obtain ⟨p, ps, hps⟩ := List.exists_cons_of_ne_nil h.points_ne_nil
    rw [hps] at hnodup hpoint ⊢
    obtain rfl := hpoint p List.mem_cons_self
    cases ps with
    | nil => rfl
    | cons q ps =>
      obtain rfl := hpoint q (.tail _ List.mem_cons_self)
      exact absurd List.mem_cons_self (List.nodup_cons.1 hnodup).1
  have hsite : d.site ∈ x.commonPoints c.site ra rb := by
    rw [← h.points_eq, hsingle]
    exact List.mem_singleton_self _
  exact ⟨k, d, z, z', hlt, hd, hjoins, hz, hz', hc, hsingle, (mem_commonPoints.1 hsite).1⟩

end Demands

/-! ### Analysed functions -/

/-- **A refused sharing is applied only through its one common point.**  The smallest identities of
the two sides of a conflict have different representatives in the end, unless a later demand was
accepted that joined them, and its site is the only common point that the conflict notes. -/
theorem refused_apart_or_one_point {vars : BinderTable} {f : Function} {terminal : Pass}
    {o : Outcome} (h : analyze vars f terminal = .ok o) (hran : .sharing ∈ o.passes) {c : Conflict}
    (hc : c ∈ o.conflicts) : ∃ r j a b ra rb, Run.upTo vars f .liveness = .ok r ∧
      o.pending[j]? = some ⟨c.out, c.input, c.site⟩ ∧
      smallest? (r.store.setOf c.out) = some a ∧ smallest? (r.store.setOf c.input) = some b ∧
      o.liveness.representative? a = some ra ∧ o.liveness.representative? b = some rb ∧
      (ra ≠ rb ∨ ∃ k d, j < k ∧ o.pending[k]? = some d ∧ AcceptedAt vars f k ∧
        (∀ n, JoinedAfter vars f n a b ↔ k < n) ∧ c.commonPoints = [d.site] ∧
        d.site ≠ c.site) := by
  obtain ⟨hform, rfl⟩ := formErrors_eq_nil_of_sharing h hran
  obtain ⟨r, w, hv⟩ := exists_validated hform h
  rw [hv.conflicts_eq] at hc
  have hstart := consistent_start r.store r.live
  obtain ⟨j, a, b, ra, rb, x, y, hr⟩ :=
    exists_refuses r.pending hstart hv.validation c hc List.not_mem_nil
  have hall : takeFirst vars r.store (.start r.store r.live) r.pending r.pending.length =
      .ok w := by
    rw [takeFirst, List.take_length]
    exact hv.validation
  obtain ⟨hcw, hmono⟩ := joined_of_takeFirst_le (List.getElem?_eq_some_iff.1 hr.demand).1.le
    hr.before hr.consistent hall
  have hself : ∀ {v root}, x.forest.IsRootOf v root → ∃ root', w.forest.root? v = some root' := by
    intro v root hroot
    obtain ⟨root', hroot', -⟩ :=
      hmono v v ((Forest.joined_iff hr.consistent.ranked).2 ⟨root, hroot, hroot⟩)
    exact ⟨root', hroot'⟩
  obtain ⟨ra', ha'⟩ := hself hr.left
  obtain ⟨rb', hb'⟩ := hself hr.right
  have hrepresentative : ∀ v, o.liveness.representative? v = w.forest.root? v := by
    intro v
    rw [Liveness.representative?, hv.roots_eq, Forest.lookup_roots]
  refine ⟨r, j, a, b, ra', rb', hv.run, by rw [hv.pending_eq]; exact hr.demand, hr.sides.1,
    hr.sides.2, by rw [hrepresentative, ha'], by rw [hrepresentative, hb'], ?_⟩
  by_cases hne : ra' = rb'
  · subst hne
    obtain ⟨k, d, z, z', hjk, hd, hjoins, hz, hz', hconflicts, hpoints, hsite⟩ :=
      hr.exists_joining hstart hv.validation ⟨ra', ha', hb'⟩
    have hafter : ∀ n, validationAfter vars f n =
        takeFirst vars r.store (.start r.store r.live) r.pending n := by
      intro n
      rw [validationAfter, hv.run]
      rfl
    refine Or.inr ⟨k, d, hjk, by rw [hv.pending_eq]; exact hd, ⟨z, z', ?_, ?_, hconflicts⟩,
      fun n => ?_, hpoints, hsite⟩
    · rw [hafter, hz]
    · rw [hafter, hz']
    · rw [JoinedAfter, hafter]
      exact hjoins n
  · exact Or.inl hne

/-- A program with two conditionals, of which the second chooses between the result of the first
and what that one was to share its buffer with. -/
def rejoinedSource : String :=
  "fn @main(%c: Tensor, %y: Tensor) \x7b let %z = if (%c) \x7b %y \x7d else \x7b %y \x7d; " ++
    "let %w = if (%c) \x7b %z \x7d else \x7b %y \x7d; %w \x7d"

/-- The function of `rejoinedSource`. -/
def rejoinedFunction : Function :=
  ⟨[0, 1], .letIn 2 (.cond (.var 0) (.var 1) (.var 1) .tensor)
    (.letIn 3 (.cond (.var 0) (.var 2) (.var 1) .tensor) (.var 3))⟩

/-- What `rejoinedSource` says. -/
def rejoinedProgram : Program :=
  ⟨⟨#[⟨"c", .tensor, ⟨9, 19⟩⟩, ⟨"y", .tensor, ⟨21, 31⟩⟩, ⟨"z", .tensor, ⟨35, 71⟩⟩,
    ⟨"w", .tensor, ⟨72, 108⟩⟩]⟩, [("main", rejoinedFunction)]⟩

/-- The demand of the first conditional, refused because of the second one. -/
def rejoinedConflict : Conflict := ⟨6, 1, 2, [3]⟩

theorem readProgram_rejoinedSource : readProgram rejoinedSource = .ok (rejoinedProgram, []) := by
  cbv

/-- What the analysis makes of `rejoinedSource`. -/
theorem rejoined_analysed : ∃ o r, analyze rejoinedProgram.vars rejoinedFunction .sharing = .ok o ∧
    Run.upTo rejoinedProgram.vars rejoinedFunction .liveness = .ok r ∧ .sharing ∈ o.passes ∧
    rejoinedConflict ∈ o.conflicts ∧ smallest? (r.store.setOf 6) = some 6 ∧
    smallest? (r.store.setOf 1) = some 5 ∧ o.liveness.representative? 6 = some 7 ∧
    o.liveness.representative? 5 = some 7 := by
  have hrun : ((analyze rejoinedProgram.vars rejoinedFunction .sharing).toOption.any fun o =>
      .sharing ∈ o.passes ∧ rejoinedConflict ∈ o.conflicts ∧
        o.liveness.representative? 6 = some 7 ∧ o.liveness.representative? 5 = some 7) = true := by
    decide +kernel
  have hstore : ((Run.upTo rejoinedProgram.vars rejoinedFunction .liveness).toOption.any fun r =>
      smallest? (r.store.setOf 6) = some 6 ∧ smallest? (r.store.setOf 1) = some 5) = true := by
    decide +kernel
  obtain ⟨o, ho, htest⟩ := exists_ok_of_any hrun
  obtain ⟨hran, hconflict, hz, hy⟩ := of_decide_eq_true htest
  obtain ⟨r, hr, hsides⟩ := exists_ok_of_any hstore
  obtain ⟨hout, hinput⟩ := of_decide_eq_true hsides
  exact ⟨o, r, ho, hr, hran, hconflict, hout, hinput, hz, hy⟩

/-- **The second conditional** joins what the first one could not, and its own site is the point in
common. -/
theorem refused_joined_by_second : ∃ o k d,
    readProgram rejoinedSource = .ok (rejoinedProgram, []) ∧
    analyze rejoinedProgram.vars rejoinedFunction .sharing = .ok o ∧
    rejoinedConflict ∈ o.conflicts ∧ o.pending[k]? = some d ∧ d.site = 3 ∧
    AcceptedAt rejoinedProgram.vars rejoinedFunction k ∧
    ∀ n, JoinedAfter rejoinedProgram.vars rejoinedFunction n 6 5 ↔ k < n := by
  obtain ⟨o, r, ho, hr, hran, hconflict, hout, hinput, hz, hy⟩ := rejoined_analysed
  obtain ⟨r', j, a, b, ra, rb, hr', -, ha, hb, hra, hrb, hjoined⟩ :=
    refused_apart_or_one_point ho hran hconflict
  obtain rfl := Except.ok.inj (hr.symm.trans hr')
  obtain rfl := Option.some.inj (hout.symm.trans ha)
  obtain rfl := Option.some.inj (hinput.symm.trans hb)
  have heq : ra = rb :=
    Option.some.inj ((hra.symm.trans hz).trans (hrb.symm.trans hy).symm)
  obtain ⟨k, d, -, hd, haccepted, hafter, hpoints, -⟩ := hjoined.resolve_left fun hne => hne heq
  exact ⟨o, k, d, readProgram_rejoinedSource, ho, hconflict, hd, (List.cons.inj hpoints).1.symm,
    haccepted, hafter⟩

/-- **A refused sharing is applied after all:** the two sides of the conflict end with one
representative. -/
theorem refused_joined : ∃ o r, readProgram rejoinedSource = .ok (rejoinedProgram, []) ∧
    analyze rejoinedProgram.vars rejoinedFunction .sharing = .ok o ∧
    Run.upTo rejoinedProgram.vars rejoinedFunction .liveness = .ok r ∧ .sharing ∈ o.passes ∧
    ∃ c ∈ o.conflicts, ∃ a b, smallest? (r.store.setOf c.out) = some a ∧
      smallest? (r.store.setOf c.input) = some b ∧
      ¬ o.liveness.representative? a ≠ o.liveness.representative? b := by
  obtain ⟨o, r, ho, hr, hran, hconflict, hout, hinput, hz, hy⟩ := rejoined_analysed
  exact ⟨o, r, readProgram_rejoinedSource, ho, hr, hran, _, hconflict, 6, 5, hout, hinput,
    fun hne => hne (hz.trans hy.symm)⟩

end Analysis
end TensorLiveness
