/-
# Classes of buffers that may share memory

Taking one demand leaves the classes as they are, or joins two of them whose points have nothing
but the site of the demand in common.  `Taken` tells these cases apart once; everything about
the validation is read off it:

| statement | about |
| --- | --- |
| `Taken.consistent` | the points kept with a root are those where a member of its class is live |
| `Taken.joined` | classes only grow |
| `Taken.eq_site` | two identities that become members of one class have no other point in common |
| `joined_of_foldlM_take` | a list of demands, by induction |

`class_interference` says it of an analysed function: members of one class are live together at
the conditional that joined them, and nowhere else.
-/

import TensorLiveness.Proofs.Analysis.Run

namespace TensorLiveness
namespace Analysis

open Identity Program Sharing Store

/-! ### Points of identities -/

/-- `v` is live at `point`. -/
def LiveAt (live : Std.ExtTreeMap Handle HandleSet) (point v : Handle) : Prop :=
  ∃ set, live[point]? = some set ∧ v ∈ set

theorem pointsOf_insert (points : PointMap) (v : Handle) (set : HandleSet) (u : Handle) :
    PointMap.pointsOf (points.insert v set) u = if v = u then set else points.pointsOf u := by
  rw [PointMap.pointsOf, Std.ExtTreeMap.getElem?_insert]
  simp only [Std.LawfulEqOrd.compare_eq_iff_eq]
  split
  · rfl
  · rfl

theorem mem_pointsOf_addPoint {points : PointMap} {point v p u : Handle} :
    p ∈ (points.addPoint point v).pointsOf u ↔ p ∈ points.pointsOf u ∨ u = v ∧ p = point := by
  rw [PointMap.addPoint, pointsOf_insert]
  split
  · rename_i heq
    subst heq
    rw [Std.ExtTreeSet.mem_insert, Std.LawfulEqOrd.compare_eq_iff_eq, or_comm]
    exact or_congr_right ⟨fun h => ⟨rfl, h.symm⟩, fun h => h.2.symm⟩
  · rename_i hne
    exact ⟨Or.inl, fun h => h.elim id fun h => absurd h.1.symm hne⟩

theorem mem_pointsOf_foldl_addPoint {point p u : Handle} : ∀ (vs : List Handle)
    {points : PointMap}, p ∈ (vs.foldl (fun ps v => ps.addPoint point v) points).pointsOf u ↔
      p ∈ points.pointsOf u ∨ u ∈ vs ∧ p = point := by
  intro vs
  induction vs with
  | nil => simp
  | cons v vs ih =>
    intro points
    rw [List.foldl_cons, ih, mem_pointsOf_addPoint, List.mem_cons, or_assoc, ← or_and_right]

/-- **Every identity has the points at which it is live.** -/
theorem mem_pointsOf_invertLive {live : Std.ExtTreeMap Handle HandleSet} {p u : Handle} :
    p ∈ (invertLive live).pointsOf u ↔ LiveAt live p u := by
  have hfold : ∀ (es : List (Handle × HandleSet)) {points : PointMap},
      p ∈ (es.foldl (fun ps e => e.2.toList.foldl (fun q v => q.addPoint e.1 v) ps)
        points).pointsOf u ↔ p ∈ points.pointsOf u ∨ ∃ set, (p, set) ∈ es ∧ u ∈ set := by
    intro es
    induction es with
    | nil => simp
    | cons e es ih =>
      intro points
      obtain ⟨point, set⟩ := e
      rw [List.foldl_cons, ih, mem_pointsOf_foldl_addPoint, Std.ExtTreeSet.mem_toList, or_assoc]
      refine or_congr_right ⟨?_, ?_⟩
      · rintro (⟨hu, rfl⟩ | ⟨set', hmem, hu⟩)
        · exact ⟨set, List.mem_cons_self, hu⟩
        · exact ⟨set', List.mem_cons_of_mem _ hmem, hu⟩
      · rintro ⟨set', hmem, hu⟩
        rcases List.mem_cons.1 hmem with heq | hmem
        · obtain ⟨rfl, rfl⟩ := Prod.mk.inj heq
          exact Or.inl ⟨hu, rfl⟩
        · exact Or.inr ⟨set', hmem, hu⟩
  have hempty : p ∉ PointMap.pointsOf (∅ : Std.ExtTreeMap Handle HandleSet) u := by
    rw [PointMap.pointsOf, Std.ExtTreeMap.getElem?_empty]
    exact Std.ExtTreeSet.not_mem_empty
  rw [invertLive, hfold, or_iff_right hempty]
  simp only [LiveAt, Std.ExtTreeMap.mem_toList_iff_getElem?_eq_some]

theorem mem_pointsOf_movePoints {points : PointMap} {root absorbed p r : Handle}
    (hr : r ≠ absorbed) :
    p ∈ (Validation.movePoints points root absorbed).pointsOf r ↔
      p ∈ points.pointsOf r ∨ r = root ∧ p ∈ points.pointsOf absorbed := by
  have herase : PointMap.pointsOf (points.erase absorbed) r = points.pointsOf r := by
    rw [PointMap.pointsOf, Std.ExtTreeMap.getElem?_erase]
    simp only [Std.LawfulEqOrd.compare_eq_iff_eq, if_neg (Ne.symm hr)]
    rfl
  rw [Validation.movePoints, pointsOf_insert, herase]
  by_cases hroot : root = r
  · rw [if_pos hroot, Std.ExtTreeSet.mem_union_iff, hroot]
    simp
  · rw [if_neg hroot]
    simp [Ne.symm hroot]

/-! ### One demand -/

section Step

variable {vars : BinderTable} {s : Store} {live : Std.ExtTreeMap Handle HandleSet}
variable {w u : Validation} {d : Demand}

/-- The smallest identities of the two sides of a demand are `a` and `b`. -/
def Sides (s : Store) (d : Demand) (a b : Handle) : Prop :=
  smallest? (s.setOf d.out) = some a ∧ smallest? (s.setOf d.input) = some b

/-- How a demand is judged: it is skipped, found met, refused because the classes of its two sides
are live together, or accepted. -/
inductive Judged (s : Store) (w : Validation) (d : Demand) : Validation → Prop
  | skipped : (∀ a b, ¬ Sides s d a b) → Judged s w d w
  | met {a b root : Handle} {g : Forest Handle} : Sides s d a b → w.forest.IsRootOf a root →
    w.forest.IsRootOf b root → g.Ranked → (∀ j r, g.IsRootOf j r ↔ w.forest.IsRootOf j r) →
    Judged s w d { w with forest := g }
  | refused {a b ra rb : Handle} {g : Forest Handle} (found : Diagnostic) : Sides s d a b →
    w.forest.IsRootOf a ra → w.forest.IsRootOf b rb → ra ≠ rb →
    w.commonPoints d.site ra rb ≠ [] → found.code = some .sharingConflict → g.Ranked →
    (∀ j r, g.IsRootOf j r ↔ w.forest.IsRootOf j r) →
    Judged s w d { w with
      forest := g
      conflicts := w.conflicts ++ [⟨d.out, d.input, d.site, w.commonPoints d.site ra rb⟩]
      diagnostics := w.diagnostics ++ [found] }
  | accepted {a b ra rb root : Handle} {g : Forest Handle} : Sides s d a b →
    w.forest.IsRootOf a ra → w.forest.IsRootOf b rb → ra ≠ rb →
    w.commonPoints d.site ra rb = [] → root = ra ∨ root = rb → g.Ranked →
    (∀ j r, g.IsRootOf j r ↔
      ∃ t, w.forest.IsRootOf j t ∧ r = if t = ra ∨ t = rb then root else t) →
    Judged s w d { w with
      forest := g, points := Validation.movePoints w.points root (if root = ra then rb else ra) }

/-- Two roots are joined, or the demand is refused. -/
theorem joinRoots_spec {a b ra rb : Handle} {f : Forest Handle} (hf : f.Ranked)
    (hroots : ∀ j r, f.IsRootOf j r ↔ w.forest.IsRootOf j r) (hsides : Sides s d a b)
    (ha : w.forest.IsRootOf a ra) (hb : w.forest.IsRootOf b rb) (hne : ra ≠ rb)
    (h : Validation.joinRoots vars s { w with forest := f } d ra rb = .ok u) : Judged s w d u := by
  rw [Validation.joinRoots] at h
  split at h
  · rename_i hcommon
    have hra := (hroots ra ra).2 ha.self
    have hrb := (hroots rb rb).2 hb.self
    obtain ⟨root, g, hunion, hroot, hg, hjoin⟩ := Forest.union_spec hf hra hrb
    simp only [hunion] at h
    obtain rfl := Except.ok.inj h
    simp only [hroots] at hjoin
    exact .accepted hsides ha hb hne hcommon hroot hg hjoin
  · rename_i hcommon
    obtain rfl := Except.ok.inj h
    exact .refused _ hsides ha hb hne hcommon rfl hf hroots

/-- **Taking a demand judges it.** -/
theorem take_judged (hw : w.forest.Ranked) (h : Validation.take vars s w d = .ok u) :
    Judged s w d u := by
  obtain ⟨outs, houts, h⟩ := bind_eq_ok.1 h
  obtain ⟨_, rfl⟩ := identities_eq_ok.1 houts
  split at h
  · rename_i hnone
    obtain rfl := Except.ok.inj h
    refine .skipped fun a b hsides => ?_
    rw [hsides.1] at hnone
    cases hnone
  · rename_i a ha
    obtain ⟨inputs, hinputs, h⟩ := bind_eq_ok.1 h
    obtain ⟨_, rfl⟩ := identities_eq_ok.1 hinputs
    split at h
    · rename_i hnone
      obtain rfl := Except.ok.inj h
      refine .skipped fun a b hsides => ?_
      rw [hsides.2] at hnone
      cases hnone
    · rename_i b hb
      have hsides : Sides s d a b := ⟨ha, hb⟩
      split at h
      · cases h
      · rename_i ra f₁ hfind₁
        split at h
        · cases h
        · rename_i rb f₂ hfind₂
          obtain ⟨hra, hf₁, hroots₁⟩ := Forest.of_find_eq hw hfind₁
          obtain ⟨hrb, hf₂, hroots₂⟩ := Forest.of_find_eq hf₁ hfind₂
          have hroots : ∀ j r, f₂.IsRootOf j r ↔ w.forest.IsRootOf j r := fun j r =>
            (hroots₂ j r).trans (hroots₁ j r)
          replace hrb := (hroots₁ b rb).1 hrb
          split at h
          · rename_i heq
            subst heq
            obtain rfl := Except.ok.inj h
            exact .met hsides hra hrb hf₂ hroots
          · rename_i hne
            exact joinRoots_spec hf₂ hroots hsides hra hrb hne h

/-- What taking a demand comes to for the classes. -/
inductive Taken (s : Store) (w : Validation) (d : Demand) : Validation → Prop
  | skipped : (∀ a b, ¬ Sides s d a b) → Taken s w d w
  | met {a b : Handle} {g : Forest Handle} : Sides s d a b → g.Ranked →
    (∀ j r, g.IsRootOf j r ↔ w.forest.IsRootOf j r) → g.Joined a b →
    Taken s w d { w with forest := g }
  | refused {g : Forest Handle} (conflict : Conflict) (found : Diagnostic) : g.Ranked →
    (∀ j r, g.IsRootOf j r ↔ w.forest.IsRootOf j r) →
    Taken s w d { w with
      forest := g, conflicts := w.conflicts ++ [conflict]
      diagnostics := w.diagnostics ++ [found] }
  | accepted {a b root absorbed : Handle} {g : Forest Handle} : Sides s d a b →
    w.forest.IsRootOf root root → w.forest.IsRootOf absorbed absorbed → root ≠ absorbed →
    (∀ p ∈ w.points.pointsOf root, p ∈ w.points.pointsOf absorbed → p = d.site) → g.Ranked →
    (∀ j r, g.IsRootOf j r ↔
      ∃ t, w.forest.IsRootOf j t ∧ r = if t = absorbed then root else t) → g.Joined a b →
    Taken s w d { w with
      forest := g, points := Validation.movePoints w.points root absorbed }

theorem mem_commonPoints {site a b p : Handle} : p ∈ w.commonPoints site a b ↔
    p ≠ site ∧ p ∈ w.points.pointsOf a ∧ p ∈ w.points.pointsOf b := by
  rw [Validation.commonPoints, Std.ExtTreeSet.mem_toList, Std.ExtTreeSet.mem_erase,
    Std.ExtTreeSet.mem_inter_iff, ne_eq, Std.LawfulEqOrd.compare_eq_iff_eq, eq_comm]

theorem eq_of_commonPoints_eq_nil {site a b p : Handle} (h : w.commonPoints site a b = [])
    (ha : p ∈ w.points.pointsOf a) (hb : p ∈ w.points.pointsOf b) : p = site := by
  by_contra hne
  have hmem := mem_commonPoints.2 ⟨hne, ha, hb⟩
  rw [h] at hmem
  exact absurd hmem List.not_mem_nil

/-- Two roots that one of them stands for after a union are in one class. -/
theorem joined_of_union {a b ra rb root : Handle} {g : Forest Handle}
    (ha : w.forest.IsRootOf a ra) (hb : w.forest.IsRootOf b rb) (hg : g.Ranked)
    (hjoin : ∀ j r, g.IsRootOf j r ↔
      ∃ t, w.forest.IsRootOf j t ∧ r = if t = ra ∨ t = rb then root else t) : g.Joined a b :=
  (Forest.joined_iff hg).2 ⟨root, (hjoin a root).2 ⟨ra, ha, (if_pos (Or.inl rfl)).symm⟩,
    (hjoin b root).2 ⟨rb, hb, (if_pos (Or.inr rfl)).symm⟩⟩

theorem Judged.taken (h : Judged s w d u) : Taken s w d u := by
  cases h with
  | skipped hnone => exact .skipped hnone
  | met hsides ha hb hg hroots =>
    exact .met hsides hg hroots
      ((Forest.joined_iff hg).2 ⟨_, (hroots _ _).2 ha, (hroots _ _).2 hb⟩)
  | refused found _ _ _ _ _ _ hg hroots => exact .refused _ found hg hroots
  | @accepted a b ra rb root g hsides ha hb hne hcommon hroot hg hjoin =>
    have hjoined := joined_of_union ha hb hg hjoin
    rcases hroot with rfl | rfl
    · rw [if_pos rfl]
      refine .accepted hsides ha.self hb.self hne (fun p hp hp' => ?_) hg (fun j r => ?_) hjoined
      · exact eq_of_commonPoints_eq_nil hcommon hp hp'
      · refine (hjoin j r).trans (exists_congr fun t => and_congr_right fun _ => ?_)
        by_cases ht : t = root <;> simp [ht]
    · rw [if_neg (Ne.symm hne)]
      refine .accepted hsides hb.self ha.self (Ne.symm hne) (fun p hp hp' => ?_) hg
        (fun j r => ?_) hjoined
      · exact eq_of_commonPoints_eq_nil hcommon hp' hp
      · refine (hjoin j r).trans (exists_congr fun t => and_congr_right fun _ => ?_)
        by_cases ht : t = root <;> simp [ht]

/-- **Taking a demand skips it, finds it met, refuses it or joins two classes.** -/
theorem take_spec (hw : w.forest.Ranked) (h : Validation.take vars s w d = .ok u) :
    Taken s w d u := (take_judged hw h).taken

/-! ### What taking a demand preserves -/

/-- What holds on the way through the demands: the points kept with a root are those at which a
member of its class is live, and every conflict comes with a finding. -/
structure Consistent (live : Std.ExtTreeMap Handle HandleSet) (w : Validation) : Prop where
  ranked : w.forest.Ranked
  found : w.diagnostics.length = w.conflicts.length
  points {r p : Handle} : w.forest.IsRootOf r r →
    (p ∈ w.points.pointsOf r ↔ ∃ v, w.forest.IsRootOf v r ∧ LiveAt live p v)

/-- Identities start in classes of their own. -/
theorem start_isRootOf (s : Store) (live : Std.ExtTreeMap Handle HandleSet) :
    (Validation.start s live).forest.Ranked ∧
      ∀ j r, (Validation.start s live).forest.IsRootOf j r → j = r := by
  obtain ⟨hranked, hroots⟩ := Forest.foldl_insert_spec s.leaves Forest.ranked_empty
    fun j r h => absurd h Forest.not_isRootOf_empty
  exact ⟨hranked, fun j r h => ((hroots j r).1 h).1⟩

theorem consistent_start (s : Store) (live : Std.ExtTreeMap Handle HandleSet) :
    Consistent live (.start s live) := by
  obtain ⟨hranked, hself⟩ := start_isRootOf s live
  refine ⟨hranked, rfl, fun {r p} hr => ?_⟩
  have hmem : p ∈ (Validation.start s live).points.pointsOf r ↔ LiveAt live p r :=
    mem_pointsOf_invertLive
  rw [hmem]
  constructor
  · exact fun hp => ⟨r, hr, hp⟩
  · rintro ⟨v, hv, hp⟩
    exact hself v r hv ▸ hp

/-- The same roots have the same points. -/
theorem Consistent.of_roots (hw : Consistent live w) {g : Forest Handle} (hg : g.Ranked)
    (hroots : ∀ j r, g.IsRootOf j r ↔ w.forest.IsRootOf j r) {conflicts : List Conflict}
    {diagnostics : List Diagnostic} (hfound : diagnostics.length = conflicts.length) :
    Consistent live ⟨g, w.points, conflicts, diagnostics⟩ := by
  refine ⟨hg, hfound, fun {r p} hr => ?_⟩
  simp only [hroots] at hr ⊢
  exact hw.points hr

/-- **The points of the classes stay with their roots.** -/
theorem Taken.consistent (h : Taken s w d u) (hw : Consistent live w) : Consistent live u := by
  cases h with
  | skipped _ => exact hw
  | met _ hg hroots _ => exact hw.of_roots hg hroots hw.found
  | refused _ _ hg hroots =>
    refine hw.of_roots hg hroots ?_
    rw [List.length_append, List.length_append, hw.found]
    rfl
  | @accepted a b root absorbed g _ hroot habsorbed hne _ hg hjoin _ =>
    refine ⟨hg, hw.found, fun {r p} hr => ?_⟩
    obtain ⟨t, ht, hrt⟩ := (hjoin r r).1 hr
    have hta : t ≠ absorbed := by
      rintro rfl
      rw [if_pos rfl] at hrt
      exact hne (hroot.unique (hrt ▸ ht))
    rw [if_neg hta] at hrt
    subst hrt
    rw [mem_pointsOf_movePoints hta, hw.points ht, hw.points habsorbed]
    constructor
    · rintro (⟨v, hv, hp⟩ | ⟨rfl, v, hv, hp⟩)
      · exact ⟨v, (hjoin v r).2 ⟨r, hv, (if_neg hta).symm⟩, hp⟩
      · exact ⟨v, (hjoin v r).2 ⟨absorbed, hv, (if_pos rfl).symm⟩, hp⟩
    · rintro ⟨v, hv, hp⟩
      obtain ⟨t, ht, hrt⟩ := (hjoin v r).1 hv
      split at hrt
      · rename_i heq
        exact Or.inr ⟨hrt, v, heq ▸ ht, hp⟩
      · exact Or.inl ⟨v, hrt ▸ ht, hp⟩

/-- **Classes only grow.** -/
theorem Taken.joined (h : Taken s w d u) (hw : w.forest.Ranked) {a b : Handle}
    (hab : w.forest.Joined a b) : u.forest.Joined a b := by
  obtain ⟨r, har, hbr⟩ := (Forest.joined_iff hw).1 hab
  cases h with
  | skipped _ => exact hab
  | met _ hg hroots _ =>
    exact (Forest.joined_iff hg).2 ⟨r, (hroots a r).2 har, (hroots b r).2 hbr⟩
  | refused _ _ hg hroots =>
    exact (Forest.joined_iff hg).2 ⟨r, (hroots a r).2 har, (hroots b r).2 hbr⟩
  | accepted _ _ _ _ _ hg hjoin _ =>
    exact (Forest.joined_iff hg).2
      ⟨_, (hjoin a _).2 ⟨r, har, rfl⟩, (hjoin b _).2 ⟨r, hbr, rfl⟩⟩

/-- Only a demand that is accepted puts two identities into one class. -/
theorem Taken.accepted_of_joined (h : Taken s w d u) (hw : w.forest.Ranked) {a b : Handle}
    (hnew : u.forest.Joined a b) (hold : ¬ w.forest.Joined a b) :
    u.conflicts = w.conflicts ∧ ∃ root absorbed,
      (∀ p ∈ w.points.pointsOf root, p ∈ w.points.pointsOf absorbed → p = d.site) ∧
      u.forest.Ranked ∧ ∀ j r, u.forest.IsRootOf j r ↔
        ∃ t, w.forest.IsRootOf j t ∧ r = if t = absorbed then root else t := by
  have hsame : ∀ {g : Forest Handle}, g.Ranked →
      (∀ j r, g.IsRootOf j r ↔ w.forest.IsRootOf j r) → ¬ g.Joined a b := fun hg hroots hj => by
    rw [Forest.joined_iff hg] at hj
    simp only [hroots] at hj
    exact hold ((Forest.joined_iff hw).2 hj)
  cases h with
  | skipped _ => exact absurd hnew hold
  | met _ hg hroots _ => exact absurd hnew (hsame hg hroots)
  | refused _ _ hg hroots => exact absurd hnew (hsame hg hroots)
  | accepted _ _ _ _ hcommon hg hjoin _ => exact ⟨rfl, _, _, hcommon, hg, hjoin⟩

/-- **Two identities that become members of one class** are live together at the site of the
demand at most. -/
theorem Taken.eq_site (h : Taken s w d u) (hw : Consistent live w) {a b p : Handle}
    (hnew : u.forest.Joined a b) (hold : ¬ w.forest.Joined a b) (ha : LiveAt live p a)
    (hb : LiveAt live p b) : p = d.site := by
  obtain ⟨_, root, absorbed, hcommon, hg, hjoin⟩ := h.accepted_of_joined hw.ranked hnew hold
  obtain ⟨r, har, hbr⟩ := (Forest.joined_iff hg).1 hnew
  obtain ⟨ta, hta, hra⟩ := (hjoin a r).1 har
  obtain ⟨tb, htb, hrb⟩ := (hjoin b r).1 hbr
  have hne : ta ≠ tb := by
    rintro rfl
    exact hold ((Forest.joined_iff hw.ranked).2 ⟨ta, hta, htb⟩)
  have hpa : p ∈ w.points.pointsOf ta := (hw.points hta.self).2 ⟨a, hta, ha⟩
  have hpb : p ∈ w.points.pointsOf tb := (hw.points htb.self).2 ⟨b, htb, hb⟩
  -- of the two old roots one is absorbed, and the other takes it up
  by_cases heqa : ta = absorbed
  · have heqb : tb ≠ absorbed := fun h => hne (heqa.trans h.symm)
    rw [if_pos heqa] at hra
    rw [if_neg heqb, hra] at hrb
    exact hcommon p (hrb ▸ hpb) (heqa ▸ hpa)
  · rw [if_neg heqa] at hra
    by_cases heqb : tb = absorbed
    · rw [if_pos heqb] at hrb
      exact hcommon p (hrb ▸ hra ▸ hpa) (heqb ▸ hpb)
    · rw [if_neg heqb] at hrb
      exact absurd (hra.symm.trans hrb) hne

theorem Taken.conflicts (h : Taken s w d u) : ∃ cs, u.conflicts = w.conflicts ++ cs := by
  cases h with
  | skipped _ => exact ⟨[], (List.append_nil _).symm⟩
  | met _ _ _ _ => exact ⟨[], (List.append_nil _).symm⟩
  | refused conflict _ _ _ => exact ⟨[conflict], rfl⟩
  | accepted _ _ _ _ _ _ _ _ => exact ⟨[], (List.append_nil _).symm⟩

/-- **A demand that is not refused is met from then on.** -/
theorem Taken.joined_of_conflicts_eq (h : Taken s w d u) (hc : u.conflicts = w.conflicts)
    {a b : Handle} (hsides : Sides s d a b) : u.forest.Joined a b := by
  have hsame : ∀ {a' b'}, Sides s d a' b' → a' = a ∧ b' = b := fun h =>
    ⟨Option.some.inj (h.1.symm.trans hsides.1), Option.some.inj (h.2.symm.trans hsides.2)⟩
  cases h with
  | skipped hnone => exact absurd hsides (hnone a b)
  | met h _ _ hjoined =>
    obtain ⟨rfl, rfl⟩ := hsame h
    exact hjoined
  | refused conflict _ _ _ => simp at hc
  | accepted h _ _ _ _ _ _ hjoined =>
    obtain ⟨rfl, rfl⟩ := hsame h
    exact hjoined

end Step

/-! ### All demands -/

section Demands

variable {vars : BinderTable} {s : Store} {live : Std.ExtTreeMap Handle HandleSet}

/-- What taking demands one after the other preserves. -/
theorem foldlM_take_spec : ∀ (ds : List Demand) {w u : Validation}, Consistent live w →
    ds.foldlM (Validation.take vars s) w = .ok u → Consistent live u ∧
      (∀ a b, w.forest.Joined a b → u.forest.Joined a b) ∧
      ∃ cs, u.conflicts = w.conflicts ++ cs := by
  intro ds
  induction ds with
  | nil =>
    intro w u hw h
    obtain rfl := Except.ok.inj h
    exact ⟨hw, fun _ _ h => h, [], (List.append_nil _).symm⟩
  | cons d ds ih =>
    intro w u hw h
    rw [List.foldlM_cons] at h
    obtain ⟨w₁, h₁, h⟩ := bind_eq_ok.1 h
    have htaken := take_spec hw.ranked h₁
    obtain ⟨cs₁, hcs₁⟩ := htaken.conflicts
    obtain ⟨hu, hjoined, cs, hcs⟩ := ih (htaken.consistent hw) h
    refine ⟨hu, fun a b hab => hjoined a b (htaken.joined hw.ranked hab), cs₁ ++ cs, ?_⟩
    rw [hcs, hcs₁, List.append_assoc]

/-- The first demands can be taken if all can. -/
theorem foldlM_take_ok {ds : List Demand} {w u : Validation} (n : Nat)
    (h : ds.foldlM (Validation.take vars s) w = .ok u) :
    ∃ x, (ds.take n).foldlM (Validation.take vars s) w = .ok x := by
  rw [← List.take_append_drop n ds, List.foldlM_append] at h
  obtain ⟨x, hx, _⟩ := bind_eq_ok.1 h
  exact ⟨x, hx⟩

/-- **One demand puts two identities into one class.** -/
theorem exists_joining_demand : ∀ (ds : List Demand) {w u : Validation}, Consistent live w →
    ds.foldlM (Validation.take vars s) w = .ok u → ∀ {a b : Handle}, u.forest.Joined a b →
      ¬ w.forest.Joined a b → ∃ k d, ds[k]? = some d ∧
        (∀ n, (∃ x, (ds.take n).foldlM (Validation.take vars s) w = .ok x ∧
          x.forest.Joined a b) ↔ k < n) ∧
        (∃ x y, (ds.take k).foldlM (Validation.take vars s) w = .ok x ∧
          (ds.take (k + 1)).foldlM (Validation.take vars s) w = .ok y ∧
          y.conflicts = x.conflicts) ∧
        ∀ p, LiveAt live p a → LiveAt live p b → p = d.site := by
  intro ds
  induction ds with
  | nil =>
    intro w u _ h a b hnew hold
    obtain rfl := Except.ok.inj h
    exact absurd hnew hold
  | cons d ds ih =>
    intro w u hw h a b hnew hold
    rw [List.foldlM_cons] at h
    obtain ⟨w₁, h₁, h⟩ := bind_eq_ok.1 h
    have htaken := take_spec hw.ranked h₁
    have hw₁ := htaken.consistent hw
    have hcons : ∀ n, ((d :: ds).take (n + 1)).foldlM (Validation.take vars s) w =
        (ds.take n).foldlM (Validation.take vars s) w₁ := fun n => by
      rw [List.take_succ_cons, List.foldlM_cons, h₁]
      rfl
    have hzero : ((d :: ds).take 0).foldlM (Validation.take vars s) w = .ok w := rfl
    by_cases hjoined : w₁.forest.Joined a b
    · refine ⟨0, d, rfl, fun n => ?_, ⟨w, w₁, hzero, hcons 0, ?_⟩, fun p ha hb => ?_⟩
      · cases n with
        | zero =>
          rw [hzero]
          simpa using hold
        | succ n =>
          obtain ⟨x, hx⟩ := foldlM_take_ok n h
          obtain ⟨_, hmono, _⟩ := foldlM_take_spec (ds.take n) hw₁ hx
          rw [hcons]
          exact iff_of_true ⟨x, hx, hmono a b hjoined⟩ (Nat.succ_pos n)
      · exact (htaken.accepted_of_joined hw.ranked hjoined hold).1
      · exact htaken.eq_site hw hjoined hold ha hb
    · obtain ⟨k, e, hk, hafter, haccepted, hpoints⟩ := ih hw₁ h hnew hjoined
      refine ⟨k + 1, e, hk, fun n => ?_, ?_, hpoints⟩
      · cases n with
        | zero =>
          rw [hzero]
          simpa using hold
        | succ n => rw [hcons, hafter, Nat.succ_lt_succ_iff]
      · simpa only [hcons] using haccepted

end Demands

/-! ### Analysed functions -/

/-- The validation of a function after the first `n` of its demands. -/
def validationAfter (vars : BinderTable) (f : Function) (n : Nat) : Except Fault Validation := do
  let r ← Run.upTo vars f .liveness
  validate vars r.store r.live (r.pending.take n)

/-- Two identities are in one class after the first `n` demands. -/
def JoinedAfter (vars : BinderTable) (f : Function) (n : Nat) (a b : Handle) : Prop :=
  ∃ w, validationAfter vars f n = .ok w ∧ w.forest.Joined a b

/-- The demand at position `k` is no conflict. -/
def AcceptedAt (vars : BinderTable) (f : Function) (k : Nat) : Prop :=
  ∃ w u, validationAfter vars f k = .ok w ∧ validationAfter vars f (k + 1) = .ok u ∧
    u.conflicts = w.conflicts

/-- **Members of one class do not interfere.**  Two identities that end in one class got there by
one demand, which was accepted, and are live together at its site at most; so of each class at
most one member is live at a point that is no conditional. -/
theorem class_interference {vars : BinderTable} {f : Function} {o : Outcome}
    (h : analyze vars f .sharing = .ok o)
    (hstatus : o.status = .valid ∨ o.status = .aliasingConflict) :
    (∀ c ∈ o.liveness.classes, ∀ a ∈ c, ∀ b ∈ c, a ≠ b → ∃ k d, o.pending[k]? = some d ∧
      AcceptedAt vars f k ∧ (∀ n, JoinedAfter vars f n a b ↔ k < n) ∧
      ∀ p set, o.liveness.liveAt? p = some set → a ∈ set → b ∈ set → p = d.site) ∧
    ∀ p set, o.liveness.liveAt? p = some set →
      (∀ value, (p, value) ∈ f.body.allBindings → value.isCond = false) →
      ∀ c ∈ o.liveness.classes, ∀ a ∈ c, ∀ b ∈ c, a ∈ set → b ∈ set → a = b := by
  have hform := formErrors_eq_nil h (by rcases hstatus with h | h <;> simp [h])
  obtain ⟨r, w, hv⟩ := exists_validated hform h
  have hstart := consistent_start r.store r.live
  have hafter : ∀ {n x}, (r.pending.take n).foldlM (Validation.take vars r.store)
      (.start r.store r.live) = .ok x ↔ validationAfter vars f n = .ok x := fun {n x} => by
    rw [validationAfter, hv.run]
    rfl
  have hfirst : ∀ c ∈ o.liveness.classes, ∀ a ∈ c, ∀ b ∈ c, a ≠ b → ∃ k d,
      o.pending[k]? = some d ∧ AcceptedAt vars f k ∧ (∀ n, JoinedAfter vars f n a b ↔ k < n) ∧
      ∀ p set, o.liveness.liveAt? p = some set → a ∈ set → b ∈ set → p = d.site := by
    intro c hc a ha b hb hne
    rw [hv.classes_eq] at hc
    have hnew := Forest.joined_of_mem_classes hc ha hb
    have hold : ¬ (Validation.start r.store r.live).forest.Joined a b := by
      obtain ⟨hranked, hself⟩ := start_isRootOf r.store r.live
      rw [Forest.joined_iff hranked]
      rintro ⟨t, hat, hbt⟩
      exact hne ((hself a t hat).trans (hself b t hbt).symm)
    obtain ⟨k, d, hk, hjoined, haccepted, hpoints⟩ :=
      exists_joining_demand r.pending hstart hv.validation hnew hold
    simp only [hafter] at hjoined haccepted
    refine ⟨k, d, hv.pending_eq ▸ hk, haccepted, hjoined, fun p set hset ha hb => ?_⟩
    rw [Liveness.liveAt?, hv.live_eq] at hset
    exact hpoints p ⟨set, hset, ha⟩ ⟨set, hset, hb⟩
  refine ⟨hfirst, fun p set hset hno c hc a ha b hb hla hlb => ?_⟩
  by_contra hne
  obtain ⟨k, d, hk, _, _, hpoints⟩ := hfirst c hc a ha b hb hne
  obtain rfl := hpoints p set hset hla hlb
  obtain ⟨value, hvalue, hcond⟩ := hv.site_cond (List.mem_of_getElem? hk)
  rw [hno value hvalue] at hcond
  cases hcond

/-- The binders of `sharedFunction`. -/
def sharedVars : BinderTable :=
  ⟨#[⟨"c", .tensor, ⟨0, 1⟩⟩, ⟨"x", .tensor, ⟨1, 2⟩⟩, ⟨"y", .tensor, ⟨2, 3⟩⟩,
    ⟨"z", .tensor, ⟨3, 4⟩⟩]⟩

/-- A conditional between the results of two calls. -/
def sharedFunction : Function :=
  ⟨[0], .letIn 3 (.cond (.var 0)
    (.letIn 1 (.call (.op "add") [.var 0, .var 0] .tensor) (.var 1))
    (.letIn 2 (.call (.op "neg") [.var 0] .tensor) (.var 2)) .tensor) (.var 3)⟩

/-- The two results share a buffer because of the conditional, and are never live together
elsewhere. -/
theorem class_interference_of_calls : ∃ o, analyze sharedVars sharedFunction .sharing = .ok o ∧
    o.status = .valid ∧ ∃ k d, o.pending[k]? = some d ∧
      AcceptedAt sharedVars sharedFunction k ∧
      (∀ n, JoinedAfter sharedVars sharedFunction n 5 6 ↔ k < n) ∧
      ∀ p set, o.liveness.liveAt? p = some set → 5 ∈ set → 6 ∈ set → p = d.site := by
  have hrun : ((analyze sharedVars sharedFunction .sharing).toOption.any fun o =>
      o.status = .valid ∧ o.liveness.classes = [[4], [5, 6, 7]]) = true := by decide +kernel
  obtain ⟨o, ho, htest⟩ := exists_ok_of_any hrun
  obtain ⟨hstatus, hclasses⟩ := of_decide_eq_true htest
  have hmem : [5, 6, 7] ∈ o.liveness.classes := by simp [hclasses]
  refine ⟨o, ho, hstatus, ?_⟩
  exact (class_interference ho (Or.inl hstatus)).1 [5, 6, 7] hmem 5 (by simp) 6 (by simp)
    (by decide)

end Analysis
end TensorLiveness
