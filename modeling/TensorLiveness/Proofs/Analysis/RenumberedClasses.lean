/-
# Classes under other handles

Two validations take the same demands over the same leaves, under handles that `ρ` relates in order,
but with live sets that need have nothing to do with each other.  As long as neither notes a
conflict their classes correspond (`ClassesFollow`): what a demand joins does not depend on live
sets, only whether it is refused does.

| statement | about |
| --- | --- |
| `Judged.joined_iff` | what one demand joins that is not refused |
| `ClassesFollow.conflicts_eq_iff` | when the second validation accepts what the first accepts |
| `classesFollow_foldlM` | a list of demands |
| `ClassesFollow.classes_eq` | the classes as they are listed |
-/

import TensorLiveness.Proofs.Analysis.Faults.LivePoints
import TensorLiveness.Proofs.Analysis.Refusal
import TensorLiveness.Proofs.Analysis.Renumbering

namespace TensorLiveness
namespace Analysis

open Identity Program Sharing Store

variable {ρ : Handle → Handle} {vars vars' : BinderTable} {s s' : Store}
  {live live' : Std.ExtTreeMap Handle HandleSet} {w w' u u' : Validation} {d : Demand}

/-! ### One demand -/

/-- A demand has one pair of sides. -/
theorem exists_sides_iff {a b : Handle} (h : Sides s d a b) {P : Handle → Handle → Prop} :
    (∃ a b, Sides s d a b ∧ P a b) ↔ P a b := by
  refine ⟨?_, fun hP => ⟨a, b, h, hP⟩⟩
  rintro ⟨a', b', h', hP⟩
  obtain rfl := Option.some.inj (h'.1.symm.trans h.1)
  obtain rfl := Option.some.inj (h'.2.symm.trans h.2)
  exact hP

/-- **A demand that is not refused joins the classes of its two sides,** if it has two, and no
others. -/
theorem Judged.joined_iff (h : Judged s w d u) (hw : w.forest.Ranked)
    (hc : u.conflicts = w.conflicts) (x y : Handle) : u.forest.Joined x y ↔
    w.forest.Joined x y ∨ ∃ a b, Sides s d a b ∧
      (w.forest.Joined x a ∧ w.forest.Joined b y ∨ w.forest.Joined x b ∧ w.forest.Joined a y) := by
  cases h with
  | skipped hnone => exact (or_iff_left fun ⟨a, b, hsides, _⟩ => hnone a b hsides).symm
  | @met a b root g hsides ha hb hg hroots =>
    have hsame : ∀ x y, g.Joined x y ↔ w.forest.Joined x y := fun x y => by
      rw [Forest.joined_iff hg, Forest.joined_iff hw]
      simp only [hroots]
    have hab : w.forest.Joined a b := (Forest.joined_iff hw).2 ⟨root, ha, hb⟩
    rw [exists_sides_iff hsides]
    refine (hsame x y).trans (or_iff_left_of_imp ?_).symm
    rintro (⟨hx, hy⟩ | ⟨hx, hy⟩)
    · exact hx.trans (hab.trans hy)
    · exact hx.trans (hab.symm.trans hy)
  | refused => simp at hc
  | accepted hsides ha hb _ _ hroot hg hjoin =>
    rw [exists_sides_iff hsides]
    exact Forest.joined_iff_of_roots hw hg ha hb hroot hjoin x y

/-! ### Sides -/

theorem sortedLT_map (hρ : StrictMono ρ) {l : List Handle} (h : l.SortedLT) :
    (l.map ρ).SortedLT :=
  (List.pairwise_map.2 (h.pairwise.imp fun hab => hρ hab)).sortedLT

theorem toList_renumberSet (hρ : StrictMono ρ) (set : HandleSet) :
    (renumberSet ρ set).toList = set.toList.map ρ := by
  refine List.SortedLT.eq_of_mem_iff (sortedLT_of_compare Std.ExtTreeSet.ordered_toList)
    (sortedLT_map hρ (sortedLT_of_compare Std.ExtTreeSet.ordered_toList)) fun v => ?_
  simp only [Std.ExtTreeSet.mem_toList, mem_renumberSet, List.mem_map]

theorem smallest?_renumberSet (hρ : StrictMono ρ) (set : HandleSet) :
    smallest? (renumberSet ρ set) = (smallest? set).map ρ := by
  rw [smallest?, smallest?, toList_renumberSet hρ, List.head?_map]

/-- The two sides of a demand stand for the same under other handles. -/
def SidesFollow (ρ : Handle → Handle) (s s' : Store) (d : Demand) : Prop :=
  s'.setOf (ρ d.out) = renumberSet ρ (s.setOf d.out) ∧
    s'.setOf (ρ d.input) = renumberSet ρ (s.setOf d.input)

theorem sides_renumber (hρ : StrictMono ρ) (h : SidesFollow ρ s s' d) {a' b' : Handle} :
    Sides s' (d.renumber ρ) a' b' ↔ ∃ a b, Sides s d a b ∧ ρ a = a' ∧ ρ b = b' := by
  rw [Sides, show (d.renumber ρ).out = ρ d.out from rfl,
    show (d.renumber ρ).input = ρ d.input from rfl, h.1, h.2, smallest?_renumberSet hρ,
    smallest?_renumberSet hρ, Option.map_eq_some_iff, Option.map_eq_some_iff]
  constructor
  · rintro ⟨⟨a, ha, hρa⟩, b, hb, hρb⟩
    exact ⟨a, b, ⟨ha, hb⟩, hρa, hρb⟩
  · rintro ⟨a, b, ⟨ha, hb⟩, hρa, hρb⟩
    exact ⟨⟨a, ha, hρa⟩, b, hb, hρb⟩

/-! ### Classes -/

/-- The same classes under other handles. -/
structure ClassesFollow (ρ : Handle → Handle) (w w' : Validation) : Prop where
  joined (a b : Handle) : w'.forest.Joined (ρ a) (ρ b) ↔ w.forest.Joined a b
  exists_key {v' : Handle} : w'.forest.Joined v' v' → ∃ v, ρ v = v'

/-- Leaves in classes of their own. -/
theorem classesFollow_start (hρ : StrictMono ρ)
    (hleaf : ∀ v, s'.isLeaf (ρ v) = true ↔ s.isLeaf v = true)
    (hkey : ∀ v', s'.isLeaf v' = true → ∃ v, ρ v = v') :
    ClassesFollow ρ (.start s live) (.start s' live') := by
  have hjoined : ∀ (s : Store) (live : Std.ExtTreeMap Handle HandleSet) (a b : Handle),
      (Validation.start s live).forest.Joined a b ↔ a = b ∧ s.isLeaf a = true := by
    intro s live a b
    rw [Forest.joined_iff (start_isRootOf s live).1]
    simp only [isRootOf_start_iff, mem_leaves]
    constructor
    · rintro ⟨r, ⟨rfl, ha⟩, rfl, _⟩
      exact ⟨rfl, ha⟩
    · rintro ⟨rfl, ha⟩
      exact ⟨a, ⟨rfl, ha⟩, rfl, ha⟩
  refine ⟨fun a b => ?_, fun {v'} h => hkey v' ((hjoined _ _ _ _).1 h).2⟩
  rw [hjoined, hjoined, hρ.injective.eq_iff, hleaf]

/-- **A demand that neither validation refuses** keeps their classes in step. -/
theorem ClassesFollow.judged (h : ClassesFollow ρ w w') (hρ : StrictMono ρ)
    (hd : SidesFollow ρ s s' d) (hw : w.forest.Ranked) (hw' : w'.forest.Ranked)
    (hu : Judged s w d u) (hu' : Judged s' w' (d.renumber ρ) u')
    (hc : u.conflicts = w.conflicts) (hc' : u'.conflicts = w'.conflicts) :
    ClassesFollow ρ u u' := by
  refine ⟨fun x y => ?_, fun {v'} hv => ?_⟩
  · rw [hu'.joined_iff hw' hc', hu.joined_iff hw hc, h.joined]
    refine or_congr_right ?_
    simp only [sides_renumber hρ hd]
    constructor
    · rintro ⟨_, _, ⟨a, b, hsides, rfl, rfl⟩, hxy⟩
      simp only [h.joined] at hxy
      exact ⟨a, b, hsides, hxy⟩
    · rintro ⟨a, b, hsides, hxy⟩
      refine ⟨ρ a, ρ b, ⟨a, b, hsides, rfl, rfl⟩, ?_⟩
      simpa only [h.joined] using hxy
  · refine h.exists_key ?_
    rcases (hu'.joined_iff hw' hc' v' v').1 hv with hv | ⟨a, b, _, ⟨hv, _⟩ | ⟨hv, _⟩⟩
    · exact hv
    · exact hv.trans hv.symm
    · exact hv.trans hv.symm

/-- **When the second validation accepts a demand** that the first accepts: what is joined by it may
be live together at its site only. -/
theorem ClassesFollow.conflicts_eq_iff (h : ClassesFollow ρ w w') (hρ : StrictMono ρ)
    (hd : SidesFollow ρ s s' d) (hw : w.forest.Ranked) (hw' : Consistent live' w')
    (hu : Judged s w d u) (hu' : Judged s' w' (d.renumber ρ) u') (hc : u.conflicts = w.conflicts) :
    u'.conflicts = w'.conflicts ↔ ∀ a b, u.forest.Joined a b → ¬ w.forest.Joined a b →
      ∀ p, LiveAt live' p (ρ a) → LiveAt live' p (ρ b) → p = ρ d.site := by
  constructor
  · intro hc' a b hnew hold p ha hb
    have hfollow := h.judged hρ hd hw hw'.ranked hu hu' hc hc'
    exact hu'.taken.eq_site hw' ((hfollow.joined a b).2 hnew) (fun h' => hold ((h.joined a b).1 h'))
      ha hb
  · intro hapart
    cases hu' with
    | skipped => rfl
    | met => rfl
    | accepted => rfl
    | @refused a' b' ra rb g found hsides ha hb hne hcommon _ _ _ =>
      exfalso
      obtain ⟨a, b, hsides', rfl, rfl⟩ := (sides_renumber hρ hd).1 hsides
      obtain ⟨p, hp⟩ := List.exists_mem_of_ne_nil _ hcommon
      obtain ⟨hpsite, hpa, hpb⟩ := mem_commonPoints.1 hp
      obtain ⟨x', hx, hxlive⟩ := (hw'.points ha.self).1 hpa
      obtain ⟨y', hy, hylive⟩ := (hw'.points hb.self).1 hpb
      have hjoined : ∀ {v t r}, w'.forest.IsRootOf v r → w'.forest.IsRootOf t r →
          w'.forest.Joined v t := fun hv ht => (Forest.joined_iff hw'.ranked).2 ⟨_, hv, ht⟩
      obtain ⟨x, rfl⟩ := h.exists_key (hjoined hx hx)
      obtain ⟨y, rfl⟩ := h.exists_key (hjoined hy hy)
      have hxa := (h.joined x a).1 (hjoined hx ha)
      have hyb := (h.joined y b).1 (hjoined hy hb)
      -- the two classes are apart, and the first validation joins them
      have hold : ¬ w.forest.Joined x y := fun hxy => by
        refine Forest.not_joined_of_roots hw'.ranked ha hb hne ((h.joined a b).2 ?_)
        exact hxa.symm.trans (hxy.trans hyb)
      have hnew : u.forest.Joined x y :=
        (hu.joined_iff hw hc x y).2 (Or.inr ⟨a, b, hsides', Or.inl ⟨hxa, hyb.symm⟩⟩)
      exact hpsite (hapart x y hnew hold p hxlive hylive)

/-! ### All demands -/

/-- No conflict at the end is none at the first demand. -/
theorem conflicts_eq_of_cons {ds : List Demand} {x : Validation} (hw : Consistent live w)
    (hx : Validation.take vars s w d = .ok x)
    (h : ds.foldlM (Validation.take vars s) x = .ok u) (hc : u.conflicts = w.conflicts) :
    x.conflicts = w.conflicts ∧ u.conflicts = x.conflicts := by
  have htaken := take_spec hw.ranked hx
  obtain ⟨cs, hcs⟩ := htaken.conflicts
  obtain ⟨-, -, cs', hcs'⟩ := foldlM_take_spec ds (htaken.consistent hw) h
  rw [hcs', hcs, List.append_assoc, List.append_right_eq_self, List.append_eq_nil_iff] at hc
  rw [hcs', hcs, hc.1, hc.2, List.append_nil, List.append_nil]
  exact ⟨rfl, rfl⟩

/-- The demand at position `k` joins the classes of `a` and `b`. -/
def Joins (vars : BinderTable) (s : Store) (w : Validation) (ds : List Demand) (k : Nat)
    (a b : Handle) : Prop :=
  (∃ x, takeFirst vars s w ds (k + 1) = .ok x ∧ x.forest.Joined a b) ∧
    ¬ ∃ x, takeFirst vars s w ds k = .ok x ∧ x.forest.Joined a b

theorem joins_zero_iff {ds : List Demand} (hu : Validation.take vars s w d = .ok u)
    (a b : Handle) :
    Joins vars s w (d :: ds) 0 a b ↔ u.forest.Joined a b ∧ ¬ w.forest.Joined a b := by
  rw [Joins, takeFirst_cons hu]
  simp only [takeFirst, List.take_zero, List.foldlM_nil, pure, Except.pure, Except.ok.injEq,
    exists_eq_left']

theorem joins_succ_iff {ds : List Demand} (hu : Validation.take vars s w d = .ok u) (k : Nat)
    (a b : Handle) : Joins vars s w (d :: ds) (k + 1) a b ↔ Joins vars s u ds k a b := by
  rw [Joins, takeFirst_cons hu, takeFirst_cons hu, Joins]

/-- What a demand joins is live together at its site at most. -/
theorem Joins.eq_site : ∀ {ds : List Demand} {w : Validation} {k : Nat} {a b : Handle},
    Joins vars s w ds k a b → ds[k]? = some d → Consistent live w →
      ds.foldlM (Validation.take vars s) w = .ok u → ∀ p, LiveAt live p a → LiveAt live p b →
        p = d.site := by
  intro ds
  induction ds with
  | nil => exact fun _ hd => absurd hd (by simp)
  | cons e ds ih =>
    intro w k a b h hd hw hu p ha hb
    rw [List.foldlM_cons] at hu
    obtain ⟨x, hx, hu⟩ := bind_eq_ok.1 hu
    have htaken := take_spec hw.ranked hx
    cases k with
    | zero =>
      obtain rfl := Option.some.inj hd
      obtain ⟨hnew, hold⟩ := (joins_zero_iff hx a b).1 h
      exact htaken.eq_site hw hnew hold ha hb
    | succ k => exact ih ((joins_succ_iff hx k a b).1 h) hd (htaken.consistent hw) hu p ha hb

/-- **Where the first validation has no conflict** the second has none exactly if two identities
that some demand joins are live together, under their new handles, at the site of that demand at
most; then the classes correspond. -/
theorem classesFollow_foldlM (hρ : StrictMono ρ) : ∀ (ds : List Demand) {w w' u u' : Validation},
    (∀ d ∈ ds, SidesFollow ρ s s' d) → Consistent live w → Consistent live' w' →
      ClassesFollow ρ w w' → ds.foldlM (Validation.take vars s) w = .ok u →
      (ds.map (Demand.renumber ρ)).foldlM (Validation.take vars' s') w' = .ok u' →
      u.conflicts = w.conflicts →
      (u'.conflicts = w'.conflicts ↔ ∀ k d a b, ds[k]? = some d → Joins vars s w ds k a b →
        ∀ p, LiveAt live' p (ρ a) → LiveAt live' p (ρ b) → p = ρ d.site) ∧
      (u'.conflicts = w'.conflicts → ClassesFollow ρ u u') := by
  intro ds
  induction ds with
  | nil =>
    intro w w' u u' _ _ _ h hu hu' _
    obtain rfl := Except.ok.inj hu
    obtain rfl := Except.ok.inj hu'
    exact ⟨iff_of_true rfl fun k d a b hk => absurd hk (by simp), fun _ => h⟩
  | cons d ds ih =>
    intro w w' u u' hds hw hw' h hu hu' hc
    rw [List.foldlM_cons] at hu
    rw [List.map_cons, List.foldlM_cons] at hu'
    obtain ⟨x, hx, hu⟩ := bind_eq_ok.1 hu
    obtain ⟨x', hx', hu'⟩ := bind_eq_ok.1 hu'
    obtain ⟨hcx, hcu⟩ := conflicts_eq_of_cons hw hx hu hc
    have hjudged := take_judged hw.ranked hx
    have hjudged' := take_judged hw'.ranked hx'
    have hd := hds d List.mem_cons_self
    have hfirst := h.conflicts_eq_iff hρ hd hw.ranked hw' hjudged hjudged' hcx
    have hrest : x'.conflicts = w'.conflicts → _ := fun hcx' =>
      ih (fun e he => hds e (List.mem_cons_of_mem _ he)) (hjudged.taken.consistent hw)
        (hjudged'.taken.consistent hw')
        (h.judged hρ hd hw.ranked hw'.ranked hjudged hjudged' hcx hcx') hu hu' hcu
    refine ⟨⟨fun hc' => ?_, fun hapart => ?_⟩, fun hc' => ?_⟩
    · obtain ⟨hcx', hcu'⟩ := conflicts_eq_of_cons hw' hx' hu' hc'
      intro k e a b hk hjoins
      cases k with
      | zero =>
        obtain rfl := Option.some.inj hk
        obtain ⟨hnew, hold⟩ := (joins_zero_iff hx a b).1 hjoins
        exact hfirst.1 hcx' a b hnew hold
      | succ k => exact (hrest hcx').1.1 hcu' k e a b hk ((joins_succ_iff hx k a b).1 hjoins)
    · have hcx' := hfirst.2 fun a b hnew hold =>
        hapart 0 d a b rfl ((joins_zero_iff hx a b).2 ⟨hnew, hold⟩)
      rw [(hrest hcx').1.2 fun k e a b hk hjoins =>
        hapart (k + 1) e a b hk ((joins_succ_iff hx k a b).2 hjoins), hcx']
    · obtain ⟨hcx', hcu'⟩ := conflicts_eq_of_cons hw' hx' hu' hc'
      exact (hrest hcx').2 hcu'

/-! ### Lists of classes -/

theorem ClassesFollow.members_eq (h : ClassesFollow ρ w w') (hρ : StrictMono ρ)
    (hw : w.forest.Ranked) (hw' : w'.forest.Ranked) {r r' : Handle} (hr : w.forest.IsRootOf r r)
    (hr' : w'.forest.IsRootOf (ρ r) r') : w'.forest.members r' = (w.forest.members r).map ρ := by
  refine List.SortedLT.eq_of_mem_iff (sortedLT_of_compare (Forest.ordered_members _ _))
    (sortedLT_map hρ (sortedLT_of_compare (Forest.ordered_members _ _))) fun v' => ?_
  rw [Forest.mem_members hw', List.mem_map]
  constructor
  · intro hv'
    obtain ⟨v, rfl⟩ := h.exists_key ((Forest.joined_iff hw').2 ⟨r', hv', hv'⟩)
    obtain ⟨t, hvt, hrt⟩ :=
      (Forest.joined_iff hw).1 ((h.joined v r).1 ((Forest.joined_iff hw').2 ⟨r', hv', hr'⟩))
    obtain rfl := hrt.unique hr
    exact ⟨v, (Forest.mem_members hw).2 hvt, rfl⟩
  · rintro ⟨v, hv, rfl⟩
    have hjoined := (Forest.joined_iff hw).2 ⟨r, (Forest.mem_members hw).1 hv, hr⟩
    obtain ⟨t, hvt, hrt⟩ := (Forest.joined_iff hw').1 ((h.joined v r).2 hjoined)
    exact hrt.unique hr' ▸ hvt

/-- **Classes that correspond are listed alike.** -/
theorem ClassesFollow.classes_eq (h : ClassesFollow ρ w w') (hρ : StrictMono ρ)
    (hw : w.forest.Ranked) (hw' : w'.forest.Ranked) :
    w'.forest.classes = w.forest.classes.map (·.map ρ) := by
  have hordered : (w.forest.classes.map (·.map ρ)).Pairwise Forest.Before := by
    refine List.pairwise_map.2 (w.forest.ordered_classes.imp ?_)
    rintro c d ⟨a, b, ha, hb, hab⟩
    refine ⟨ρ a, ρ b, by rw [List.head?_map, ha]; rfl, by rw [List.head?_map, hb]; rfl, ?_⟩
    exact Nat.compare_eq_lt.2 (hρ (Nat.compare_eq_lt.1 hab))
  refine List.SortedLT.eq_of_mem_iff (sortedLT_classes _) (sortedLT_of_before hordered) fun c' => ?_
  rw [Forest.mem_classes hw', List.mem_map]
  constructor
  · rintro ⟨r', hr', rfl⟩
    obtain ⟨v, rfl⟩ := h.exists_key ((Forest.joined_iff hw').2 ⟨r', hr', hr'⟩)
    obtain ⟨r, hvr, -⟩ := (Forest.joined_iff hw).1
      ((h.joined v v).1 ((Forest.joined_iff hw').2 ⟨_, hr', hr'⟩))
    have hjoined := (Forest.joined_iff hw).2 ⟨r, hvr.self, hvr⟩
    obtain ⟨t, hrt, hvt⟩ := (Forest.joined_iff hw').1 ((h.joined r v).2 hjoined)
    obtain rfl := hvt.unique hr'
    exact ⟨_, (Forest.mem_classes hw).2 ⟨r, hvr.self, rfl⟩,
      (h.members_eq hρ hw hw' hvr.self hrt).symm⟩
  · rintro ⟨c, hc, rfl⟩
    obtain ⟨r, hr, rfl⟩ := (Forest.mem_classes hw).1 hc
    obtain ⟨r', hr', -⟩ := (Forest.joined_iff hw').1
      ((h.joined r r).2 ((Forest.joined_iff hw).2 ⟨r, hr, hr⟩))
    exact ⟨r', hr'.self, (h.members_eq hρ hw hw' hr hr').symm⟩

end Analysis
end TensorLiveness
