/-
# Validation against its definition

Validation keeps a forest that changes its parents at every look-up, and moves the points of a
class from root to root.  `Verdicts` is the definition that it comes to: a plain partition into
sets, and the points that two classes share read off the live map every time.

| step | lemma |
| --- | --- |
| the points kept with two roots are those that their classes share | `commonPoints_eq` |
| one demand | `Judged.agrees` |
| all demands | `foldlM_take_agrees` |
| the classes as they are listed | `Agrees.classes_eq` |

`Agrees` is what the two have in common on the way: the parts of the partition are the sets of
identities with one root.
-/

import Mathlib
import TensorLiveness.Proofs.Analysis.Interference
import TensorLiveness.Proofs.Sharing.Classes

namespace TensorLiveness
namespace Analysis

open Identity Program Sharing Store

/-! ### The definition -/

/-- A partition of the identities, and the conflicts found so far. -/
structure Verdicts where
  parts : List HandleSet
  conflicts : List Conflict

/-- Some member of the set is live at a point with these live identities. -/
def meets (set live : HandleSet) : Bool := set.toList.any (· ∈ live)

/-- The points other than `site` at which a member of each of two sets is live. -/
def sharedPoints (live : Std.ExtTreeMap Handle HandleSet) (site : Handle) (c d : HandleSet) :
    List Handle :=
  (live.toList.filter fun e => e.1 ≠ site ∧ meets c e.2 ∧ meets d e.2).map (·.1)

namespace Verdicts

/-- Every leaf in a part of its own. -/
def start (s : Store) : Verdicts := ⟨s.leaves.map fun v => {v}, []⟩

/-- The part with this member. -/
def partOf? (n : Verdicts) (v : Handle) : Option HandleSet := n.parts.find? (v ∈ ·)

/-- Join two parts, or note the points that they share. -/
def join (live : Std.ExtTreeMap Handle HandleSet) (n : Verdicts) (demand : Demand)
    (c d : HandleSet) : Verdicts :=
  match sharedPoints live demand.site c d with
  | [] => { n with parts := (c ∪ d) :: n.parts.filter fun x => x ≠ c ∧ x ≠ d }
  | shared => { n with
      conflicts := n.conflicts ++ [⟨demand.out, demand.input, demand.site, shared⟩] }

/-- Take one demand. -/
def take (s : Store) (live : Std.ExtTreeMap Handle HandleSet) (n : Verdicts) (demand : Demand) :
    Verdicts :=
  match smallest? (s.setOf demand.out), smallest? (s.setOf demand.input) with
  | some out, some input =>
    match n.partOf? out, n.partOf? input with
    | some c, some d => if c = d then n else n.join live demand c d
    | _, _ => n
  | _, _ => n

/-- The parts, each in increasing order, by their smallest members. -/
def classes (n : Verdicts) : List (List Handle) := (n.parts.map (·.toList)).mergeSort

end Verdicts

/-- The verdicts on demands taken in order. -/
def verdicts (s : Store) (live : Std.ExtTreeMap Handle HandleSet) (pending : List Demand) :
    Verdicts :=
  pending.foldl (Verdicts.take s live) (.start s)

/-! ### What validation has in common with it -/

section Agreement

variable {s : Store} {live : Std.ExtTreeMap Handle HandleSet} {w u : Validation} {n : Verdicts}
  {c d : HandleSet} {demand : Demand}

/-- The members of a set are the identities with the root `r`. -/
def IsClass (f : Forest Handle) (r : Handle) (c : HandleSet) : Prop :=
  f.IsRootOf r r ∧ ∀ b, b ∈ c ↔ f.IsRootOf b r

theorem IsClass.unique {f : Forest Handle} {r : Handle} (hc : IsClass f r c)
    (hd : IsClass f r d) : c = d :=
  Std.ExtTreeSet.ext_mem fun b => (hc.2 b).trans (hd.2 b).symm

/-- Classes with a common member are the same class. -/
theorem IsClass.root_eq {f : Forest Handle} {r t a : Handle} (hc : IsClass f r c)
    (hd : IsClass f t c) (ha : a ∈ c) : r = t := ((hc.2 a).1 ha).unique ((hd.2 a).1 ha)

/-- The forest of a validation is the partition, and the conflicts are the same. -/
structure Agrees (w : Validation) (n : Verdicts) : Prop where
  conflicts : w.conflicts = n.conflicts
  nodup : n.parts.Nodup
  isClass {c : HandleSet} : c ∈ n.parts → ∃ r, IsClass w.forest r c
  exists_part {r : Handle} : w.forest.IsRootOf r r → ∃ c ∈ n.parts, IsClass w.forest r c

theorem Agrees.of_roots (h : Agrees w n) {g : Forest Handle}
    (hroots : ∀ j r, g.IsRootOf j r ↔ w.forest.IsRootOf j r) {points : PointMap}
    {diagnostics : List Diagnostic} {conflicts : List Conflict} :
    Agrees ⟨g, points, conflicts, diagnostics⟩ { n with conflicts } := by
  have hclass : ∀ {r c}, IsClass g r c ↔ IsClass w.forest r c := by simp [IsClass, hroots]
  refine ⟨rfl, h.nodup, fun hc => ?_, fun hr => ?_⟩
  · obtain ⟨r, hr⟩ := h.isClass hc
    exact ⟨r, hclass.2 hr⟩
  · obtain ⟨c, hc, hclass'⟩ := h.exists_part ((hroots _ _).1 hr)
    exact ⟨c, hc, hclass.2 hclass'⟩

/-- The part with an identity is the class of its root. -/
theorem Agrees.partOf?_eq (h : Agrees w n) {a r : Handle} (ha : w.forest.IsRootOf a r) :
    ∃ c ∈ n.parts, n.partOf? a = some c ∧ IsClass w.forest r c := by
  obtain ⟨c, hc, hclass⟩ := h.exists_part ha.self
  have hsome : (n.partOf? a).isSome := by
    rw [Verdicts.partOf?, List.find?_isSome]
    exact ⟨c, hc, decide_eq_true ((hclass.2 a).2 ha)⟩
  obtain ⟨c', hc'⟩ := Option.isSome_iff_exists.1 hsome
  have hfind : n.parts.find? (a ∈ ·) = some c' := hc'
  have hmem := List.mem_of_find?_eq_some hfind
  obtain ⟨t, ht⟩ := h.isClass hmem
  have hat : w.forest.IsRootOf a t := (ht.2 a).1 (by simpa using List.find?_some hfind)
  obtain rfl := hat.unique ha
  exact ⟨c', hmem, hc', ht⟩

theorem meets_eq_true {set live : HandleSet} : meets set live = true ↔ ∃ v ∈ set, v ∈ live := by
  simp [meets, List.any_eq_true, Std.ExtTreeSet.mem_toList]

theorem mem_sharedPoints {site p : Handle} : p ∈ sharedPoints live site c d ↔
    p ≠ site ∧ (∃ v ∈ c, LiveAt live p v) ∧ ∃ v ∈ d, LiveAt live p v := by
  simp only [sharedPoints, List.mem_map, List.mem_filter, decide_eq_true_eq, Prod.exists,
    exists_and_right, exists_eq_right, Std.ExtTreeMap.mem_toList_iff_getElem?_eq_some,
    meets_eq_true, LiveAt]
  constructor
  · rintro ⟨set, hset, hne, ⟨v, hv, hvset⟩, v', hv', hvset'⟩
    exact ⟨hne, ⟨v, hv, set, hset, hvset⟩, v', hv', set, hset, hvset'⟩
  · rintro ⟨hne, ⟨v, hv, set, hset, hvset⟩, v', hv', set', hset', hvset'⟩
    obtain rfl := Option.some.inj (hset.symm.trans hset')
    exact ⟨set, hset, hne, ⟨v, hv, hvset⟩, v', hv', hvset'⟩

theorem sortedLT_of_compare {l : List Handle} (h : l.Pairwise fun a b => compare a b = .lt) :
    l.SortedLT := (h.imp fun h => Nat.compare_eq_lt.1 h).sortedLT

/-- **The points kept with two roots are the points that their classes share,** in the same
order. -/
theorem commonPoints_eq (hw : Consistent live w) {ra rb site : Handle}
    (hc : IsClass w.forest ra c) (hd : IsClass w.forest rb d) :
    w.commonPoints site ra rb = sharedPoints live site c d := by
  refine List.SortedLT.eq_of_mem_iff (sortedLT_of_compare Std.ExtTreeSet.ordered_toList)
    (sortedLT_of_compare ?_) fun p => ?_
  · exact List.pairwise_map.2 (Std.ExtTreeMap.ordered_keys_toList.sublist List.filter_sublist)
  · rw [mem_commonPoints, mem_sharedPoints, hw.points hc.1, hw.points hd.1]
    simp only [hc.2, hd.2]

/-- **Two classes that are joined** are one part from then on. -/
theorem Agrees.join (h : Agrees w n) {g : Forest Handle} {ra rb root : Handle}
    (hc : IsClass w.forest ra c) (hd : IsClass w.forest rb d) (hroot : root = ra ∨ root = rb)
    (hjoin : ∀ j r, g.IsRootOf j r ↔
      ∃ t, w.forest.IsRootOf j t ∧ r = if t = ra ∨ t = rb then root else t) (points : PointMap) :
    Agrees { w with forest := g, points }
      { n with parts := (c ∪ d) :: n.parts.filter fun x => x ≠ c ∧ x ≠ d } := by
  have hrootOf : w.forest.IsRootOf root root := by
    rcases hroot with rfl | rfl
    · exact hc.1
    · exact hd.1
  have hunion : IsClass g root (c ∪ d) := by
    refine ⟨(hjoin root root).2 ⟨root, hrootOf, (if_pos hroot).symm⟩, fun b => ?_⟩
    rw [Std.ExtTreeSet.mem_union_iff, hc.2, hd.2, hjoin]
    constructor
    · rintro (h | h)
      · exact ⟨ra, h, (if_pos (Or.inl rfl)).symm⟩
      · exact ⟨rb, h, (if_pos (Or.inr rfl)).symm⟩
    · rintro ⟨t, ht, heq⟩
      split at heq
      · rename_i htt
        rcases htt with rfl | rfl
        · exact Or.inl ht
        · exact Or.inr ht
      · rename_i hnot
        exact absurd (heq ▸ hroot) hnot
  -- any other class stays as it is
  have hother : ∀ {r x}, IsClass w.forest r x → r ≠ ra → r ≠ rb → IsClass g r x := by
    intro r x hx hra hrb
    have hmoved : ∀ b, g.IsRootOf b r ↔ w.forest.IsRootOf b r := fun b => by
      rw [hjoin]
      constructor
      · rintro ⟨t, ht, heq⟩
        split at heq
        · exact absurd heq fun heq => hroot.elim (fun h => hra (heq.trans h)) fun h =>
            hrb (heq.trans h)
        · exact heq ▸ ht
      · exact fun hb => ⟨r, hb, (if_neg (not_or.2 ⟨hra, hrb⟩)).symm⟩
    exact ⟨(hmoved r).2 hx.1, fun b => (hx.2 b).trans (hmoved b).symm⟩
  have hkept : ∀ {x}, x ∈ n.parts.filter (fun x => x ≠ c ∧ x ≠ d) ↔
      x ∈ n.parts ∧ x ≠ c ∧ x ≠ d := by simp [List.mem_filter]
  refine ⟨h.conflicts, List.nodup_cons.2 ⟨fun hmem => ?_, h.nodup.filter _⟩, fun hx => ?_,
    fun {r} hr => ?_⟩
  · obtain ⟨hmem, hne, _⟩ := hkept.1 hmem
    obtain ⟨t, ht⟩ := h.isClass hmem
    have hra : ra ∈ c ∪ d := Std.ExtTreeSet.mem_union_iff.2 (Or.inl ((hc.2 ra).2 hc.1))
    obtain rfl := ((ht.2 ra).1 hra).unique hc.1
    exact hne (ht.unique hc)
  · rcases List.mem_cons.1 hx with rfl | hx
    · exact ⟨root, hunion⟩
    · obtain ⟨hmem, hnc, hnd⟩ := hkept.1 hx
      obtain ⟨t, ht⟩ := h.isClass hmem
      refine ⟨t, hother ht ?_ ?_⟩
      · rintro rfl
        exact hnc (ht.unique hc)
      · rintro rfl
        exact hnd (ht.unique hd)
  · obtain ⟨t, ht, heq⟩ := (hjoin r r).1 hr
    split at heq
    · exact ⟨_, List.mem_cons_self, heq ▸ hunion⟩
    · rename_i hnot
      obtain ⟨hra, hrb⟩ := not_or.1 hnot
      subst heq
      obtain ⟨x, hx, hclass⟩ := h.exists_part ht
      refine ⟨x, List.mem_cons_of_mem _ (hkept.2 ⟨hx, ?_, ?_⟩), hother hclass hra hrb⟩
      · rintro rfl
        exact hra (hclass.root_eq hc ((hclass.2 r).2 ht))
      · rintro rfl
        exact hrb (hclass.root_eq hd ((hclass.2 r).2 ht))

/-- The verdict on a demand whose sides have identities with these roots. -/
theorem Agrees.take_eq (live : Std.ExtTreeMap Handle HandleSet) (h : Agrees w n)
    {a b ra rb : Handle} (hsides : Sides s demand a b)
    (ha : w.forest.IsRootOf a ra) (hb : w.forest.IsRootOf b rb) : ∃ c d,
      IsClass w.forest ra c ∧ IsClass w.forest rb d ∧
        n.take s live demand = if c = d then n else n.join live demand c d := by
  obtain ⟨c, _, hpart, hc⟩ := h.partOf?_eq ha
  obtain ⟨d, _, hpart', hd⟩ := h.partOf?_eq hb
  refine ⟨c, d, hc, hd, ?_⟩
  rw [Verdicts.take, hsides.1, hsides.2]
  simp only [hpart, hpart']

/-- **One demand is judged as the definition has it.** -/
theorem Judged.agrees (hjudged : Judged s w demand u) (hw : Consistent live w)
    (h : Agrees w n) : Agrees u (n.take s live demand) := by
  cases hjudged with
  | skipped hnone =>
    have hsame : n.take s live demand = n := by
      rw [Verdicts.take]
      split
      · rename_i a b ha hb
        exact absurd ⟨ha, hb⟩ (hnone a b)
      · rfl
    rwa [hsame]
  | met hsides ha hb hg hroots =>
    obtain ⟨c, d, hc, hd, htake⟩ := h.take_eq live hsides ha hb
    rw [htake, if_pos (hc.unique hd), h.conflicts]
    exact h.of_roots hroots
  | refused found hsides ha hb hne hcommon _ hg hroots =>
    obtain ⟨c, d, hc, hd, htake⟩ := h.take_eq live hsides ha hb
    have hcd : c ≠ d := by
      rintro rfl
      exact hne (hc.root_eq hd ((hc.2 _).2 hc.1))
    rw [commonPoints_eq hw hc hd] at hcommon ⊢
    rw [htake, if_neg hcd, Verdicts.join]
    split
    · rename_i hnil
      exact absurd hnil hcommon
    · rw [h.conflicts]
      exact h.of_roots hroots
  | accepted hsides ha hb hne hcommon hroot hg hjoin =>
    obtain ⟨c, d, hc, hd, htake⟩ := h.take_eq live hsides ha hb
    have hcd : c ≠ d := by
      rintro rfl
      exact hne (hc.root_eq hd ((hc.2 _).2 hc.1))
    rw [commonPoints_eq hw hc hd] at hcommon
    rw [htake, if_neg hcd, Verdicts.join, hcommon]
    exact h.join hc hd hroot hjoin _

/-- In the beginning every leaf is a root. -/
theorem isRootOf_start_iff (s : Store) (live : Std.ExtTreeMap Handle HandleSet) (j r : Handle) :
    (Validation.start s live).forest.IsRootOf j r ↔ j = r ∧ j ∈ s.leaves := by
  obtain ⟨_, hroots⟩ := Forest.foldl_insert_spec s.leaves Forest.ranked_empty
    fun j r h => absurd h Forest.not_isRootOf_empty
  refine (hroots j r).trans (and_congr_right fun _ => or_iff_right ?_)
  exact Std.ExtTreeMap.not_mem_empty

/-- In the beginning every leaf is a class. -/
theorem agrees_start (s : Store) (live : Std.ExtTreeMap Handle HandleSet) :
    Agrees (.start s live) (.start s) := by
  have hroot := isRootOf_start_iff s live
  have hclass : ∀ v ∈ s.leaves, IsClass (Validation.start s live).forest v {v} := fun v hv => by
    refine ⟨(hroot v v).2 ⟨rfl, hv⟩, fun b => ?_⟩
    rw [hroot, mem_singleton]
    exact ⟨fun h => ⟨h, h ▸ hv⟩, fun h => h.1⟩
  have hnodup : s.leaves.Nodup := by
    refine List.Pairwise.imp (fun h => Nat.ne_of_lt (Nat.compare_eq_lt.1 h)) ?_
    exact List.pairwise_map.2
      (Std.ExtTreeMap.ordered_keys_toList.sublist List.filter_sublist)
  refine ⟨rfl, hnodup.map fun u v huv => ?_, fun hc => ?_, fun {r} hr => ?_⟩
  · have hmem : u ∈ ({v} : HandleSet) := huv ▸ mem_singleton.2 rfl
    exact mem_singleton.1 hmem
  · obtain ⟨v, hv, rfl⟩ := List.mem_map.1 hc
    exact ⟨v, hclass v hv⟩
  · have hmem := ((hroot r r).1 hr).2
    exact ⟨{r}, List.mem_map.2 ⟨r, hmem, rfl⟩, hclass r hmem⟩

/-- Every finding is about a conflict. -/
theorem Judged.code_eq (hjudged : Judged s w demand u)
    (h : ∀ found ∈ w.diagnostics, found.code = some .sharingConflict) :
    ∀ found ∈ u.diagnostics, found.code = some .sharingConflict := by
  cases hjudged with
  | skipped => exact h
  | met => exact h
  | accepted => exact h
  | refused found' _ _ _ _ _ hcode =>
    intro found hfound
    rcases List.mem_append.1 hfound with hfound | hfound
    · exact h found hfound
    · exact List.mem_singleton.1 hfound ▸ hcode

/-- **Demands taken in order are judged as the definition has it.** -/
theorem foldlM_take_agrees {vars : BinderTable} : ∀ (ds : List Demand) {w u : Validation}
    {n : Verdicts}, Consistent live w → Agrees w n →
      (∀ found ∈ w.diagnostics, found.code = some .sharingConflict) →
      ds.foldlM (Validation.take vars s) w = .ok u → Consistent live u ∧
        Agrees u (ds.foldl (Verdicts.take s live) n) ∧
        ∀ found ∈ u.diagnostics, found.code = some .sharingConflict := by
  intro ds
  induction ds with
  | nil =>
    intro w u n hw hagrees hcode h
    obtain rfl := Except.ok.inj h
    exact ⟨hw, hagrees, hcode⟩
  | cons d ds ih =>
    intro w u n hw hagrees hcode h
    rw [List.foldlM_cons] at h
    obtain ⟨w₁, h₁, h⟩ := bind_eq_ok.1 h
    have hjudged := take_judged hw.ranked h₁
    exact ih (hjudged.taken.consistent hw) (hjudged.agrees hw hagrees) (hjudged.code_eq hcode) h

/-- A class as a set and as it is listed. -/
theorem IsClass.toList_eq {f : Forest Handle} (hf : f.Ranked) {r : Handle} (h : IsClass f r c) :
    c.toList = f.members r := by
  refine List.SortedLT.eq_of_mem_iff (sortedLT_of_compare Std.ExtTreeSet.ordered_toList)
    (sortedLT_of_compare (f.ordered_members r)) fun b => ?_
  rw [Std.ExtTreeSet.mem_toList, h.2, Forest.mem_members hf]

theorem sortedLT_of_before {l : List (List Handle)} (h : l.Pairwise Forest.Before) :
    l.SortedLT := by
  refine (h.imp fun {c d} h => ?_).sortedLT
  obtain ⟨a, b, ha, hb, hab⟩ := h
  obtain ⟨as, rfl⟩ := List.head?_eq_some_iff.1 ha
  obtain ⟨bs, rfl⟩ := List.head?_eq_some_iff.1 hb
  exact List.cons_lt_cons_iff.2 (Or.inl (Nat.compare_eq_lt.1 hab))

theorem sortedLT_classes (f : Forest Handle) : f.classes.SortedLT :=
  sortedLT_of_before f.ordered_classes

/-- **The classes are listed like the parts.** -/
theorem Agrees.classes_eq (h : Agrees w n) (hw : w.forest.Ranked) :
    w.forest.classes = n.classes := by
  have hinjective : ∀ {c d : HandleSet}, c.toList = d.toList → c = d := fun {c d} heq =>
    Std.ExtTreeSet.ext_mem fun b => by
      rw [← Std.ExtTreeSet.mem_toList, heq, Std.ExtTreeSet.mem_toList]
  have hperm : w.forest.classes.Perm (n.parts.map (·.toList)) := by
    refine (List.perm_ext_iff_of_nodup (sortedLT_classes _).nodup
      (h.nodup.map fun _ _ heq => hinjective heq)).2 fun l => ?_
    rw [Forest.mem_classes hw, List.mem_map]
    constructor
    · rintro ⟨r, hr, rfl⟩
      obtain ⟨c, hc, hclass⟩ := h.exists_part hr
      exact ⟨c, hc, hclass.toList_eq hw⟩
    · rintro ⟨c, hc, rfl⟩
      obtain ⟨r, hclass⟩ := h.isClass hc
      exact ⟨r, hclass.1, hclass.toList_eq hw⟩
  refine List.Perm.eq_of_sortedLE (sortedLT_classes _).sortedLE List.sortedLE_mergeSort ?_
  exact hperm.trans (List.mergeSort_perm _ _).symm

end Agreement

/-! ### Analysed functions -/

/-- Demands are validated where the form is found in order and validation is asked for. -/
theorem formErrors_eq_nil_of_sharing {vars : BinderTable} {f : Function} {terminal : Pass}
    {o : Outcome} (h : analyze vars f terminal = .ok o) (hran : .sharing ∈ o.passes) :
    formErrors vars f = [] ∧ terminal = .sharing := by
  obtain ⟨r, hr, rfl⟩ := analyze_eq_ok.1 h
  by_cases hform : formErrors vars f = []
  · refine ⟨hform, ?_⟩
    rw [show (r.outcome vars terminal).passes = r.passes from rfl, Run.passes_eq hform hr] at hran
    cases terminal <;> first | rfl | exact absurd hran (by decide)
  · rw [Run.upTo_rejected hform] at hr
    obtain rfl := Except.ok.inj hr
    exact absurd hran (by simp [Run.outcome])

/-- **Validation is the fold over a plain partition.**  Whenever demands were validated, the
classes, the conflicts, the number of findings about conflicts and the verdict are those that come
of taking the demands in order, with the points that two parts share read off the live map. -/
theorem validation_eq_verdicts {vars : BinderTable} {f : Function} {terminal : Pass} {o : Outcome}
    (h : analyze vars f terminal = .ok o) (hran : .sharing ∈ o.passes) : ∃ r n,
      Run.upTo vars f .liveness = .ok r ∧ o.pending = r.pending ∧ o.liveness.live = r.live ∧
      verdicts r.store r.live r.pending = n ∧ o.liveness.classes = n.classes ∧
      o.conflicts = n.conflicts ∧
      (o.diagnostics.filter (·.code = some .sharingConflict)).length = n.conflicts.length ∧
      o.status = if n.conflicts.isEmpty then .valid else .aliasingConflict := by
  obtain ⟨hform, rfl⟩ := formErrors_eq_nil_of_sharing h hran
  obtain ⟨r, w, hv⟩ := exists_validated hform h
  obtain ⟨hconsistent, hagrees, hcode⟩ := foldlM_take_agrees r.pending
    (consistent_start r.store r.live) (agrees_start r.store r.live)
    (fun _ hfound => absurd hfound List.not_mem_nil) hv.validation
  refine ⟨r, _, hv.run, hv.pending_eq, hv.live_eq, rfl, ?_, ?_, ?_, ?_⟩
  · rw [hv.classes_eq, hagrees.classes_eq hconsistent.ranked]
    rfl
  · rw [hv.conflicts_eq, hagrees.conflicts]
    rfl
  · rw [hv.diagnostics_eq, List.filter_eq_self.2 fun found hfound =>
      decide_eq_true (hcode found hfound), hconsistent.found, hagrees.conflicts]
    rfl
  · rw [hv.status_eq, hagrees.conflicts]
    rfl

/-- The binders of `keptFunction`. -/
def keptVars : BinderTable :=
  ⟨#[⟨"c", .tensor, ⟨0, 1⟩⟩, ⟨"x", .tensor, ⟨1, 2⟩⟩, ⟨"y", .tensor, ⟨2, 3⟩⟩,
    ⟨"z", .tensor, ⟨3, 4⟩⟩, ⟨"w", .tensor, ⟨4, 5⟩⟩]⟩

/-- A conditional with a parameter as one of its results; the parameter is used behind it. -/
def keptFunction : Function :=
  ⟨[0, 1], .letIn 3 (.cond (.var 0) (.var 1)
    (.letIn 2 (.call (.op "neg") [.var 1] .tensor) (.var 2)) .tensor)
    (.letIn 4 (.call (.op "add") [.var 3, .var 1] .tensor) (.var 4))⟩

/-- The demand on the parameter is a conflict at the call behind the conditional, the other one
joins two parts. -/
theorem validation_eq_verdicts_of_kept : ∃ o n, analyze keptVars keptFunction .sharing = .ok o ∧
    .sharing ∈ o.passes ∧ (∃ r, verdicts r.store r.live r.pending = n ∧
      Run.upTo keptVars keptFunction .liveness = .ok r) ∧
    n.classes = [[5], [6], [7, 8], [9]] ∧ n.conflicts = [⟨8, 1, 3, [4]⟩] := by
  have hrun : ((analyze keptVars keptFunction .sharing).toOption.any fun o =>
      .sharing ∈ o.passes ∧ o.liveness.classes = [[5], [6], [7, 8], [9]] ∧
        o.conflicts = [⟨8, 1, 3, [4]⟩]) = true := by decide +kernel
  obtain ⟨o, ho, htest⟩ := exists_ok_of_any hrun
  obtain ⟨hran, hclasses, hconflicts⟩ := of_decide_eq_true htest
  obtain ⟨r, n, hr, _, _, hn, hclasses', hconflicts', _⟩ := validation_eq_verdicts ho hran
  exact ⟨o, n, ho, hran, ⟨r, hn, hr⟩, hclasses' ▸ hclasses, hconflicts' ▸ hconflicts⟩

end Analysis
end TensorLiveness
