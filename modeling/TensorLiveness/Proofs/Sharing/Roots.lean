/-
# Roots and classes of a forest

`Forest.climb` walks up by steps and `Forest.compress` moves parents around, so what a
forest stands for is said without either: `Forest.IsRootOf` is the chain of parents from
a key to the key that is its own parent.  In a forest whose ranks grow along parents
(`Forest.Ranked`) every key has exactly one root, the walk finds it
(`root?_eq_some_iff`), and each operation is told by what it does to the chains:

| operation | keys | roots |
| --- | --- | --- |
| `insert` | one more | a new key is its own (`insert_spec`) |
| `find` | the same | the same (`find_spec`) |
| `union` | the same | one of the two given roots stands for both (`union_spec`) |

`Forest.Joined` is membership in one class; `joined_iff_of_roots` says what a union does to it, and
`joined_of_mem_classes` reads it off the classes as they are listed.
-/

import Mathlib.Data.Finset.Card
import TensorLiveness.Sharing.Forest

namespace TensorLiveness
namespace Sharing
namespace Forest

variable {κ : Type} [Ord κ] [Std.TransOrd κ]

/-- The rank of a key, zero if none is recorded. -/
def rankOf (f : Forest κ) (k : κ) : Nat := (f.rank[k]?).getD 0

/-- The chain of parents above `k` ends in `r`, which is its own parent. -/
inductive IsRootOf (f : Forest κ) : κ → κ → Prop
  | root {k : κ} : f.parent[k]? = some k → IsRootOf f k k
  | step {k p r : κ} : f.parent[k]? = some p → p ≠ k → IsRootOf f p r → IsRootOf f k r

/-- Parents are keys, and ranks grow from a key to its parent. -/
structure Ranked (f : Forest κ) : Prop where
  parent_mem {k p : κ} : f.parent[k]? = some p → p ∈ f.parent
  rank_lt {k p : κ} : f.parent[k]? = some p → p ≠ k → f.rankOf k < f.rankOf p

/-! ### Chains of parents -/

theorem IsRootOf.self {f : Forest κ} {k r : κ} (h : f.IsRootOf k r) : f.IsRootOf r r := by
  induction h with
  | root hk => exact .root hk
  | step _ _ _ ih => exact ih

theorem IsRootOf.parent_eq {f : Forest κ} {k r : κ} (h : f.IsRootOf k r) :
    f.parent[r]? = some r := by
  induction h with
  | root hk => exact hk
  | step _ _ _ ih => exact ih

theorem IsRootOf.mem {f : Forest κ} {k r : κ} (h : f.IsRootOf k r) : k ∈ f.parent := by
  rw [Std.ExtTreeMap.mem_iff_isSome_getElem?]
  cases h with
  | root hk => rw [hk]; rfl
  | step hk _ _ => rw [hk]; rfl

/-- No key has two roots. -/
theorem IsRootOf.unique {f : Forest κ} {k r s : κ} (hr : f.IsRootOf k r) (hs : f.IsRootOf k s) :
    r = s := by
  induction hr with
  | root hk =>
    cases hs with
    | root _ => rfl
    | step hp hne _ => exact absurd (Option.some.inj (hp.symm.trans hk)) hne
  | step hp hne _ ih =>
    cases hs with
    | root hk => exact absurd (Option.some.inj (hp.symm.trans hk)) hne
    | step hp' _ hs' =>
      obtain rfl := Option.some.inj (hp.symm.trans hp')
      exact ih hs'

/-- A key below its root has a smaller rank. -/
theorem IsRootOf.rank_lt {f : Forest κ} (hf : f.Ranked) {k r : κ} (h : f.IsRootOf k r)
    (hne : k ≠ r) : f.rankOf k < f.rankOf r := by
  induction h with
  | root _ => exact absurd rfl hne
  | @step k p r hp hpk _ ih =>
    have hlt := hf.rank_lt hp hpk
    by_cases hpr : p = r
    · exact hpr ▸ hlt
    · exact hlt.trans (ih hpr)

theorem not_isRootOf_empty {k r : κ} : ¬ (empty : Forest κ).IsRootOf k r := fun h =>
  Std.ExtTreeMap.not_mem_empty h.mem

theorem ranked_empty : (empty : Forest κ).Ranked := by
  have hget (k : κ) : (empty : Forest κ).parent[k]? = none := Std.ExtTreeMap.getElem?_empty
  constructor
  · intro k p hp
    rw [hget] at hp
    cases hp
  · intro k p hp
    rw [hget] at hp
    cases hp

/-! ### The walk to the root -/

variable [DecidableEq κ]

/-- Two keys are in one class: the walks from them end at the same root. -/
def Joined (f : Forest κ) (a b : κ) : Prop := ∃ r, f.root? a = some r ∧ f.root? b = some r

/-- The keys of a rank above that of `k`; a step up makes them fewer. -/
def higher (f : Forest κ) (k : κ) : Finset κ :=
  f.parent.keys.toFinset.filter fun j => f.rankOf k < f.rankOf j

theorem card_higher_le (f : Forest κ) (k : κ) : (f.higher k).card ≤ f.size :=
  (Finset.card_filter_le _ _).trans
    ((List.toFinset_card_le _).trans (Nat.le_of_eq Std.ExtTreeMap.length_keys))

/-- A look-up of what is no key answers with nothing. -/
theorem find_of_not_mem {f : Forest κ} {k : κ} (hk : k ∉ f.parent) : f.find k = (none, f) := by
  have hc : f.contains k = false := by
    rw [Std.ExtTreeMap.mem_iff_contains, Bool.not_eq_true] at hk
    exact hk
  unfold find root?
  rw [hc]
  rfl

variable [Std.LawfulEqOrd κ]

theorem card_higher_lt {f : Forest κ} (hf : f.Ranked) {k p : κ}
    (hp : f.parent[k]? = some p) (hne : p ≠ k) : (f.higher p).card < (f.higher k).card := by
  have hlt := hf.rank_lt hp hne
  refine Finset.card_lt_card (Finset.ssubset_iff_of_subset ?_ |>.2 ⟨p, ?_, ?_⟩)
  · intro j hj
    rw [higher, Finset.mem_filter] at hj ⊢
    exact ⟨hj.1, hlt.trans hj.2⟩
  · rw [higher, Finset.mem_filter, List.mem_toFinset, Std.ExtTreeMap.mem_keys]
    exact ⟨hf.parent_mem hp, hlt⟩
  · rw [higher, Finset.mem_filter]
    exact fun h => lt_irrefl _ h.2

/-- A walk with as many steps as there are higher keys ends at the root. -/
theorem isRootOf_climb {f : Forest κ} (hf : f.Ranked) :
    ∀ (steps : Nat) {k : κ}, k ∈ f.parent → (f.higher k).card ≤ steps →
      f.IsRootOf k (f.climb steps k) := by
  intro steps
  induction steps with
  | zero =>
    intro k hk hcard
    obtain ⟨p, hp⟩ := Option.isSome_iff_exists.1 (Std.ExtTreeMap.mem_iff_isSome_getElem?.1 hk)
    by_cases hne : p = k
    · exact .root (hne ▸ hp)
    · have := card_higher_lt hf hp hne
      omega
  | succ steps ih =>
    intro k hk hcard
    obtain ⟨p, hp⟩ := Option.isSome_iff_exists.1 (Std.ExtTreeMap.mem_iff_isSome_getElem?.1 hk)
    rw [climb, hp]
    by_cases hne : p = k
    · simp only [hne, if_true]
      exact .root (hne ▸ hp)
    · simp only [hne, if_false]
      have := card_higher_lt hf hp hne
      exact .step hp hne (ih (hf.parent_mem hp) (by omega))

/-- **The walk finds the root**, and finds none exactly where there is no key. -/
theorem root?_eq_some_iff {f : Forest κ} (hf : f.Ranked) {k r : κ} :
    f.root? k = some r ↔ f.IsRootOf k r := by
  unfold root?
  by_cases hk : f.contains k = true
  · have hroot := isRootOf_climb hf f.size (Std.ExtTreeMap.mem_iff_contains.2 hk)
      (card_higher_le f k)
    rw [if_pos hk]
    constructor
    · rintro h
      obtain rfl := Option.some.inj h
      exact hroot
    · exact fun h => congrArg some (hroot.unique h)
  · rw [if_neg hk]
    constructor
    · exact fun h => by cases h
    · exact fun h => absurd (Std.ExtTreeMap.mem_iff_contains.1 h.mem) hk

theorem exists_isRootOf {f : Forest κ} (hf : f.Ranked) {k : κ}
    (hk : k ∈ f.parent) : ∃ r, f.IsRootOf k r :=
  ⟨_, isRootOf_climb hf f.size hk (card_higher_le f k)⟩

theorem joined_iff {f : Forest κ} (hf : f.Ranked) {a b : κ} :
    f.Joined a b ↔ ∃ r, f.IsRootOf a r ∧ f.IsRootOf b r := by
  simp only [Joined, root?_eq_some_iff hf]

/-! ### Changing parents -/

/-- A key below its root, hung directly below it, leaves every root as it is. -/
theorem isRootOf_hang {f : Forest κ} (hf : f.Ranked) {k root : κ} (hk : f.IsRootOf k root)
    (hne : k ≠ root) :
    (⟨f.parent.insert k root, f.rank⟩ : Forest κ).Ranked ∧
      ∀ j r, (⟨f.parent.insert k root, f.rank⟩ : Forest κ).IsRootOf j r ↔ f.IsRootOf j r := by
  set g : Forest κ := ⟨f.parent.insert k root, f.rank⟩ with hg
  have hget : ∀ j, g.parent[j]? = if k = j then some root else f.parent[j]? := fun j => by
    rw [hg, Std.ExtTreeMap.getElem?_insert]
    simp only [Std.LawfulEqOrd.compare_eq_iff_eq]
  have hup : ∀ j r, f.IsRootOf j r → g.IsRootOf j r := by
    intro j r hj
    induction hj with
    | @root j hp =>
      refine .root ?_
      rw [hget, if_neg, hp]
      rintro rfl
      exact hne (hk.unique (.root hp)).symm
    | @step j p r hp hpj hr ih =>
      by_cases hkj : k = j
      · subst hkj
        obtain rfl := hk.unique (.step hp hpj hr)
        refine .step (by rw [hget, if_pos rfl]) (Ne.symm hne) ?_
        exact .root (by rw [hget, if_neg hne, hk.parent_eq])
      · exact .step (by rw [hget, if_neg hkj, hp]) hpj ih
  have hdown : ∀ j r, g.IsRootOf j r → f.IsRootOf j r := by
    intro j r hj
    have hmem : j ∈ f.parent := by
      rcases Std.ExtTreeMap.mem_insert.1 hj.mem with h | h
      · exact Std.LawfulEqOrd.compare_eq_iff_eq.1 h ▸ hk.mem
      · exact h
    obtain ⟨s, hs⟩ := exists_isRootOf hf hmem
    exact (hup j s hs).unique hj ▸ hs
  refine ⟨⟨fun {j p} hp => ?_, fun {j p} hp hpj => ?_⟩, fun j r => ⟨hdown j r, hup j r⟩⟩
  · rw [hget] at hp
    rw [hg, Std.ExtTreeMap.mem_insert]
    split at hp
    · exact Or.inr (Option.some.inj hp ▸ hk.self.mem)
    · exact Or.inr (hf.parent_mem hp)
  · rw [hget] at hp
    split at hp
    · rename_i hkj
      obtain rfl := Option.some.inj hp
      subst hkj
      exact hk.rank_lt hf hne
    · exact hf.rank_lt hp hpj

/-- **Shortening a way changes no root.** -/
theorem compress_spec (root : κ) : ∀ (steps : Nat) {f : Forest κ} {k : κ}, f.Ranked →
    f.IsRootOf k root → (f.compress root steps k).Ranked ∧
      ∀ j r, (f.compress root steps k).IsRootOf j r ↔ f.IsRootOf j r := by
  intro steps
  induction steps with
  | zero => exact fun hf _ => ⟨hf, fun _ _ => Iff.rfl⟩
  | succ steps ih =>
    intro f k hf hk
    rw [compress]
    by_cases hkr : k = root
    · rw [if_pos hkr]
      exact ⟨hf, fun _ _ => Iff.rfl⟩
    · rw [if_neg hkr]
      obtain ⟨hg, hroots⟩ := isRootOf_hang hf hk hkr
      cases hk with
      | root hp => exact absurd rfl hkr
      | step hp _ hr =>
        obtain ⟨hc, hcr⟩ := ih hg ((hroots _ _).2 hr)
        simp only [hp]
        exact ⟨hc, fun j r => (hcr j r).trans (hroots j r)⟩

/-- **A look-up answers with the root and changes no root.** -/
theorem find_spec {f : Forest κ} (hf : f.Ranked) {k r : κ} (hk : f.IsRootOf k r) :
    ∃ g, f.find k = (some r, g) ∧ g.Ranked ∧ ∀ j s, g.IsRootOf j s ↔ f.IsRootOf j s := by
  obtain ⟨hc, hroots⟩ := compress_spec r f.size hf hk
  refine ⟨f.compress r f.size k, ?_, hc, hroots⟩
  unfold find
  rw [(root?_eq_some_iff hf).2 hk]

/-- What a look-up that finds a root says. -/
theorem of_find_eq {f g : Forest κ} (hf : f.Ranked) {k r : κ} (h : f.find k = (some r, g)) :
    f.IsRootOf k r ∧ g.Ranked ∧ ∀ j s, g.IsRootOf j s ↔ f.IsRootOf j s := by
  have hk : k ∈ f.parent := by
    by_contra hk
    rw [find_of_not_mem hk] at h
    cases h
  obtain ⟨r', hr'⟩ := exists_isRootOf hf hk
  obtain ⟨g', hfind, hg, hroots⟩ := find_spec hf hr'
  obtain ⟨hr, rfl⟩ := Prod.mk.inj (hfind.symm.trans h)
  obtain rfl := Option.some.inj hr
  exact ⟨hr', hg, hroots⟩

/-- If every old root moves to a known place and no key is new, all roots are known. -/
theorem isRootOf_iff_of_forall {f g : Forest κ} (hf : f.Ranked)
    (hkeys : ∀ j, j ∈ g.parent → j ∈ f.parent) {move : κ → κ}
    (hup : ∀ j t, f.IsRootOf j t → g.IsRootOf j (move t)) (j s : κ) :
    g.IsRootOf j s ↔ ∃ t, f.IsRootOf j t ∧ s = move t := by
  constructor
  · intro hs
    obtain ⟨t, ht⟩ := exists_isRootOf hf (hkeys j hs.mem)
    exact ⟨t, ht, hs.unique (hup j t ht)⟩
  · rintro ⟨t, ht, rfl⟩
    exact hup j t ht

/-- One root hung below another that gets a larger rank: the upper one stands for both
classes. -/
theorem isRootOf_link {f : Forest κ} (hf : f.Ranked) {root child : κ}
    (hroot : f.parent[root]? = some root) (hchild : f.parent[child]? = some child)
    (hne : child ≠ root) {g : Forest κ} (hparent : g.parent = f.parent.insert child root)
    (hother : ∀ k, k ≠ root → g.rankOf k = f.rankOf k) (hle : f.rankOf root ≤ g.rankOf root)
    (hlt : f.rankOf child < g.rankOf root) :
    g.Ranked ∧ ∀ j s, g.IsRootOf j s ↔
      ∃ t, f.IsRootOf j t ∧ s = if t = child ∨ t = root then root else t := by
  have hget : ∀ j, g.parent[j]? = if child = j then some root else f.parent[j]? := fun j => by
    rw [hparent, Std.ExtTreeMap.getElem?_insert]
    simp only [Std.LawfulEqOrd.compare_eq_iff_eq]
  have htop : g.IsRootOf root root := .root (by rw [hget, if_neg hne, hroot])
  have hkeys : ∀ j, j ∈ g.parent → j ∈ f.parent := fun j hj => by
    rw [hparent, Std.ExtTreeMap.mem_insert] at hj
    rcases hj with hj | hj
    · exact Std.LawfulEqOrd.compare_eq_iff_eq.1 hj ▸ (IsRootOf.root hchild).mem
    · exact hj
  refine ⟨⟨fun {k p} hp => ?_, fun {k p} hp hpk => ?_⟩,
    isRootOf_iff_of_forall hf hkeys fun j s hj => ?_⟩
  · rw [hget] at hp
    rw [hparent, Std.ExtTreeMap.mem_insert]
    split at hp
    · exact Or.inr (Option.some.inj hp ▸ (IsRootOf.root hroot).mem)
    · exact Or.inr (hf.parent_mem hp)
  · rw [hget] at hp
    split at hp
    · rename_i hck
      obtain rfl := Option.some.inj hp
      subst hck
      rw [hother child hne]
      exact hlt
    · have hkr : k ≠ root := by
        rintro rfl
        exact hpk (Option.some.inj (hp.symm.trans hroot))
      rw [hother k hkr]
      have hgrow : f.rankOf p ≤ g.rankOf p := by
        by_cases hpr : p = root
        · exact hpr ▸ hle
        · exact Nat.le_of_eq (hother p hpr).symm
      exact (hf.rank_lt hp hpk).trans_le hgrow
  · induction hj with
    | @root j hp =>
      by_cases hjc : j = child
      · rw [if_pos (Or.inl hjc), hjc]
        exact .step (by rw [hget, if_pos rfl]) (Ne.symm hne) htop
      · by_cases hjr : j = root
        · rw [if_pos (Or.inr hjr), hjr]
          exact htop
        · rw [if_neg (not_or.2 ⟨hjc, hjr⟩)]
          exact .root (by rw [hget, if_neg (Ne.symm hjc), hp])
    | @step j p s hp hpj _ ih =>
      refine .step ?_ hpj ih
      rw [hget, if_neg, hp]
      rintro rfl
      exact hpj (Option.some.inj (hp.symm.trans hchild))

/-- **A union makes one of the two roots stand for both classes.** -/
theorem union_spec {f : Forest κ} (hf : f.Ranked) {a b ra rb : κ} (ha : f.IsRootOf a ra)
    (hb : f.IsRootOf b rb) : ∃ r g, f.union a b = (some r, g) ∧ (r = ra ∨ r = rb) ∧ g.Ranked ∧
      ∀ j s, g.IsRootOf j s ↔ ∃ t, f.IsRootOf j t ∧ s = if t = ra ∨ t = rb then r else t := by
  obtain ⟨f₁, h₁, hf₁, hr₁⟩ := find_spec hf ha
  obtain ⟨f₂, h₂, hf₂, hr₂⟩ := find_spec hf₁ ((hr₁ b rb).2 hb)
  have hroots : ∀ j s, f₂.IsRootOf j s ↔ f.IsRootOf j s := fun j s => (hr₂ j s).trans (hr₁ j s)
  have hra := ((hroots a ra).2 ha).parent_eq
  have hrb := ((hroots b rb).2 hb).parent_eq
  unfold union
  simp only [h₁, h₂]
  by_cases hab : ra = rb
  · have hkeep : ∀ t : κ, (if t = ra ∨ t = rb then ra else t) = t := fun t => by
      split
      · rename_i h
        exact h.elim Eq.symm fun h => hab.trans h.symm
      · rfl
    refine ⟨ra, f₂, by rw [if_pos hab], Or.inl rfl, hf₂, fun j s => ?_⟩
    simp only [hkeep, hroots, exists_eq_right']
  · simp only [if_neg hab]
    split
    · rename_i hlt
      obtain ⟨hg, hjoin⟩ := isRootOf_link hf₂ (g := f₂.link rb ra) hrb hra hab rfl
        (fun _ _ => rfl) (Nat.le_refl _) hlt
      refine ⟨rb, _, rfl, Or.inr rfl, hg, fun j s => ?_⟩
      simp only [hjoin, hroots]
    · split
      · rename_i hnlt heq
        set g : Forest κ := { f₂.link ra rb with
          rank := f₂.rank.insert ra ((f₂.rank[ra]?).getD 0 + 1) } with hgdef
        have hrank : ∀ k, g.rankOf k = if ra = k then f₂.rankOf ra + 1 else f₂.rankOf k :=
          fun k => by
            simp only [hgdef, rankOf, Std.ExtTreeMap.getElem?_insert,
              Std.LawfulEqOrd.compare_eq_iff_eq]
            split <;> rfl
        obtain ⟨hg, hjoin⟩ := isRootOf_link hf₂ (g := g) hra hrb (Ne.symm hab) rfl
          (fun k hk => by rw [hrank, if_neg (Ne.symm hk)])
          (by rw [hrank, if_pos rfl]; omega)
          (by rw [hrank, if_pos rfl]; unfold rankOf; omega)
        refine ⟨ra, g, rfl, Or.inl rfl, hg, fun j s => ?_⟩
        simp only [hjoin, hroots, or_comm]
      · rename_i hnlt hneq
        obtain ⟨hg, hjoin⟩ := isRootOf_link hf₂ (g := f₂.link ra rb) hra hrb (Ne.symm hab) rfl
          (fun _ _ => rfl) (Nat.le_refl _) (by
            change (f₂.rank[rb]?).getD 0 < (f₂.rank[ra]?).getD 0
            omega)
        refine ⟨ra, _, rfl, Or.inl rfl, hg, fun j s => ?_⟩
        simp only [hjoin, hroots, or_comm]

/-! ### Membership in one class -/

section Membership

variable {f g : Forest κ} {a b c ra rb root : κ}

omit [Std.LawfulEqOrd κ] in
theorem Joined.symm (hab : f.Joined a b) : f.Joined b a := by
  obtain ⟨r, har, hbr⟩ := hab
  exact ⟨r, hbr, har⟩

omit [Std.LawfulEqOrd κ] in
theorem Joined.trans (hab : f.Joined a b) (hbc : f.Joined b c) : f.Joined a c := by
  obtain ⟨r, har, hbr⟩ := hab
  obtain ⟨t, hbt, hct⟩ := hbc
  obtain rfl := Option.some.inj (hbr.symm.trans hbt)
  exact ⟨r, har, hct⟩

theorem not_joined_of_roots (hf : f.Ranked) (ha : f.IsRootOf a ra) (hb : f.IsRootOf b rb)
    (hne : ra ≠ rb) : ¬ f.Joined a b := by
  rw [joined_iff hf]
  rintro ⟨r, har, hbr⟩
  exact hne ((ha.unique har).trans (hbr.unique hb))

/-- Two roots of which one takes the place of the other join their classes, and no others. -/
theorem joined_iff_of_roots (hf : f.Ranked) (hg : g.Ranked) (ha : f.IsRootOf a ra)
    (hb : f.IsRootOf b rb) (hroot : root = ra ∨ root = rb)
    (hjoin : ∀ v r, g.IsRootOf v r ↔ ∃ t, f.IsRootOf v t ∧
      r = if t = ra ∨ t = rb then root else t) (x y : κ) :
    g.Joined x y ↔ f.Joined x y ∨ f.Joined x a ∧ f.Joined b y ∨ f.Joined x b ∧ f.Joined a y := by
  simp only [joined_iff hg, joined_iff hf, hjoin]
  constructor
  · rintro ⟨r, ⟨tx, hx, hrx⟩, ty, hy, hry⟩
    by_cases htx : tx = ra ∨ tx = rb
    · rw [if_pos htx] at hrx
      by_cases hty : ty = ra ∨ ty = rb
      · rcases htx with rfl | rfl <;> rcases hty with rfl | rfl
        · exact Or.inl ⟨_, hx, hy⟩
        · exact Or.inr (Or.inl ⟨⟨_, hx, ha⟩, _, hb, hy⟩)
        · exact Or.inr (Or.inr ⟨⟨_, hx, hb⟩, _, ha, hy⟩)
        · exact Or.inl ⟨_, hx, hy⟩
      · rw [if_neg hty] at hry
        exact absurd (hry.symm.trans hrx ▸ hroot) hty
    · rw [if_neg htx] at hrx
      by_cases hty : ty = ra ∨ ty = rb
      · rw [if_pos hty] at hry
        exact absurd (hrx.symm.trans hry ▸ hroot) htx
      · rw [if_neg hty] at hry
        exact Or.inl ⟨tx, hx, hrx.symm.trans hry ▸ hy⟩
  · rintro (⟨t, hx, hy⟩ | ⟨⟨t, hx, hat⟩, t', hbt, hy⟩ | ⟨⟨t, hx, hbt⟩, t', hat, hy⟩)
    · exact ⟨_, ⟨t, hx, rfl⟩, t, hy, rfl⟩
    · obtain rfl := hat.unique ha
      obtain rfl := hbt.unique hb
      exact ⟨root, ⟨t, hx, (if_pos (Or.inl rfl)).symm⟩, t', hy, (if_pos (Or.inr rfl)).symm⟩
    · obtain rfl := hat.unique ha
      obtain rfl := hbt.unique hb
      exact ⟨root, ⟨t, hx, (if_pos (Or.inr rfl)).symm⟩, t', hy, (if_pos (Or.inl rfl)).symm⟩

end Membership

/-! ### New keys -/

/-- **A new key is a class of its own**, and an old one stays where it is. -/
theorem insert_spec {f : Forest κ} (hf : f.Ranked) (k : κ) : (f.insert k).Ranked ∧
    ∀ j r, (f.insert k).IsRootOf j r ↔ f.IsRootOf j r ∨ k ∉ f.parent ∧ j = k ∧ r = k := by
  have hget : ∀ j, (f.insert k).parent[j]? =
      if k = j ∧ k ∉ f.parent then some k else f.parent[j]? := fun j => by
    simp only [insert, Std.ExtTreeMap.getElem?_insertIfNew, Std.LawfulEqOrd.compare_eq_iff_eq]
  have hrank : ∀ j, (f.insert k).rankOf j = f.rankOf j := fun j => by
    simp only [insert, rankOf, Std.ExtTreeMap.getElem?_insertIfNew,
      Std.LawfulEqOrd.compare_eq_iff_eq]
    split
    · rename_i h
      rw [← h.1, Std.ExtTreeMap.getElem?_eq_none h.2]
      rfl
    · rfl
  have hup : ∀ j r, f.IsRootOf j r → (f.insert k).IsRootOf j r := by
    intro j r hj
    induction hj with
    | root hp =>
      refine .root ?_
      rw [hget, if_neg, hp]
      rintro ⟨rfl, hnot⟩
      exact hnot (IsRootOf.root hp).mem
    | step hp hpj hr ih =>
      refine .step ?_ hpj ih
      rw [hget, if_neg, hp]
      rintro ⟨rfl, hnot⟩
      exact hnot (IsRootOf.step hp hpj hr).mem
  refine ⟨⟨fun {j p} hp => ?_, fun {j p} hp hpj => ?_⟩, fun j r => ⟨fun hj => ?_, ?_⟩⟩
  · rw [insert, Std.ExtTreeMap.mem_insertIfNew, Std.LawfulEqOrd.compare_eq_iff_eq]
    rw [hget] at hp
    split at hp
    · exact Or.inl (Option.some.inj hp)
    · exact Or.inr (hf.parent_mem hp)
  · rw [hrank, hrank]
    rw [hget] at hp
    split at hp
    · rename_i h
      exact absurd ((Option.some.inj hp).symm.trans h.1) hpj
    · exact hf.rank_lt hp hpj
  · by_cases hmem : j ∈ f.parent
    · obtain ⟨s, hs⟩ := exists_isRootOf hf hmem
      exact Or.inl ((hup j s hs).unique hj ▸ hs)
    · have hjk : k = j := by
        have := hj.mem
        rw [insert, Std.ExtTreeMap.mem_insertIfNew, Std.LawfulEqOrd.compare_eq_iff_eq] at this
        exact this.resolve_right hmem
      subst hjk
      have htop : (f.insert k).IsRootOf k k := .root (by rw [hget, if_pos ⟨rfl, hmem⟩])
      exact Or.inr ⟨hmem, rfl, hj.unique htop⟩
  · rintro (h | ⟨hnot, rfl, rfl⟩)
    · exact hup j r h
    · exact .root (by rw [hget, if_pos ⟨rfl, hnot⟩])

/-- **Keys added one by one are classes of their own.** -/
theorem foldl_insert_spec : ∀ (ks : List κ) {f : Forest κ}, f.Ranked →
    (∀ j r, f.IsRootOf j r → j = r) → (ks.foldl insert f).Ranked ∧
      ∀ j r, (ks.foldl insert f).IsRootOf j r ↔ j = r ∧ (j ∈ f.parent ∨ j ∈ ks) := by
  intro ks
  induction ks with
  | nil =>
    intro f hf hself
    refine ⟨hf, fun j r => ⟨fun h => ⟨hself j r h, Or.inl h.mem⟩, ?_⟩⟩
    rintro ⟨rfl, hj | hj⟩
    · obtain ⟨s, hs⟩ := exists_isRootOf hf hj
      exact hself j s hs ▸ hs
    · cases hj
  | cons k ks ih =>
    intro f hf hself
    obtain ⟨hg, hroots⟩ := insert_spec hf k
    obtain ⟨hr, hiff⟩ := ih hg fun j r hj => by
      rcases (hroots j r).1 hj with h | ⟨_, rfl, rfl⟩
      · exact hself j r h
      · rfl
    refine ⟨hr, fun j r => (hiff j r).trans (and_congr_right fun _ => ?_)⟩
    rw [insert, Std.ExtTreeMap.mem_insertIfNew, Std.LawfulEqOrd.compare_eq_iff_eq, List.mem_cons,
      eq_comm]
    tauto

/-! ### Classes -/

/-- Where no key is repeated, a look-up finds every entry. -/
theorem lookup_eq_some_iff_mem {α β : Type} [BEq α] [LawfulBEq α] {l : List (α × β)} {k : α}
    {b : β} (h : l.Pairwise fun x y => x.1 ≠ y.1) : l.lookup k = some b ↔ (k, b) ∈ l := by
  induction l with
  | nil => simp
  | cons x l ih =>
    obtain ⟨hx, hl⟩ := List.pairwise_cons.1 h
    obtain ⟨j, c⟩ := x
    rw [List.lookup_cons, List.mem_cons]
    by_cases hkj : k = j
    · subst hkj
      rw [beq_self_eq_true]
      constructor
      · intro hb
        obtain rfl := Option.some.inj hb
        exact Or.inl rfl
      · rintro (heq | hmem)
        · exact congrArg some (Prod.mk.inj heq).2.symm
        · exact absurd rfl (hx (k, b) hmem)
    · rw [beq_false_of_ne hkj]
      refine (ih hl).trans ⟨Or.inr, ?_⟩
      rintro (heq | hmem)
      · exact absurd (Prod.mk.inj heq).1 hkj
      · exact hmem

theorem mem_roots {f : Forest κ} {k r : κ} : (k, r) ∈ f.roots ↔ f.root? k = some r := by
  unfold roots
  rw [List.mem_filterMap]
  constructor
  · rintro ⟨j, _, hj⟩
    obtain ⟨s, hs, he⟩ := Option.map_eq_some_iff.1 hj
    obtain ⟨rfl, rfl⟩ := Prod.mk.inj he
    exact hs
  · intro h
    have hk : k ∈ f.parent := by
      by_contra hk
      unfold root? contains at h
      rw [Std.ExtTreeMap.mem_iff_contains] at hk
      rw [if_neg hk] at h
      cases h
    exact ⟨k, Std.ExtTreeMap.mem_keys.2 hk, by rw [h]; rfl⟩

/-- The table of roots is the walk to the root, key by key. -/
theorem lookup_roots {f : Forest κ} {k : κ} : f.roots.lookup k = f.root? k := by
  have hdistinct : f.roots.Pairwise fun x y => x.1 ≠ y.1 := by
    refine List.pairwise_filterMap.2 (Std.ExtTreeMap.distinct_keys.imp ?_)
    rintro j k hjk x hx y hy heq
    obtain ⟨r, _, rfl⟩ := Option.map_eq_some_iff.1 hx
    obtain ⟨s, _, rfl⟩ := Option.map_eq_some_iff.1 hy
    exact hjk (Std.LawfulEqOrd.compare_eq_iff_eq.2 heq)
  refine Option.ext fun r => ?_
  rw [lookup_eq_some_iff_mem hdistinct]
  exact mem_roots

/-- The members of one printed class are joined. -/
theorem joined_of_mem_classes {f : Forest κ} {c : List κ} (hc : c ∈ f.classes) {a b : κ}
    (ha : a ∈ c) (hb : b ∈ c) : f.Joined a b := by
  unfold classes at hc
  obtain ⟨r, _, rfl⟩ := List.mem_map.1 hc
  have hroot : ∀ k, k ∈ (f.roots.filter (·.2 = r)).map (·.1) → f.root? k = some r := by
    intro k hk
    obtain ⟨⟨j, s⟩, hj, rfl⟩ := List.mem_map.1 hk
    obtain ⟨hmem, hs⟩ := List.mem_filter.1 hj
    exact mem_roots.1 (of_decide_eq_true hs ▸ hmem)
  exact ⟨r, hroot a ha, hroot b hb⟩

end Forest
end Sharing
end TensorLiveness
