/-
# Ranks keep the walks short

The walk to a root and the one that shortens the way behind it have no bound of their own:
`Forest.Climbs` and `Forest.Hangs` are these two loops with their steps counted, and a step needs a
parent that is there.  What ends them is the rank.  It grows from a key to its parent, so a walk has
no more steps than the rank of the root (`Climbs.le_rank`); and a rank only grows where two classes
of the same rank are joined, so a root of rank `n` has a class of at least `2 ^ n` keys
(`Forest.Weighed`).

| call | ranks | classes |
| --- | --- | --- |
| `insert` | a new key has rank zero | one more, of one key |
| `find` | the same (`rank_find`) | the same |
| `union` | the root of the joined class gains at most one (`rankOf_union`) | two become one |

`shallow_afterCalls` says what comes of it for every forest that calls lead to.
-/

import Mathlib
import TensorLiveness.Proofs.Sharing.Partition

namespace TensorLiveness
namespace Sharing
namespace Forest

variable {κ : Type} [Ord κ] [Std.TransOrd κ]

/-! ### The two walks -/

/-- From `k` the walk up parents comes to `r`, which is its own parent, in so many steps. -/
inductive Climbs (f : Forest κ) : Nat → κ → κ → Prop
  | stop {k : κ} : f.parent[k]? = some k → Climbs f 0 k k
  | up {n : Nat} {k p r : κ} : f.parent[k]? = some p → p ≠ k → Climbs f n p r →
    Climbs f (n + 1) k r

/-- The walk from a key of the first forest up to `root`, which hangs every key on the way directly
below `root`, ends with the second forest in so many steps. -/
inductive Hangs (root : κ) : Nat → Forest κ → κ → Forest κ → Prop
  | stop {f : Forest κ} : Hangs root 0 f root f
  | up {n : Nat} {f g : Forest κ} {k p : κ} : k ≠ root → f.parent[k]? = some p →
    Hangs root n { f with parent := f.parent.insert k root } p g → Hangs root (n + 1) f k g

variable {f g : Forest κ} {a b k r root ra rb : κ} {n : Nat}

/-- A walk up parents follows the chain of parents. -/
theorem IsRootOf.exists_climbs (h : f.IsRootOf k r) : ∃ n, f.Climbs n k r := by
  induction h with
  | root hk => exact ⟨0, .stop hk⟩
  | step hk hne _ ih =>
    obtain ⟨n, hn⟩ := ih
    exact ⟨n + 1, .up hk hne hn⟩

/-- **Every step of a walk goes up in rank.** -/
theorem Climbs.le_rank (hf : f.Ranked) (h : f.Climbs n k r) : n + f.rankOf k ≤ f.rankOf r := by
  induction h with
  | stop _ => exact Nat.le_of_eq (Nat.zero_add _)
  | up hk hne _ ih =>
    have hlt := hf.rank_lt hk hne
    omega

variable [DecidableEq κ]

/-- Parents are keys, ranks grow from a key to its parent and are logarithms of sizes at most, and
both walks end in fewer steps than there are keys. -/
structure Shallow (f : Forest κ) : Prop where
  parent_mem {k p : κ} : f.parent[k]? = some p → p ∈ f.parent
  rank_lt {k p : κ} : f.parent[k]? = some p → p ≠ k →
    ∃ m n, f.rank[k]? = some m ∧ f.rank[p]? = some n ∧ m < n
  two_pow_le {r : κ} : f.parent[r]? = some r →
    ∃ n, f.rank[r]? = some n ∧ ∃ c ∈ f.classes, r ∈ c ∧ 2 ^ n ≤ c.length
  rank_le_log {k : κ} {n : Nat} : f.rank[k]? = some n → n ≤ Nat.log 2 f.size
  climbs {k : κ} : k ∈ f.parent → ∃ r n, f.Climbs n k r ∧ n < f.size ∧ f.root? k = some r
  hangs {k : κ} : k ∈ f.parent → ∃ r n g, Hangs r n f k g ∧ n < f.size ∧ f.find k = (some r, g)

/-- What holds on the way through the calls: the keys have ranks, and a root of rank `n` stands for
`2 ^ n` keys or more. -/
structure Weighed (f : Forest κ) : Prop where
  ranked : f.Ranked
  mem_rank (k : κ) : k ∈ f.rank ↔ k ∈ f.parent
  two_pow_le {r : κ} : f.IsRootOf r r → 2 ^ f.rankOf r ≤ (f.members r).length

/-- A bounded walk of enough steps is the walk without a bound. -/
theorem Hangs.compress_eq (h : Hangs root n f k g) : ∀ {steps : Nat}, n ≤ steps →
    f.compress root steps k = g := by
  induction h with
  | stop =>
    intro steps _
    cases steps with
    | zero => rfl
    | succ steps => rw [compress, if_pos rfl]
  | up hne hk _ ih =>
    intro steps hle
    obtain ⟨steps, rfl⟩ := Nat.exists_eq_add_of_le' (Nat.lt_of_lt_of_le (Nat.succ_pos _) hle)
    rw [compress, if_neg hne, hk]
    exact ih (Nat.le_of_succ_le_succ hle)

/-! ### Ranks after a call -/

theorem rank_compress (root : κ) : ∀ (steps : Nat) (f : Forest κ) (k : κ),
    (f.compress root steps k).rank = f.rank := by
  intro steps
  induction steps with
  | zero => exact fun _ _ => rfl
  | succ steps ih =>
    intro f k
    rw [compress]
    split
    · rfl
    · split
      · exact ih _ _
      · rfl

/-- A look-up changes no rank. -/
theorem rank_find (f : Forest κ) (k : κ) : (f.find k).2.rank = f.rank := by
  unfold find
  split
  · exact rank_compress _ _ _ _
  · rfl

variable [Std.LawfulEqOrd κ]

/-- **The walk that shortens the way ends,** and every step of it goes up in rank. -/
theorem IsRootOf.exists_hangs (hf : f.Ranked) (h : f.IsRootOf k r) :
    ∃ n g, Hangs r n f k g ∧ n + f.rankOf k ≤ f.rankOf r := by
  -- the parents change on the way, the ranks do not
  induction hd : f.rankOf r - f.rankOf k using Nat.strong_induction_on generalizing f k with
  | _ d ih =>
    by_cases hkr : k = r
    · subst hkr
      exact ⟨0, f, .stop, Nat.le_of_eq (Nat.zero_add _)⟩
    · obtain ⟨hg, hroots⟩ := isRootOf_hang hf h hkr
      have hlt := h.rank_lt hf hkr
      cases h with
      | root _ => exact absurd rfl hkr
      | @step _ p _ hp hpk hpr =>
        have hup := hf.rank_lt hp hpk
        obtain ⟨n, g, hn, hle⟩ := ih (f.rankOf r - f.rankOf p) (by omega) hg
          ((hroots p r).2 hpr) rfl
        refine ⟨n + 1, g, .up hkr hp hn, ?_⟩
        have hsame : n + f.rankOf p ≤ f.rankOf r := hle
        omega

/-- **A union changes one rank at most:** where both roots have the same, the one that stays gets one
more. -/
theorem rank_union (hf : f.Ranked) (ha : f.IsRootOf a ra) (hb : f.IsRootOf b rb) :
    ∃ r g, f.union a b = (some r, g) ∧ (g.rank = f.rank ∨
      ra ≠ rb ∧ f.rankOf ra = f.rankOf rb ∧ g.rank = f.rank.insert r (f.rankOf r + 1)) := by
  obtain ⟨f₁, h₁, hf₁, hr₁⟩ := find_spec hf ha
  obtain ⟨f₂, h₂, -, -⟩ := find_spec hf₁ ((hr₁ b rb).2 hb)
  have hrank₁ : f₁.rank = f.rank := by rw [← rank_find f a, h₁]
  have hrank : f₂.rank = f.rank := by rw [← hrank₁, ← rank_find f₁ b, h₂]
  unfold union
  simp only [h₁, h₂, hrank]
  split
  · exact ⟨ra, f₂, rfl, Or.inl hrank⟩
  · rename_i hne
    split
    · exact ⟨rb, _, rfl, Or.inl hrank⟩
    · split
      · rename_i heq
        exact ⟨ra, _, rfl, Or.inr ⟨hne, heq, rfl⟩⟩
      · exact ⟨ra, _, rfl, Or.inl hrank⟩

omit [Std.LawfulEqOrd κ] in
/-- A union without an answer changes no rank. -/
theorem rank_union_of_eq_none (h : (f.union a b).1 = none) : (f.union a b).2.rank = f.rank := by
  have hfind : ∀ {f g : Forest κ} {k : κ} {x : Option κ}, f.find k = (x, g) → g.rank = f.rank :=
    fun {f g k x} h => by rw [← rank_find f k, h]
  unfold union at h ⊢
  split
  · rename_i h₁
    exact hfind h₁
  · rename_i ra f₁ h₁
    simp only [h₁] at h
    split
    · rename_i h₂
      exact (hfind h₂).trans (hfind h₁)
    · rename_i rb f₂ h₂
      simp only [h₂] at h
      split at h <;> try split at h <;> try split at h
      all_goals cases h

/-! ### The weight of a class -/

omit [Std.LawfulEqOrd κ] in
theorem nodup_members (f : Forest κ) (r : κ) : (f.members r).Nodup :=
  (f.ordered_members r).imp fun {a b} hab heq => by
    subst heq
    simp at hab

/-- A class has no fewer keys than are known to be in it. -/
theorem length_le_members (hf : f.Ranked) {keys : List κ} (hnodup : keys.Nodup)
    (h : ∀ j ∈ keys, f.IsRootOf j r) : keys.length ≤ (f.members r).length :=
  (hnodup.subperm fun j hj => (mem_members hf).2 (h j hj)).length_le

/-- Two classes that become one have no fewer keys together. -/
theorem length_members_add_le (hf : f.Ranked) (hg : g.Ranked) (hne : ra ≠ rb)
    (ha : ∀ j, f.IsRootOf j ra → g.IsRootOf j r) (hb : ∀ j, f.IsRootOf j rb → g.IsRootOf j r) :
    (f.members ra).length + (f.members rb).length ≤ (g.members r).length := by
  rw [← List.length_append]
  refine length_le_members hg (List.nodup_append.2 ⟨nodup_members f ra, nodup_members f rb, ?_⟩) ?_
  · rintro j hja _ hjb rfl
    exact hne (((mem_members hf).1 hja).unique ((mem_members hf).1 hjb))
  · intro j hj
    rcases List.mem_append.1 hj with hj | hj
    · exact ha j ((mem_members hf).1 hj)
    · exact hb j ((mem_members hf).1 hj)

/-- A class has no more keys than there are. -/
theorem length_members_le_size (hf : f.Ranked) (r : κ) : (f.members r).length ≤ f.size := by
  have hkeys : f.members r ⊆ f.parent.keys := fun j hj =>
    Std.ExtTreeMap.mem_keys.2 ((mem_members hf).1 hj).mem
  exact ((nodup_members f r).subperm hkeys).length_le.trans (Nat.le_of_eq Std.ExtTreeMap.length_keys)

omit [Std.LawfulEqOrd κ] in
theorem weighed_empty : (empty : Forest κ).Weighed :=
  ⟨ranked_empty, fun _ => iff_of_false Std.ExtTreeMap.not_mem_empty Std.ExtTreeMap.not_mem_empty,
    fun h => absurd h not_isRootOf_empty⟩

/-- The roots of `g` are roots of `f` and stand for all the keys that they did there. -/
structure Coarsens (f g : Forest κ) : Prop where
  ranked : g.Ranked
  mem (k : κ) : k ∈ g.parent ↔ k ∈ f.parent
  root {r : κ} : g.IsRootOf r r → f.IsRootOf r r
  keeps {j r : κ} : g.IsRootOf r r → f.IsRootOf j r → g.IsRootOf j r

theorem coarsens_of_roots_eq (hf : f.Ranked) (hg : g.Ranked)
    (hroots : ∀ j r, g.IsRootOf j r ↔ f.IsRootOf j r) : Coarsens f g := by
  refine ⟨hg, fun k => ?_, (hroots _ _).1, fun _ => (hroots _ _).2⟩
  simp only [mem_parent_iff hg, mem_parent_iff hf, hroots]

/-- A forest in which one of two roots takes up the other is coarser. -/
theorem coarsens_of_joined (hf : f.Ranked) (hg : g.Ranked) (hr : f.IsRootOf r r)
    (hjoin : ∀ j s, g.IsRootOf j s ↔ ∃ t, f.IsRootOf j t ∧ s = if t = ra ∨ t = rb then r else t) :
    Coarsens f g := by
  refine ⟨hg, fun k => ?_, fun {s} hs => ?_, fun {j s} hs hj => ?_⟩
  · simp only [mem_parent_iff hg, mem_parent_iff hf, hjoin]
    constructor
    · rintro ⟨_, t, ht, _⟩
      exact ⟨t, ht⟩
    · rintro ⟨t, ht⟩
      exact ⟨_, t, ht, rfl⟩
  · obtain ⟨t, ht, hst⟩ := (hjoin s s).1 hs
    split at hst
    · exact hst ▸ hr
    · exact hst ▸ ht.self
  · -- a root that is left has been given its own place
    have hmove : ∀ {i}, f.IsRootOf i s → g.IsRootOf i (if s = ra ∨ s = rb then r else s) :=
      fun hi => (hjoin _ _).2 ⟨s, hi, rfl⟩
    exact hs.unique (hmove hj.self) ▸ hmove hj

theorem Coarsens.two_pow_le (h : Coarsens f g) (hf : f.Weighed) (hr : g.IsRootOf r r) :
    2 ^ f.rankOf r ≤ (g.members r).length := by
  refine (hf.two_pow_le (h.root hr)).trans (length_le_members h.ranked (nodup_members f r) ?_)
  exact fun j hj => h.keeps hr ((mem_members hf.ranked).1 hj)

/-- In a coarser forest with the same ranks the weights suffice. -/
theorem Coarsens.weighed (h : Coarsens f g) (hf : f.Weighed) (hrank : g.rank = f.rank) :
    g.Weighed := by
  refine ⟨h.ranked, fun k => by rw [hrank, hf.mem_rank, h.mem], fun {r} hr => ?_⟩
  rw [rankOf, hrank]
  exact h.two_pow_le hf hr

/-! ### Any number of calls -/

theorem Weighed.insert (hf : f.Weighed) (k : κ) : (f.insert k).Weighed := by
  obtain ⟨hg, hroots⟩ := insert_spec hf.ranked k
  have hrank : ∀ j, (f.insert k).rankOf j = f.rankOf j := fun j => by
    simp only [Forest.insert, rankOf, Std.ExtTreeMap.getElem?_insertIfNew,
      Std.LawfulEqOrd.compare_eq_iff_eq]
    split
    · rename_i h
      rw [← h.1, Std.ExtTreeMap.getElem?_eq_none h.2]
      rfl
    · rfl
  refine ⟨hg, fun j => ?_, fun {r} hr => ?_⟩
  · rw [Forest.insert, Std.ExtTreeMap.mem_insertIfNew, Std.ExtTreeMap.mem_insertIfNew, hf.mem_rank]
  rw [hrank]
  rcases (hroots r r).1 hr with hold | ⟨hnot, rfl, -⟩
  · refine (hf.two_pow_le hold).trans (length_le_members hg (nodup_members f r) fun j hj => ?_)
    exact (hroots j r).2 (Or.inl ((mem_members hf.ranked).1 hj))
  · rw [rankOf, Std.ExtTreeMap.getElem?_eq_none fun h => hnot ((hf.mem_rank r).1 h)]
    exact length_le_members hg (List.nodup_singleton r) fun j hj => List.mem_singleton.1 hj ▸ hr

/-- **A union keeps the weights:** the rank of a root grows where its class takes up another one of
the same rank. -/
theorem Weighed.union (hf : f.Weighed) (ha : f.IsRootOf a ra) (hb : f.IsRootOf b rb) :
    (f.union a b).2.Weighed := by
  obtain ⟨r, g, heq, hroot, hg, hjoin⟩ := union_spec hf.ranked ha hb
  obtain ⟨r', g', heq', hrank⟩ := rank_union hf.ranked ha hb
  obtain ⟨hr', rfl⟩ := Prod.mk.inj (heq.symm.trans heq')
  obtain rfl := Option.some.inj hr'
  have hr : f.IsRootOf r r := hroot.elim (· ▸ ha.self) (· ▸ hb.self)
  have hcoarse := coarsens_of_joined hf.ranked hg hr hjoin
  rw [heq]
  rcases hrank with hrank | ⟨hne, hsame, hrank⟩
  · exact hcoarse.weighed hf hrank
  have hrankOf : ∀ k, g.rankOf k = if r = k then f.rankOf r + 1 else f.rankOf k := fun k => by
    simp only [rankOf, hrank, Std.ExtTreeMap.getElem?_insert, Std.LawfulEqOrd.compare_eq_iff_eq]
    split <;> rfl
  refine ⟨hg, fun k => ?_, fun {s} hs => ?_⟩
  · rw [hrank, Std.ExtTreeMap.mem_insert, Std.LawfulEqOrd.compare_eq_iff_eq, hf.mem_rank,
      hcoarse.mem]
    exact or_iff_right_of_imp fun hk => hk ▸ hr.mem
  · rw [hrankOf]
    split
    · rename_i hrs
      subst hrs
      have hjoined : ∀ {j t}, f.IsRootOf j t → t = ra ∨ t = rb → g.IsRootOf j r := fun hj ht =>
        (hjoin _ r).2 ⟨_, hj, (if_pos ht).symm⟩
      calc 2 ^ (f.rankOf r + 1) = 2 ^ f.rankOf ra + 2 ^ f.rankOf rb := by
            rcases hroot with rfl | rfl <;> rw [hsame, Nat.pow_succ, Nat.mul_two]
        _ ≤ (f.members ra).length + (f.members rb).length :=
            Nat.add_le_add (hf.two_pow_le ha.self) (hf.two_pow_le hb.self)
        _ ≤ (g.members r).length := length_members_add_le hf.ranked hg hne
            (fun _ hj => hjoined hj (Or.inl rfl)) fun _ hj => hjoined hj (Or.inr rfl)
    · exact hcoarse.two_pow_le hf hs

/-- **One call more** keeps the weights. -/
theorem Weighed.afterCall (hf : f.Weighed) (call : Call κ) : (f.afterCall call).Weighed := by
  cases call with
  | insert k => exact hf.insert k
  | find k =>
    obtain ⟨hg, hroots⟩ := find_keeps hf.ranked k
    exact (coarsens_of_roots_eq hf.ranked hg hroots).weighed hf (rank_find f k)
  | root k => exact hf
  | union a b =>
    by_cases h : a ∈ f.parent ∧ b ∈ f.parent
    · obtain ⟨ra, ha⟩ := exists_isRootOf hf.ranked h.1
      obtain ⟨rb, hb⟩ := exists_isRootOf hf.ranked h.2
      exact hf.union ha hb
    · obtain ⟨hnone, hg, hroots⟩ := union_of_not_mem hf.ranked (not_and_or.1 h)
      exact (coarsens_of_roots_eq hf.ranked hg hroots).weighed hf (rank_union_of_eq_none hnone)

/-- **Any calls keep the weights.** -/
theorem weighed_afterCalls (calls : List (Call κ)) : (afterCalls calls).Weighed := by
  induction calls using List.reverseRecOn with
  | nil => exact weighed_empty
  | append_singleton calls call ih =>
    rw [afterCalls, List.foldl_append]
    exact ih.afterCall call

omit [Std.LawfulEqOrd κ] in
/-- Every key has a rank. -/
theorem getElem?_rank (hf : f.Weighed) (hk : k ∈ f.parent) : f.rank[k]? = some (f.rankOf k) := by
  obtain ⟨n, hn⟩ := Option.isSome_iff_exists.1
    (Std.ExtTreeMap.mem_iff_isSome_getElem?.1 ((hf.mem_rank k).2 hk))
  rw [rankOf, hn]
  rfl

/-- **A rank is at most the logarithm of the number of keys.** -/
theorem Weighed.rankOf_le_log (hf : f.Weighed) (hk : f.IsRootOf k r) :
    f.rankOf k ≤ Nat.log 2 f.size := by
  have hle : f.rankOf k ≤ f.rankOf r := by
    by_cases hkr : k = r
    · exact Nat.le_of_eq (congrArg f.rankOf hkr)
    · exact Nat.le_of_lt (hk.rank_lt hf.ranked hkr)
  refine hle.trans (Nat.le_log_of_pow_le Nat.one_lt_two ?_)
  exact (hf.two_pow_le hk.self).trans (length_members_le_size hf.ranked r)

/-- There are more keys than a walk of so many steps up in rank has steps. -/
theorem Weighed.lt_size (hf : f.Weighed) (hk : f.IsRootOf k r) (h : n + f.rankOf k ≤ f.rankOf r) :
    n < f.size := by
  have hpos : f.size ≠ 0 := by
    have hle := (hf.two_pow_le hk.self).trans (length_members_le_size hf.ranked r)
    have hpow := Nat.two_pow_pos (f.rankOf r)
    omega
  calc n ≤ f.rankOf r := (Nat.le_add_right _ _).trans h
    _ ≤ Nat.log 2 f.size := hf.rankOf_le_log hk.self
    _ < f.size := Nat.log_lt_self 2 hpos

/-- **Ranks keep the walks short.**  After any calls parents are keys, ranks grow from a key to its
parent, and a root of rank `n` stands for a class of at least `2 ^ n` keys.  So no rank is above the
logarithm of the number of keys, and the walk to the root and the one that shortens the way both end,
in fewer steps than there are keys and without missing a parent. -/
theorem shallow_afterCalls (calls : List (Call κ)) : (afterCalls calls).Shallow := by
  have hf := weighed_afterCalls calls
  refine ⟨hf.ranked.parent_mem, fun {k p} hp hpk => ?_, fun {r} hr => ?_, fun {k n} hn => ?_,
    fun {k} hk => ?_, fun {k} hk => ?_⟩
  · have hk := Std.ExtTreeMap.mem_iff_isSome_getElem?.2 (Option.isSome_of_eq_some hp)
    exact ⟨_, _, getElem?_rank hf hk, getElem?_rank hf (hf.ranked.parent_mem hp),
      hf.ranked.rank_lt hp hpk⟩
  · have hroot : (afterCalls calls).IsRootOf r r := .root hr
    exact ⟨_, getElem?_rank hf hroot.mem, _, (mem_classes hf.ranked).2 ⟨r, hroot, rfl⟩,
      (mem_members hf.ranked).2 hroot, hf.two_pow_le hroot⟩
  · have hk := (hf.mem_rank k).1
      (Std.ExtTreeMap.mem_iff_isSome_getElem?.2 (Option.isSome_of_eq_some hn))
    obtain ⟨r, hr⟩ := exists_isRootOf hf.ranked hk
    rw [getElem?_rank hf hk] at hn
    exact Option.some.inj hn ▸ hf.rankOf_le_log hr
  · obtain ⟨r, hr⟩ := exists_isRootOf hf.ranked hk
    obtain ⟨n, hn⟩ := hr.exists_climbs
    exact ⟨r, n, hn, hf.lt_size hr (hn.le_rank hf.ranked), (root?_eq_some_iff hf.ranked).2 hr⟩
  · obtain ⟨r, hr⟩ := exists_isRootOf hf.ranked hk
    obtain ⟨n, g, hn, hle⟩ := hr.exists_hangs hf.ranked
    have hlt := hf.lt_size hr hle
    refine ⟨r, n, g, hn, hlt, ?_⟩
    rw [find, (root?_eq_some_iff hf.ranked).2 hr]
    exact congrArg (some r, ·) (hn.compress_eq hlt.le)

/-- Two pairs joined have a root of rank two, which is two steps above one of the keys. -/
theorem shallow_afterCalls_twoPairs :
    let f := afterCalls [.insert 1, .insert 2, .insert 3, .insert 4, .union 1 2, .union 3 4,
      .union 1 3]
    f.rank[1]? = some 2 ∧ f.classes = [[1, 2, 3, 4]] ∧ f.Climbs 2 4 1 ∧
      ∃ n, n < f.size ∧ f.Climbs n 4 1 := by
  intro f
  have h : f.Shallow := shallow_afterCalls _
  have hroot : f.root? 4 = some 1 := by decide +kernel
  have hmem : 4 ∈ f.parent := by decide +kernel
  obtain ⟨r, n, hn, hlt, hr⟩ := h.climbs hmem
  obtain rfl := Option.some.inj (hroot.symm.trans hr)
  refine ⟨by decide +kernel, by decide +kernel, ?_, n, hlt, hn⟩
  exact .up (p := 3) (by decide +kernel) (by decide) (.up (p := 1) (by decide +kernel) (by decide)
    (.stop (by decide +kernel)))

end Forest
end Sharing
end TensorLiveness
