/-
# How classes are listed

`Forest.classes` goes through the keys in increasing order and opens a class where a root is met
for the first time.  So the classes are the sets of keys with one root (`mem_classes`), each in
increasing order (`ordered_members`), and a class stands before another if its smallest key is
smaller (`ordered_classes`).
-/

import Mathlib.Data.List.Basic
import TensorLiveness.Proofs.Sharing.Roots

namespace TensorLiveness
namespace Sharing
namespace Forest

/-! ### Grouping entries -/

section Groups

variable {κ : Type} [DecidableEq κ]

/-- The first components of entries, grouped by their second components. -/
def groups (l : List (κ × κ)) : List (List κ) :=
  (l.map (·.2)).eraseDups.map fun root => (l.filter (·.2 = root)).map (·.1)

/-- The first group is that of the first entry. -/
theorem groups_cons (k r : κ) (l : List (κ × κ)) : groups ((k, r) :: l) =
    (k :: (l.filter (·.2 = r)).map (·.1)) :: groups (l.filter (·.2 ≠ r)) := by
  have hroots : (l.map (·.2)).filter (fun b => !b == r) = (l.filter (·.2 ≠ r)).map (·.2) := by
    rw [List.filter_map]
    refine congrArg (List.map Prod.snd) (List.filter_congr fun x _ => ?_)
    by_cases hx : x.2 = r <;> simp [hx]
  have hfirst : ((k, r) :: l).filter (·.2 = r) = (k, r) :: l.filter (·.2 = r) :=
    List.filter_cons_of_pos (by simp)
  rw [groups, List.map_cons, List.eraseDups_cons, List.map_cons, hroots, hfirst, List.map_cons,
    groups]
  refine congrArg (_ :: ·) (List.map_congr_left fun s hs => ?_)
  obtain ⟨x, hx, rfl⟩ := List.mem_map.1 (List.mem_eraseDups.1 hs)
  have hne : x.2 ≠ r := of_decide_eq_true (List.mem_filter.1 hx).2
  rw [List.filter_cons_of_neg (by simpa using Ne.symm hne), List.filter_filter]
  refine congrArg (List.map Prod.fst) (List.filter_congr fun y _ => ?_)
  by_cases hy : y.2 = x.2
  · simp [hy, hne]
  · simp [hy]

/-- A group begins with one of the entries. -/
theorem exists_head_of_mem_groups {l : List (κ × κ)} {c : List κ} (h : c ∈ groups l) :
    ∃ x ∈ l, c.head? = some x.1 := by
  obtain ⟨r, hr, rfl⟩ := List.mem_map.1 h
  obtain ⟨x, hx, rfl⟩ := List.mem_map.1 (List.mem_eraseDups.1 hr)
  cases hfilter : l.filter (·.2 = x.2) with
  | nil =>
    have hmem : x ∈ l.filter (·.2 = x.2) := List.mem_filter.2 ⟨hx, decide_eq_true rfl⟩
    exact absurd (hfilter ▸ hmem) List.not_mem_nil
  | cons y ys =>
    have hmem : y ∈ l.filter (·.2 = x.2) := hfilter ▸ List.mem_cons_self
    exact ⟨y, (List.mem_filter.1 hmem).1, rfl⟩

end Groups

variable {κ : Type} [Ord κ] [DecidableEq κ]

/-- The first list begins with a smaller key than the second. -/
def Before (c d : List κ) : Prop :=
  ∃ a b, c.head? = some a ∧ d.head? = some b ∧ compare a b = .lt

/-- **Groups of ordered entries are ordered by their first members.** -/
theorem ordered_groups : ∀ (n : Nat) {l : List (κ × κ)}, l.length ≤ n →
    l.Pairwise (fun x y => compare x.1 y.1 = .lt) → (groups l).Pairwise Before := by
  intro n
  -- a group is taken out at every step, so the induction is on a bound of the length
  induction n with
  | zero =>
    intro l hn _
    obtain rfl := List.length_eq_zero_iff.1 (Nat.le_zero.1 hn)
    exact .nil
  | succ n ih =>
    intro l hn hl
    cases l with
    | nil => exact .nil
    | cons x l =>
      obtain ⟨k, r⟩ := x
      obtain ⟨hx, hl⟩ := List.pairwise_cons.1 hl
      rw [groups_cons, List.pairwise_cons]
      refine ⟨fun c hc => ?_, ih ?_ (hl.sublist List.filter_sublist)⟩
      · obtain ⟨y, hy, hhead⟩ := exists_head_of_mem_groups hc
        exact ⟨k, y.1, rfl, hhead, hx y (List.mem_filter.1 hy).1⟩
      · exact (List.length_filter_le _ l).trans (Nat.le_of_succ_le_succ hn)

variable [Std.TransOrd κ]

/-! ### Classes -/

/-- The keys with this root, in increasing order. -/
def members (f : Forest κ) (r : κ) : List κ := (f.roots.filter (·.2 = r)).map (·.1)

theorem ordered_roots (f : Forest κ) : f.roots.Pairwise fun x y => compare x.1 y.1 = .lt := by
  refine List.pairwise_filterMap.2 (Std.ExtTreeMap.ordered_keys.imp ?_)
  intro j k hjk x hx y hy
  obtain ⟨_, _, rfl⟩ := Option.map_eq_some_iff.1 hx
  obtain ⟨_, _, rfl⟩ := Option.map_eq_some_iff.1 hy
  exact hjk

theorem ordered_members (f : Forest κ) (r : κ) :
    (f.members r).Pairwise fun a b => compare a b = .lt :=
  List.pairwise_map.2 (f.ordered_roots.sublist List.filter_sublist)

/-- **Classes are listed by their smallest members.** -/
theorem ordered_classes (f : Forest κ) : f.classes.Pairwise Before :=
  ordered_groups _ (Nat.le_refl _) f.ordered_roots

variable [Std.LawfulEqOrd κ] {f : Forest κ}

theorem mem_members (hf : f.Ranked) {k r : κ} : k ∈ f.members r ↔ f.IsRootOf k r := by
  rw [← root?_eq_some_iff hf, ← mem_roots, members, List.mem_map]
  constructor
  · rintro ⟨⟨j, s⟩, hx, rfl⟩
    obtain ⟨hmem, hs⟩ := List.mem_filter.1 hx
    exact of_decide_eq_true hs ▸ hmem
  · exact fun h => ⟨(k, r), List.mem_filter.2 ⟨h, decide_eq_true rfl⟩, rfl⟩

/-- **The classes are the sets of keys with one root.** -/
theorem mem_classes (hf : f.Ranked) {c : List κ} :
    c ∈ f.classes ↔ ∃ r, f.IsRootOf r r ∧ c = f.members r := by
  rw [classes, List.mem_map]
  constructor
  · rintro ⟨r, hr, rfl⟩
    obtain ⟨⟨k, s⟩, hx, rfl⟩ := List.mem_map.1 (List.mem_eraseDups.1 hr)
    exact ⟨s, ((root?_eq_some_iff hf).1 (mem_roots.1 hx)).self, rfl⟩
  · rintro ⟨r, hr, rfl⟩
    have hmem := mem_roots.2 ((root?_eq_some_iff hf).2 hr)
    exact ⟨r, List.mem_eraseDups.2 (List.mem_map_of_mem (f := (·.2)) hmem), rfl⟩

end Forest
end Sharing
end TensorLiveness
