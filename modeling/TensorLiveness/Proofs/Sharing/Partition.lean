/-
# The partition behind a forest

Whatever is called on a forest, and in whatever order, it stands for a partition that can be told
from the calls alone.  Its keys are the ones inserted; `Unites calls a b` says that a union of `a`
and `b` was called while both were keys; the classes are those of the equivalence that these pairs
generate (`partitions_afterCalls`).  How often the parents were moved by look-ups, and which root
went below which, does not show.

| statement | about |
| --- | --- |
| `ranked_afterCall`, `mem_afterCall` | the ranks and the keys after one call |
| `joined_afterCall` | membership in one class after one call |
| `generates_afterCalls` | any number of calls |
-/

import Mathlib.Data.List.Sort
import Mathlib.Logic.Relation
import TensorLiveness.Proofs.Sharing.Classes

namespace TensorLiveness
namespace Sharing
namespace Forest

/-- A call on a forest. -/
inductive Call (κ : Type)
  | insert (k : κ)
  | find (k : κ)
  | root (k : κ)
  | union (a b : κ)

/-- A union of the two was called when both were keys. -/
def Unites {κ : Type} (calls : List (Call κ)) (a b : κ) : Prop :=
  ∃ before after, calls = before ++ .union a b :: after ∧
    .insert a ∈ before ∧ .insert b ∈ before

variable {κ : Type} [Ord κ] [Std.TransOrd κ] [DecidableEq κ]

/-- The forest that a call leaves. -/
def afterCall (f : Forest κ) : Call κ → Forest κ
  | .insert k => f.insert k
  | .find k => (f.find k).2
  | .root _ => f
  | .union a b => (f.union a b).2

/-- The forest after calls on the one without keys. -/
def afterCalls (calls : List (Call κ)) : Forest κ := calls.foldl afterCall empty

/-- The forest is the partition of the keys that are `Present` into classes of keys that are
`Related`: it lists this partition, answers by it, and only a union of two keys changes it. -/
structure Partitions (f : Forest κ) (Present : κ → Prop) (Related : κ → κ → Prop) : Prop where
  mem_classes (c : List κ) : c ∈ f.classes ↔ c.Pairwise (fun a b => compare a b = .lt) ∧
    ∃ k, Present k ∧ ∀ j, j ∈ c ↔ Present j ∧ Related k j
  ordered : f.classes.Pairwise Before
  existsUnique {k : κ} : Present k → ∃! c, c ∈ f.classes ∧ k ∈ c
  find_eq (k : κ) : (f.find k).1 = f.root? k
  root_eq_none (k : κ) : f.root? k = none ↔ ¬ Present k
  root_eq_root {j k : κ} : Present j → Present k →
    (f.root? j = f.root? k ↔ ∃ c ∈ f.classes, j ∈ c ∧ k ∈ c)
  find_keeps (k : κ) : (f.find k).2.root? = f.root?
  insert_keeps {k : κ} : Present k → (f.insert k).root? = f.root?
  union_eq_none (a b : κ) : (f.union a b).1 = none ↔ ¬ Present a ∨ ¬ Present b
  union_keeps {a b : κ} : (f.union a b).1 = none → (f.union a b).2.root? = f.root?
  union_root {a b ra rb : κ} : f.root? a = some ra → f.root? b = some rb →
    ∃ r, (f.union a b).1 = some r ∧ (r = ra ∨ r = rb) ∧
      ∀ j, (f.union a b).2.root? j = (f.root? j).map fun t => if t = ra ∨ t = rb then r else t

variable {f g : Forest κ} {a b c k : κ} {calls : List (Call κ)} {call : Call κ}

/-- The answer of a look-up is the root that is there. -/
theorem fst_find (f : Forest κ) (k : κ) : (f.find k).1 = f.root? k := by
  unfold find
  cases f.root? k <;> rfl

/-! ### The pairs of a list of calls -/

omit [Ord κ] [Std.TransOrd κ] [DecidableEq κ] in
theorem unites_concat : Unites (calls ++ [call]) a b ↔ Unites calls a b ∨
    call = .union a b ∧ .insert a ∈ calls ∧ .insert b ∈ calls := by
  constructor
  · rintro ⟨before, after, heq, ha, hb⟩
    rcases List.eq_nil_or_concat' after with rfl | ⟨after, last, rfl⟩
    · obtain ⟨rfl, hlast⟩ := List.append_inj' heq rfl
      exact Or.inr ⟨List.singleton_inj.1 hlast, ha, hb⟩
    · rw [← List.cons_append, ← List.append_assoc] at heq
      exact Or.inl ⟨before, after, (List.append_inj' heq rfl).1, ha, hb⟩
  · rintro (⟨before, after, rfl, ha, hb⟩ | ⟨rfl, ha, hb⟩)
    · exact ⟨before, after ++ [call], by simp, ha, hb⟩
    · exact ⟨calls, [], rfl, ha, hb⟩

variable [Std.LawfulEqOrd κ]

/-! ### One call -/

theorem mem_parent_iff (hf : f.Ranked) : k ∈ f.parent ↔ ∃ r, f.IsRootOf k r :=
  ⟨exists_isRootOf hf, fun ⟨_, h⟩ => h.mem⟩

theorem root?_eq_none_iff (hf : f.Ranked) : f.root? k = none ↔ k ∉ f.parent := by
  rw [mem_parent_iff hf, not_exists, Option.eq_none_iff_forall_ne_some]
  simp only [Ne, root?_eq_some_iff hf]

theorem root?_congr (hf : f.Ranked) (hg : g.Ranked)
    (hroots : ∀ j r, g.IsRootOf j r ↔ f.IsRootOf j r) : g.root? = f.root? := by
  funext j
  refine Option.ext fun r => ?_
  rw [root?_eq_some_iff hg, root?_eq_some_iff hf, hroots]

theorem joined_self_iff (hf : f.Ranked) : f.Joined k k ↔ k ∈ f.parent := by
  rw [joined_iff hf, mem_parent_iff hf]
  simp

theorem Joined.mem (hf : f.Ranked) (hab : f.Joined a b) : a ∈ f.parent := by
  obtain ⟨r, ha, -⟩ := (joined_iff hf).1 hab
  exact ha.mem

/-- **A look-up changes no root,** whether there is a key to look up or not. -/
theorem find_keeps (hf : f.Ranked) (k : κ) : (f.find k).2.Ranked ∧
    ∀ j r, (f.find k).2.IsRootOf j r ↔ f.IsRootOf j r := by
  by_cases hk : k ∈ f.parent
  · obtain ⟨r, hr⟩ := exists_isRootOf hf hk
    obtain ⟨g, hg, hkeeps⟩ := find_spec hf hr
    rw [hg]
    exact hkeeps
  · rw [find_of_not_mem hk]
    exact ⟨hf, fun _ _ => Iff.rfl⟩

/-- **A union with a key that is not there** has no answer and changes no root. -/
theorem union_of_not_mem (hf : f.Ranked) (h : a ∉ f.parent ∨ b ∉ f.parent) :
    (f.union a b).1 = none ∧ (f.union a b).2.Ranked ∧
      ∀ j r, (f.union a b).2.IsRootOf j r ↔ f.IsRootOf j r := by
  obtain ⟨hg, hroots⟩ := find_keeps hf a
  unfold union
  by_cases ha : a ∈ f.parent
  · obtain ⟨ra, hra⟩ := exists_isRootOf hf ha
    obtain ⟨f₁, hfind, -, -⟩ := find_spec hf hra
    rw [hfind] at hg hroots ⊢
    have hb : b ∉ f₁.parent := by
      rw [mem_parent_iff hg]
      simp only [hroots]
      rw [← mem_parent_iff hf]
      exact h.resolve_left (not_not_intro ha)
    simp only [find_of_not_mem hb]
    exact ⟨trivial, hg, hroots⟩
  · rw [find_of_not_mem ha]
    exact ⟨rfl, hf, fun _ _ => Iff.rfl⟩

theorem ranked_afterCall (hf : f.Ranked) (call : Call κ) : (f.afterCall call).Ranked := by
  cases call with
  | insert k => exact (insert_spec hf k).1
  | find k => exact (find_keeps hf k).1
  | root k => exact hf
  | union a b =>
    by_cases h : a ∈ f.parent ∧ b ∈ f.parent
    · obtain ⟨ra, ha⟩ := exists_isRootOf hf h.1
      obtain ⟨rb, hb⟩ := exists_isRootOf hf h.2
      obtain ⟨r, g, heq, -, hg, -⟩ := union_spec hf ha hb
      rwa [afterCall, heq]
    · exact (union_of_not_mem hf (not_and_or.1 h)).2.1

/-- **Two keys are in one class after a call** if they were before, if they are the one key that was
inserted, or if the call unites their classes. -/
theorem joined_afterCall (hf : f.Ranked) (call : Call κ) (a b : κ) :
    (f.afterCall call).Joined a b ↔ f.Joined a b ∨ (call = .insert a ∧ a = b) ∨
      ∃ x y, call = .union x y ∧
        (f.Joined a x ∧ f.Joined y b ∨ f.Joined a y ∧ f.Joined x b) := by
  have hsame : ∀ {g : Forest κ}, g.Ranked → (∀ j r, g.IsRootOf j r ↔ f.IsRootOf j r) →
      (g.Joined a b ↔ f.Joined a b) := fun hg hroots => by
    rw [Joined, Joined, root?_congr hf hg hroots]
  cases call with
  | insert k =>
    obtain ⟨hg, hroots⟩ := insert_spec hf k
    rw [afterCall, joined_iff hg, joined_iff hf]
    simp only [hroots, Call.insert.injEq, reduceCtorEq, false_and, exists_false, or_false]
    constructor
    · rintro ⟨r, ha | ⟨hk, hak, hrk⟩, hb | ⟨hk', hbk, hrk'⟩⟩
      · exact Or.inl ⟨r, ha, hb⟩
      · exact absurd (hrk' ▸ ha.self.mem) hk'
      · exact absurd (hrk ▸ hb.self.mem) hk
      · exact Or.inr ⟨hak.symm, hak.trans hbk.symm⟩
    · rintro (⟨r, ha, hb⟩ | ⟨rfl, rfl⟩)
      · exact ⟨r, Or.inl ha, Or.inl hb⟩
      · by_cases hk : k ∈ f.parent
        · obtain ⟨r, hr⟩ := exists_isRootOf hf hk
          exact ⟨r, Or.inl hr, Or.inl hr⟩
        · exact ⟨k, Or.inr ⟨hk, rfl, rfl⟩, Or.inr ⟨hk, rfl, rfl⟩⟩
  | find k =>
    obtain ⟨hg, hroots⟩ := find_keeps hf k
    exact (hsame hg hroots).trans (by simp)
  | root k => simp [afterCall]
  | union x y =>
    have hpair : (∃ x' y', Call.union x y = .union x' y' ∧
        (f.Joined a x' ∧ f.Joined y' b ∨ f.Joined a y' ∧ f.Joined x' b)) ↔
        f.Joined a x ∧ f.Joined y b ∨ f.Joined a y ∧ f.Joined x b := by
      constructor
      · rintro ⟨_, _, heq, h⟩
        obtain ⟨rfl, rfl⟩ := Call.union.inj heq
        exact h
      · exact fun h => ⟨x, y, rfl, h⟩
    simp only [hpair, reduceCtorEq, false_and, false_or]
    by_cases h : x ∈ f.parent ∧ y ∈ f.parent
    · obtain ⟨rx, hx⟩ := exists_isRootOf hf h.1
      obtain ⟨ry, hy⟩ := exists_isRootOf hf h.2
      obtain ⟨r, g, heq, hr, hg, hjoin⟩ := union_spec hf hx hy
      rw [afterCall, heq]
      exact joined_iff_of_roots hf hg hx hy hr hjoin a b
    · obtain ⟨-, hg, hroots⟩ := union_of_not_mem hf (not_and_or.1 h)
      refine (hsame hg hroots).trans (or_iff_left_of_imp fun hxy => ?_).symm
      -- a key that is not there is in no class
      rcases hxy with ⟨hax, hyb⟩ | ⟨hay, hxb⟩
      · exact absurd ⟨hax.symm.mem hf, hyb.mem hf⟩ h
      · exact absurd ⟨hxb.mem hf, hay.symm.mem hf⟩ h

/-- Only an insertion adds a key. -/
theorem mem_afterCall (hf : f.Ranked) (call : Call κ) (k : κ) :
    k ∈ (f.afterCall call).parent ↔ k ∈ f.parent ∨ call = .insert k := by
  rw [← joined_self_iff (ranked_afterCall hf call), joined_afterCall hf, joined_self_iff hf]
  simp only [and_true]
  constructor
  · rintro (hk | hk | ⟨x, y, -, ⟨hkx, -⟩ | ⟨hky, -⟩⟩)
    · exact Or.inl hk
    · exact Or.inr hk
    · exact Or.inl (hkx.mem hf)
    · exact Or.inl (hky.mem hf)
  · rintro (hk | hk)
    · exact Or.inl hk
    · exact Or.inr (Or.inl hk)

/-! ### Any number of calls -/

/-- What holds on the way through the calls: the keys are the ones inserted, and two of them are in
one class if the unions relate them. -/
structure Generates (calls : List (Call κ)) (f : Forest κ) : Prop where
  ranked : f.Ranked
  mem (k : κ) : k ∈ f.parent ↔ .insert k ∈ calls
  joined (a b : κ) : f.Joined a b ↔ .insert a ∈ calls ∧ Relation.EqvGen (Unites calls) a b

omit [Std.LawfulEqOrd κ] in
/-- A forest in which all united keys are in one class keeps related keys together. -/
theorem joined_or_eq_of_eqvGen (hunites : ∀ a b, Unites calls a b → f.Joined a b)
    (h : Relation.EqvGen (Unites calls) a b) : f.Joined a b ∨ a = b := by
  induction h with
  | rel a b hab => exact Or.inl (hunites a b hab)
  | refl a => exact Or.inr rfl
  | symm a b _ ih => exact ih.imp Joined.symm Eq.symm
  | trans a b c _ _ ihab ihbc =>
    rcases ihab with hab | rfl
    · rcases ihbc with hbc | rfl
      · exact Or.inl (hab.trans hbc)
      · exact Or.inl hab
    · exact ihbc

/-- **One call more** keeps to what the calls generate. -/
theorem Generates.concat (h : Generates calls f) (call : Call κ) :
    Generates (calls ++ [call]) (f.afterCall call) := by
  have hmem : ∀ k, k ∈ (f.afterCall call).parent ↔ .insert k ∈ calls ++ [call] := fun k => by
    rw [mem_afterCall h.ranked, h.mem, List.mem_append, List.mem_singleton, eq_comm (a := call)]
  have hranked := ranked_afterCall h.ranked call
  have hold : ∀ {a b}, f.Joined a b → Relation.EqvGen (Unites (calls ++ [call])) a b := fun hab =>
    ((h.joined _ _).1 hab).2.mono fun _ _ hab => unites_concat.2 (Or.inl hab)
  refine ⟨hranked, hmem, fun a b => ⟨fun hab => ⟨(hmem a).1 (hab.mem hranked), ?_⟩, ?_⟩⟩
  · rcases (joined_afterCall h.ranked call a b).1 hab with hab | ⟨-, rfl⟩ | ⟨x, y, rfl, hxy⟩
    · exact hold hab
    · exact .refl a
    · have hunites : x ∈ f.parent → y ∈ f.parent →
          Relation.EqvGen (Unites (calls ++ [.union x y])) x y := fun hx hy =>
        .rel x y (unites_concat.2 (Or.inr ⟨rfl, (h.mem x).1 hx, (h.mem y).1 hy⟩))
      rcases hxy with ⟨hax, hyb⟩ | ⟨hay, hxb⟩
      · have hxy := hunites (hax.symm.mem h.ranked) (hyb.mem h.ranked)
        exact ((hold hax).trans _ _ _ hxy).trans _ _ _ (hold hyb)
      · have hxy := hunites (hxb.mem h.ranked) (hay.symm.mem h.ranked)
        exact ((hold hay).trans _ _ _ (hxy.symm _ _)).trans _ _ _ (hold hxb)
  · rintro ⟨ha, hab⟩
    refine (joined_or_eq_of_eqvGen (fun a b hab => ?_) hab).elim id fun heq => ?_
    · rw [joined_afterCall h.ranked]
      rcases unites_concat.1 hab with hab | ⟨rfl, ha, hb⟩
      · have ha : .insert a ∈ calls := by
          obtain ⟨before, after, rfl, ha, -⟩ := hab
          exact List.mem_append_left _ ha
        exact Or.inl ((h.joined a b).2 ⟨ha, .rel a b hab⟩)
      · refine Or.inr (Or.inr ⟨a, b, rfl, Or.inl ⟨?_, ?_⟩⟩)
        · exact (joined_self_iff h.ranked).2 ((h.mem a).2 ha)
        · exact (joined_self_iff h.ranked).2 ((h.mem b).2 hb)
    · exact heq ▸ (joined_self_iff hranked).2 ((hmem a).2 ha)

/-- **Any calls lead to what they generate.** -/
theorem generates_afterCalls (calls : List (Call κ)) : Generates calls (afterCalls calls) := by
  induction calls using List.reverseRecOn with
  | nil =>
    refine ⟨ranked_empty, fun k => ?_, fun a b => ?_⟩
    · exact iff_of_false Std.ExtTreeMap.not_mem_empty List.not_mem_nil
    · refine iff_of_false (fun hab => ?_) fun hab => absurd hab.1 List.not_mem_nil
      exact absurd (hab.mem ranked_empty) Std.ExtTreeMap.not_mem_empty
  | append_singleton calls call ih =>
    rw [afterCalls, List.foldl_append]
    exact ih.concat call

/-! ### Classes and answers -/

omit [DecidableEq κ] in
/-- Lists in increasing order with the same members are the same list. -/
theorem eq_of_ordered {c d : List κ} (hc : c.Pairwise fun a b => compare a b = .lt)
    (hd : d.Pairwise fun a b => compare a b = .lt) (h : ∀ k, k ∈ c ↔ k ∈ d) : c = d := by
  have : Std.Irrefl fun a b : κ => compare a b = .lt := ⟨fun a ha => by simp at ha⟩
  have : Std.Antisymm fun a b : κ => compare a b = .lt := ⟨fun a b hab hba => by
    have hgt := Std.OrientedCmp.gt_iff_lt.2 hba
    rw [hab] at hgt
    cases hgt⟩
  exact hc.eq_of_mem_iff hd h

/-- The class of a key has the keys with its root. -/
theorem joined_iff_isRootOf (hf : f.Ranked) {r : κ} (hk : f.IsRootOf k r) (j : κ) :
    f.Joined k j ↔ f.IsRootOf j r := by
  rw [joined_iff hf]
  constructor
  · rintro ⟨s, hs, hj⟩
    exact hk.unique hs ▸ hj
  · exact fun hj => ⟨r, hk, hj⟩

/-- **The classes are the ordered lists of keys that are joined.** -/
theorem mem_classes_iff_joined (hf : f.Ranked) (c : List κ) :
    c ∈ f.classes ↔ c.Pairwise (fun a b => compare a b = .lt) ∧
      ∃ k ∈ f.parent, ∀ j, j ∈ c ↔ f.Joined k j := by
  rw [mem_classes hf]
  constructor
  · rintro ⟨r, hr, rfl⟩
    refine ⟨f.ordered_members r, r, hr.mem, fun j => ?_⟩
    rw [mem_members hf, joined_iff_isRootOf hf hr]
  · rintro ⟨hordered, k, hk, hmem⟩
    obtain ⟨r, hr⟩ := exists_isRootOf hf hk
    refine ⟨r, hr.self, eq_of_ordered hordered (f.ordered_members r) fun j => ?_⟩
    rw [hmem, mem_members hf, joined_iff_isRootOf hf hr]

/-- **A key is in one class,** and in no other. -/
theorem existsUnique_class (hf : f.Ranked) (hk : k ∈ f.parent) :
    ∃! c, c ∈ f.classes ∧ k ∈ c := by
  obtain ⟨r, hr⟩ := exists_isRootOf hf hk
  refine ⟨f.members r, ⟨(mem_classes hf).2 ⟨r, hr.self, rfl⟩, (mem_members hf).2 hr⟩, ?_⟩
  rintro c ⟨hc, hkc⟩
  obtain ⟨s, -, rfl⟩ := (mem_classes hf).1 hc
  rw [hr.unique ((mem_members hf).1 hkc)]

/-- Two keys have one root if they are listed in one class. -/
theorem root?_eq_root?_iff (hf : f.Ranked) {j : κ} (hj : j ∈ f.parent) :
    f.root? j = f.root? k ↔ ∃ c ∈ f.classes, j ∈ c ∧ k ∈ c := by
  obtain ⟨r, hr⟩ := exists_isRootOf hf hj
  rw [(root?_eq_some_iff hf).2 hr, eq_comm, root?_eq_some_iff hf]
  constructor
  · intro hk
    exact ⟨f.members r, (mem_classes hf).2 ⟨r, hr.self, rfl⟩, (mem_members hf).2 hr,
      (mem_members hf).2 hk⟩
  · rintro ⟨c, hc, hjc, hkc⟩
    obtain ⟨s, -, rfl⟩ := (mem_classes hf).1 hc
    exact hr.unique ((mem_members hf).1 hjc) ▸ (mem_members hf).1 hkc

/-- Inserting a key that is there changes no root. -/
theorem insert_keeps (hf : f.Ranked) (hk : k ∈ f.parent) : (f.insert k).root? = f.root? := by
  obtain ⟨hg, hroots⟩ := insert_spec hf k
  refine root?_congr hf hg fun j r => (hroots j r).trans (or_iff_left ?_)
  exact fun h => h.1 hk

/-- **What a union does to the roots.** -/
theorem root?_union (hf : f.Ranked) {ra rb : κ} (ha : f.root? a = some ra)
    (hb : f.root? b = some rb) : ∃ r, (f.union a b).1 = some r ∧ (r = ra ∨ r = rb) ∧
      ∀ j, (f.union a b).2.root? j = (f.root? j).map fun t => if t = ra ∨ t = rb then r else t := by
  obtain ⟨r, g, heq, hr, hg, hjoin⟩ :=
    union_spec hf ((root?_eq_some_iff hf).1 ha) ((root?_eq_some_iff hf).1 hb)
  rw [heq]
  refine ⟨r, rfl, hr, fun j => Option.ext fun s => ?_⟩
  rw [root?_eq_some_iff hg, hjoin, Option.map_eq_some_iff]
  simp only [root?_eq_some_iff hf, eq_comm (a := s)]

/-- A union has no answer exactly if one of its keys is not there. -/
theorem fst_union_eq_none_iff (hf : f.Ranked) :
    (f.union a b).1 = none ↔ a ∉ f.parent ∨ b ∉ f.parent := by
  constructor
  · intro hnone
    by_contra h
    obtain ⟨ha, hb⟩ := not_or.1 h
    obtain ⟨ra, hra⟩ := exists_isRootOf hf (not_not.1 ha)
    obtain ⟨rb, hrb⟩ := exists_isRootOf hf (not_not.1 hb)
    obtain ⟨r, g, heq, -⟩ := union_spec hf hra hrb
    rw [heq] at hnone
    cases hnone
  · exact fun h => (union_of_not_mem hf h).1

/-- **A forest is the partition that its calls generate.**  After any calls the classes are those of
the equivalence that the unions of two keys generate on the keys inserted, each in increasing order
and all by their smallest members.  Look-ups answer by these classes and change nothing, and a
union gives the joined class one of the two roots that were there. -/
theorem partitions_afterCalls (calls : List (Call κ)) :
    (afterCalls calls).Partitions (fun k => .insert k ∈ calls)
      (Relation.EqvGen (Unites calls)) := by
  have h := generates_afterCalls calls
  have hf := h.ranked
  refine ⟨fun c => ?_, ordered_classes _, fun hk => existsUnique_class hf ((h.mem _).2 hk),
    fst_find _, fun k => ?_, fun hj _ => root?_eq_root?_iff hf ((h.mem _).2 hj), fun k => ?_,
    fun hk => insert_keeps hf ((h.mem _).2 hk), fun a b => ?_, fun hnone => ?_, root?_union hf⟩
  · rw [mem_classes_iff_joined hf]
    refine and_congr_right fun _ => exists_congr fun k => ?_
    rw [h.mem]
    refine and_congr_right fun hk => forall_congr' fun j => ?_
    rw [h.joined, and_iff_right hk]
    refine iff_congr Iff.rfl (iff_and_self.2 fun hkj => ?_)
    exact (h.mem j).1 (((h.joined k j).2 ⟨hk, hkj⟩).symm.mem hf)
  · rw [root?_eq_none_iff hf, h.mem]
  · obtain ⟨hg, hroots⟩ := find_keeps hf k
    exact root?_congr hf hg hroots
  · rw [fst_union_eq_none_iff hf, h.mem, h.mem]
  · obtain ⟨-, hg, hroots⟩ := union_of_not_mem hf ((fst_union_eq_none_iff hf).1 hnone)
    exact root?_congr hf hg hroots

/-- Unions of keys and of what is no key yet, with look-ups and insertions in between. -/
def sampleCalls : List (Call Nat) :=
  [.insert 7, .insert 2, .union 2 5, .insert 5, .union 7 5, .find 5, .insert 3, .insert 7,
    .union 3 2, .root 9, .insert 4, .union 5 4]

/-- After these calls there are two classes, and `2` is related to `3` but not to `5`. -/
theorem partitions_afterCalls_sampleCalls :
    (afterCalls sampleCalls).classes = [[2, 3], [4, 5, 7]] ∧
    Relation.EqvGen (Unites sampleCalls) 2 3 ∧ ¬ Relation.EqvGen (Unites sampleCalls) 2 5 ∧
    ((afterCalls sampleCalls).union 2 6).1 = none ∧
    ((afterCalls sampleCalls).union 2 6).2.root? 3 = some 3 := by
  have h := partitions_afterCalls sampleCalls
  have hclasses : (afterCalls sampleCalls).classes = [[2, 3], [4, 5, 7]] := by decide +kernel
  have hroot : (afterCalls sampleCalls).root? 3 = some 3 := by decide +kernel
  obtain ⟨-, k, -, hmem⟩ := (h.mem_classes [2, 3]).1 (hclasses ▸ by simp)
  have hk : ∀ j, j ∈ [2, 3] → Relation.EqvGen (Unites sampleCalls) k j := fun j hj =>
    ((hmem j).1 hj).2
  have hnone : ((afterCalls sampleCalls).union 2 6).1 = none :=
    (h.union_eq_none 2 6).2 (Or.inr (by simp [sampleCalls]))
  refine ⟨hclasses, ((hk 2 (by simp)).symm).trans _ _ _ (hk 3 (by simp)), fun h25 => ?_, hnone, ?_⟩
  · have h5 : 5 ∈ [2, 3] := (hmem 5).2 ⟨by simp [sampleCalls], (hk 2 (by simp)).trans _ _ _ h25⟩
    simp at h5
  · rw [h.union_keeps hnone, hroot]

end Forest
end Sharing
end TensorLiveness
