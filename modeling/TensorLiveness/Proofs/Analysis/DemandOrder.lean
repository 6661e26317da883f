/-
# The order of demands of one site

Demands are taken in order, and what an earlier one joins decides about a later one, so their order
matters.  Inside a block of demands of one site it does not (`validate_perm`):

| statement | about |
| --- | --- |
| `linked_perm` | the order does not decide which identities a block links |
| `conflicts_eq_iff_not_interferes` | a block is accepted if nothing that it links interferes |
| `joined_iff_linked` | then identities are in one class if they are linked |
| `ClassesFollow.foldlM_id` | behind the block, runs with the same classes go on alike |
-/

import Mathlib.Logic.Relation
import TensorLiveness.Proofs.Analysis.RenumberedClasses

namespace TensorLiveness
namespace Analysis

open Identity Program Sharing Store

variable {vars : BinderTable} {s : Store} {live : Std.ExtTreeMap Handle HandleSet}
  {w w' u u' x : Validation} {d : Demand} {ds : List Demand}

/-! ### Linked identities -/

/-- The two identities are in one class, or they are the two sides of one of the demands. -/
def Touching (s : Store) (w : Validation) (ds : List Demand) (a b : Handle) : Prop :=
  w.forest.Joined a b ∨ ∃ d ∈ ds, Sides s d a b ∨ Sides s d b a

/-- The classes of `w` and the sides of the demands link the two identities. -/
def Linked (s : Store) (w : Validation) (ds : List Demand) : Handle → Handle → Prop :=
  Relation.TransGen (Touching s w ds)

theorem linked_nil {a b : Handle} : Linked s w [] a b ↔ w.forest.Joined a b := by
  have htouching : Touching s w [] = w.forest.Joined := by
    funext a b
    simp [Touching]
  have htrans : IsTrans Handle w.forest.Joined := ⟨fun _ _ _ => Forest.Joined.trans⟩
  rw [Linked, htouching, Relation.transGen_eq_self]

/-- The order of the demands does not matter. -/
theorem linked_perm {ds' : List Demand} (h : ds.Perm ds') : Linked s w ds = Linked s w ds' := by
  have htouching : Touching s w ds = Touching s w ds' := by
    funext a b
    simp only [Touching, h.mem_iff]
  rw [Linked, Linked, htouching]

/-- What an accepted demand joins is linked by it. -/
theorem linked_of_joined (h : Judged s w d x) (hw : w.forest.Ranked)
    (hc : x.conflicts = w.conflicts) {a b : Handle} (hab : x.forest.Joined a b) :
    Linked s w (d :: ds) a b := by
  have hjoined : ∀ {a b}, w.forest.Joined a b → Linked s w (d :: ds) a b := fun h =>
    .single (Or.inl h)
  rcases (h.joined_iff hw hc a b).1 hab with hab | ⟨e, f, hsides, ⟨hae, hfb⟩ | ⟨haf, heb⟩⟩
  · exact hjoined hab
  · have hlink : Linked s w (d :: ds) e f :=
      .single (Or.inr ⟨d, List.mem_cons_self, Or.inl hsides⟩)
    exact ((hjoined hae).trans hlink).trans (hjoined hfb)
  · have hlink : Linked s w (d :: ds) f e :=
      .single (Or.inr ⟨d, List.mem_cons_self, Or.inr hsides⟩)
    exact ((hjoined haf).trans hlink).trans (hjoined heb)

/-- **An accepted demand links the same identities** before it is taken and after. -/
theorem linked_cons (h : Judged s w d x) (hw : w.forest.Ranked) (hc : x.conflicts = w.conflicts)
    {a b : Handle} : Linked s x ds a b ↔ Linked s w (d :: ds) a b := by
  constructor
  · refine Relation.TransGen.lift' id (fun a b hab => ?_) a b
    rcases hab with hab | ⟨e, he, hsides⟩
    · exact linked_of_joined h hw hc hab
    · exact .single (Or.inr ⟨e, List.mem_cons_of_mem d he, hsides⟩)
  · refine Relation.TransGen.lift' id (fun a b hab => ?_) a b
    rcases hab with hab | ⟨e, he, hsides⟩
    · exact .single (Or.inl (h.taken.joined hw hab))
    · rcases List.mem_cons.1 he with rfl | he
      · have hmet : ∀ {a b}, Sides s e a b → x.forest.Joined a b := fun hsides =>
          h.taken.joined_of_conflicts_eq hc hsides
        exact .single (Or.inl (hsides.elim hmet fun hsides => (hmet hsides).symm))
      · exact .single (Or.inr ⟨e, he, hsides⟩)

/-- **Behind demands that are all accepted** identities are in one class if they are linked. -/
theorem joined_iff_linked : ∀ (ds : List Demand) {w u : Validation}, Consistent live w →
    ds.foldlM (Validation.take vars s) w = .ok u → u.conflicts = w.conflicts →
      ∀ {a b : Handle}, u.forest.Joined a b ↔ Linked s w ds a b := by
  intro ds
  induction ds with
  | nil =>
    intro w u _ h _ a b
    obtain rfl := Except.ok.inj h
    exact linked_nil.symm
  | cons d ds ih =>
    intro w u hw h hc a b
    rw [List.foldlM_cons] at h
    obtain ⟨x, hx, h⟩ := bind_eq_ok.1 h
    obtain ⟨hcx, hcu⟩ := conflicts_eq_of_cons hw hx h hc
    have hjudged := take_judged hw.ranked hx
    exact (ih (hjudged.taken.consistent hw) h hcu).trans (linked_cons hjudged hw.ranked hcx)

/-! ### Demands of one site -/

/-- Two identities that the demands link, and that are not in one class yet, are live together at a
point that is not the site. -/
def Interferes (s : Store) (live : Std.ExtTreeMap Handle HandleSet) (w : Validation)
    (ds : List Demand) (site : Handle) : Prop :=
  ∃ a b p, Linked s w ds a b ∧ ¬ w.forest.Joined a b ∧ LiveAt live p a ∧ LiveAt live p b ∧ p ≠ site

/-- A demand is accepted if nothing that it links interferes. -/
theorem conflicts_eq_of_not_interferes (h : Judged s w d x) (hw : Consistent live w)
    (hapart : ¬ Interferes s live w (d :: ds) d.site) : x.conflicts = w.conflicts := by
  cases h with
  | skipped => rfl
  | met => rfl
  | accepted => rfl
  | @refused a b ra rb g found hsides ha hb hne hcommon _ _ _ =>
    exfalso
    obtain ⟨p, hp⟩ := List.exists_mem_of_ne_nil _ hcommon
    obtain ⟨hpsite, hpa, hpb⟩ := mem_commonPoints.1 hp
    obtain ⟨a', ha', hla⟩ := (hw.points ha.self).1 hpa
    obtain ⟨b', hb', hlb⟩ := (hw.points hb.self).1 hpb
    have hleft : Linked s w (d :: ds) a' a :=
      .single (Or.inl ((Forest.joined_iff hw.ranked).2 ⟨ra, ha', ha⟩))
    have hmiddle : Linked s w (d :: ds) a b :=
      .single (Or.inr ⟨d, List.mem_cons_self, Or.inl hsides⟩)
    have hright : Linked s w (d :: ds) b b' :=
      .single (Or.inl ((Forest.joined_iff hw.ranked).2 ⟨rb, hb, hb'⟩))
    exact hapart ⟨a', b', p, (hleft.trans hmiddle).trans hright,
      Forest.not_joined_of_roots hw.ranked ha' hb' hne, hla, hlb, hpsite⟩

/-- **Demands of one site are all accepted** exactly if nothing that they link interferes. -/
theorem conflicts_eq_iff_not_interferes {site : Handle} : ∀ (ds : List Demand) {w u : Validation},
    (∀ d ∈ ds, d.site = site) → Consistent live w →
      ds.foldlM (Validation.take vars s) w = .ok u →
        (u.conflicts = w.conflicts ↔ ¬ Interferes s live w ds site) := by
  intro ds w u hsite hw hu
  constructor
  · rintro hc ⟨a, b, p, hlinked, hold, ha, hb, hp⟩
    have hnew := (joined_iff_linked ds hw hu hc).2 hlinked
    obtain ⟨k, d, hk, -, -, hpoints⟩ := exists_joining_demand ds hw hu hnew hold
    exact hp ((hpoints p ha hb).trans (hsite d (List.mem_of_getElem? hk)))
  · induction ds generalizing w with
    | nil =>
      obtain rfl := Except.ok.inj hu
      exact fun _ => rfl
    | cons d ds ih =>
      intro hapart
      rw [List.foldlM_cons] at hu
      obtain ⟨x, hx, hu⟩ := bind_eq_ok.1 hu
      have hjudged := take_judged hw.ranked hx
      obtain rfl := hsite d List.mem_cons_self
      have hcx := conflicts_eq_of_not_interferes hjudged hw hapart
      refine (ih (fun e he => hsite e (List.mem_cons_of_mem d he)) (hjudged.taken.consistent hw)
        hu ?_).trans hcx
      rintro ⟨a, b, p, hlinked, hold, hlive⟩
      exact hapart ⟨a, b, p, (linked_cons hjudged hw.ranked hcx).1 hlinked,
        fun hab => hold (hjudged.taken.joined hw.ranked hab), hlive⟩

/-- **Demands of one site in another order** are all accepted or not, and form the same
classes. -/
theorem foldlM_perm {ds' : List Demand} {site : Handle} (hperm : ds.Perm ds')
    (hsite : ∀ d ∈ ds, d.site = site) (hw : Consistent live w)
    (hu : ds.foldlM (Validation.take vars s) w = .ok u)
    (hu' : ds'.foldlM (Validation.take vars s) w = .ok u') (hc : u.conflicts = w.conflicts) :
    u'.conflicts = w.conflicts ∧ ClassesFollow id u u' := by
  have hsite' : ∀ d ∈ ds', d.site = site := fun d hd => hsite d (hperm.mem_iff.2 hd)
  have hc' : u'.conflicts = w.conflicts := by
    rw [conflicts_eq_iff_not_interferes ds' hsite' hw hu', Interferes, ← linked_perm hperm]
    exact (conflicts_eq_iff_not_interferes ds hsite hw hu).1 hc
  refine ⟨hc', fun a b => ?_, fun {v} _ => ⟨v, rfl⟩⟩
  rw [id, id, joined_iff_linked ds' hw hu' hc', ← linked_perm hperm, joined_iff_linked ds hw hu hc]

/-! ### All demands -/

/-- **Runs with the same classes go on alike** as long as one of them notes no conflict. -/
theorem ClassesFollow.foldlM_id (h : ClassesFollow id w w') (hw : Consistent live w)
    (hw' : Consistent live w') (hu : ds.foldlM (Validation.take vars s) w = .ok u)
    (hu' : ds.foldlM (Validation.take vars s) w' = .ok u') (hc : u.conflicts = w.conflicts) :
    u'.conflicts = w'.conflicts ∧ ClassesFollow id u u' := by
  have hsame : ds.map (Demand.renumber id) = ds := List.map_id ds
  have hsides : ∀ d ∈ ds, SidesFollow id s s d := fun d _ => ⟨by simp, by simp⟩
  have hmap : (ds.map (Demand.renumber id)).foldlM (Validation.take vars s) w' = .ok u' := by
    rwa [hsame]
  obtain ⟨hiff, hfollow⟩ := classesFollow_foldlM strictMono_id ds hsides hw hw' h hu hmap hc
  have hc' := hiff.2 fun k d a b hd hjoins p ha hb => hjoins.eq_site hd hw hu p ha hb
  exact ⟨hc', hfollow hc'⟩

/-- What a validation without conflict says of the same demands with a block of one site in another
order. -/
theorem validate_perm_of_accepted {before block block' after : List Demand} {site : Handle}
    (hperm : block.Perm block') (hsite : ∀ d ∈ block, d.site = site)
    (hw : validate vars s live (before ++ block ++ after) = .ok w)
    (hw' : validate vars s live (before ++ block' ++ after) = .ok w') (hc : w.conflicts = []) :
    w'.conflicts = [] ∧ w'.forest.classes = w.forest.classes := by
  rw [validate, List.foldlM_append] at hw hw'
  obtain ⟨y, hy, hw⟩ := bind_eq_ok.1 hw
  obtain ⟨y', hy', hw'⟩ := bind_eq_ok.1 hw'
  rw [List.foldlM_append] at hy hy'
  obtain ⟨x, hx, hy⟩ := bind_eq_ok.1 hy
  obtain ⟨x', hx', hy'⟩ := bind_eq_ok.1 hy'
  obtain rfl := Except.ok.inj (hx.symm.trans hx')
  obtain ⟨hcx, -, cs₁, hcs₁⟩ := foldlM_take_spec before (consistent_start s live) hx
  obtain ⟨hcy, -, cs₂, hcs₂⟩ := foldlM_take_spec block hcx hy
  obtain ⟨hcw, -, cs₃, hcs₃⟩ := foldlM_take_spec after hcy hw
  obtain ⟨hcy', -, -⟩ := foldlM_take_spec block' hcx hy'
  obtain ⟨hcw', -, -⟩ := foldlM_take_spec after hcy' hw'
  -- no conflict at the end is none anywhere before
  have hy0 : y.conflicts = [] := (List.append_eq_nil_iff.1 (hcs₃.symm.trans hc)).1
  have hx0 : x.conflicts = [] := (List.append_eq_nil_iff.1 (hcs₂.symm.trans hy0)).1
  obtain ⟨hblock, hfollow⟩ := foldlM_perm hperm hsite hcx hy hy' (hy0.trans hx0.symm)
  obtain ⟨hafter, hfollow⟩ := hfollow.foldlM_id hcy hcy' hw hw' (hc.trans hy0.symm)
  refine ⟨hafter.trans (hblock.trans hx0), ?_⟩
  rw [hfollow.classes_eq strictMono_id hcw.ranked hcw'.ranked]
  simp

/-- **The order of demands of one site does not matter.**  Over sets of leaves, a permutation of a
block of demands that have one site decides neither whether there is a conflict nor, if there is
none, which classes are formed. -/
theorem validate_perm (vars : BinderTable) (live : Std.ExtTreeMap Handle HandleSet)
    (before after : List Demand) {block block' : List Demand} {site : Handle}
    (hs : LeavesOnly s) (hperm : block.Perm block') (hsite : ∀ d ∈ block, d.site = site)
    (hbound : ∀ d ∈ before ++ block ++ after, d.out ∈ s.sets ∧ d.input ∈ s.sets) :
    ∃ w w', validate vars s live (before ++ block ++ after) = .ok w ∧
      validate vars s live (before ++ block' ++ after) = .ok w' ∧
      (w.conflicts = [] ↔ w'.conflicts = []) ∧
      (w.conflicts = [] → w'.forest.classes = w.forest.classes) := by
  have hexists : ∀ ds : List Demand, (∀ d ∈ ds, d.out ∈ s.sets ∧ d.input ∈ s.sets) →
      ∃ w, validate vars s live ds = .ok w := fun ds hds => by
    obtain ⟨w, hw, -⟩ := (validate_ends hs live ds).exists_ok fun e he => by
      obtain ⟨d, hd, ⟨hout, -⟩ | ⟨hinput, -⟩⟩ := he
      · exact hout (hds d hd).1
      · exact hinput (hds d hd).2
    exact ⟨w, hw⟩
  have hall : (before ++ block ++ after).Perm (before ++ block' ++ after) :=
    (hperm.append_left before).append_right after
  obtain ⟨w, hw⟩ := hexists _ hbound
  obtain ⟨w', hw'⟩ := hexists _ fun d hd => hbound d (hall.mem_iff.2 hd)
  refine ⟨w, w', hw, hw', ⟨fun hc => ?_, fun hc => ?_⟩, fun hc => ?_⟩
  · exact (validate_perm_of_accepted hperm hsite hw hw' hc).1
  · have hsite' : ∀ d ∈ block', d.site = site := fun d hd => hsite d (hperm.mem_iff.2 hd)
    exact (validate_perm_of_accepted hperm.symm hsite' hw' hw hc).1
  · exact (validate_perm_of_accepted hperm hsite hw hw' hc).2

/-- The handles from `1` on, as leaves. -/
def leafStore (hints : List String) : Store :=
  hints.foldl (fun s hint => (s.freshLeaf hint).2) (.empty 1)

theorem leavesOnly_leafStore (hints : List String) : LeavesOnly (leafStore hints) := by
  have hsound : ∀ {s : Store}, s.Sound →
      (hints.foldl (fun s hint => (s.freshLeaf hint).2) s).Sound := by
    induction hints with
    | nil => exact id
    | cons hint hints ih => exact fun hs => ih (mints_freshLeaf hs hint).grows.sound
  exact leavesOnly_of_sound (hsound (sound_empty 1))

/-- Three leaves are live at the point `0`, and two at `9`. -/
def blockLive : Std.ExtTreeMap Handle HandleSet :=
  ((∅ : Std.ExtTreeMap Handle HandleSet).insert 0 ({1} ∪ {2} ∪ {3})).insert 9 ({1} ∪ {4})

/-- Two demands of site `0` may change places between demands of site `9`. -/
theorem validate_perm_leafStore : ∃ w w',
    validate .empty (leafStore ["a", "b", "c", "d", "e"]) blockLive
      [⟨3, 5, 9⟩, ⟨1, 2, 0⟩, ⟨2, 3, 0⟩, ⟨4, 5, 9⟩] = .ok w ∧
    validate .empty (leafStore ["a", "b", "c", "d", "e"]) blockLive
      [⟨3, 5, 9⟩, ⟨2, 3, 0⟩, ⟨1, 2, 0⟩, ⟨4, 5, 9⟩] = .ok w' ∧
    w'.conflicts = [] ∧ w'.forest.classes = [[1, 2, 3, 4, 5]] := by
  have hperm : [(⟨1, 2, 0⟩ : Demand), ⟨2, 3, 0⟩].Perm [⟨2, 3, 0⟩, ⟨1, 2, 0⟩] := .swap _ _ _
  have hsite : ∀ d ∈ [(⟨1, 2, 0⟩ : Demand), ⟨2, 3, 0⟩], d.site = 0 := by decide
  have hleaves := leavesOnly_leafStore ["a", "b", "c", "d", "e"]
  obtain ⟨w, w', hw, hw', hiff, hclasses⟩ :=
    validate_perm .empty blockLive [⟨3, 5, 9⟩] [⟨4, 5, 9⟩] hleaves hperm hsite (by decide +kernel)
  have hrun : ((validate .empty (leafStore ["a", "b", "c", "d", "e"]) blockLive
      [⟨3, 5, 9⟩, ⟨1, 2, 0⟩, ⟨2, 3, 0⟩, ⟨4, 5, 9⟩]).toOption.any fun w =>
        w.conflicts = [] ∧ w.forest.classes = [[1, 2, 3, 4, 5]]) = true := by decide +kernel
  obtain ⟨v, hv, htest⟩ := exists_ok_of_any hrun
  obtain ⟨hconflicts, hlist⟩ := of_decide_eq_true htest
  obtain rfl := Except.ok.inj (hw.symm.trans hv)
  exact ⟨w, w', hw, hw', hiff.1 hconflicts, (hclasses hconflicts).trans hlist⟩

end Analysis
end TensorLiveness
