/-
# Names in results

A result names every handle that it mentions, and no two of them alike.  Programs are understood
by these names alone, so this is what makes a result readable.

| lemma | says |
| --- | --- |
| `labelled_propagate`, `labelled_bindParameters` | each pass makes the buffers of `owners` |
| `nodup_labels` | their labels differ, if the names of the owners do and have no dots |
| `placed_of_upTo` | what a run mentions was given out, so it has a name |
| `unambiguous_names` | a program that could be read gets names like that |

An owner is a parameter, or what is bound to a call or to a conditional; `owners` lists them with
the types that their labels come from.  The walk back from the results makes no buffers, so it adds
no labels.
-/

import TensorLiveness.Proofs.Analysis.Faults.Run
import TensorLiveness.Proofs.Analysis.Insertion
import TensorLiveness.Proofs.Analysis.Leaves
import TensorLiveness.Proofs.Analysis.Reference
import TensorLiveness.Proofs.Identity.Labels
import TensorLiveness.Proofs.Program.BinderNames

namespace TensorLiveness
namespace Analysis

open Identity Program Sharing Store

variable {vars : BinderTable} {f : Function} {N : Nat} {ls : List String} {s t : Store}
  {p q : Propagation}

/-! ### Labels -/

/-- The labels of the buffers that are made for a handle. -/
def labelsFor (vars : BinderTable) (owner : Handle × Option Ty) : List String :=
  owner.2.elim [] (Ty.labels (hintOf vars owner.1))

/-- What is bound, with the type that its buffers are made for, if any are. -/
def ownersIn (bindings : List (Handle × Expr)) : List (Handle × Option Ty) :=
  bindings.map fun b => (b.1, b.2.resultType?)

@[simp] theorem ownersIn_append (bs bs' : List (Handle × Expr)) :
    ownersIn (bs ++ bs') = ownersIn bs ++ ownersIn bs' := List.map_append

@[simp] theorem ownersIn_cons (b : Handle × Expr) (bs : List (Handle × Expr)) :
    ownersIn (b :: bs) = (b.1, b.2.resultType?) :: ownersIn bs := rfl

/-- The parameters, with the types of their buffers. -/
def paramOwners (vars : BinderTable) (params : List Handle) : List (Handle × Option Ty) :=
  params.map fun v => (v, vars.ty? v)

/-- The handles that buffers are made for, in the order in which they are made. -/
def owners (vars : BinderTable) (f : Function) : List (Handle × Option Ty) :=
  paramOwners vars f.params ++ ownersIn f.body.allBindings

theorem hintOf_of_name? {v : Handle} {name : String} (h : vars.name? v = some name) :
    hintOf vars v = name := by
  rw [hintOf, h]
  rfl

/-- **Labels of different owners differ,** if their names do and have no dots. -/
theorem nodup_labels (hdotless : vars.Names fun name => '.' ∉ name.toList)
    (hdistinct : vars.Distinct) {os : List (Handle × Option Ty)} (hos : (os.map (·.1)).Nodup)
    (hlt : ∀ o ∈ os, o.1 < vars.size) : (os.flatMap (labelsFor vars)).Nodup := by
  rw [List.nodup_flatMap]
  refine ⟨?_, (List.pairwise_map.1 hos).imp_of_mem fun {a b} ha hb hne label hla hlb => ?_⟩
  · rintro ⟨v, ty?⟩ -
    cases ty? with
    | none => exact List.nodup_nil
    | some ty => exact ty.nodup_labels _
  · have hstem : ∀ o ∈ os, label ∈ labelsFor vars o →
        ∃ name, vars.name? o.1 = some name ∧ '.' ∉ name.toList ∧ HasStem name label := by
      rintro ⟨v, ty?⟩ ho hl
      obtain ⟨name, hname⟩ := BinderTable.exists_name? (hlt _ ho)
      obtain ⟨b, hb, rfl⟩ := Option.map_eq_some_iff.1 hname
      cases ty? with
      | none => exact absurd hl List.not_mem_nil
      | some ty =>
        exact ⟨_, hname, hdotless hb, hintOf_of_name? hname ▸ ty.hasStem_of_mem_labels hl⟩
    obtain ⟨x, hx, hxdot, hxstem⟩ := hstem a ha hla
    obtain ⟨y, hy, hydot, hystem⟩ := hstem b hb hlb
    obtain rfl := hxstem.unique hxdot hydot hystem
    exact hne (hdistinct hx hy)

/-! ### Propagation -/

theorem labelled_bindMinted {m : Handle × Store} {v : Handle} (h : m.2.Labelled N ls) (hv : v < N)
    (hq : p.bindMinted v m = .ok q) : q.store.Labelled N ls := by
  obtain ⟨s, hs, hq⟩ := bind_eq_ok.1 hq
  obtain rfl := Except.ok.inj hq
  exact h.bindLike hv hs

theorem labelled_bindTuple {v : Handle} {fields : Fields} (h : p.store.Labelled N ls) (hv : v < N)
    (hq : p.bindTuple v fields = .ok q) : q.store.Labelled N ls := by
  obtain ⟨m, hm, hq⟩ := bind_eq_ok.1 hq
  obtain ⟨p₁, hp₁, hq⟩ := bind_eq_ok.1 hq
  obtain rfl := Except.ok.inj hq
  exact (labelled_bindMinted (h.freshUnion hm) hv hp₁).recordFields v fields

theorem labelled_bindField {v source : Handle} {index : Nat} (h : p.store.Labelled N ls)
    (hv : v < N) (hq : p.bindField vars v source index = .ok q) : q.store.Labelled N ls := by
  unfold Propagation.bindField at hq
  split at hq
  · cases hq
  · split at hq
    · cases hq
    · obtain ⟨s, hs, hq⟩ := bind_eq_ok.1 hq
      obtain rfl := Except.ok.inj hq
      exact h.bindLike hv hs
    · exact labelled_bindMinted (h.freshEmpty _) hv hq

theorem labelled_bindCond {v thenResult elseResult : Handle} {ty : Ty} (h : p.store.Labelled N ls)
    (hv : v < N) (hq : p.bindCond vars v thenResult elseResult ty = .ok q) :
    q.store.Labelled N (ls ++ ty.labels (hintOf vars v)) := by
  obtain ⟨_, -, hq⟩ := bind_eq_ok.1 hq
  obtain ⟨_, -, hq⟩ := bind_eq_ok.1 hq
  obtain ⟨s, hs, hq⟩ := bind_eq_ok.1 hq
  obtain rfl := Except.ok.inj hq
  exact (h.freshValue ty _).bindLike hv hs

mutual

/-- **Propagation through a sequence makes the buffers of its bindings,** in the order of the
text. -/
theorem labelled_propagate : ∀ (e : Expr) {p q : Propagation} {ls : List String} {r : Handle},
    p.store.Labelled N ls → (∀ b ∈ e.allBindings, b.1 < N) → propagate vars p e = .ok (r, q) →
      q.store.Labelled N (ls ++ (ownersIn e.allBindings).flatMap (labelsFor vars))
  | .letIn v value body, _, _, _, _, h, hlt, hq => by
    obtain ⟨p₁, hp₁, hq⟩ := bind_eq_ok.1 hq
    have hvalue := labelled_propagateBinding value h (hlt _ Expr.binding_mem_allBindings)
      (fun b hb => hlt b (Expr.mem_allBindings_of_inside hb)) hp₁
    have hbody := labelled_propagate body hvalue
      (fun b hb => hlt b (Expr.mem_allBindings_of_body hb)) hq
    rw [Expr.allBindings, ownersIn_append, ownersIn_cons, List.flatMap_append, List.flatMap_cons]
    simpa only [List.append_assoc] using hbody
  | .var _, _, _, _, _, h, _, hq => by
    obtain ⟨-, rfl⟩ := Prod.mk.inj (Except.ok.inj hq)
    exact h.append_nil
  | .const _, _, _, _, _, _, _, hq | .op _, _, _, _, _, _, _, hq | .call .., _, _, _, _, _, _, hq
  | .tuple _, _, _, _, _, _, _, hq | .get .., _, _, _, _, _, _, hq | .cond .., _, _, _, _, _, _, hq
  | .closure .., _, _, _, _, _, _, hq => nomatch hq

/-- The same for the binding of `v`, behind the bindings of its branches. -/
theorem labelled_propagateBinding : ∀ (value : Expr) {p q : Propagation} {ls : List String}
    {v : Handle}, p.store.Labelled N ls → v < N → (∀ b ∈ value.branchBindings, b.1 < N) →
      propagateBinding vars p v value = .ok q → q.store.Labelled N
        (ls ++ ((ownersIn value.branchBindings).flatMap (labelsFor vars) ++
          labelsFor vars (v, value.resultType?)))
  | .var _, _, _, _, _, h, hv, _, hq => by
    obtain ⟨s, hs, hq⟩ := bind_eq_ok.1 hq
    obtain rfl := Except.ok.inj hq
    exact (h.bindLike hv hs).append_nil
  | .const _, _, _, _, _, h, hv, _, hq | .op _, _, _, _, _, h, hv, _, hq =>
    (labelled_bindMinted (h.freshEmpty _) hv hq).append_nil
  | .closure .., _, _, _, _, h, hv, _, hq => by
    obtain ⟨m, hm, hq⟩ := bind_eq_ok.1 hq
    exact (labelled_bindMinted (h.freshUnion hm) hv hq).append_nil
  | .call _ _ ty, _, _, _, _, h, hv, _, hq => by
    rw [propagateBinding] at hq
    split at hq
    · exact labelled_bindMinted (h.freshValue ty _) hv hq
    · cases hq
  | .tuple _, _, _, _, _, h, hv, _, hq => by
    rw [propagateBinding] at hq
    split at hq
    · exact (labelled_bindTuple h hv hq).append_nil
    · cases hq
  | .get .., _, _, _, _, h, hv, _, hq => by
    rw [propagateBinding] at hq
    split at hq
    · exact (labelled_bindField h hv hq).append_nil
    · cases hq
  | .cond _ thenBranch elseBranch _, _, _, _, _, h, hv, hlt, hq => by
    obtain ⟨⟨_, p₁⟩, hthen, hq⟩ := bind_eq_ok.1 hq
    obtain ⟨⟨_, p₂⟩, helse, hq⟩ := bind_eq_ok.1 hq
    have h₁ := labelled_propagate thenBranch h (fun b hb => hlt b (List.mem_append_left _ hb)) hthen
    have h₂ := labelled_propagate elseBranch h₁
      (fun b hb => hlt b (List.mem_append_right _ hb)) helse
    have hcond := labelled_bindCond h₂ hv hq
    rw [Expr.branchBindings, ownersIn_append, List.flatMap_append]
    simp only [List.append_assoc] at hcond ⊢
    exact hcond
  | .letIn .., _, _, _, _, _, _, _, hq => nomatch hq

end

/-! ### Parameters -/

theorem labelled_leavesForFields {name : String} {whole : Ty} : ∀ (tys : List Ty) {s t : Store}
    {ls : List String} {i : Nat} {vs : List Handle}, s.Labelled N ls →
      leavesForFields name whole s i tys = .ok (vs, t) →
        t.Labelled N (ls ++ Ty.labelsFrom name i tys)
  | [], _, _, _, _, _, h, ht => by
    obtain ⟨-, rfl⟩ := Prod.mk.inj (Except.ok.inj ht)
    exact h.append_nil
  | .tensor :: tys, _, _, _, i, _, h, ht => by
    obtain ⟨⟨_, t'⟩, ht', ht⟩ := bind_eq_ok.1 ht
    obtain ⟨-, rfl⟩ := Prod.mk.inj (Except.ok.inj ht)
    rw [Ty.labelsFrom, ← List.append_assoc]
    exact labelled_leavesForFields tys (h.freshLeaf _) ht'
  | .func :: _, _, _, _, _, _, _, ht | .tuple _ :: _, _, _, _, _, _, _, ht
  | .other _ :: _, _, _, _, _, _, _, ht => nomatch ht

/-- **A parameter is given the buffers of its type.** -/
theorem labelled_bindParameter {v : Handle} (h : s.Labelled N ls) (hv : v < N)
    (ht : bindParameter vars s v = .ok t) :
    t.Labelled N (ls ++ labelsFor vars (v, vars.ty? v)) := by
  have hname : ∀ {ty : Ty}, vars.ty? v = some ty → (vars.name? v).getD "param" = hintOf vars v := by
    intro ty hty
    obtain ⟨b, hb, -⟩ := Option.map_eq_some_iff.1 hty
    rw [hintOf, BinderTable.name?, hb]
    rfl
  unfold bindParameter at ht
  dsimp only at ht
  split at ht
  · cases ht
  · rename_i hty
    rw [hname hty] at ht
    rw [hty]
    exact (h.freshLeaf _).bindLike hv ht
  · rename_i tys hty
    rw [hname hty] at ht
    rw [hty]
    obtain ⟨⟨vs, s₁⟩, hleaves, ht⟩ := bind_eq_ok.1 ht
    obtain ⟨⟨m, s₂⟩, hunion, ht⟩ := bind_eq_ok.1 ht
    obtain ⟨s₃, hbind, ht⟩ := bind_eq_ok.1 ht
    obtain rfl := Except.ok.inj ht
    exact (((labelled_leavesForFields tys h hleaves).freshUnion hunion).bindLike hv
      hbind).recordFields v _
  · cases ht

theorem labelled_bindParameters : ∀ {params : List Handle} {s t : Store} {ls : List String},
    s.Labelled N ls → (∀ v ∈ params, v < N) → bindParameters vars s params = .ok t →
      t.Labelled N (ls ++ (paramOwners vars params).flatMap (labelsFor vars)) := by
  intro params
  induction params with
  | nil =>
    intro s t ls h _ ht
    obtain rfl := Except.ok.inj ht
    exact h.append_nil
  | cons v params ih =>
    intro s t ls h hlt ht
    rw [bindParameters, List.foldlM_cons] at ht
    obtain ⟨s₁, h₁, ht⟩ := bind_eq_ok.1 ht
    have hrest := ih (labelled_bindParameter h (hlt v List.mem_cons_self) h₁)
      (fun u hu => hlt u (List.mem_cons_of_mem v hu)) ht
    rwa [List.append_assoc] at hrest

/-! ### The walk back -/

/-- **The walk back adds no labels,** and what it finds live was given out. -/
theorem labelled_livePoints {body : Expr} {m : LivePoints} (h : s.Labelled N ls)
    (hm : livePoints s body = .ok m) : m.store.Labelled N ls ∧
      ∀ (point : Handle) (set : HandleSet), m.live[point]? = some set →
        ∀ e ∈ set, e < m.store.supply.next := by
  have hstart : LivePoints.MadeOf (fun e => N ≤ e ∧ e < s.supply.next) ⟨s, ∅, []⟩ :=
    ⟨fun _ _ he => h.minted he, fun h => by simp at h⟩
  have hsteps := livePoints_steps hm
  have hlabelled : m.store.Labelled N ls := by
    clear hm
    induction hsteps with
    | refl => exact h
    | @tail m₁ m₂ hsteps hstep ih =>
      have hle := (mintsOnly_of_steps hsteps).next_le
      cases hstep with
      | mint hint set held =>
        refine ih.freshSet hint fun e he => ?_
        obtain ⟨hfirst, hlt⟩ := (hstart.steps hsteps).holds (held e he)
        exact ⟨hfirst, Nat.lt_of_lt_of_le hlt hle⟩
      | setLive => exact ih
      | addExit => exact ih
  exact ⟨hlabelled, fun _ _ hset e he => Nat.lt_of_lt_of_le ((hstart.steps hsteps).live hset e he).2
    (mintsOnly_of_steps hsteps).next_le⟩

/-! ### Validation -/

/-- Only leaves are in classes. -/
structure KeysAreLeaves (s : Store) (w : Validation) : Prop where
  ranked : w.forest.Ranked
  mem_leaves {e r : Handle} : w.forest.IsRootOf e r → e ∈ s.leaves

/-- A demand brings nothing into the classes. -/
theorem Taken.keysAreLeaves {w u : Validation} {d : Demand} (h : Taken s w d u)
    (hw : KeysAreLeaves s w) : KeysAreLeaves s u := by
  cases h with
  | skipped _ => exact hw
  | met _ hg hroots _ => exact ⟨hg, fun he => hw.mem_leaves ((hroots _ _).1 he)⟩
  | refused _ _ hg hroots => exact ⟨hg, fun he => hw.mem_leaves ((hroots _ _).1 he)⟩
  | accepted _ _ _ _ _ hg hjoin _ =>
    refine ⟨hg, fun he => ?_⟩
    obtain ⟨_, ht, -⟩ := (hjoin _ _).1 he
    exact hw.mem_leaves ht

theorem keysAreLeaves_foldlM : ∀ (ds : List Demand) {w u : Validation}, KeysAreLeaves s w →
    ds.foldlM (Validation.take vars s) w = .ok u → KeysAreLeaves s u := by
  intro ds
  induction ds with
  | nil =>
    intro w u hw h
    exact Except.ok.inj h ▸ hw
  | cons d ds ih =>
    intro w u hw h
    rw [List.foldlM_cons] at h
    obtain ⟨w₁, h₁, h⟩ := bind_eq_ok.1 h
    exact ih ((take_spec hw.ranked h₁).keysAreLeaves hw) h

/-- **The classes are made of leaves.** -/
theorem mem_leaves_of_validate {live : Std.ExtTreeMap Handle HandleSet} {w : Validation}
    (hw : validate vars s live p.pending = .ok w) : ∀ e ∈ w.forest.roots, e.1 ∈ s.leaves := by
  obtain ⟨hranked, -⟩ := Forest.foldl_insert_spec s.leaves Forest.ranked_empty
    fun j r h => absurd h Forest.not_isRootOf_empty
  have hstart : KeysAreLeaves s (.start s live) :=
    ⟨hranked, fun he => ((isRootOf_start_iff s live _ _).1 he).2⟩
  have hkeys := keysAreLeaves_foldlM p.pending hstart hw
  rintro ⟨e, r⟩ he
  exact hkeys.mem_leaves ((Forest.root?_eq_some_iff hkeys.ranked).1 (Forest.mem_roots.1 he))

/-! ### Runs -/

/-- What a run mentions besides identities was given out. -/
structure Run.Placed (r : Run) : Prop where
  point {point : Handle} {set : HandleSet} : r.live[point]? = some set →
    point < r.store.supply.next
  live {point e : Handle} {set : HandleSet} : r.live[point]? = some set → e ∈ set →
    e < r.store.supply.next
  root {e : Handle × Handle} : e ∈ r.forest.roots → e.1 < r.store.supply.next
  pending {d : Demand} {v : Handle} : d ∈ r.pending → v ∈ [d.out, d.input, d.site] →
    v < r.store.supply.next

/-- Before the live sets are found, only demands are mentioned. -/
theorem Run.placed_of_pending {r : Run} (hlive : r.live = ∅) (hforest : r.forest = .empty)
    (hpending : ∀ d ∈ r.pending, ∀ v ∈ [d.out, d.input, d.site], v < r.store.supply.next) :
    r.Placed := by
  refine ⟨fun h => ?_, fun h => ?_, fun h => ?_, fun hd hv => hpending _ hd _ hv⟩
  · rw [hlive] at h
    simp at h
  · rw [hlive] at h
    simp at h
  · rw [hforest] at h
    exact absurd h List.not_mem_nil

theorem Run.placed_start {r : Run} (hlive : r.live = ∅) (hforest : r.forest = .empty)
    (hpending : r.pending = []) : r.Placed :=
  placed_of_pending hlive hforest fun _ hd => absurd (hpending ▸ hd) List.not_mem_nil

section Accepted

variable (hscoped : f.Scoped vars.size)

include hscoped

theorem labelled_parameters (hs : bindParameters vars (.empty vars.size) f.params = .ok s) :
    s.Labelled vars.size ((paramOwners vars f.params).flatMap (labelsFor vars)) := by
  have h := labelled_bindParameters (labelled_empty vars.size)
    (fun v hv => hscoped.lt_size (List.mem_append_left _ hv)) hs
  rwa [List.nil_append] at h

variable (hform : formErrors vars f = [])

include hform

/-- Behind propagation the buffers have the labels of all owners, and the demands are about handles
that were given out. -/
theorem labelled_identities {v : Handle}
    (hs : bindParameters vars (.empty vars.size) f.params = .ok s)
    (hp : propagate vars ⟨s, []⟩ f.body = .ok (v, p)) :
    p.store.Labelled vars.size ((owners vars f).flatMap (labelsFor vars)) ∧
      ∀ d ∈ p.pending, ∀ u ∈ [d.out, d.input, d.site], u < p.store.supply.next := by
  have hflat := flat_of_formErrors_eq_nil hform
  obtain ⟨hsteady, hfirst⟩ := steady_of_bindParameters hscoped hs
  obtain ⟨hsteady', -, -⟩ := hsteady.propagate hflat (hfirst.symm ▸ hscoped.under) hp
  refine ⟨?_, fun d hd u hu => hsteady'.lt_next hd hu⟩
  rw [owners, List.flatMap_append]
  refine labelled_propagate f.body (labelled_parameters hscoped hs) (fun b hb => ?_) hp
  exact hscoped.lt_size (List.mem_append_right _
    (hflat.map_fst_allBindings_sublist.subset (List.mem_map_of_mem hb)))

/-- The walk back keeps to this, and the points are given out on the way. -/
theorem placed_liveness {r : Run} (hr : Run.upTo vars f .liveness = .ok r) :
    r.Placed ∧ r.store.Labelled vars.size ((owners vars f).flatMap (labelsFor vars)) := by
  obtain ⟨s, v, p, m, hs, hp, hm, rfl⟩ := (Run.upTo_liveness_eq_ok hform).1 hr
  obtain ⟨hlabelled, hpending⟩ := labelled_identities hscoped hform hs hp
  obtain ⟨hlabelled', hlive⟩ := labelled_livePoints hlabelled hm
  have hsound := (passed_of_ok hscoped hform hs hp hm).sound
  have hle := (mintsOnly_of_steps (livePoints_steps hm)).next_le
  refine ⟨⟨hsound.point_lt, fun hset he => hlive _ _ hset _ he, fun he => ?_, fun hd hu => ?_⟩,
    hlabelled'⟩
  · exact absurd he List.not_mem_nil
  · exact Nat.lt_of_lt_of_le (hpending _ hd _ hu) hle

/-- **After a run the buffers have the labels of owners,** of the first of them in order, and what
the run mentions was given out. -/
theorem placed_of_upTo {terminal : Pass} {r : Run} (hr : Run.upTo vars f terminal = .ok r) :
    r.Placed ∧ ∃ os, os <+: owners vars f ∧
      r.store.Labelled vars.size (os.flatMap (labelsFor vars)) := by
  cases terminal with
  | form =>
    rw [Run.upTo_form hform] at hr
    obtain rfl := Except.ok.inj hr
    exact ⟨Run.placed_start rfl rfl rfl, [], List.nil_prefix, labelled_empty vars.size⟩
  | parameters =>
    obtain ⟨s, hs, rfl⟩ := (Run.upTo_parameters_eq_ok hform).1 hr
    exact ⟨Run.placed_start rfl rfl rfl, _, List.prefix_append _ _, labelled_parameters hscoped hs⟩
  | identities =>
    obtain ⟨s, v, p, hs, hp, rfl⟩ := (Run.upTo_identities_eq_ok hform).1 hr
    obtain ⟨hlabelled, hpending⟩ := labelled_identities hscoped hform hs hp
    exact ⟨Run.placed_of_pending rfl rfl hpending, _, List.prefix_rfl, hlabelled⟩
  | liveness =>
    obtain ⟨hplaced, hlabelled⟩ := placed_liveness hscoped hform hr
    exact ⟨hplaced, _, List.prefix_rfl, hlabelled⟩
  | sharing =>
    obtain ⟨s, v, p, m, w, hs, hp, hm, hw, rfl⟩ := (Run.upTo_sharing_eq_ok hform).1 hr
    obtain ⟨hplaced, hlabelled⟩ := placed_liveness hscoped hform
      ((Run.upTo_liveness_eq_ok hform).2 ⟨s, v, p, m, hs, hp, hm, rfl⟩)
    refine ⟨⟨hplaced.point, hplaced.live, fun he => ?_, hplaced.pending⟩, _, List.prefix_rfl,
      hlabelled⟩
    exact (hlabelled.minted_of_mem_leaves (mem_leaves_of_validate hw _ he)).2

end Accepted

/-- The owners are binders of the program, each once. -/
theorem owners_spec (hscoped : f.Scoped vars.size) (hform : formErrors vars f = []) :
    ((owners vars f).map (·.1)).Nodup ∧ ∀ o ∈ owners vars f, o.1 < vars.size := by
  have hflat := flat_of_formErrors_eq_nil hform
  have hsublist := hflat.map_fst_allBindings_sublist.append_left f.params
  have hmap : (owners vars f).map (·.1) = f.params ++ f.body.allBindings.map (·.1) := by
    simp [owners, paramOwners, ownersIn, Function.comp_def]
  rw [hmap]
  refine ⟨(hscoped.sorted.sublist hsublist).imp Nat.ne_of_lt, fun o ho => ?_⟩
  exact hscoped.lt_size (hsublist.subset (hmap ▸ List.mem_map_of_mem (f := (·.1)) ho))

/-- **After a run no two buffers have one label,** if the names of the binders differ and have no
dots. -/
theorem Run.named_of_upTo (hscoped : f.Scoped vars.size)
    (hdotless : vars.Names fun name => '.' ∉ name.toList) (hdistinct : vars.Distinct)
    {terminal : Pass} {r : Run} (hr : Run.upTo vars f terminal = .ok r) :
    r.Placed ∧ ∃ ls, ls.Nodup ∧ r.store.Labelled vars.size ls := by
  by_cases hform : formErrors vars f = []
  · obtain ⟨hplaced, os, hos, hlabelled⟩ := placed_of_upTo hscoped hform hr
    obtain ⟨hnodup, hlt⟩ := owners_spec hscoped hform
    refine ⟨hplaced, _, nodup_labels hdotless hdistinct ?_ fun o ho => ?_, hlabelled⟩
    · exact hnodup.sublist (hos.sublist.map _)
    · exact hlt o (hos.subset ho)
  · rw [upTo_rejected hform] at hr
    obtain rfl := Except.ok.inj hr
    exact ⟨placed_start rfl rfl rfl, [], List.nodup_nil, labelled_empty vars.size⟩

/-! ### Results -/

/-- The handle appears in a result. -/
inductive Outcome.Mentions (o : Outcome) (v : Handle) : Prop
  | point {set : HandleSet} : o.liveness.live[v]? = some set → Mentions o v
  | live {point : Handle} {set : HandleSet} : o.liveness.live[point]? = some set → v ∈ set →
    Mentions o v
  | binder {set : HandleSet} : (v, set) ∈ o.liveness.identities → Mentions o v
  | identity {binder : Handle} {set : HandleSet} : (binder, set) ∈ o.liveness.identities →
    v ∈ set → Mentions o v
  | member {c : List Handle} : c ∈ o.liveness.classes → v ∈ c → Mentions o v
  | out {d : Demand} : d ∈ o.pending → v = d.out → Mentions o v
  | input {d : Demand} : d ∈ o.pending → v = d.input → Mentions o v
  | site {d : Demand} : d ∈ o.pending → v = d.site → Mentions o v

namespace Run

variable {r : Run} {terminal : Pass} {v : Handle}

/-- A result gives names to all that it mentions. -/
theorem mem_mentioned (h : (r.outcome vars terminal).Mentions v) : v ∈ r.mentioned := by
  simp only [mentioned, List.mem_append, List.mem_flatMap, List.mem_cons, List.mem_map]
  cases h with
  | point hset =>
    exact .inl (.inl (.inl ⟨(v, _), Std.ExtTreeMap.mem_toList_iff_getElem?_eq_some.2 hset,
      .inl rfl⟩))
  | live hset hv =>
    exact .inl (.inl (.inl ⟨_, Std.ExtTreeMap.mem_toList_iff_getElem?_eq_some.2 hset,
      .inr (Std.ExtTreeSet.mem_toList.2 hv)⟩))
  | binder hset => exact .inl (.inl (.inr ⟨_, hset, .inl rfl⟩))
  | identity hset hv => exact .inl (.inl (.inr ⟨_, hset, .inr (Std.ExtTreeSet.mem_toList.2 hv)⟩))
  | member hc hv =>
    obtain ⟨root, -, rfl⟩ := List.mem_map.1 hc
    obtain ⟨e, he, rfl⟩ := List.mem_map.1 hv
    exact .inl (.inr ⟨e, List.mem_of_mem_filter he, rfl⟩)
  | out hd heq => exact .inr ⟨_, hd, .inl heq⟩
  | input hd heq => exact .inr ⟨_, hd, .inr (.inl heq)⟩
  | site hd heq => exact .inr ⟨_, hd, .inr (.inr (.inl heq))⟩

theorem getElem?_foldl_insert (name : Handle → String) : ∀ (vs : List Handle)
    (names : Std.ExtTreeMap Handle String),
      (vs.foldl (fun names u => names.insert u (name u)) names)[v]? =
        if v ∈ vs then some (name v) else names[v]? := by
  intro vs
  induction vs with
  | nil => exact fun _ => rfl
  | cons u vs ih =>
    intro names
    rw [List.foldl_cons, ih, Std.ExtTreeMap.getElem?_insert]
    simp only [Std.LawfulEqOrd.compare_eq_iff_eq, List.mem_cons]
    by_cases hv : v ∈ vs
    · simp [hv]
    · by_cases heq : u = v
      · simp [heq]
      · simp [hv, heq, Ne.symm heq]

theorem getElem?_names (h : (r.outcome vars terminal).Mentions v) :
    (r.outcome vars terminal).liveness.names[v]? = some (r.store.nameOf vars v) := by
  show (r.names vars)[v]? = _
  rw [names, getElem?_foldl_insert, if_pos (mem_mentioned h)]

theorem name_eq (h : (r.outcome vars terminal).Mentions v) :
    (r.outcome vars terminal).liveness.name v = r.store.nameOf vars v := by
  rw [Liveness.name, getElem?_names h]
  rfl

/-- What a run mentions was given out. -/
theorem Placed.lt_next (h : r.Placed) (hstore : r.store.Labelled N ls)
    (hv : (r.outcome vars terminal).Mentions v) : v < r.store.supply.next := by
  cases hv with
  | point hset => exact h.point hset
  | live hset hv => exact h.live hset hv
  | binder hset =>
    have hprogram : r.store.isMinted v = false := by simpa using (List.mem_filter.1 hset).2
    rw [isMinted, decide_eq_false_iff_not, hstore.firstMinted_eq, Nat.not_le] at hprogram
    exact Nat.lt_of_lt_of_le hprogram hstore.le_next
  | identity hset hv =>
    have hset := mem_entries.1 (List.mem_filter.1 hset).1
    exact (hstore.minted (setOf_of_getElem? hset ▸ hv)).2
  | member hc hv =>
    obtain ⟨root, -, rfl⟩ := List.mem_map.1 hc
    obtain ⟨e, he, rfl⟩ := List.mem_map.1 hv
    exact h.root (List.mem_of_mem_filter he)
  | out hd heq => exact h.pending hd (by simp [heq])
  | input hd heq => exact h.pending hd (by simp [heq])
  | site hd heq => exact h.pending hd (by simp [heq])

end Run

/-- The name of a handle that a result mentions is in the table of names. -/
theorem names_of_mentions {terminal : Pass} {o : Outcome} {v : Handle}
    (hanalyze : analyze vars f terminal = .ok o) (h : o.Mentions v) :
    o.liveness.names[v]? = some (o.liveness.name v) := by
  obtain ⟨r, -, rfl⟩ := analyze_eq_ok.1 hanalyze
  rw [Run.name_eq h, Run.getElem?_names h]

/-- Different handles in a result have different names, and no name is a handle in its raw form. -/
structure Outcome.Unambiguous (o : Outcome) : Prop where
  name_ne {u v : Handle} : o.Mentions u → o.Mentions v → u ≠ v →
    o.liveness.name u ≠ o.liveness.name v
  name_ne_display {v : Handle} : o.Mentions v → ∀ w, o.liveness.name v ≠ Handle.display w

/-- **Names in results are unambiguous,** whatever the accepted program, the entry and the last
pass. -/
theorem unambiguous_names {source entry : String} {program : Program} {warnings : List Diagnostic}
    {terminal : Pass} {o : Outcome} (hread : readProgram source = .ok (program, warnings))
    (hentry : program.function? entry = some f)
    (hanalyze : analyze program.vars f terminal = .ok o) : o.Unambiguous := by
  obtain ⟨hdotless, hdistinct⟩ := dotless_of_readProgram hread
  obtain ⟨r, hr, rfl⟩ := analyze_eq_ok.1 hanalyze
  obtain ⟨hplaced, ls, hls, hlabelled⟩ :=
    Run.named_of_upTo (readProgram_scoped hread hentry) hdotless hdistinct hr
  have hform : ∀ v, (r.outcome program.vars terminal).Mentions v →
      NameForm program.vars r.store v ((r.outcome program.vars terminal).liveness.name v) := by
    intro v hv
    rw [Run.name_eq hv]
    exact hlabelled.nameForm (hplaced.lt_next hlabelled hv)
  refine ⟨fun {u v} hu hv hne heq => hne ?_, fun {v} hv => (hform v hv).ne_display⟩
  exact NameForm.unique hlabelled hls hdistinct (hform u hu) (heq ▸ hform v hv)

/-- The fields of the parameter `p` and of the conditional `z` are named after their places. -/
theorem unambiguous_names_nested : ∃ o, readProgram nestedSource = .ok (nestedProgram, []) ∧
    nestedProgram.function? "main" = some nestedFunction ∧
    analyze nestedProgram.vars nestedFunction .sharing = .ok o ∧ o.Unambiguous ∧
    o.liveness.names.toList.map (·.2) =
      ["%c", "%p", "%f", "%a", "%u", "%z", "%w", "%d", "%q", "%r", "$c", "$p.0", "$p.1", "$a",
        "$z.0", "$z.1", "~exit.seed#22", "~body.exit#23", "~remove#41", "~then.v6.exit#42",
        "~remove#52", "~else.v6.exit#53"] := by
  have hentry : nestedProgram.function? "main" = some nestedFunction := rfl
  have hrun : ((analyze nestedProgram.vars nestedFunction .sharing).toOption.any
      fun o => o.liveness.names.toList.map (·.2) =
        ["%c", "%p", "%f", "%a", "%u", "%z", "%w", "%d", "%q", "%r", "$c", "$p.0", "$p.1", "$a",
          "$z.0", "$z.1", "~exit.seed#22", "~body.exit#23", "~remove#41", "~then.v6.exit#42",
          "~remove#52", "~else.v6.exit#53"]) = true := by
    decide +kernel
  obtain ⟨o, hanalyze, htest⟩ := exists_ok_of_any hrun
  exact ⟨o, readProgram_nestedSource, hentry, hanalyze,
    unambiguous_names readProgram_nestedSource hentry hanalyze, of_decide_eq_true htest⟩

end Analysis
end TensorLiveness
