/-
# Bindings that stand for no buffer

A number or an operator has no buffer, and yet its binding is a point: between two points it may be
the first at which two buffers are seen together.  This module says what a binding of a new name to
a number or an operator does to the analysis of a function that is valid without it.

| part of the analysis | with the binding | lemma |
| --- | --- | --- |
| sets, demands | the same under other handles | `Paired.setOf_eq`, `Paired.sides` |
| live sets | no pair of buffers more, but for the exceptions below | `Paired.live_elsewhere` |
| classes | the same under other handles, without a conflict | `Paired.validations` |

The exceptions are a binding in front of a conditional and one of an operator in front of a call.

`valid_of_bufferless` puts them together for modules.  At a conditional both of its branch results
are live, and at the conditional they may be; the point in front is another one.
-/

import TensorLiveness.Proofs.Analysis.Faults.Run
import TensorLiveness.Proofs.Analysis.InsertedLiveness
import TensorLiveness.Proofs.Analysis.Leaves
import TensorLiveness.Proofs.Analysis.RenumberedClasses

namespace TensorLiveness
namespace Analysis

open Identity Program Sharing Store

variable {vars vars' : BinderTable} {f f' : Function} {k : Handle} {σ : Handle → Handle}
  {p q : Propagation} {m m' : LivePoints} {value rest : Expr}

/-! ### One run -/

/-- What is minted later changes nothing for the handles of a program. -/
theorem getElem?_of_extends {s t : Store} (h : Store.Extends [] s t) (hs : s.Sound) {v : Handle}
    (hv : v < s.firstMinted) : t.sets[v]? = s.sets[v]? := by
  by_cases hmem : v ∈ s.sets
  · exact h.sets hmem
  · rw [Std.ExtTreeMap.getElem?_eq_none hmem,
      Std.ExtTreeMap.getElem?_eq_none (h.not_mem hs hmem hv List.not_mem_nil)]

/-- The run that has come as far as the live sets. -/
def liveRun (vars : BinderTable) (p : Propagation) (m : LivePoints) : Run :=
  { Run.start vars with
    store := m.store, pending := p.pending, live := m.live, exits := m.exits
    passes := Pass.required .liveness }

/-- What the passes of a full analysis come to: the propagation `p`, the live sets `m` and the
validation `w`. -/
structure Analysed (vars : BinderTable) (f : Function) (o : Outcome) (p : Propagation)
    (m : LivePoints) (w : Validation) : Prop where
  passed : Passed vars f p m
  walk : livePoints p.store f.body = .ok m
  bound {d : Demand} : d ∈ p.pending → d.out ∈ p.store.sets ∧ d.input ∈ p.store.sets
  validated : Validated vars f o (liveRun vars p m) w
  identities {v : Handle} : v < vars.size → o.liveness.identitiesOf? v = p.store.sets[v]?

/-- **A full analysis of a resolved function** has gone through all passes. -/
theorem exists_analysed {o : Outcome} (hscoped : f.Scoped vars.size)
    (hform : formErrors vars f = []) (h : analyze vars f .sharing = .ok o) : ∃ s r p m w,
      bindParameters vars (.empty vars.size) f.params = .ok s ∧
      propagate vars ⟨s, []⟩ f.body = .ok (r, p) ∧ Analysed vars f o p m w := by
  obtain ⟨_, w, hv⟩ := exists_validated hform h
  obtain ⟨s, r, p, m, hs, hp, hm, rfl⟩ := (Run.upTo_liveness_eq_ok hform).1 hv.run
  have hpassed := passed_of_ok hscoped hform hs hp hm
  have hfirst : p.store.firstMinted = vars.size := hpassed.grows.firstMinted_eq
  have hsettled := (upTo_identities_ends hform fun v => hscoped.lt_size).of_ok
    ((Run.upTo_identities_eq_ok hform).2 ⟨s, r, p, hs, hp, rfl⟩)
  refine ⟨s, r, p, m, w, hs, hp, hpassed, hm, fun {d} hd => ?_, hv,
    fun {v} hlt => ?_⟩
  · obtain ⟨hout, hinput⟩ := hsettled.pending hd
    exact ⟨hout, hinput.resolve_right (not_stray hscoped d.input)⟩
  · obtain ⟨r', hr', rfl⟩ := analyze_eq_ok.1 h
    obtain ⟨s', _, p', m', w', hs', hp', hm', -, rfl⟩ := (Run.upTo_sharing_eq_ok hform).1 hr'
    obtain rfl := Except.ok.inj (hs'.symm.trans hs)
    obtain rfl := (Prod.mk.inj (Except.ok.inj (hp'.symm.trans hp))).2
    obtain rfl := Except.ok.inj (hm'.symm.trans hm)
    rw [Run.identitiesOf?_outcome (hpassed.minted.firstMinted_eq.trans hfirst ▸ hlt)]
    exact getElem?_of_extends hpassed.minted hpassed.grows.sound (hfirst ▸ hlt)

/-- The demand at position `j` puts two identities into one class. -/
def JoinedBy (vars : BinderTable) (f : Function) (j : Nat) (a b : Handle) : Prop :=
  JoinedAfter vars f (j + 1) a b ∧ ¬ JoinedAfter vars f j a b

namespace Analysed

variable {o : Outcome} {w : Validation}

theorem validation (h : Analysed vars f o p m w) :
    p.pending.foldlM (Validation.take vars m.store) (.start m.store m.live) = .ok w :=
  h.validated.validation

theorem valid_iff (h : Analysed vars f o p m w) : o.status = .valid ↔ w.conflicts = [] := by
  rw [h.validated.status_eq]
  cases w.conflicts <;> simp

theorem joinedBy_iff (h : Analysed vars f o p m w) (j : Nat) (a b : Handle) :
    JoinedBy vars f j a b ↔ Joins vars m.store (.start m.store m.live) p.pending j a b := by
  have hafter : ∀ n, validationAfter vars f n =
      takeFirst vars m.store (.start m.store m.live) p.pending n := fun n => by
    rw [validationAfter, h.validated.run]
    rfl
  rw [JoinedBy, JoinedAfter, JoinedAfter, hafter, hafter, Joins]

theorem ranked (h : Analysed vars f o p m w) : w.forest.Ranked :=
  (foldlM_take_spec p.pending (consistent_start m.store m.live) h.validation).1.ranked

end Analysed

/-! ### Two runs -/

/-- A function and the same with a binding inserted, which have been analysed. -/
structure Paired (vars vars' : BinderTable) (f f' : Function) (o o' : Outcome) (k : Handle)
    (σ : Handle → Handle) (p q : Propagation) (m m' : LivePoints) (w w' : Validation) : Prop where
  old : Analysed vars f o p m w
  new : Analysed vars' f' o' q m' w'
  step : InStep k σ p q

namespace Paired

variable {o o' : Outcome} {w w' : Validation}

theorem setOf_eq (h : Paired vars vars' f f' o o' k σ p q m m' w w') {v : Handle}
    (hv : v ∈ p.store.sets) : m'.store.setOf (σ v) = renumberSet σ (m.store.setOf v) := by
  rw [h.new.passed.minted.setOf_eq ((h.step.renumbers.store.mem_sets_iff v).2 hv),
    h.old.passed.minted.setOf_eq hv, h.step.renumbers.store.setOf_eq]

theorem sides (h : Paired vars vars' f f' o o' k σ p q m m' w w') {d : Demand}
    (hd : d ∈ p.pending) : SidesFollow σ m.store m'.store d :=
  ⟨h.setOf_eq (h.old.bound hd).1, h.setOf_eq (h.old.bound hd).2⟩

theorem isLeaf_iff (h : Paired vars vars' f f' o o' k σ p q m m' w w') (v : Handle) :
    m'.store.isLeaf (σ v) = true ↔ m.store.isLeaf v = true := by
  have hσ := h.step.mono.injective
  rw [isLeaf_livePoints h.new.passed.grows.sound h.new.walk h.new.passed.minted,
    isLeaf_livePoints h.old.passed.grows.sound h.old.walk h.old.passed.minted, isLeaf, isLeaf,
    decide_eq_true_eq, decide_eq_true_eq, h.step.renumbers.store.sets, Option.map_eq_some_iff]
  constructor
  · rintro ⟨set, hset, hself⟩
    rw [hset, Option.some.injEq]
    refine Std.ExtTreeSet.ext_mem fun u => ?_
    rw [← mem_renumberSet_of_injective hσ, hself, mem_singleton, mem_singleton, hσ.eq_iff]
  · exact fun hset => ⟨{v}, hset, renumberSet_singleton σ v⟩

theorem exists_leaf (h : Paired vars vars' f f' o o' k σ p q m m' w w') {v' : Handle}
    (hv' : m'.store.isLeaf v' = true) : ∃ v, σ v = v' := by
  rw [isLeaf_livePoints h.new.passed.grows.sound h.new.walk h.new.passed.minted, isLeaf,
    decide_eq_true_eq] at hv'
  by_contra hnone
  have hempty := h.step.renumbers.store.silent fun v hv => hnone ⟨v, hv⟩
  rw [setOf_of_getElem? hv'] at hempty
  exact Std.ExtTreeSet.not_mem_empty (hempty ▸ mem_singleton.2 rfl : v' ∈ (∅ : HandleSet))

/-- **The two validations compared.**  The second is without conflicts exactly if it is at the sites
of demands that two identities in one class are seen together, and then the classes correspond. -/
theorem validations (h : Paired vars vars' f f' o o' k σ p q m m' w w')
    (hvalid : o.status = .valid) :
    (o'.status = .valid ↔ ∀ j d a b, o.pending[j]? = some d → JoinedBy vars f j a b →
      ∀ point, LiveAt m'.live point (σ a) → LiveAt m'.live point (σ b) → point = σ d.site) ∧
    (o'.status = .valid → o'.liveness.classes = o.liveness.classes.map (·.map σ)) := by
  have hstart : ClassesFollow σ (.start m.store m.live) (.start m'.store m'.live) :=
    classesFollow_start h.step.mono h.isLeaf_iff fun _ => h.exists_leaf
  obtain ⟨hiff, hfollow⟩ := classesFollow_foldlM h.step.mono p.pending (fun d => h.sides)
    (consistent_start m.store m.live) (consistent_start m'.store m'.live) hstart h.old.validation
    (h.step.renumbers.pending ▸ h.new.validation) (h.old.valid_iff.1 hvalid)
  have hpending : o.pending = p.pending := h.old.validated.pending_eq
  simp only [h.old.joinedBy_iff, hpending]
  refine ⟨h.new.valid_iff.trans hiff, fun hvalid' => ?_⟩
  rw [h.new.validated.classes_eq, h.old.validated.classes_eq]
  exact (hfollow (h.new.valid_iff.1 hvalid')).classes_eq h.step.mono h.old.ranked h.new.ranked

/-- The new variable stands for nothing. -/
theorem setOf_eq_empty (h : Paired vars vars' f f' o o' k σ p q m m' w w') (hk : k < vars'.size) :
    q.store.setOf k = ∅ := by
  refine h.step.renumbers.store.silent fun u => ?_
  rcases Nat.lt_or_ge u p.store.firstMinted with hlt | hge
  · exact h.step.eq_skip hlt ▸ skip_ne k u
  · have hminted := (h.step.renumbers.store.minted u).2 hge
    rw [h.new.passed.grows.firstMinted_eq] at hminted
    exact Nat.ne_of_gt (Nat.lt_of_lt_of_le hk hminted)

/-- **Where nothing new is seen together:** two identities that are live at a point of the second
run, other than the place of `z`, are so at such a point of the first. -/
theorem live_elsewhere (h : Paired vars vars' f f' o o' k σ p q m m' w w') (hk : k < vars'.size)
    (hvalue : value.Bufferless) (hinserts : Expr.Inserts k value rest f.body f'.body) {z : Handle}
    (hz : z < vars.size) (hhead : ∀ x b, rest ≠ .letIn z x b)
    (hop : value.isOp = true → ∀ incoming, ∀ u ∈ firstIds p.store.setOf rest,
      u ∈ liveFirst p.store.setOf incoming rest) {point a b : Handle}
    (ha : LiveAt m'.live point (σ a)) (hb : LiveAt m'.live point (σ b)) (hpoint : point ≠ σ z) :
    ∃ point, point ≠ z ∧ LiveAt m.live point a ∧ LiveAt m.live point b := by
  have hσ := h.step.mono.injective
  have hfirst : p.store.firstMinted = vars.size := h.old.passed.grows.firstMinted_eq
  have hlives : LivesWithin σ z p.store.setOf q.store.setOf f.body f'.body :=
    .inserts h.step.renumbers.store.setOf_eq hσ
      (fun v hv => h.step.eq_skip (hfirst ▸ hv)) (h.setOf_eq_empty hk) hvalue hhead hop hinserts
      h.old.passed.flat h.old.passed.resolved.under
  have hplaces := hlives.places .body .body (Bounds.of_empty ∅)
  obtain ⟨set, hset, ha⟩ := ha
  obtain ⟨_, hset', hb⟩ := hb
  obtain rfl := Option.some.inj (hset'.symm.trans hset)
  -- the place that covers the point has one in the first run, which is not that of `z`
  have hfound : ∀ {place' : Place} {whole' : HandleSet},
      (place', whole') ∈ liveEntries q.store.setOf .body ∅ f'.body → place' ≠ .binding (σ z) →
      σ a ∈ whole' → σ b ∈ whole' → ∃ point, point ≠ z ∧ LiveAt m.live point a ∧
        LiveAt m.live point b := by
    intro place' whole' hmem hplace' ha hb
    obtain ⟨⟨place, whole⟩, hentry, hwithin, hplace⟩ := hplaces _ hmem
    have ha := (mem_renumberSet_of_injective hσ).1 (hwithin _ ha)
    have hb := (mem_renumberSet_of_injective hσ).1 (hwithin _ hb)
    cases h.old.passed.solved _ hentry with
    | @binding v _ hlive =>
      refine ⟨v, fun hvz => hplace' (hplace ?_), ⟨whole, hlive, ha⟩, whole, hlive, hb⟩
      exact congrArg Place.binding hvz
    | @exit _ point _ _ hle hlive =>
      refine ⟨point, Nat.ne_of_gt (Nat.lt_of_lt_of_le hz ?_), ⟨whole, hlive, ha⟩, whole, hlive, hb⟩
      rwa [h.old.passed.minted.firstMinted_eq, hfirst] at hle
  cases h.new.passed.covers hset with
  | binding hmem => exact hfound hmem (fun heq => hpoint (Place.binding.inj heq)) ha hb
  | exit hmem hwhole => exact hfound hmem (fun heq => by cases heq) (hwhole _ ha) (hwhole _ hb)

end Paired

/-! ### Where the binding is made -/

/-- What the first binder of a sequence stands for is live there, unless it is bound to a call or to
a conditional. -/
theorem firstIds_subset_liveFirst (h : Passed vars f p m) (hrest : rest.Flat)
    (hmem : ∀ b ∈ rest.allBindings, b ∈ f.body.allBindings)
    (hfirst : ∀ x, rest.first? = some x → x.isCond = false ∧ x.isCall = false)
    (incoming : HandleSet) : ∀ u ∈ firstIds p.store.setOf rest,
      u ∈ liveFirst p.store.setOf incoming rest := by
  intro u hu
  cases hrest with
  | result r => exact absurd hu Std.ExtTreeSet.not_mem_empty
  | @bind v x b hx _ =>
    have hself : u ∈ p.store.setOf v ∪ liveFirst p.store.setOf incoming b :=
      Std.ExtTreeSet.mem_union_iff.2 (Or.inl hu)
    cases hx with
    | call name ty _ => cases (hfirst _ rfl).2
    | op name =>
      cases h.denotes (hmem _ Expr.binding_mem_allBindings) with
      | op _ hempty _ =>
        have hu : u ∈ p.store.setOf v := hu
        rw [hempty] at hu
        exact absurd hu Std.ExtTreeSet.not_mem_empty
    | var u => exact hself
    | const value => exact hself
    | tuple hatoms => exact hself
    | get u index => exact hself
    | closure params body => exact hself
  | cond v c ty _ _ _ => cases (hfirst _ rfl).1

/-- The first binder of a sequence is bound to no conditional if another one is. -/
theorem ne_letIn_of_isCond (h : Passed vars f p m)
    (hmem : ∀ b ∈ rest.allBindings, b ∈ f.body.allBindings)
    (hfirst : ∀ x, rest.first? = some x → x.isCond = false) {z : Handle} {value : Expr}
    (hz : (z, value) ∈ f.body.allBindings) (hcond : value.isCond = true) (x b : Expr) :
    rest ≠ .letIn z x b := by
  rintro rfl
  have hnodup := h.resolved.ascending.uniqueBinders.nodup.sublist h.flat.map_fst_allBindings_sublist
  have heq : (z, x) = (z, value) :=
    List.inj_on_of_nodup_map hnodup (hmem _ Expr.binding_mem_allBindings) hz rfl
  rw [← (Prod.mk.inj heq).2, hfirst x rfl] at hcond
  cases hcond

/-! ### Functions -/

/-- **A binding of a number or of an operator in a function.**  The analysis of the function with
the binding succeeds as that of the function does, and its classes are those of the function under
other handles, if it is valid. -/
theorem exists_paired {o : Outcome} (hvalue : value.Bufferless) (hf : f.Inserts k value rest f')
    {R : String → String → Prop} (hvars : BinderTable.Alike R (skip k) vars vars')
    (hsize : vars'.size = vars.size + 1) (hk : k ≤ vars.size) (hscoped : f.Scoped vars.size)
    (hscoped' : f'.Scoped vars'.size) (hform : formErrors vars f = [])
    (ho : analyze vars f .sharing = .ok o) : ∃ σ o' p q m m' w w',
      analyze vars' f' .sharing = .ok o' ∧ Paired vars vars' f f' o o' k σ p q m m' w w' := by
  obtain ⟨s, r, p, m, w, hs, hp, hold⟩ := exists_analysed hscoped hform ho
  obtain ⟨hform', s', r', σ, q, hs', hq, hstep⟩ :=
    identities_inserts hvalue hf hvars hsize hk hscoped hform hs hp
  have hidentities := analyze_eq_ok.2
    ⟨_, (Run.upTo_identities_eq_ok hform').2 ⟨s', r', q, hs', hq, rfl⟩, rfl⟩
  obtain ⟨o', ho'⟩ := exists_ok_of_identities (fun v => hscoped'.lt_size) (not_stray hscoped')
    hidentities .sharing
  obtain ⟨t, r'', q', m', w', ht, hq', hnew⟩ := exists_analysed hscoped' hform' ho'
  obtain rfl := Except.ok.inj (ht.symm.trans hs')
  obtain rfl := (Prod.mk.inj (Except.ok.inj (hq'.symm.trans hq))).2
  exact ⟨σ, o', p, q', m, m', w, w', ho', hold, hnew, hstep⟩

/-- **A binding that is made at no conditional,** and of an operator at no call either, leaves a
function valid. -/
theorem Paired.valid {o o' : Outcome} {w w' : Validation}
    (h : Paired vars vars' f f' o o' k σ p q m m' w w') (hvalid : o.status = .valid)
    (hk : k < vars'.size) (hvalue : value.Bufferless)
    (hinserts : Expr.Inserts k value rest f.body f'.body)
    (hfirst : ∀ x, rest.first? = some x →
      x.isCond = false ∧ (value.isOp = true → x.isCall = false)) : o'.status = .valid := by
  have hpassed := h.old.passed
  have hmem : ∀ b ∈ rest.allBindings, b ∈ f.body.allBindings := fun _ => hinserts.mem_allBindings
  refine (h.validations hvalid).1.2 fun j d a b hd hjoined point ha hb => ?_
  by_contra hpoint
  obtain ⟨x, hsite, hcond⟩ := h.old.validated.site_cond (List.mem_of_getElem? hd)
  have hlt : d.site < vars.size := hpassed.resolved.lt_size (List.mem_append_right _
    (hpassed.flat.map_fst_allBindings_sublist.subset (List.mem_map_of_mem hsite)))
  have hhead := ne_letIn_of_isCond hpassed hmem (fun x hx => (hfirst x hx).1) hsite hcond
  obtain ⟨point', hne, ha', hb'⟩ := h.live_elsewhere hk hvalue hinserts hlt hhead
    (fun hop => firstIds_subset_liveFirst hpassed (hinserts.flat hpassed.flat) hmem
      fun x hx => ⟨(hfirst x hx).1, (hfirst x hx).2 hop⟩) ha hb hpoint
  rw [show o.pending = p.pending from h.old.validated.pending_eq] at hd
  exact hne (((h.old.joinedBy_iff j a b).1 hjoined).eq_site hd (consistent_start m.store m.live)
    h.old.validation point' ha' hb')

/-! ### Modules -/

/-- **A binding that stands for no buffer in a valid function.**  Let a module be without errors and
a function of it valid, and let a new name be bound to a number or to an operator in front of
`rest`, which is the end of the body or of a branch in it.  Then the module is still without errors,
and the function is analysed with the same sets under other handles, in the same order, and with the
same classes if it is valid again.  It is valid unless two buffers that a demand has put into one
class are now live together at a place other than the conditional that the demand is made at.  That
can only be in front of a conditional or, of an operator, in front of a call. -/
theorem valid_of_bufferless {x entry : String} {value : Syntax.Expr} {rest : Syntax.Block}
    {m m' : Syntax.Module} {f : Function} {o : Outcome} (hvalue : value.Bufferless)
    (h : Syntax.ModuleInserts x value rest entry m m') (hclean : anyError (ofModule m).2 = false)
    (hentry : (ofModule m).1.function? entry = some f)
    (ho : analyze (ofModule m).1.vars f .sharing = .ok o) (hvalid : o.status = .valid) :
    anyError (ofModule m').2 = false ∧ ∃ f' ρ o',
      (ofModule m').1.function? entry = some f' ∧
      analyze (ofModule m').1.vars f' .sharing = .ok o' ∧ StrictMono ρ ∧
      (∀ v < (ofModule m).1.vars.size,
        (ofModule m').1.vars.name? (ρ v) = (ofModule m).1.vars.name? v ∧
        o'.liveness.identitiesOf? (ρ v) = (o.liveness.identitiesOf? v).map (renumberSet ρ)) ∧
      (o'.status = .valid → o'.liveness.classes = o.liveness.classes.map (·.map ρ)) ∧
      (o'.status = .valid ↔ ∀ j d a b, o.pending[j]? = some d →
        JoinedBy (ofModule m).1.vars f j a b → ∀ point set,
          o'.liveness.liveAt? point = some set → ρ a ∈ set → ρ b ∈ set → point = ρ d.site) ∧
      ((∀ next, rest.first? = some next →
        next.isCond = false ∧ (value.isOp = true → next.isCall = false)) → o'.status = .valid) := by
  obtain ⟨hclean', k, e, r, g, f', hk, hresolved, hg, hf', hinserts, hsize, hvars⟩ :=
    ofModule_inserts hvalue h hclean
  obtain rfl := Option.some.inj (hg.symm.trans hentry)
  have hscoped : g.Scoped (ofModule m).1.vars.size :=
    (Resolver.functions_spec m.functions [] .start).2 (entry, g) (mem_functions_of_function? hg)
  have hscoped' : f'.Scoped (ofModule m').1.vars.size :=
    (Resolver.functions_spec m'.functions [] .start).2 (entry, f') (mem_functions_of_function? hf')
  have hform := formErrors_eq_nil ho (by simp [hvalid])
  obtain ⟨σ, o', p, q, n, n', w, w', ho', hpaired⟩ := exists_paired hresolved.bufferless hinserts
    hvars hsize hk hscoped hscoped' hform ho
  have hlt : k < (ofModule m').1.vars.size := hsize ▸ Nat.lt_succ_of_le hk
  obtain ⟨hiff, hclasses⟩ := hpaired.validations hvalid
  refine ⟨hclean', f', σ, o', hf', ho', hpaired.step.mono, fun v hv => ?_, hclasses, ?_,
    fun hfirst => ?_⟩
  · have hfirst : p.store.firstMinted = (ofModule m).1.vars.size :=
      hpaired.old.passed.grows.firstMinted_eq
    have hfirst' : q.store.firstMinted = (ofModule m').1.vars.size :=
      hpaired.new.passed.grows.firstMinted_eq
    have hskip : σ v = skip k v := hpaired.step.eq_skip (hfirst.symm ▸ hv)
    have hv' : σ v < (ofModule m').1.vars.size := by
      rwa [← hfirst', ← Nat.not_le, hpaired.step.renumbers.store.minted, hfirst, Nat.not_le]
    refine ⟨hskip ▸ hvars.name?_eq v, ?_⟩
    rw [hpaired.new.identities hv', hpaired.old.identities hv, hpaired.step.renumbers.store.sets]
  · rw [hiff]
    simp only [LiveAt, Liveness.liveAt?, hpaired.new.validated.live_eq]
    refine forall₄_congr fun j d a b => forall₂_congr fun _ _ => forall_congr' fun point => ?_
    constructor
    · exact fun h set hset ha hb => h ⟨set, hset, ha⟩ ⟨set, hset, hb⟩
    · rintro h ⟨set, hset, ha⟩ ⟨set', hset', hb⟩
      exact h set hset ha (Option.some.inj (hset'.symm.trans hset) ▸ hb)
  · refine hpaired.valid hvalid hlt hresolved.bufferless hinserts.body fun v hv => ?_
    have hstart := hresolved.start
    rw [Resolver.SameStart, hv] at hstart
    obtain ⟨next, hnext, heq⟩ := Option.map_eq_some_iff.1 hstart.symm
    obtain ⟨hcall, hcond⟩ := Prod.mk.inj heq
    obtain ⟨hncond, hncall⟩ := hfirst next hnext
    exact ⟨hcond.symm.trans hncond, fun hop => hcall.symm.trans (hncall (hresolved.isOp ▸ hop))⟩

/-- A module of one function with three parameters:
`fn @main(%c: Tensor, %x: Tensor, %y: Tensor) { … }`. -/
def ternaryModule (body : Syntax.Block) : Syntax.Module :=
  ⟨[⟨⟨"main", ⟨3, 8⟩⟩, [⟨⟨"c", ⟨9, 11⟩⟩, .named ⟨"Tensor", ⟨13, 19⟩⟩, ⟨9, 19⟩⟩,
    ⟨⟨"x", ⟨21, 23⟩⟩, .named ⟨"Tensor", ⟨25, 31⟩⟩, ⟨21, 31⟩⟩,
    ⟨⟨"y", ⟨33, 35⟩⟩, .named ⟨"Tensor", ⟨37, 43⟩⟩, ⟨33, 43⟩⟩], body, ⟨0, body.span.stop⟩⟩],
    ⟨0, body.span.stop⟩⟩

theorem ternaryModule_inserts {value : Syntax.Expr} {rest b b' : Syntax.Block}
    (h : Syntax.BlockInserts "k" value rest b b') :
    Syntax.ModuleInserts "k" value rest "main" (ternaryModule b) (ternaryModule b') := by
  refine .here rfl rfl ?_ h .nil
  exact .cons ⟨⟨rfl, by decide⟩, rfl⟩ (.cons ⟨⟨rfl, by decide⟩, rfl⟩
    (.cons ⟨⟨rfl, by decide⟩, rfl⟩ .nil))

/-- A body that chooses a parameter: `let %z = if (%c) { %x } else { %y }; %z`. -/
def choiceBlock : Syntax.Block :=
  .bind ⟨"z", ⟨51, 53⟩⟩ none (.cond (.var ⟨"c", ⟨60, 62⟩⟩ ⟨60, 62⟩)
    (.result (.var ⟨"x", ⟨66, 68⟩⟩ ⟨66, 68⟩) ⟨64, 70⟩)
    (.result (.var ⟨"y", ⟨78, 80⟩⟩ ⟨78, 80⟩) ⟨76, 82⟩) ⟨56, 82⟩) ⟨47, 83⟩
    (.result (.var ⟨"z", ⟨84, 86⟩⟩ ⟨84, 86⟩) ⟨45, 88⟩)

/-- The same with a number bound in a branch:
`let %z = if (%c) { let %k = 0; %x } else { %y }; %z`. -/
def numberInBranch : Syntax.Block :=
  .bind ⟨"z", ⟨51, 53⟩⟩ none (.cond (.var ⟨"c", ⟨60, 62⟩⟩ ⟨60, 62⟩)
    (.bind ⟨"k", ⟨70, 72⟩⟩ none (.number .zero ⟨75, 76⟩) ⟨66, 77⟩
      (.result (.var ⟨"x", ⟨78, 80⟩⟩ ⟨78, 80⟩) ⟨64, 82⟩))
    (.result (.var ⟨"y", ⟨90, 92⟩⟩ ⟨90, 92⟩) ⟨88, 94⟩) ⟨56, 94⟩) ⟨47, 95⟩
    (.result (.var ⟨"z", ⟨96, 98⟩⟩ ⟨96, 98⟩) ⟨45, 100⟩)

/-- The function of `choiceBlock`. -/
def choosingFunction : Function :=
  ⟨[0, 1, 2], .letIn 3 (.cond (.var 0) (.var 1) (.var 2) .tensor) (.var 3)⟩

/-- A number bound in a branch makes no difference to the classes. -/
theorem valid_of_numberInBranch : ∃ f' ρ o',
    (ofModule (ternaryModule numberInBranch)).1.function? "main" = some f' ∧
    analyze (ofModule (ternaryModule numberInBranch)).1.vars f' .sharing = .ok o' ∧
    o'.status = .valid ∧ StrictMono ρ ∧
    o'.liveness.classes = [[4], [5, 6, 7]].map (·.map ρ) := by
  have hinserts : Syntax.ModuleInserts "k" (.number .zero ⟨75, 76⟩)
      (.result (.var ⟨"x", ⟨66, 68⟩⟩ ⟨66, 68⟩) ⟨64, 70⟩) "main" (ternaryModule choiceBlock)
      (ternaryModule numberInBranch) := by
    refine ternaryModule_inserts (.thenBlock _ _ _ _ ⟨rfl, by decide⟩ rfl
      (.var _ _ ⟨rfl, by decide⟩) (.here none _ rfl ?_) ?_ ?_)
    · exact .result _ _ (.var _ _ ⟨rfl, by decide⟩)
    · exact .result _ _ (.var _ _ ⟨rfl, by decide⟩)
    · exact .result _ _ (.var _ _ ⟨rfl, by decide⟩)
  have hclean : anyError (ofModule (ternaryModule choiceBlock)).2 = false := by cbv
  have hf : (ofModule (ternaryModule choiceBlock)).1.function? "main" = some choosingFunction := by
    cbv
  have hrun : ((analyze (ofModule (ternaryModule choiceBlock)).1.vars choosingFunction
      .sharing).toOption.any fun o => o.status = .valid ∧
        o.liveness.classes = [[4], [5, 6, 7]]) = true := by decide +kernel
  obtain ⟨o, ho, htest⟩ := exists_ok_of_any hrun
  obtain ⟨hvalid, hclasses⟩ := of_decide_eq_true htest
  obtain ⟨-, f', ρ, o', hf', ho', hmono, -, hsame, -, hkept⟩ :=
    valid_of_bufferless (.number _ _) hinserts hclean hf ho hvalid
  have hvalid' := hkept fun _ hnext => absurd hnext (by simp [Syntax.Block.first?])
  exact ⟨f', ρ, o', hf', ho', hvalid', hmono, hclasses ▸ hsame hvalid'⟩

/-- A function is valid, and has a conflict when `value` is bound in front of `rest`. -/
def ConflictsWith (value : Syntax.Expr) (rest b b' : Syntax.Block) : Prop :=
  Syntax.ModuleInserts "k" value rest "main" (ternaryModule b) (ternaryModule b') ∧
  anyError (ofModule (ternaryModule b)).2 = false ∧ ∃ f o f' o',
    (ofModule (ternaryModule b)).1.function? "main" = some f ∧
    analyze (ofModule (ternaryModule b)).1.vars f .sharing = .ok o ∧ o.status = .valid ∧
    (ofModule (ternaryModule b')).1.function? "main" = some f' ∧
    analyze (ofModule (ternaryModule b')).1.vars f' .sharing = .ok o' ∧
    o'.status = .aliasingConflict

theorem conflictsWith_of_runs {value : Syntax.Expr} {rest b b' : Syntax.Block} (f f' : Function)
    (h : Syntax.BlockInserts "k" value rest b b')
    (hclean : anyError (ofModule (ternaryModule b)).2 = false)
    (hf : (ofModule (ternaryModule b)).1.function? "main" = some f)
    (hf' : (ofModule (ternaryModule b')).1.function? "main" = some f')
    (hrun : ((analyze (ofModule (ternaryModule b)).1.vars f .sharing).toOption.any fun o =>
      o.status = .valid) = true)
    (hrun' : ((analyze (ofModule (ternaryModule b')).1.vars f' .sharing).toOption.any fun o =>
      o.status = .aliasingConflict) = true) : ConflictsWith value rest b b' := by
  obtain ⟨o, ho, hvalid⟩ := exists_ok_of_any hrun
  obtain ⟨o', ho', hconflict⟩ := exists_ok_of_any hrun'
  exact ⟨ternaryModule_inserts h, hclean, f, o, f', o', hf, ho, of_decide_eq_true hvalid, hf', ho',
    of_decide_eq_true hconflict⟩

/-- The body of `choiceBlock` with a number bound in front of the conditional:
`let %k = 0; let %z = if (%c) { %x } else { %y }; %z`. -/
def numberAtChoice : Syntax.Block :=
  .bind ⟨"k", ⟨51, 53⟩⟩ none (.number .zero ⟨56, 57⟩) ⟨47, 58⟩
    (.bind ⟨"z", ⟨63, 65⟩⟩ none (.cond (.var ⟨"c", ⟨72, 74⟩⟩ ⟨72, 74⟩)
      (.result (.var ⟨"x", ⟨78, 80⟩⟩ ⟨78, 80⟩) ⟨76, 82⟩)
      (.result (.var ⟨"y", ⟨90, 92⟩⟩ ⟨90, 92⟩) ⟨88, 94⟩) ⟨68, 94⟩) ⟨59, 95⟩
      (.result (.var ⟨"z", ⟨96, 98⟩⟩ ⟨96, 98⟩) ⟨45, 100⟩))

/-- A body with a call: `let %w = exp(%x); let %z = if (%c) { %w } else { %x }; %z`. -/
def callBlock : Syntax.Block :=
  .bind ⟨"w", ⟨51, 53⟩⟩ none
    (.call (.op ⟨"exp", ⟨56, 59⟩⟩) [.var ⟨"x", ⟨60, 62⟩⟩ ⟨60, 62⟩] ⟨56, 63⟩) ⟨47, 64⟩
    (.bind ⟨"z", ⟨69, 71⟩⟩ none (.cond (.var ⟨"c", ⟨78, 80⟩⟩ ⟨78, 80⟩)
      (.result (.var ⟨"w", ⟨84, 86⟩⟩ ⟨84, 86⟩) ⟨82, 88⟩)
      (.result (.var ⟨"x", ⟨96, 98⟩⟩ ⟨96, 98⟩) ⟨94, 100⟩) ⟨74, 100⟩) ⟨65, 101⟩
      (.result (.var ⟨"z", ⟨102, 104⟩⟩ ⟨102, 104⟩) ⟨45, 106⟩))

/-- The same with an operator bound in front of the call:
`let %k = exp; let %w = exp(%x); let %z = if (%c) { %w } else { %x }; %z`. -/
def operatorAtCall : Syntax.Block :=
  .bind ⟨"k", ⟨51, 53⟩⟩ none (.op ⟨"exp", ⟨56, 59⟩⟩ ⟨56, 59⟩) ⟨47, 60⟩
    (.bind ⟨"w", ⟨65, 67⟩⟩ none
      (.call (.op ⟨"exp", ⟨70, 73⟩⟩) [.var ⟨"x", ⟨74, 76⟩⟩ ⟨74, 76⟩] ⟨70, 77⟩) ⟨61, 78⟩
      (.bind ⟨"z", ⟨83, 85⟩⟩ none (.cond (.var ⟨"c", ⟨92, 94⟩⟩ ⟨92, 94⟩)
        (.result (.var ⟨"w", ⟨98, 100⟩⟩ ⟨98, 100⟩) ⟨96, 102⟩)
        (.result (.var ⟨"x", ⟨110, 112⟩⟩ ⟨110, 112⟩) ⟨108, 114⟩) ⟨88, 114⟩) ⟨79, 115⟩
        (.result (.var ⟨"z", ⟨116, 118⟩⟩ ⟨116, 118⟩) ⟨45, 120⟩)))

/-- **Both exceptions occur.**  A number in front of the conditional is a point at which both branch
results are live, and an operator in front of the call is one at which the argument is live together
with the result. -/
theorem conflict_of_numberAtChoice_and_operatorAtCall :
    ConflictsWith (.number .zero ⟨56, 57⟩) choiceBlock choiceBlock numberAtChoice ∧
    ConflictsWith (.op ⟨"exp", ⟨56, 59⟩⟩ ⟨56, 59⟩) callBlock callBlock operatorAtCall := by
  have hvar : ∀ {n : String}, n ≠ "k" → ∀ s s' t t' : Text.Span,
      Syntax.ExprAlike (Syntax.SameBut "k") (.var ⟨n, s⟩ t) (.var ⟨n, s'⟩ t') := fun hn _ _ _ _ =>
    .var _ _ ⟨rfl, hn⟩
  constructor
  · refine conflictsWith_of_runs choosingFunction ⟨[0, 1, 2],
      .letIn 3 (.const .zero) <| .letIn 4 (.cond (.var 0) (.var 1) (.var 2) .tensor) (.var 4)⟩
      (.here none _ rfl ?_) (by cbv) (by cbv) (by cbv) (by decide +kernel) (by decide +kernel)
    refine .bind _ _ ⟨rfl, by decide⟩ rfl ?_ (.result _ _ (hvar (by decide) _ _ _ _))
    exact .cond _ _ (hvar (by decide) _ _ _ _) (.result _ _ (hvar (by decide) _ _ _ _))
      (.result _ _ (hvar (by decide) _ _ _ _))
  · refine conflictsWith_of_runs ⟨[0, 1, 2],
      .letIn 3 (.call (.op "exp") [.var 1] .tensor) <|
        .letIn 4 (.cond (.var 0) (.var 3) (.var 1) .tensor) (.var 4)⟩ ⟨[0, 1, 2],
      .letIn 3 (.op "exp") <| .letIn 4 (.call (.op "exp") [.var 1] .tensor) <|
        .letIn 5 (.cond (.var 0) (.var 4) (.var 1) .tensor) (.var 5)⟩
      (.here none _ rfl ?_) (by cbv) (by cbv) (by cbv) (by decide +kernel) (by decide +kernel)
    refine .bind _ _ ⟨rfl, by decide⟩ rfl
      (.call _ _ (.op rfl) (.cons (hvar (by decide) _ _ _ _) .nil)) ?_
    refine .bind _ _ ⟨rfl, by decide⟩ rfl ?_ (.result _ _ (hvar (by decide) _ _ _ _))
    exact .cond _ _ (hvar (by decide) _ _ _ _) (.result _ _ (hvar (by decide) _ _ _ _))
      (.result _ _ (hvar (by decide) _ _ _ _))

end Analysis
end TensorLiveness
