/-
# What the live sets and the demands can fail for

Once the binders of a flat sequence are bound, the walk that makes its live sets fails for a
dangling reference only (`livePoints_ends`): the point behind each binding has a live set by the
time it is asked for, arguments and results have names, and every kind of value is known.

The demands are validated unless a side of one is not bound (`validate_ends`): sets consist of
leaves, leaves are in the forest from the start, and none drops out (`Complete`).
-/

import TensorLiveness.Proofs.Analysis.Faults.Propagation
import TensorLiveness.Proofs.Analysis.Interference

namespace TensorLiveness
namespace Analysis

open Identity Program Sharing Store

variable {vars : BinderTable}

/-! ### Live sets -/

section Walk

variable {m m' : LivePoints} {v next : Handle}

/-- How the points grow while binders may be repeated. -/
structure Reaches (m m' : LivePoints) : Prop where
  store : Store.Extends [] m.store m'.store
  sound : m'.Sound
  live {point : Handle} : point ∈ m.live → point ∈ m'.live

theorem Reaches.refl (hm : m.Sound) : Reaches m m := ⟨.refl hm.store, hm, id⟩

theorem Reaches.trans {m'' : LivePoints} (h : Reaches m m') (h' : Reaches m' m'') :
    Reaches m m'' := ⟨h.store.trans_minting h'.store, h'.sound, fun hp => h'.live (h.live hp)⟩

theorem mem_live_of_getElem? {point : Handle} {set : HandleSet}
    (h : m.live[point]? = some set) : point ∈ m.live := by
  rw [Std.ExtTreeMap.mem_iff_isSome_getElem?, h]
  rfl

theorem exists_getElem?_of_mem_live {point : Handle} (h : point ∈ m.live) :
    ∃ set, m.live[point]? = some set :=
  Option.isSome_iff_exists.1 (Std.ExtTreeMap.mem_iff_isSome_getElem?.1 h)

/-- What dangles after a walk has dangled before. -/
theorem Reaches.dangling {e : Expr} {u : Handle} (h : Reaches m m') (hu : Dangling m'.store e u) :
    Dangling m.store e u := hu.of_keeps h.store.keeps

/-- Points that may be touched still have sets. -/
theorem LivePoints.Extends.reaches {ps : List Handle} {scopes : List Scope} (hm : m.Sound)
    (h : LivePoints.Extends ps scopes m m') (hps : ∀ p ∈ ps, p ∈ m'.live) : Reaches m m' := by
  refine ⟨h.store, h.sound, fun {point} hp => ?_⟩
  obtain ⟨set, hset⟩ := exists_getElem?_of_mem_live hp
  by_cases hmem : point ∈ ps
  · exact hps point hmem
  · exact mem_live_of_getElem? ((h.live hmem (hm.point_lt hset)).trans hset)

/-- A point behind which a set is live fails only for what it uses. -/
theorem liveBefore_ends {uses : Handle} {defined : Option Handle} (hm : m.Sound)
    (hdefined : ∀ d, defined = some d → d ∈ m.store.sets) (hnext : next ∈ m.live) :
    Ends (m.liveBefore uses defined next) (fun _ => True)
      fun e => uses ∉ m.store.sets ∧ e = .unbound uses := by
  obtain ⟨after, hafter⟩ := exists_getElem?_of_mem_live hnext
  have hliveAt : m.liveAt next = .ok after := LivePoints.liveAt_eq_ok.2 hafter
  have hsnap := mints_freshSet hm.store "live" after fun e he => hm.leaf hafter he
  rw [LivePoints.liveBefore]
  refine (identities_ends m.store uses).bind fun set huses => ?_
  rw [hliveAt]
  -- the union of what is used and of what stands for the rest
  have hmerge : ∀ {s : Store} {r : Handle}, Store.Extends [] m.store s → r ∈ s.sets →
      Ends (s.freshUnionOf [uses, r] >>= fun u => u.2.identities u.1 >>= fun set =>
        .ok (set, m.withStore u.2)) (fun _ => True)
        fun e => uses ∉ m.store.sets ∧ e = .unbound uses := by
    intro s r hs hr
    refine ((freshUnionOf_ends hs.sound _).mono (fun _ h => h) fun e he => ?_).bind fun u hu => ?_
    · obtain ⟨w, hw, hnot, _⟩ := he
      rcases List.mem_cons.1 hw with rfl | hw
      · exact absurd (hs.mem huses.1) hnot
      · exact absurd (List.mem_singleton.1 hw ▸ hr) hnot
    · exact ((identities_ends u.2 u.1).mono (fun _ h => h) fun e he => absurd hu.2 he.1).bind
        fun _ _ => trivial
  cases defined with
  | none => exact hmerge hsnap.grows hsnap.mem
  | some d =>
    have hd := hsnap.grows.mem (hdefined d rfl)
    refine ((freshDifference_ends hsnap.grows.sound _ d).mono (fun _ h => h) fun e he => ?_).bind
      fun a ha => hmerge (hsnap.grows.trans_minting ha.1) ha.2
    exact he.elim (fun h => absurd hsnap.mem h.1) fun h => absurd hd h.1

theorem record_ends {point uses : Handle} {defined : Option Handle} (hm : m.Sound)
    (hdefined : ∀ d, defined = some d → d ∈ m.store.sets) (hpoint : point < m.store.supply.next)
    (hnext : next ∈ m.live) : Ends (m.record point uses defined next)
      (fun m' => Reaches m m' ∧ point ∈ m'.live)
      fun e => uses ∉ m.store.sets ∧ e = .unbound uses := by
  have hends : Ends (m.record point uses defined next) (fun _ => True)
      fun e => uses ∉ m.store.sets ∧ e = .unbound uses :=
    (liveBefore_ends hm hdefined hnext).bind fun _ _ => trivial
  refine hends.with_ok fun m' hm' _ => ?_
  obtain ⟨after, _, _, hext, hset⟩ := LivePoints.record_spec hm hdefined hpoint hm'
  have hmem := mem_live_of_getElem? hset
  exact ⟨hext.reaches hm fun p hp => List.mem_singleton.1 hp ▸ hmem, hmem⟩

/-- **An exit** fails only for the result of its sequence. -/
theorem openExit_ends {scope : Scope} {result : Expr} {r : Handle} (hm : m.Sound)
    (hr : result = .var r) (hnext : next ∈ m.live) : Ends (m.openExit scope result next)
      (fun a => Reaches m a.2 ∧ a.1 ∈ a.2.store.sets ∧ a.1 ∈ a.2.live)
      fun e => r ∉ m.store.sets ∧ e = .unbound r := by
  subst hr
  rw [LivePoints.openExit]
  simp only [Expr.var?]
  have hmint := mints_freshEmpty hm.store (scope.display ++ ".exit")
  have hstore := LivePoints.extends_withStore hm hmint.grows
  have hexit := hmint.grows.sound.lt_next hmint.mem
  generalize m.store.freshEmpty (scope.display ++ ".exit") = exit at *
  have hrecord : Ends ((m.withStore exit.2).record exit.1 r none next) _ _ :=
    record_ends hstore.sound (by rintro d ⟨⟩) hexit hnext
  refine (hrecord.mono (fun _ h => h) fun e he => ?_).bind fun m₁ hm₁ => ?_
  · exact ⟨fun hmem => he.1 (hmint.grows.mem hmem), he.2⟩
  · obtain ⟨hreach, hlive⟩ := hm₁
    have hall := (hstore.reaches hm fun p hp => absurd hp List.not_mem_nil).trans hreach
    refine ⟨⟨hall.store, ⟨hall.sound.store, hall.sound.point_lt, hall.sound.leaf⟩, hall.live⟩, ?_,
      hlive⟩
    exact hreach.store.mem hmint.mem

/-- The point behind a branch never fails. -/
theorem openBranch_ends (hm : m.Sound) (hv : v ∈ m.store.sets) (hnext : next ∈ m.live) :
    Ends (m.openBranch v next) (fun a => Reaches m a.2 ∧ a.1 ∈ a.2.live) fun _ => False := by
  obtain ⟨after, hafter⟩ := exists_getElem?_of_mem_live hnext
  have hliveAt : m.liveAt next = .ok after := LivePoints.liveAt_eq_ok.2 hafter
  have hsnap := mints_freshSet hm.store "live" after fun e he => hm.leaf hafter he
  have hends : Ends (m.openBranch v next) (fun _ => True) fun _ => False := by
    have hv' := hsnap.grows.mem hv
    rw [LivePoints.openBranch, hliveAt]
    refine ((freshDifference_ends hsnap.grows.sound _ v).mono (fun _ h => h) fun e he => ?_).bind
      fun a ha => ?_
    · exact he.elim (fun h => h.1 hsnap.mem) fun h => h.1 hv'
    · exact ((identities_ends a.2 a.1).mono (fun _ h => h) fun e he => he.1 ha.2).bind
        fun _ _ => trivial
  refine hends.with_ok fun a ha _ => ?_
  obtain ⟨_, _, hext, hset⟩ := LivePoints.openBranch_spec hm hv ha
  exact ⟨hext.reaches hm fun p hp => absurd hp List.not_mem_nil, mem_live_of_getElem? hset⟩

/-- The arguments of a call that has the form are variables and constants. -/
theorem argumentVars_ends {args : List Expr} (hatoms : ∀ arg ∈ args, arg.isAtom) :
    Ends (LivePoints.argumentVars v args) (fun us => us = Expr.occurrencesAll args)
      fun _ => False := by
  have hends : Ends (LivePoints.argumentVars v args) (fun _ => True) fun _ => False := by
    induction args with
    | nil => exact trivial
    | cons arg args ih =>
      have hargs := ih fun arg harg => hatoms arg (List.mem_cons_of_mem _ harg)
      have harg := hatoms arg List.mem_cons_self
      cases arg with
      | var u => exact hargs.bind fun _ _ => trivial
      | const value => exact hargs
      | _ => cases harg
  exact hends.with_ok fun us hus _ => LivePoints.argumentVars_spec hus

/-- A point that uses what was minted for it and defines its own variable never fails. -/
theorem recordMinted_ends {s : Store} {used : Handle} (hm : m.Sound)
    (hs : Store.Extends [] m.store s) (hused : used ∈ s.sets) (hv : v ∈ m.store.sets)
    (hnext : next ∈ m.live) : Ends ((m.withStore s).record v used (some v) next)
      (fun m' => Reaches m m' ∧ v ∈ m'.live) fun _ => False := by
  have hstore := LivePoints.extends_withStore hm hs
  have hv' := hs.mem hv
  refine (record_ends hstore.sound (by rintro d ⟨⟩; exact hv') (hs.sound.lt_next hv') hnext).mono
    (fun m' h => ⟨?_, h.2⟩) fun e he => he.1 hused
  exact (hstore.reaches hm fun p hp => absurd hp List.not_mem_nil).trans h.1

/-- **The point of a call** fails only for an argument. -/
theorem recordCall_ends {args : List Expr} (hatoms : ∀ arg ∈ args, arg.isAtom) (hm : m.Sound)
    (hv : v ∈ m.store.sets) (hnext : next ∈ m.live) : Ends (m.recordCall v args next)
      (fun m' => Reaches m m' ∧ v ∈ m'.live)
      fun e => ∃ u ∈ Expr.occurrencesAll args, u ∉ m.store.sets ∧ e = .unbound u := by
  rw [LivePoints.recordCall]
  refine ((argumentVars_ends hatoms).mono (fun _ h => h) fun _ => False.elim).bind fun us hus => ?_
  subst hus
  refine (freshUnionOf_ends hm.store _).bind fun u hu => ?_
  exact (recordMinted_ends hm hu.1 hu.2 hv hnext).mono (fun _ h => h) fun _ => False.elim

/-- **The point of a conditional** fails only for what occurs free in it. -/
theorem recordCond_ends {c : Handle} {thenBranch elseBranch : Expr} {ty : Ty} (hm : m.Sound)
    (hv : v ∈ m.store.sets) (hnext : next ∈ m.live) :
    Ends (m.recordCond v (.var c) thenBranch elseBranch next)
      (fun m' => Reaches m m' ∧ v ∈ m'.live)
      (Dangles m.store (.cond (.var c) thenBranch elseBranch ty)) := by
  rw [LivePoints.recordCond]
  simp only [Expr.var?]
  refine ((freshUnionOf_ends hm.store _).mono (fun _ h => h) fun e he => ?_).bind fun a ha => ?_
  · obtain ⟨u, hu, hnot, rfl⟩ := he
    have hocc := Expr.occurrences_of_freeVars hu
    exact ⟨u, ⟨List.mem_append_left _ (List.mem_append_right _ hocc), hnot⟩, rfl⟩
  refine ((freshUnionOf_ends ha.1.sound _).mono (fun _ h => h) fun e he => ?_).bind fun b hb => ?_
  · obtain ⟨u, hu, hnot, rfl⟩ := he
    have hocc := Expr.occurrences_of_freeVars hu
    exact ⟨u, ⟨List.mem_append_right _ hocc, fun hmem => hnot (ha.1.mem hmem)⟩, rfl⟩
  have hext := ha.1.trans_minting hb.1
  refine ((freshUnionOf_ends hb.1.sound _).mono (fun _ h => h) fun e he => ?_).bind fun w hw => ?_
  · obtain ⟨u, hu, hnot, rfl⟩ := he
    simp only [List.mem_cons, List.not_mem_nil, or_false] at hu
    rcases hu with rfl | rfl | rfl
    · exact absurd (hb.1.mem ha.2) hnot
    · exact absurd hb.2 hnot
    · refine ⟨u, ⟨?_, fun hmem => hnot (hext.mem hmem)⟩, rfl⟩
      exact List.mem_append_left _ (List.mem_append_left _ List.mem_cons_self)
  exact (recordMinted_ends hm (hext.trans_minting hw.1) hw.2 hv hnext).mono (fun _ h => h)
    fun _ => False.elim

/-- **The point of a simple value.** -/
theorem walkSimple_ends {value : Expr} (hsimple : value.Simple) (hm : m.Sound)
    (hv : v ∈ m.store.sets) (hnext : next ∈ m.live) (hnextMem : next ∈ m.store.sets) :
    Ends (walkBackBinding m v next value) (fun m' => Reaches m m' ∧ v ∈ m'.live)
      (Dangles m.store value) := by
  have huse : ∀ {uses : Handle}, uses ∈ m.store.sets → Ends (m.record v uses none next)
      (fun m' => Reaches m m' ∧ v ∈ m'.live) (Dangles m.store value) := fun huses =>
    (record_ends hm (by rintro d ⟨⟩) (hm.store.lt_next hv) hnext).mono (fun _ h => h)
      fun e he => absurd huses he.1
  cases hsimple with
  | op name => exact huse hnextMem
  | @call name args ty hatoms =>
    rw [walkBackBinding, Expr.isOp, if_pos rfl]
    refine (recordCall_ends hatoms hm hv hnext).mono (fun _ h => h) fun e he => ?_
    obtain ⟨u, hu, hnot, rfl⟩ := he
    exact ⟨u, ⟨hu, hnot⟩, rfl⟩
  | _ => exact huse hv

/-- What a walk through a sequence comes to, with its first point. -/
structure WalksBack (m : LivePoints) (first : Handle) (m' : LivePoints) : Prop where
  reaches : Reaches m m'
  first_mem : first ∈ m'.store.sets
  first_live : first ∈ m'.live

/-- **A branch of a conditional,** from behind it to its first point, and what comes next. -/
theorem walkBranch_ends {value taken : Expr} {inner : Scope}
    {k : LivePoints → Except Fault LivePoints} {P : LivePoints → Prop}
    (hbranch : BranchOf v value inner taken) (htaken : taken.Flat) (hm : m.Sound)
    (hv : v ∈ m.store.sets) (hnext : next ∈ m.live)
    (hbound : ∀ u ∈ taken.allBindings.map (·.1), u ∈ m.store.sets)
    (hwalk : ∀ {m : LivePoints} {exit : Handle}, m.Sound →
      (∀ u ∈ taken.allBindings.map (·.1), u ∈ m.store.sets) → exit ∈ m.store.sets →
        exit ∈ m.live →
          Ends (walkBack m exit taken) (fun a => WalksBack m a.1 a.2) (Dangles m.store taken))
    (hk : ∀ {m' : LivePoints}, Reaches m m' → Ends (k m') P (Dangles m'.store value)) :
    Ends (do
      let (branchNext, m) ← m.openBranch v next
      let (exit, m) ← m.openExit inner taken.result branchNext
      let (_, m) ← walkBack m exit taken
      k m) P (Dangles m.store value) := by
  refine ((openBranch_ends hm hv hnext).mono (fun _ h => h) fun _ => False.elim).bind fun a ha => ?_
  obtain ⟨r, hr, hmem⟩ := htaken.exists_result
  refine ((openExit_ends ha.1.sound hr ha.2).mono (fun _ h => h) fun e he => ?_).bind fun b hb => ?_
  · refine ⟨r, (ha.1.dangling ⟨hmem.resolve_right fun hmem => ?_, he.1⟩).branch hbranch, he.2⟩
    exact he.1 (ha.1.store.mem (hbound r hmem))
  · have hreach := ha.1.trans hb.1
    refine ((hwalk hb.1.sound (fun u hu => hreach.store.mem (hbound u hu)) hb.2.1 hb.2.2).mono
      (fun _ h => h) fun e he => he.mono fun u hu => (hreach.dangling hu).branch hbranch).bind
        fun c hc => ?_
    have hall := hreach.trans hc.reaches
    exact (hk hall).mono (fun _ h => h) fun e he => he.mono fun u => hall.dangling

/-- **The walk through a flat sequence fails for a dangling reference only.** -/
theorem walkBack_ends {e : Expr} (he : e.Flat) : ∀ {m : LivePoints} {exit : Handle}, m.Sound →
    (∀ u ∈ e.allBindings.map (·.1), u ∈ m.store.sets) → exit ∈ m.store.sets → exit ∈ m.live →
      Ends (walkBack m exit e) (fun a => WalksBack m a.1 a.2) (Dangles m.store e) := by
  induction he with
  | result r =>
    intro m exit hm _ hexit hlive
    exact ⟨.refl hm, hexit, hlive⟩
  | @bind v value body hsimple hbody ih =>
    intro m exit hm hbound hexit hlive
    rw [hsimple.allBindings_letIn, List.map_cons] at hbound
    have hv := hbound v List.mem_cons_self
    rw [walkBack]
    refine ((ih hm (fun u hu => hbound u (List.mem_cons_of_mem _ hu)) hexit hlive).mono
      (fun _ h => h) fun fault h => h.mono fun u hu => hu.letIn_body (.refl hm.store) hv).bind
        fun a ha => ?_
    have hva := ha.reaches.store.mem hv
    refine ((walkSimple_ends hsimple ha.reaches.sound hva ha.first_live ha.first_mem).mono
      (fun _ h => h) fun fault h => h.mono fun u hu => (ha.reaches.dangling hu).letIn_value).bind
        fun m₁ h₁ => ?_
    exact ⟨ha.reaches.trans h₁.1, h₁.1.store.mem hva, h₁.2⟩
  | @cond v c thenBranch elseBranch body ty hthen helse hbody iht ihe ihb =>
    intro m exit hm hbound hexit hlive
    have hthenOf := BranchOf.thenBranch (v := v) (.var c) thenBranch elseBranch ty
    have helseOf := BranchOf.elseBranch (v := v) (.var c) thenBranch elseBranch ty
    rw [Expr.allBindings_cond, List.map_append, List.map_append, List.map_cons] at hbound
    have hv : v ∈ m.store.sets := hbound v (by simp)
    have hthens : ∀ u ∈ thenBranch.allBindings.map (·.1), u ∈ m.store.sets := fun u hu =>
      hbound u (List.mem_append_left _ (List.mem_append_left _ hu))
    have helses : ∀ u ∈ elseBranch.allBindings.map (·.1), u ∈ m.store.sets := fun u hu =>
      hbound u (List.mem_append_left _ (List.mem_append_right _ hu))
    rw [walkBack]
    refine ((ihb hm (fun u hu => hbound u (List.mem_append_right _ (List.mem_cons_of_mem _ hu)))
      hexit hlive).mono (fun _ h => h) fun fault h => h.mono fun u hu =>
        hu.letIn_body (.refl hm.store) hv).bind fun a ha => ?_
    have hva := ha.reaches.store.mem hv
    -- the point of the conditional, then each branch from behind it
    have hvalue : Ends (walkBackBinding a.2 v a.1 (.cond (.var c) thenBranch elseBranch ty))
        (fun m' => Reaches a.2 m' ∧ v ∈ m'.live)
        (Dangles a.2.store (.cond (.var c) thenBranch elseBranch ty)) := by
      rw [walkBackBinding]
      refine (recordCond_ends ha.reaches.sound hva ha.first_live).bind fun m₁ h₁ => ?_
      have hr₁ := ha.reaches.trans h₁.1
      refine (walkBranch_ends (k := fun m => do
          let (elseNext, m) ← m.openBranch v a.1
          let (elseExit, m) ← m.openExit (.elseOf v) elseBranch.result elseNext
          let (_, m) ← walkBack m elseExit elseBranch
          .ok m) hthenOf hthen h₁.1.sound (h₁.1.store.mem hva) (h₁.1.live ha.first_live)
        (fun u hu => hr₁.store.mem (hthens u hu)) iht fun {m₂} h₂ => ?_).mono (fun _ h => h)
        fun fault h => h.mono fun u => h₁.1.dangling
      have hr₂ := h₁.1.trans h₂
      refine walkBranch_ends (k := .ok) helseOf helse h₂.sound (hr₂.store.mem hva)
        (hr₂.live ha.first_live) (fun u hu => (ha.reaches.trans hr₂).store.mem (helses u hu)) ihe
        fun {m₃} h₃ => ?_
      exact ⟨hr₂.trans h₃, (h₂.trans h₃).live h₁.2⟩
    refine (hvalue.mono (fun _ h => h) fun fault h => h.mono fun u hu =>
      (ha.reaches.dangling hu).letIn_value).bind fun m₁ h₁ => ?_
    exact ⟨ha.reaches.trans h₁.1, h₁.1.store.mem hva, h₁.2⟩

/-- **The live sets of a flat body** can be found unless a reference dangles. -/
theorem livePoints_ends {s : Store} {body : Expr} (hs : s.Sound) (hflat : body.Flat)
    (hbound : ∀ u ∈ body.allBindings.map (·.1), u ∈ s.sets) :
    Ends (livePoints s body) (fun m => Store.Extends [] s m.store ∧ m.Sound)
      (Dangles s body) := by
  rw [livePoints]
  have hmint := mints_freshEmpty hs "exit.seed"
  generalize s.freshEmpty "exit.seed" = minted at hmint
  obtain ⟨seed, s₁⟩ := minted
  dsimp only at hmint ⊢
  have hempty : (⟨s₁, ∅, []⟩ : LivePoints).Sound :=
    ⟨hmint.grows.sound, fun h => by simp at h, fun h => by simp at h⟩
  have hseed := LivePoints.extends_setLive hempty (.refl hmint.grows.sound)
    (hmint.grows.sound.lt_next hmint.mem) fun e he => absurd he Std.ExtTreeSet.not_mem_empty
  have hlive := mem_live_of_getElem?
    ((LivePoints.getElem?_setLive ⟨s₁, ∅, []⟩ seed seed ∅).trans (if_pos rfl))
  obtain ⟨r, hr, hmem⟩ := hflat.exists_result
  refine ((openExit_ends hseed.sound hr hlive).mono (fun _ h => h) fun e he => ?_).bind
    fun a ha => ?_
  · refine ⟨r, ⟨hmem.resolve_right fun hmem => ?_, fun hmem => he.1 (hmint.grows.mem hmem)⟩, he.2⟩
    exact he.1 (hmint.grows.mem (hbound r hmem))
  · have hext := hmint.grows.trans_minting ha.1.store
    refine ((walkBack_ends hflat ha.1.sound (fun u hu => hext.mem (hbound u hu)) ha.2.1 ha.2.2).mono
      (fun _ h => h) fun e he => he.mono fun u hu => hu.of_keeps hext.keeps).bind fun b hb => ?_
    exact ⟨hext.trans_minting hb.reaches.store, hb.reaches.sound⟩

end Walk

/-! ### Validation -/

section Validation

variable {s : Store} {w u : Validation} {d : Demand}

/-- Every leaf is in a class. -/
structure Complete (s : Store) (w : Validation) : Prop where
  ranked : w.forest.Ranked
  isRootOf {e : Handle} : s.isLeaf e = true → ∃ r, w.forest.IsRootOf e r

theorem Complete.contains (h : Complete s w) {e : Handle} (he : s.isLeaf e = true) :
    w.forest.contains e = true := by
  obtain ⟨r, hr⟩ := h.isRootOf he
  exact Std.ExtTreeMap.mem_iff_contains.1 hr.mem

/-- Leaves are in classes from the start. -/
theorem complete_start (s : Store) (live : Std.ExtTreeMap Handle HandleSet) :
    Complete s (.start s live) := by
  obtain ⟨hranked, hroots⟩ := Forest.foldl_insert_spec s.leaves Forest.ranked_empty
    fun j r h => absurd h Forest.not_isRootOf_empty
  exact ⟨hranked, fun {e} he => ⟨e, (hroots e e).2 ⟨rfl, Or.inr (mem_leaves.2 he)⟩⟩⟩

/-- No leaf drops out of its class. -/
theorem Taken.complete (h : Taken s w d u) (hw : Complete s w) : Complete s u := by
  cases h with
  | skipped _ => exact hw
  | met _ hg hroots _ =>
    exact ⟨hg, fun he => (hw.isRootOf he).imp fun r hr => (hroots _ r).2 hr⟩
  | refused _ _ hg hroots =>
    exact ⟨hg, fun he => (hw.isRootOf he).imp fun r hr => (hroots _ r).2 hr⟩
  | accepted _ _ _ _ _ hg hjoin _ =>
    refine ⟨hg, fun {e} he => ?_⟩
    obtain ⟨r, hr⟩ := hw.isRootOf he
    exact ⟨_, (hjoin e _).2 ⟨r, hr, rfl⟩⟩

/-- Sets consist of leaves. -/
def LeavesOnly (s : Store) : Prop := ∀ ⦃v e : Handle⦄, e ∈ s.setOf v → s.isLeaf e = true

theorem leavesOnly_of_sound (hs : s.Sound) : LeavesOnly s := fun _ _ hmem =>
  decide_eq_true (hs.leaf hmem).2

/-- The identity that counts for a side is a leaf. -/
theorem isLeaf_of_smallest? (hs : LeavesOnly s) {v a : Handle}
    (h : smallest? (s.setOf v) = some a) : s.isLeaf a = true :=
  hs (Std.ExtTreeSet.mem_toList.1 (List.mem_of_head? h))

/-- Two roots can always be joined. -/
theorem exists_joinRoots_ok {a b ra rb : Handle} (hw : w.forest.Ranked)
    (ha : w.forest.IsRootOf a ra) (hb : w.forest.IsRootOf b rb) :
    ∃ u, Validation.joinRoots vars s w d ra rb = .ok u := by
  rw [Validation.joinRoots]
  split
  · obtain ⟨root, g, hunion, _⟩ := Forest.union_spec hw ha.self hb.self
    rw [hunion]
    exact ⟨_, rfl⟩
  · exact ⟨_, rfl⟩

/-- **A demand can be taken** unless a side of it is not bound. -/
theorem take_ends (hs : LeavesOnly s) (hw : Complete s w) :
    Ends (Validation.take vars s w d) (Complete s) fun e =>
      (d.out ∉ s.sets ∧ e = .unbound d.out) ∨ d.input ∉ s.sets ∧ e = .unbound d.input := by
  have hends : Ends (Validation.take vars s w d) (fun _ => True) fun e =>
      (d.out ∉ s.sets ∧ e = .unbound d.out) ∨ d.input ∉ s.sets ∧ e = .unbound d.input := by
    rw [Validation.take]
    refine ((identities_ends s d.out).mono (fun _ h => h) fun _ => Or.inl).bind fun outs houts => ?_
    obtain ⟨_, rfl⟩ := houts
    split
    · exact trivial
    rename_i a ha
    refine ((identities_ends s d.input).mono (fun _ h => h) fun _ => Or.inr).bind
      fun inputs hinputs => ?_
    obtain ⟨_, rfl⟩ := hinputs
    split
    · exact trivial
    rename_i b hb
    obtain ⟨ra, hra⟩ := hw.isRootOf (isLeaf_of_smallest? hs ha)
    obtain ⟨rb, hrb⟩ := hw.isRootOf (isLeaf_of_smallest? hs hb)
    obtain ⟨f₁, hfind₁, hf₁, hroots₁⟩ := Forest.find_spec hw.ranked hra
    obtain ⟨f₂, hfind₂, hf₂, hroots₂⟩ := Forest.find_spec hf₁ ((hroots₁ b rb).2 hrb)
    simp only [hfind₁, hfind₂]
    split
    · exact trivial
    · have ha₂ : f₂.IsRootOf a ra := (hroots₂ a ra).2 ((hroots₁ a ra).2 hra)
      have hb₂ : f₂.IsRootOf b rb := (hroots₂ b rb).2 ((hroots₁ b rb).2 hrb)
      obtain ⟨u, hu⟩ : ∃ u, Validation.joinRoots vars s { w with forest := f₂ } d ra rb = .ok u :=
        exists_joinRoots_ok hf₂ ha₂ hb₂
      rw [hu]
      exact trivial
  exact hends.with_ok fun u hu _ => (take_spec hw.ranked hu).complete hw

/-- **The demands can be validated** unless a side of one is not bound. -/
theorem validate_ends (hs : LeavesOnly s) (live : Std.ExtTreeMap Handle HandleSet)
    (ds : List Demand) :
    Ends (validate vars s live ds) (Complete s) fun e =>
      ∃ d ∈ ds, (d.out ∉ s.sets ∧ e = .unbound d.out) ∨
        d.input ∉ s.sets ∧ e = .unbound d.input := by
  have hfold : ∀ {w : Validation}, Complete s w →
      Ends (ds.foldlM (Validation.take vars s) w) (Complete s) fun e =>
        ∃ d ∈ ds, (d.out ∉ s.sets ∧ e = .unbound d.out) ∨
          d.input ∉ s.sets ∧ e = .unbound d.input := by
    induction ds with
    | nil => exact fun hw => hw
    | cons d ds ih =>
      intro w hw
      rw [List.foldlM_cons]
      refine ((take_ends hs hw).mono (fun _ h => h) fun e he => ?_).bind fun u hu => ?_
      · exact ⟨d, List.mem_cons_self, he⟩
      · refine (ih hu).mono (fun _ h => h) fun e he => ?_
        obtain ⟨d', hd', h⟩ := he
        exact ⟨d', List.mem_cons_of_mem _ hd', h⟩
  exact hfold (complete_start s live)

end Validation

end Analysis
end TensorLiveness
