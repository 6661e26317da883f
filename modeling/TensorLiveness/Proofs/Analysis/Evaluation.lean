/-
# The identities as an evaluation of the program

Propagation evaluates a program without its buffers: `valueOf?` gives the value tree of a bound
expression by those of the variables in it, and parameters, calls and conditionals get trees made
for their types out of new leaves.

| statement | about |
| --- | --- |
| `bindParameters_makes` | the trees of parameters |
| `propagate_makes` | the trees of calls and conditionals |
| `exists_mirrors` | every variable shows some tree, by induction on the variable |
| `valueOf?_of_denotes` | the trees of all other variables are those that `valueOf?` gives |
| `Evaluated.evaluation` | the trees that the store shows are an `Evaluation` |
| `Evaluation.field_eq` | a projection yields the field that the tuple was built with |

A handle shows one tree only, so the trees that the store shows are an assignment.
`exists_evaluation` says all this of a program that could be read.
-/

import TensorLiveness.Proofs.Analysis.Faults.Run
import TensorLiveness.Proofs.Identity.ValueTree
import TensorLiveness.Proofs.Program.Typing

namespace TensorLiveness
namespace Analysis

open Identity Program Store ValueTree

variable {vars : BinderTable}

/-! ### New trees -/

/-- The store shows at `v` a tree made for the type `ty` out of ascending leaves. -/
def MadeAt (s : Store) (ty : Ty) (v : Handle) : Prop :=
  ∃ x es, Made ty x es ∧ es.Pairwise (· < ·) ∧ Mirrors s x v

theorem MadeAt.extends {s t : Store} {vs : List Handle} {ty : Ty} {v : Handle}
    (h : MadeAt s ty v) (hs : s.Sound) (hext : Extends vs s t) : MadeAt t ty v := by
  obtain ⟨x, es, hmade, hascending, hx⟩ := h
  exact ⟨x, es, hmade, hascending, hx.extends hs hext⟩

/-- A handle like another shows a tree like the other. -/
theorem MadeAt.congr {s : Store} {ty : Ty} {v u : Handle} (h : MadeAt s ty u) (hv : v ∈ s.sets)
    (hset : s.setOf v = s.setOf u) (hrecord : s.records[v]? = s.records[u]?) : MadeAt s ty v := by
  obtain ⟨x, es, hmade, hascending, hx⟩ := h
  exact ⟨x, es, hmade, hascending, hx.congr hv hset hrecord⟩

section Parameters

variable {s t : Store} {v : Handle}

theorem leavesForFields_makes {name : String} {whole : Ty} : ∀ (tys : List Ty) {s t : Store}
    {i : Nat} {vs : List Handle}, s.Sound → leavesForFields name whole s i tys = .ok (vs, t) →
      ∃ slots es, MadeAll tys slots es ∧ MintedBetween s t es ∧
        MirrorsAll t slots (vs.map some) := by
  intro tys
  induction tys with
  | nil =>
    intro s t i vs _ h
    obtain ⟨rfl, rfl⟩ := Prod.mk.inj (Except.ok.inj h)
    exact ⟨[], [], .nil, .nil _ _, .nil⟩
  | cons ty tys ih =>
    intro s t i vs hs h
    cases ty with
    | tensor =>
      obtain ⟨⟨ws, t'⟩, hrest, h⟩ := bind_eq_ok.1 h
      obtain ⟨rfl, rfl⟩ := Prod.mk.inj (Except.ok.inj h)
      have hmint := mints_freshLeaf hs (name ++ "." ++ toString i)
      obtain ⟨hgrow, _⟩ := leavesForFields_spec tys hmint.grows.sound hrest
      obtain ⟨slots, es, hmade, hminted, hall⟩ := ih hmint.grows.sound hrest
      exact ⟨_, _, .cons (.tensor _) hmade,
        hmint.mintedBetween.append hminted hmint.grows.next_le hgrow.next_le,
        .tracked (hmint.mirrors.extends hmint.grows.sound hgrow) hall⟩
    | func => cases h
    | tuple fields => cases h
    | other name => cases h

/-- **A parameter gets a tree made for its type,** of leaves that are new. -/
theorem bindParameter_makes (hs : s.Sound) (hv : v ∉ s.sets) (hlt : v < s.firstMinted)
    (h : bindParameter vars s v = .ok t) : ∃ ty x es, vars.ty? v = some ty ∧ Made ty x es ∧
      MintedBetween s t es ∧ Mirrors t x v := by
  have hext := bindParameter_spec hs hv hlt h
  unfold bindParameter at h
  dsimp only at h
  split at h
  · cases h
  · rename_i hty
    have hmint := mints_freshLeaf hs ((vars.name? v).getD "param")
    obtain ⟨hlater, hset, hrecord⟩ := bindMinted_spec (p := ⟨s, []⟩) (q := ⟨t, []⟩) hs hmint.grows
      hv hlt (bind_eq_ok.2 ⟨t, h, rfl⟩)
    have hleaf := hmint.mirrors.extends hmint.grows.sound hlater
    refine ⟨.tensor, _, _, hty, .tensor _, hmint.mintedBetween.mono hlater.next_le,
      hleaf.congr (hext.bound List.mem_cons_self) ?_ ?_⟩
    · exact hset.trans (hlater.setOf_eq hmint.mem).symm
    · exact hrecord.trans (hlater.records hmint.mem).symm
  · rename_i tys hty
    obtain ⟨⟨vs, s₁⟩, hleaves, h⟩ := bind_eq_ok.1 h
    obtain ⟨⟨m, s₂⟩, hunion, h⟩ := bind_eq_ok.1 h
    obtain ⟨s₃, hbind, h⟩ := bind_eq_ok.1 h
    obtain rfl := Except.ok.inj h
    obtain ⟨hext₁, hmem⟩ := leavesForFields_spec tys hs hleaves
    obtain ⟨slots, es, hmade, hminted, hall⟩ := leavesForFields_makes tys hs hleaves
    obtain ⟨set, hmint, hbound, hset⟩ := mints_freshUnionOf hext₁.sound hunion
    have hext₂ := hext₁.trans_minting hmint.grows
    obtain ⟨hlater, hset₃, _⟩ := bindMinted_spec (p := ⟨s₂, []⟩) (q := ⟨s₃, []⟩)
      (m := (m, s₂)) hs hext₂ hv hlt (bind_eq_ok.2 ⟨s₃, hbind, rfl⟩)
    have hext₃ := hmint.grows.trans_minting hlater
    have hsome : ∀ u, some u ∈ vs.map some ↔ u ∈ vs := fun u => by simp
    have hv₁ := hext₁.not_mem hs hv hlt List.not_mem_nil
    refine ⟨.tuple tys, .tuple slots, es, hty, .tuple hmade, hminted.mono hext₃.next_le,
      mirrors_recordFields hext₁.sound hext₃ hv₁ (hlater.bound List.mem_cons_self) (fun e => ?_)
        (fun u hu => hmem u ((hsome u).1 hu)) hall⟩
    rw [hset₃, hmint.setOf_eq, hset]
    simp only [hsome]
  · cases h

/-- A tree of new leaves is newer than what is bound before. -/
theorem newest_of_mirrors {x : ValueTree} {ty : Ty} {es : List Handle} (hs : s.Sound)
    (hlt : v < s.firstMinted) (hext : Extends [v] s t) (hmade : Made ty x es)
    (hminted : MintedBetween s t es) (hx : Mirrors t x v) : Newest t v := by
  refine newest_of_minted hs hlt hext fun e he => ?_
  rw [hx.setOf_eq, hmade.mem_leaves] at he
  exact hminted.next_le he

/-- **Every parameter gets a tree made for its type,** of leaves that are newer than those before
it. -/
theorem bindParameters_makes : ∀ {params : List Handle} {s t : Store}, s.Sound →
    params.Pairwise (· < ·) → (∀ v ∈ params, v ∉ s.sets ∧ v < s.firstMinted) →
      bindParameters vars s params = .ok t → ∀ v ∈ params,
        (∃ ty, vars.ty? v = some ty ∧ MadeAt t ty v) ∧ Newest t v := by
  intro params
  induction params with
  | nil => exact fun _ _ _ _ v hv => absurd hv List.not_mem_nil
  | cons v params ih =>
    intro s t hs hsorted hnew h
    rw [bindParameters, List.foldlM_cons] at h
    obtain ⟨s₁, h₁, h₂⟩ := bind_eq_ok.1 h
    obtain ⟨hv, hlt⟩ := hnew v List.mem_cons_self
    obtain ⟨hless, hrest⟩ := List.pairwise_cons.1 hsorted
    have hext := bindParameter_spec hs hv hlt h₁
    have hnew' : ∀ u ∈ params, u ∉ s₁.sets ∧ u < s₁.firstMinted := fun u hu => by
      obtain ⟨hu', hult⟩ := hnew u (List.mem_cons_of_mem _ hu)
      refine ⟨hext.not_mem hs hu' hult fun hmem => ?_, hext.firstMinted_eq ▸ hult⟩
      exact Nat.lt_irrefl v (List.mem_singleton.1 hmem ▸ hless u hu)
    intro u hu
    rcases List.mem_cons.1 hu with rfl | hu
    · obtain ⟨ty, x, es, hty, hmade, hminted, hx⟩ := bindParameter_makes hs hv hlt h₁
      have hlater := bindParameters_spec hext.sound (hrest.imp Nat.ne_of_lt) hnew' h₂
      have hmadeAt : MadeAt s₁ ty u := ⟨x, es, hmade, hminted.ascending, hx⟩
      refine ⟨⟨ty, hty, hmadeAt.extends hext.sound hlater⟩, ?_⟩
      exact (newest_of_mirrors hs hlt hext hmade hminted hx).extends hext.sound hlater
        (hext.bound List.mem_cons_self) (hext.firstMinted_eq ▸ hlt) hless
    · exact ih hext.sound hrest hnew' h₂ u hu

end Parameters

section Bindings

variable {p q : Propagation} {v r : Handle} {ty : Ty}

/-- What is bound to what was minted for a type shows a tree made for the type. -/
theorem madeAt_of_like {s t : Store} (hs : s.Sound) (hint : String)
    (hext : Extends [v] (s.freshValue hint ty).2 t)
    (hset : t.setOf v = (s.freshValue hint ty).2.setOf (s.freshValue hint ty).1)
    (hrecord : t.records[v]? = (s.freshValue hint ty).2.records[(s.freshValue hint ty).1]?) :
    MadeAt t ty v := by
  obtain ⟨hgrow, hmem, _⟩ := freshValue_spec ty hint hs
  obtain ⟨x, es, hmade, hminted, hx⟩ := freshValue_makes ty hint hs
  have hmade : MadeAt t ty (s.freshValue hint ty).1 :=
    ⟨x, es, hmade, hminted.ascending, hx.extends hgrow.sound hext⟩
  exact hmade.congr (hext.bound List.mem_cons_self) (hset.trans (hext.setOf_eq hmem).symm)
    (hrecord.trans (hext.records hmem).symm)

/-- The result of a call. -/
theorem bindCall_makes {callee : Expr} {args : List Expr} (hs : p.store.Sound)
    (hv : v ∉ p.store.sets) (hlt : v < p.store.firstMinted)
    (h : propagateBinding vars p v (.call callee args ty) = .ok q) : MadeAt q.store ty v := by
  rw [propagateBinding] at h
  split at h
  · obtain ⟨hgrow, _⟩ := freshValue_spec ty (hintOf vars v) hs
    obtain ⟨hext, hset, hrecord⟩ := bindMinted_spec hs hgrow hv hlt h
    exact madeAt_of_like hs (hintOf vars v) hext hset hrecord
  · cases h

/-- The result of a conditional. -/
theorem bindCond_makes {a b : Handle} (hs : p.store.Sound) (hv : v ∉ p.store.sets)
    (hlt : v < p.store.firstMinted) (h : p.bindCond vars v a b ty = .ok q) :
    MadeAt q.store ty v := by
  have hlike : Extends [v] (p.store.freshValue (hintOf vars v) ty).2 q.store → _ → _ →
    MadeAt q.store ty v := madeAt_of_like hs (hintOf vars v)
  obtain ⟨hgrow, _⟩ := freshValue_spec ty (hintOf vars v) hs
  rw [Propagation.bindCond] at h
  generalize p.store.freshValue (hintOf vars v) ty = value at hlike hgrow h
  obtain ⟨out, s⟩ := value
  obtain ⟨first, _, h⟩ := bind_eq_ok.1 h
  obtain ⟨second, _, h⟩ := bind_eq_ok.1 h
  obtain ⟨t, ht, h⟩ := bind_eq_ok.1 h
  obtain rfl := Except.ok.inj h
  obtain ⟨hext, hset, hrecord⟩ := bindMinted_spec (p := p) (q := p.withStore t)
    (m := (out, s)) hs hgrow hv hlt (bind_eq_ok.2 ⟨t, ht, rfl⟩)
  exact hlike hext hset hrecord

/-- **Calls and conditionals get trees made for the types that they carry.** -/
theorem propagate_makes {e : Expr} (he : e.Flat) : ∀ {p q : Propagation} {r : Handle},
    Ready p.store e → propagate vars p e = .ok (r, q) → ∀ {v value ty},
      (v, value) ∈ e.allBindings → value.resultType? = some ty → MadeAt q.store ty v := by
  induction he with
  | result r => exact fun _ _ _ _ _ hb => absurd hb List.not_mem_nil
  | @bind w x body hsimple hbody ih =>
    intro p q r hready h v value ty hb hty
    obtain ⟨p₁, h₁, h₂⟩ := bind_eq_ok.1 h
    have hw := hready.not_mem Ready.binder_mem
    have hlt := hready.lt_firstMinted Ready.binder_mem
    obtain ⟨hext, _⟩ := propagateSimple_spec hsimple hready.sound hw hlt h₁
    have hbody' := hready.body_part hext (fun u hu => Nat.le_of_eq (List.mem_singleton.1 hu))
      List.mem_cons_self
    rw [hsimple.allBindings_letIn] at hb
    rcases List.mem_cons.1 hb with heq | hb
    · obtain ⟨rfl, rfl⟩ := Prod.mk.inj heq
      cases hsimple with
      | call name ty' _ =>
        obtain rfl := Option.some.inj hty
        exact (bindCall_makes hready.sound hw hlt h₁).extends hext.sound
          (propagate_spec hbody hbody' h₂).grows
      | _ => cases hty
    · exact ih hbody' h₂ hb hty
  | @cond w c thenBranch elseBranch body ty' hthen helse hbody iht ihe ihb =>
    intro p q r hready h v value ty hb hty
    obtain ⟨p₃, h₃, h₄⟩ := bind_eq_ok.1 h
    obtain ⟨⟨a, p₁⟩, h₁, h₃⟩ := bind_eq_ok.1 h₃
    obtain ⟨⟨b, p₂⟩, h₂, h₃⟩ := bind_eq_ok.1 h₃
    have hthens := fun u hu => hthen.map_fst_allBindings_sublist.subset (a := u) hu
    have helses := fun u hu => helse.map_fst_allBindings_sublist.subset (a := u) hu
    have hfirst := propagate_spec hthen hready.then_part h₁
    have helse' := hready.else_part hfirst.grows hthens
    have hsecond := propagate_spec helse helse' h₂
    have hbind := binds_cond hready hthens helses hfirst hsecond h₃
    have hboth := hfirst.grows.trans hsecond.grows
    obtain ⟨hw, hlt⟩ := hready.behind_branches hboth fun u hu => List.mem_append.2
      ((List.mem_append.1 hu).imp (hthens u) (helses u))
    obtain ⟨hext, _⟩ := bindCond_spec hboth.sound hw hlt (hsecond.grows.mem hfirst.result_mem)
      hsecond.result_mem h₃
    have hbody' := hready.body_part hbind.grows (fun u hu => hbind.le_of_mem hu)
      (List.mem_append_right _ List.mem_cons_self)
    have hrest := (propagate_spec hbody hbody' h₄).grows
    rw [Expr.allBindings_cond, List.mem_append, List.mem_append] at hb
    rcases hb with (hb | hb) | hb
    · have hmade := iht hready.then_part h₁ hb hty
      exact (hmade.extends hfirst.grows.sound (hsecond.grows.trans hext)).extends hext.sound hrest
    · have hmade := ihe helse' h₂ hb hty
      exact (hmade.extends hsecond.grows.sound hext).extends hext.sound hrest
    · rcases List.mem_cons.1 hb with heq | hb
      · obtain ⟨rfl, rfl⟩ := Prod.mk.inj heq
        obtain rfl := Option.some.inj hty
        exact (bindCond_makes hboth.sound hw hlt h₃).extends hext.sound hrest
      · exact ihb hbody' h₄ hb hty

end Bindings

/-! ### All trees -/

/-- All buffers of the values of some variables. -/
def leavesOf (value : Handle → ValueTree) (us : List Handle) : HandleSet :=
  us.foldr (fun u set => (value u).leaves ∪ set) ∅

theorem mem_leavesOf {value : Handle → ValueTree} {us : List Handle} {e : Handle} :
    e ∈ leavesOf value us ↔ ∃ u ∈ us, e ∈ (value u).leaves := by
  induction us with
  | nil => exact iff_of_false Std.ExtTreeSet.not_mem_empty fun ⟨_, hu, _⟩ => nomatch hu
  | cons u us ih =>
    rw [leavesOf, List.foldr_cons, Std.ExtTreeSet.mem_union_iff, ← leavesOf, ih]
    simp

/-- The value of a bound expression, by the values of the variables in it.  The results of calls
and conditionals have buffers of their own. -/
def valueOf? (value : Handle → ValueTree) : Expr → Option ValueTree
  | .var u => some (value u)
  | .const _ | .op _ => some .empty
  | .tuple fields => some (.tuple (fields.map fun field => field.var?.map value))
  | .get (.var u) index =>
    match value u with
    | .tuple slots => slots[index]?.map fun slot => slot.getD .empty
    | .buffers _ => none
  | .closure params body => some (.buffers (leavesOf value (Expr.closure params body).occurrences))
  | _ => none

section Mirrored

variable {p : Propagation} {v : Handle} {x : Expr} {value : Handle → ValueTree}

/-- **The tree of a variable is the value of what is bound to it.** -/
theorem valueOf?_of_denotes (hs : p.store.Sound) (hd : Denotes p v x) (hx : x.Ascending)
    (hvalue : ∀ u, u = v ∨ u ∈ x.occurrences ∧ u ∈ p.store.sets → Mirrors p.store (value u) u)
    (hmade : x.isMade = false) : valueOf? value x = some (value v) := by
  have hv := hvalue v (Or.inl rfl)
  have hmem := hv.mem hs
  cases hd with
  | @var u hu hset hrecord =>
    have hu := hvalue u (Or.inr ⟨List.mem_cons_self, hu⟩)
    exact congrArg some ((hu.congr hmem hset hrecord).unique hv)
  | const c hset hrecord => exact congrArg some ((hset ▸ Mirrors.buffers hmem hrecord).unique hv)
  | op name hset hrecord => exact congrArg some ((hset ▸ Mirrors.buffers hmem hrecord).unique hv)
  | @closure params body hbound hset hrecord =>
    have hfree : ∀ u, u ∈ body.freeVarsUnder params ↔ u ∈ (Expr.closure params body).occurrences :=
      fun u => Expr.mem_freeVarsUnder hx.uniqueBinders
    have hleaves : p.store.setOf v = leavesOf value (Expr.closure params body).occurrences := by
      ext e
      rw [hset, mem_leavesOf]
      refine exists_congr fun u => ?_
      rw [hfree]
      refine and_congr_right fun hu => ?_
      rw [(hvalue u (Or.inr ⟨hu, hbound u ((hfree u).2 hu)⟩)).setOf_eq]
    exact congrArg some ((hleaves ▸ Mirrors.buffers hmem hrecord).unique hv)
  | call _ => cases hmade
  | @tuple fields hbound hset hrecord =>
    have hall : MirrorsAll p.store (fields.map fun field => field.var?.map value)
        (fields.map Expr.var?) := by
      have hfields : ∀ u, some u ∈ fields.map Expr.var? → Mirrors p.store (value u) u :=
        fun u hu => hvalue u (Or.inr ⟨mem_occurrencesAll_of_mem_map hu, hbound u hu⟩)
      have hmap := mirrorsAll_of_forall hfields
      rwa [List.map_map] at hmap
    refine congrArg some ((Mirrors.tuple ?_ hrecord hall).unique hv)
    ext e
    rw [hset, hall.mem_leavesAll]
  | @field u index w fields hfields hindex hset hrecord =>
    have hu := hvalue u (Or.inr ⟨List.mem_cons_self, hs.recorded hfields⟩)
    obtain ⟨slots, hslots, hall⟩ := hu.exists_slots hfields
    obtain ⟨y, hy, hw⟩ := hall.tracked_at hindex
    simp only [valueOf?, hslots, hy, Option.map_some, Option.getD_some]
    exact congrArg some ((hw.congr hmem hset hrecord).unique hv)
  | @untracked u index fields hfields hindex hset hrecord =>
    have hu := hvalue u (Or.inr ⟨List.mem_cons_self, hs.recorded hfields⟩)
    obtain ⟨slots, hslots, hall⟩ := hu.exists_slots hfields
    simp only [valueOf?, hslots, hall.untracked_at hindex, Option.map_some, Option.getD_none]
    exact congrArg some ((hset ▸ Mirrors.buffers hmem hrecord).unique hv)
  | cond _ _ _ _ _ => cases hmade

end Mirrored

/-- What propagation finds of a resolved function in the form that it is made for. -/
structure Evaluated (vars : BinderTable) (f : Function) (p : Propagation) : Prop where
  resolved : f.Scoped vars.size
  flat : f.body.Flat
  grows : Store.Extends (f.params ++ f.body.allBindings.map (·.1)) (.empty vars.size) p.store
  denotes {v : Handle} {x : Expr} : (v, x) ∈ f.body.allBindings → Denotes p v x
  param {v : Handle} : v ∈ f.params →
    (∃ ty, vars.ty? v = some ty ∧ MadeAt p.store ty v) ∧ Newest p.store v
  made {v : Handle} {x : Expr} {ty : Ty} : (v, x) ∈ f.body.allBindings →
    x.resultType? = some ty → MadeAt p.store ty v

theorem evaluated_of_ok {f : Function} {s : Store} {p : Propagation} {r : Handle}
    (hscoped : f.Scoped vars.size) (hform : formErrors vars f = [])
    (hparams : bindParameters vars (.empty vars.size) f.params = .ok s)
    (hpropagate : propagate vars ⟨s, []⟩ f.body = .ok (r, p)) : Evaluated vars f p := by
  have hflat := flat_of_formErrors_eq_nil hform
  obtain ⟨hstart, hready⟩ := ready_of_bindParameters hscoped hparams
  have hprop := propagate_spec hflat hready hpropagate
  obtain ⟨hsorted, _, hcross⟩ := List.pairwise_append.1 hscoped.sorted
  refine ⟨hscoped, hflat, hstart.trans hprop.grows, hprop.denotes, fun {v} hv => ?_,
    fun hb hty => propagate_makes hflat hready hpropagate hb hty⟩
  obtain ⟨⟨ty, hty, hmade⟩, hnewest⟩ := bindParameters_makes (sound_empty vars.size) hsorted
    (fun u hu => ⟨sets_empty, hscoped.lt_size (List.mem_append_left _ hu)⟩) hparams v hv
  refine ⟨⟨ty, hty, hmade.extends hstart.sound hprop.grows⟩, ?_⟩
  refine hnewest.extends hstart.sound hprop.grows (hstart.bound hv) ?_ fun u hu => ?_
  · rw [hstart.firstMinted_eq]
    exact hscoped.lt_size (List.mem_append_left _ hv)
  · exact hcross v hv u (hflat.map_fst_allBindings_sublist.subset hu)

namespace Evaluated

variable {f : Function} {p : Propagation} {v u : Handle} {x : Expr}

/-- What occurs free in a value and is bound is a parameter or a binder before it. -/
theorem mem_of_occurs (h : Evaluated vars f p) (hb : (v, x) ∈ f.body.allBindings)
    (hu : u ∈ x.occurrences) (hmem : u ∈ p.store.sets) :
    u < v ∧ u ∈ f.params ++ f.body.allBindings.map (·.1) := by
  have hv : v ∈ f.body.allBindings.map (·.1) := List.mem_map_of_mem (f := (·.1)) hb
  have hlt := (h.flat.ascending_of_mem h.resolved.ascending hb).2 u hu
  refine ⟨hlt, ?_⟩
  rcases h.grows.only hmem with hempty | hbound | hle
  · exact absurd hempty sets_empty
  · exact hbound
  · have hsize := h.resolved.lt_size
      (List.mem_append_right _ (h.flat.map_fst_allBindings_sublist.subset hv))
    exact absurd (Nat.lt_of_le_of_lt hle hlt) (Nat.lt_asymm hsize)

/-- **Every variable shows a tree.** -/
theorem exists_mirrors (h : Evaluated vars f p) :
    ∀ v, v ∈ f.params ++ f.body.allBindings.map (·.1) → ∃ value, Mirrors p.store value v := by
  intro v
  -- what a value mentions is bound earlier, and closures show the buffers alone
  induction v using Nat.strong_induction_on with
  | _ v ih =>
    intro hv
    have hmem := h.grows.bound hv
    rcases List.mem_append.1 hv with hparam | hbound
    · obtain ⟨⟨_, _, value, _, _, _, hvalue⟩, _⟩ := h.param hparam
      exact ⟨value, hvalue⟩
    obtain ⟨⟨w, x⟩, hb, rfl⟩ := List.mem_map.1 hbound
    have hearlier : ∀ u ∈ x.occurrences, u ∈ p.store.sets → ∃ value, Mirrors p.store value u :=
      fun u hu hmem => by
        obtain ⟨hlt, hvs⟩ := h.mem_of_occurs hb hu hmem
        exact ih u hlt hvs
    cases h.denotes hb with
    | @var u hu hset hrecord =>
      obtain ⟨value, hvalue⟩ := hearlier u List.mem_cons_self hu
      exact ⟨value, hvalue.congr hmem hset hrecord⟩
    | const _ _ hrecord | op _ _ hrecord | closure _ _ hrecord =>
      exact ⟨_, .buffers hmem hrecord⟩
    | call _ =>
      obtain ⟨value, _, _, _, hvalue⟩ := h.made hb rfl
      exact ⟨value, hvalue⟩
    | @tuple fields hfields hset hrecord =>
      have hvalues : ∀ u, ∃ value, some u ∈ fields.map Expr.var? → Mirrors p.store value u :=
        fun u => by
          by_cases hu : some u ∈ fields.map Expr.var?
          · obtain ⟨value, hvalue⟩ := hearlier u (mem_occurrencesAll_of_mem_map hu) (hfields u hu)
            exact ⟨value, fun _ => hvalue⟩
          · exact ⟨.empty, fun h => absurd h hu⟩
      choose value hvalue using hvalues
      have hall := mirrorsAll_of_forall hvalue
      refine ⟨_, .tuple ?_ hrecord hall⟩
      ext e
      rw [hset, hall.mem_leavesAll]
    | @field u index w fields hfields hindex hset hrecord =>
      obtain ⟨value, hu⟩ := hearlier u List.mem_cons_self (h.grows.sound.recorded hfields)
      obtain ⟨slots, _, hall⟩ := hu.exists_slots hfields
      obtain ⟨y, _, hw⟩ := hall.tracked_at hindex
      exact ⟨y, hw.congr hmem hset hrecord⟩
    | untracked _ _ _ hrecord => exact ⟨_, .buffers hmem hrecord⟩
    | cond _ _ _ _ _ =>
      obtain ⟨value, _, _, _, hvalue⟩ := h.made hb rfl
      exact ⟨value, hvalue⟩

end Evaluated

/-! ### The assignment -/

/-- `v` is a parameter, or bound to a call or a conditional. -/
def Originates (f : Function) (v : Handle) : Prop :=
  v ∈ f.params ∨ ∃ x, (v, x) ∈ f.body.allBindings ∧ x.isMade = true

/-- The trees `value` of the variables of a function are what the program evaluates to, and the
store `s` shows them. -/
structure Evaluation (vars : BinderTable) (f : Function) (s : Store) (value : Handle → ValueTree) :
    Prop where
  /-- The set of a variable holds the buffers of its tree, and its record shows the tree. -/
  shown {v : Handle} : v ∈ f.params ++ f.body.allBindings.map (·.1) →
    s.sets[v]? = some (value v).leaves ∧ Mirrors s (value v) v
  /-- Parameters, calls and conditionals have trees made for their types out of leaves. -/
  made {v : Handle} : Originates f v → ∃ ty es, vars.ty? v = some ty ∧ Made ty (value v) es ∧
    es.Nodup ∧ ∀ e ∈ es, s.Leaf e
  /-- Their leaves are in no tree of an earlier variable. -/
  fresh {u v : Handle} : Originates f v → u ∈ f.params ++ f.body.allBindings.map (·.1) → u < v →
    ∀ e ∈ (value v).leaves, e ∉ (value u).leaves
  /-- No two of them have a leaf in common. -/
  apart {v w : Handle} : Originates f v → Originates f w → v ≠ w → ∀ e ∈ (value v).leaves,
    e ∉ (value w).leaves
  /-- All other variables have the values of what is bound to them. -/
  valued {v : Handle} {x : Expr} : (v, x) ∈ f.body.allBindings → x.isMade = false →
    valueOf? value x = some (value v)

theorem Originates.mem {f : Function} {v : Handle} (h : Originates f v) :
    v ∈ f.params ++ f.body.allBindings.map (·.1) := by
  rcases h with h | ⟨x, hb, _⟩
  · exact List.mem_append_left _ h
  · exact List.mem_append_right _ (List.mem_map_of_mem (f := (·.1)) hb)

theorem exists_resultType? {x : Expr} (h : x.isMade = true) : ∃ ty, x.resultType? = some ty := by
  cases x <;> first | exact ⟨_, rfl⟩ | cases h

namespace Evaluated

variable {f : Function} {p : Propagation} {v : Handle}

theorem newest (h : Evaluated vars f p) (hv : Originates f v) : Newest p.store v := by
  rcases hv with hv | ⟨x, hb, hmade⟩
  · exact (h.param hv).2
  · have hd := h.denotes hb
    cases x with
    | call callee args ty =>
      cases hd with
      | call hnewest => exact hnewest
    | cond test thenBranch elseBranch ty =>
      cases hd with
      | cond hnewest _ _ _ _ => exact hnewest
    | _ => cases hmade

/-- What originates at a variable is made for its type, when calls and conditionals carry the
types of their binders. -/
theorem madeAt (h : Evaluated vars f p) (hv : Originates f v)
    (htypes : ∀ {v x ty}, (v, x) ∈ f.body.allBindings → x.resultType? = some ty →
      vars.ty? v = some ty) : ∃ ty, vars.ty? v = some ty ∧ MadeAt p.store ty v := by
  rcases hv with hv | ⟨x, hb, hmade⟩
  · exact (h.param hv).1
  · obtain ⟨ty, hty⟩ := exists_resultType? hmade
    exact ⟨ty, htypes hb hty, h.made hb hty⟩

/-- The trees that the store shows, as an assignment. -/
theorem exists_assignment (h : Evaluated vars f p) : ∃ value : Handle → ValueTree,
    ∀ v ∈ f.params ++ f.body.allBindings.map (·.1), Mirrors p.store (value v) v := by
  have hsome : ∀ v, ∃ value, v ∈ f.params ++ f.body.allBindings.map (·.1) →
      Mirrors p.store value v := fun v => by
    by_cases hv : v ∈ f.params ++ f.body.allBindings.map (·.1)
    · obtain ⟨value, hvalue⟩ := h.exists_mirrors v hv
      exact ⟨value, fun _ => hvalue⟩
    · exact ⟨.empty, fun hmem => absurd hmem hv⟩
  choose value hvalue using hsome
  exact ⟨value, hvalue⟩

/-- **The trees that the store shows are an evaluation,** when calls and conditionals carry the
types of their binders. -/
theorem evaluation (h : Evaluated vars f p)
    (htypes : ∀ {v x ty}, (v, x) ∈ f.body.allBindings → x.resultType? = some ty →
      vars.ty? v = some ty) {value : Handle → ValueTree}
    (hvalue : ∀ v ∈ f.params ++ f.body.allBindings.map (·.1), Mirrors p.store (value v) v) :
    Evaluation vars f p.store value := by
  have hsound := h.grows.sound
  have hset : ∀ {v}, v ∈ f.params ++ f.body.allBindings.map (·.1) →
      p.store.setOf v = (value v).leaves := fun hv => (hvalue _ hv).setOf_eq
  have hfresh : ∀ {u v}, Originates f v → u ∈ f.params ++ f.body.allBindings.map (·.1) → u < v →
      ∀ e ∈ (value v).leaves, e ∉ (value u).leaves := by
    intro u v hv hu huv e he he'
    rw [← hset hv.mem] at he
    rw [← hset hu] at he'
    exact Nat.lt_irrefl e (h.newest hv huv he' he)
  refine ⟨fun {v} hv => ?_, fun {v} hv => ?_, hfresh, fun {v w} hv hw hne e he he' => ?_,
    fun {v x} hb hmade => ?_⟩
  · refine ⟨?_, hvalue v hv⟩
    rw [← hset hv]
    exact getElem?_of_mem (h.grows.bound hv)
  · obtain ⟨ty, hty, x, es, hmade, hascending, hx⟩ := h.madeAt hv htypes
    obtain rfl := hx.unique (hvalue v hv.mem)
    refine ⟨ty, es, hty, hmade, hascending.imp Nat.ne_of_lt, fun e he => ?_⟩
    refine hsound.leaf (v := v) ?_
    rw [hset hv.mem]
    exact hmade.mem_leaves.2 he
  · rcases Nat.lt_or_gt_of_ne hne with hlt | hlt
    · exact hfresh hw hv.mem hlt e he' he
    · exact hfresh hv hw.mem hlt e he he'
  · have hx := (h.flat.ascending_of_mem h.resolved.ascending hb).1
    refine valueOf?_of_denotes hsound (h.denotes hb) hx (fun u hu => ?_) hmade
    rcases hu with rfl | ⟨hu, hmem⟩
    · exact hvalue u (List.mem_append_right _ (List.mem_map_of_mem (f := (·.1)) hb))
    · exact hvalue u (h.mem_of_occurs hb hu hmem).2

end Evaluated

/-- **A projection yields the field that the tuple was built with,** wherever the tuple has been
on the way. -/
theorem Evaluation.field_eq {f : Function} {s : Store} {value : Handle → ValueTree}
    (h : Evaluation vars f s value) {v u t : Handle} {index : Nat} {fields : List Expr}
    {field : Expr} (hget : (v, .get (.var u) index) ∈ f.body.allBindings)
    (htuple : (t, .tuple fields) ∈ f.body.allBindings) (heq : value u = value t)
    (hfield : fields[index]? = some field) : value v = (field.var?.map value).getD .empty := by
  have hv := h.valued hget rfl
  have ht := Option.some.inj (h.valued htuple rfl)
  rw [valueOf?, heq, ← ht] at hv
  simp only [List.getElem?_map, hfield, Option.map_some] at hv
  exact (Option.some.inj hv).symm

/-- **Propagation computes the abstract evaluation of the program.**  Parameters, calls and
conditionals get trees of new leaves shaped by their types; every other variable gets the value of
what is bound to it; and the store shows exactly these trees.  So a projection yields the field
that a tuple was built with and nothing else, whatever aliases, tuples and projections the tuple
has been through on the way. -/
theorem exists_evaluation {source entry : String} {program : Program}
    {warnings : List Diagnostic} {f : Function} {r : Run}
    (hread : readProgram source = .ok (program, warnings))
    (hentry : program.function? entry = some f) (hform : formErrors program.vars f = [])
    (hrun : Run.upTo program.vars f .identities = .ok r) :
    ∃ value, Evaluation program.vars f r.store value ∧
      ∀ {v u t : Handle} {index : Nat} {fields : List Expr} {field : Expr},
        (v, .get (.var u) index) ∈ f.body.allBindings → (t, .tuple fields) ∈ f.body.allBindings →
        value u = value t → fields[index]? = some field →
        value v = (field.var?.map value).getD .empty := by
  obtain ⟨s, result, p, hs, hp, rfl⟩ := (Run.upTo_identities_eq_ok hform).1 hrun
  have h := evaluated_of_ok (readProgram_scoped hread hentry) hform hs hp
  obtain ⟨value, hvalue⟩ := h.exists_assignment
  have hevaluation : Evaluation program.vars f p.store value :=
    h.evaluation (fun hb => ty?_of_resultType? hread hentry hb) hvalue
  exact ⟨value, hevaluation, hevaluation.field_eq⟩

/-- The buffer that the last projection yields is the second one of the conditional's result. -/
theorem exists_evaluation_nested : ∃ r value,
    readProgram nestedSource = .ok (nestedProgram, []) ∧
    Run.upTo nestedProgram.vars nestedFunction .identities = .ok r ∧
    Evaluation nestedProgram.vars nestedFunction r.store value ∧
    r.store.sets[10]? = some (value 10).leaves ∧ value 9 = value 6 := by
  have hentry : nestedProgram.function? "main" = some nestedFunction := rfl
  have hform : formErrors nestedProgram.vars nestedFunction = [] := by decide +kernel
  have hrun : ((Run.upTo nestedProgram.vars nestedFunction .identities).toOption.any fun r =>
      r.status = .valid) = true := by decide +kernel
  obtain ⟨r, hr, _⟩ := exists_ok_of_any hrun
  obtain ⟨value, hvalue, htrip⟩ := exists_evaluation readProgram_nestedSource hentry hform hr
  have htuple : (7, Expr.tuple [.var 6, .const .zero]) ∈ nestedFunction.body.allBindings := by
    simp [nestedFunction, Expr.allBindings, Expr.branchBindings]
  have hcopy : (8, Expr.var 7) ∈ nestedFunction.body.allBindings := by
    simp [nestedFunction, Expr.allBindings, Expr.branchBindings]
  have hget : (9, Expr.get (.var 8) 0) ∈ nestedFunction.body.allBindings := by
    simp [nestedFunction, Expr.allBindings, Expr.branchBindings]
  have halias : value 7 = value 8 := Option.some.inj (hvalue.valued hcopy rfl)
  have hsecond : value 9 = value 6 := htrip hget htuple halias.symm rfl
  exact ⟨r, value, readProgram_nestedSource, hr, hvalue, (hvalue.shown (by decide)).1, hsecond⟩

end Analysis
end TensorLiveness
