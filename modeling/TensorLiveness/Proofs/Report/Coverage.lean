/-
# Reports cover every point

A report goes through the text of a function forwards and shows a point only if there is a live
set for it.  The live sets were found backwards.  Both visit the same points, so no item is left
out:

| list | is |
| --- | --- |
| `textOrder` | each binder and each exit of the body and of all branches, once |
| `pointEntries` | one entry for each place of `textOrder`, in that order |
| points of the document | an item for each entry, which tells its place and scope (`ReportsPoint`) |
| identities of the document | an item for each parameter and each binder (`ReportsBinder`) |

`SequenceOf` names the sequences of a function, the body and the branches of the conditionals in
them; a closure is none of them, and what is bound in one is in no list (`binders_perm`).  The
document is read by its field names (`Json.text?`, `Json.items?`), and what it has to say of a place
or of a sequence is spelt out in `WrittenPlace` and `WrittenScope`.  `Coverage` puts this together,
and `report_covers` says it of every report.
-/

import TensorLiveness.Proofs.Analysis.Equations
import TensorLiveness.Proofs.Analysis.Naming
import TensorLiveness.Proofs.Program.WellFormed
import TensorLiveness.Report.Document

namespace TensorLiveness

namespace Program

/-! ### What is bound in closures -/

/-- The handles that are bound in a value that is a closure. -/
def Expr.insideClosure : Expr → List Handle
  | .closure params body => params ++ body.binders
  | _ => []

/-- The handles that are bound in the closures of a sequence and of its branches. -/
def Expr.closureBinders (e : Expr) : List Handle :=
  e.allBindings.flatMap fun b => b.2.insideClosure

namespace Expr

theorem bindersAll_of_atoms {es : List Expr} (h : ∀ e ∈ es, e.isAtom = true) :
    bindersAll es = [] := by
  induction es with
  | nil => rfl
  | cons e es ih =>
    have he := h e List.mem_cons_self
    rw [bindersAll, ih fun e' he' => h e' (List.mem_cons_of_mem _ he'), List.append_nil]
    cases e with
    | var | const => rfl
    | _ => cases he

/-- A simple value binds nothing, unless it is a closure. -/
theorem Simple.binders_eq {value : Expr} (h : value.Simple) :
    value.binders = value.insideClosure := by
  cases h with
  | call name ty hargs =>
    rw [binders, bindersAll_of_atoms hargs]
    rfl
  | tuple hfields =>
    rw [binders, bindersAll_of_atoms hfields]
    rfl
  | _ => rfl

/-- **Whatever is bound in a flat sequence** is bound by it, by a branch, or in a closure. -/
theorem Flat.binders_perm {e : Expr} (h : e.Flat) :
    e.binders.Perm (e.allBindings.map (·.1) ++ e.closureBinders) := by
  induction h with
  | result r => exact .refl _
  | @bind v value body hvalue _ ih =>
    rw [binders, hvalue.binders_eq, closureBinders, hvalue.allBindings_letIn, List.map_cons,
      List.flatMap_cons, List.cons_append]
    refine List.perm_middle.trans (List.Perm.cons v ((ih.append_left _).trans ?_))
    rw [← List.append_assoc, ← List.append_assoc]
    exact List.perm_append_comm.append_right _
  | @cond v c t f body ty _ _ _ iht ihf ihb =>
    rw [binders, binders, binders, List.nil_append, closureBinders, allBindings_cond]
    refine ((iht.append ihf).append (ihb.cons v)).trans ?_
    rw [List.perm_iff_count]
    intro w
    simp only [closureBinders, insideClosure, List.map_append, List.map_cons, List.flatMap_append,
      List.flatMap_cons, List.nil_append, List.count_append, List.count_cons]
    omega

end Expr

end Program

namespace Analysis

open Identity Program Store

/-! ### Sequences and the order of the text -/

/-- A sequence, and the branches of the conditionals that are bound in it or in such a branch,
each with its scope. -/
inductive SequenceOf (scope : Scope) (e : Expr) : Scope → Expr → Prop
  | whole : SequenceOf scope e scope e
  | branch {outer inner : Scope} {seq taken value : Expr} {z : Handle} :
    SequenceOf scope e outer seq → (z, value) ∈ seq.bindings → BranchOf z value inner taken →
    SequenceOf scope e inner taken

mutual

/-- The places of a sequence in the order of the text, each with the scope around it: a binder,
then its branches, then what comes next, and the exit last. -/
def textOrder (scope : Scope) : Expr → List (Scope × Place)
  | .letIn v value body =>
    (scope, .binding v) :: (textOrderInside v value ++ textOrder scope body)
  | _ => [(scope, .exit scope)]

/-- The places of the then-branch, then those of the else-branch. -/
def textOrderInside (v : Handle) : Expr → List (Scope × Place)
  | .cond _ thenBranch elseBranch _ =>
    textOrder (.thenOf v) thenBranch ++ textOrder (.elseOf v) elseBranch
  | _ => []

end

mutual

/-- Without the scopes these are the places that have live sets. -/
theorem map_snd_textOrder : ∀ (scope : Scope) (e : Expr),
    (textOrder scope e).map (·.2) = places scope e
  | scope, .letIn v value body => by
    rw [textOrder, places, List.map_cons, List.map_append, map_snd_textOrderInside v value,
      map_snd_textOrder scope body]
  | _, .var _ | _, .const _ | _, .op _ | _, .call .. | _, .tuple _ | _, .get .. | _, .cond ..
  | _, .closure .. => rfl

theorem map_snd_textOrderInside : ∀ (v : Handle) (value : Expr),
    (textOrderInside v value).map (·.2) = placesInside v value
  | v, .cond _ thenBranch elseBranch _ => by
    rw [textOrderInside, placesInside, List.map_append, map_snd_textOrder _ thenBranch,
      map_snd_textOrder _ elseBranch]
  | _, .var _ | _, .const _ | _, .op _ | _, .call .. | _, .tuple _ | _, .get .. | _, .letIn ..
  | _, .closure .. => rfl

end

theorem exit_mem_textOrder (scope : Scope) (e : Expr) :
    (scope, Place.exit scope) ∈ textOrder scope e := by
  induction e using Expr.bindings.induct with
  | case1 v value body ih =>
    rw [textOrder]
    exact List.mem_cons_of_mem _ (List.mem_append_right _ ih)
  | case2 e hlet =>
    cases e with
    | letIn v value body => exact absurd rfl (hlet v value body)
    | _ => exact List.mem_singleton.2 rfl

/-- A binding of a sequence and what is inside it come in the order of the sequence. -/
theorem binding_subset_textOrder (scope : Scope) {v : Handle} {value e : Expr}
    (h : (v, value) ∈ e.bindings) :
    (scope, Place.binding v) :: textOrderInside v value ⊆ textOrder scope e := by
  induction e using Expr.bindings.induct with
  | case1 w x body ih =>
    rw [textOrder, ← List.cons_append]
    rcases List.mem_cons.1 h with heq | h
    · obtain ⟨rfl, rfl⟩ := Prod.mk.inj heq
      exact List.subset_append_left _ _
    · exact fun _ hx => List.mem_append_right _ (ih h hx)
  | case2 e hlet =>
    cases e with
    | letIn w x body => exact absurd rfl (hlet w x body)
    | _ => cases h

theorem bindings_subset_allBindings (e : Expr) : e.bindings ⊆ e.allBindings := by
  induction e using Expr.bindings.induct with
  | case1 v value body ih =>
    intro b hb
    rcases List.mem_cons.1 hb with rfl | hb
    · exact Expr.binding_mem_allBindings
    · exact Expr.mem_allBindings_of_body (ih hb)
  | case2 e hlet =>
    cases e with
    | letIn v value body => exact absurd rfl (hlet v value body)
    | _ => exact List.nil_subset _

/-- What is bound in the branches of a binding is bound in the sequence of the binding. -/
theorem branchBindings_subset {v : Handle} {value e : Expr} (h : (v, value) ∈ e.bindings) :
    value.branchBindings ⊆ e.allBindings := by
  induction e using Expr.bindings.induct with
  | case1 w x body ih =>
    rcases List.mem_cons.1 h with heq | h
    · obtain ⟨rfl, rfl⟩ := Prod.mk.inj heq
      exact fun _ hb => Expr.mem_allBindings_of_inside hb
    · exact fun _ hb => Expr.mem_allBindings_of_body (ih h hb)
  | case2 e hlet =>
    cases e with
    | letIn w x body => exact absurd rfl (hlet w x body)
    | _ => cases h

namespace SequenceOf

variable {scope outer : Scope} {e seq : Expr}

theorem allBindings_subset (h : SequenceOf scope e outer seq) :
    seq.allBindings ⊆ e.allBindings := by
  induction h with
  | whole => exact List.Subset.refl _
  | branch _ hz hbranch ih =>
    exact fun _ hb => ih (branchBindings_subset hz (hbranch.branchBindings hb))

theorem textOrder_subset (h : SequenceOf scope e outer seq) :
    textOrder outer seq ⊆ textOrder scope e := by
  induction h with
  | whole => exact List.Subset.refl _
  | @branch outer inner seq taken value z _ hz hbranch ih =>
    have hinside : textOrder inner taken ⊆ textOrderInside z value := by
      cases hbranch with
      | thenBranch => exact List.subset_append_left _ _
      | elseBranch => exact List.subset_append_right _ _
    have hbinding := binding_subset_textOrder outer hz
    exact fun _ hx => ih (hbinding (List.mem_cons_of_mem _ (hinside hx)))

/-- What is bound in a closure of a sequence is bound in a closure of the whole. -/
theorem mem_closureBinders {v w : Handle} {params : List Handle} {body : Expr}
    (h : SequenceOf scope e outer seq) (hv : (v, .closure params body) ∈ seq.bindings)
    (hw : w ∈ params ++ body.binders) : w ∈ e.closureBinders :=
  List.mem_flatMap.2 ⟨_, h.allBindings_subset (bindings_subset_allBindings seq hv), hw⟩

end SequenceOf

/-- The place is a binder or the exit of one of the sequences, and `scope` is the scope of that
sequence. -/
def PlaceIn (outermost : Scope) (e : Expr) (scope : Scope) (place : Place) : Prop :=
  ∃ seq, SequenceOf outermost e scope seq ∧
    (place = .exit scope ∨ ∃ v value, place = .binding v ∧ (v, value) ∈ seq.bindings)

namespace PlaceIn

variable {outermost scope : Scope} {place : Place} {e : Expr} {v z : Handle}

theorem binder_mem (h : PlaceIn outermost e scope (.binding v)) :
    v ∈ e.allBindings.map (·.1) := by
  obtain ⟨seq, hseq, heq | ⟨w, value, heq, hw⟩⟩ := h
  · cases heq
  · cases heq
    exact List.mem_map_of_mem (hseq.allBindings_subset (bindings_subset_allBindings seq hw))

/-- The conditional that a sequence is a branch of is bound in the whole. -/
theorem owner_mem (h : PlaceIn .body e scope place) (hz : scope.owner? = some z) :
    z ∈ e.allBindings.map (·.1) := by
  obtain ⟨seq, hseq, -⟩ := h
  cases hseq with
  | whole => cases hz
  | branch houter hmem hbranch =>
    obtain rfl := Option.some.inj (hbranch.owner?_eq.symm.trans hz)
    exact List.mem_map_of_mem (houter.allBindings_subset (bindings_subset_allBindings _ hmem))

end PlaceIn

/-- A place of what is left of a sequence is a place of the sequence or of its branches. -/
theorem placeIn_of_mem_textOrder {outermost : Scope} {e₀ e : Expr} (he : e.Flat) :
    ∀ {outer : Scope} {seq : Expr}, SequenceOf outermost e₀ outer seq →
      e.bindings ⊆ seq.bindings → ∀ {scope : Scope} {place : Place},
        (scope, place) ∈ textOrder outer e → PlaceIn outermost e₀ scope place := by
  induction he with
  | result r =>
    intro outer seq hseq _ scope place hmem
    obtain ⟨rfl, rfl⟩ := Prod.mk.inj (List.mem_singleton.1 hmem)
    exact ⟨seq, hseq, .inl rfl⟩
  | @bind v value body hvalue _ ih =>
    intro outer seq hseq hsub scope place hmem
    have hinside : textOrderInside v value = [] := by cases hvalue <;> rfl
    rw [textOrder, hinside, List.nil_append] at hmem
    rcases List.mem_cons.1 hmem with heq | hmem
    · obtain ⟨rfl, rfl⟩ := Prod.mk.inj heq
      exact ⟨seq, hseq, .inr ⟨v, value, rfl, hsub List.mem_cons_self⟩⟩
    · exact ih hseq (fun _ hb => hsub (List.mem_cons_of_mem _ hb)) hmem
  | @cond v c t f body ty _ _ _ iht ihf ihb =>
    intro outer seq hseq hsub scope place hmem
    have hv : (v, Expr.cond (.var c) t f ty) ∈ seq.bindings := hsub List.mem_cons_self
    rw [textOrder, textOrderInside, List.mem_cons, List.mem_append, List.mem_append] at hmem
    rcases hmem with heq | (hmem | hmem) | hmem
    · obtain ⟨rfl, rfl⟩ := Prod.mk.inj heq
      exact ⟨seq, hseq, .inr ⟨v, _, rfl, hv⟩⟩
    · exact iht (hseq.branch hv (.thenBranch ..)) (List.Subset.refl _) hmem
    · exact ihf (hseq.branch hv (.elseBranch ..)) (List.Subset.refl _) hmem
    · exact ihb hseq (fun _ hb => hsub (List.mem_cons_of_mem _ hb)) hmem

/-- **The order of the text has every binder and every exit, with its scope.** -/
theorem mem_textOrder_iff {outermost : Scope} {e : Expr} (he : e.Flat) {scope : Scope}
    {place : Place} : (scope, place) ∈ textOrder outermost e ↔ PlaceIn outermost e scope place := by
  constructor
  · exact placeIn_of_mem_textOrder he .whole (List.Subset.refl _)
  · rintro ⟨seq, hseq, rfl | ⟨v, value, rfl, hv⟩⟩
    · exact hseq.textOrder_subset (exit_mem_textOrder scope seq)
    · exact hseq.textOrder_subset (binding_subset_textOrder scope hv List.mem_cons_self)

/-- The variables that are bound in a sequence or in its branches are those of its bindings. -/
theorem mem_map_fst_allBindings_iff {e : Expr} (he : e.Flat) (outermost : Scope) {v : Handle} :
    v ∈ e.allBindings.map (·.1) ↔
      ∃ scope seq value, SequenceOf outermost e scope seq ∧ (v, value) ∈ seq.bindings := by
  constructor
  · intro hv
    obtain ⟨⟨v, value⟩, hb, rfl⟩ := List.mem_map.1 hv
    have hplace := binding_mem_places he hb outermost
    rw [← map_snd_textOrder, List.mem_map] at hplace
    obtain ⟨⟨scope, place⟩, hmem, rfl⟩ := hplace
    obtain ⟨seq, hseq, hexit | ⟨w, value', heq, hw⟩⟩ := (mem_textOrder_iff he).1 hmem
    · cases hexit
    · obtain rfl := Place.binding.inj heq
      exact ⟨scope, seq, value', hseq, hw⟩
  · rintro ⟨scope, seq, value, hseq, hv⟩
    exact List.mem_map_of_mem (hseq.allBindings_subset (bindings_subset_allBindings seq hv))

/-- The places of a binding: its own, and the ends of its branches. -/
def placesOf (b : Handle × Expr) : List Place :=
  .binding b.1 :: if b.2.isCond then [.exit (.thenOf b.1), .exit (.elseOf b.1)] else []

theorem owner?_of_mem_placesOf {b : Handle × Expr} {place : Place} (h : place ∈ placesOf b) :
    place.owner? = some b.1 := by
  unfold placesOf at h
  split at h <;> fin_cases h <;> rfl

theorem nodup_placesOf (b : Handle × Expr) : (placesOf b).Nodup := by
  unfold placesOf
  split <;> simp

/-- The places of a sequence are those of its bindings, and its exit. -/
theorem places_perm {e : Expr} (he : e.Flat) : ∀ scope : Scope,
    (places scope e).Perm (.exit scope :: e.allBindings.flatMap placesOf) := by
  induction he with
  | result r => exact fun _ => .refl _
  | @bind v value body hvalue _ ih =>
    intro scope
    have hinside : placesInside v value = [] := by cases hvalue <;> rfl
    have hplaces : placesOf (v, value) = [.binding v] := by cases hvalue <;> rfl
    rw [places, hinside, List.nil_append, hvalue.allBindings_letIn, List.flatMap_cons, hplaces]
    exact ((ih scope).cons _).trans (List.Perm.swap ..)
  | @cond v c t f body ty _ _ _ iht ihf ihb =>
    intro scope
    rw [places, placesInside, Expr.allBindings_cond, List.flatMap_append, List.flatMap_append,
      List.flatMap_cons]
    refine ((((iht _).append (ihf _)).append (ihb scope)).cons _).trans ?_
    rw [List.perm_iff_count]
    intro place
    simp only [placesOf, Expr.isCond, if_true, List.count_append, List.count_cons, List.count_nil]
    omega

/-- **No place comes twice,** if no variable is bound twice. -/
theorem nodup_places {e : Expr} (he : e.Flat) (hnodup : (e.allBindings.map (·.1)).Nodup)
    {scope : Scope} (howner : ∀ b ∈ e.allBindings, scope.owner? ≠ some b.1) :
    (places scope e).Nodup := by
  rw [(places_perm he scope).nodup_iff, List.nodup_cons, List.nodup_flatMap]
  refine ⟨fun hmem => ?_, fun b _ => nodup_placesOf b, ?_⟩
  · obtain ⟨b, hb, hplace⟩ := List.mem_flatMap.1 hmem
    exact howner b hb (owner?_of_mem_placesOf hplace)
  · refine (List.pairwise_map.1 hnodup).imp fun {b b'} hne place hplace hplace' => hne ?_
    have howner := owner?_of_mem_placesOf hplace
    rw [owner?_of_mem_placesOf hplace'] at howner
    exact (Option.some.inj howner).symm

/-! ### What a run publishes -/

variable {vars : BinderTable} {f : Function} {o : Outcome} {terminal : Pass}

/-- An analysis up to the live sets or further publishes what they found, and the store behind
them. -/
theorem exists_run_passed (hscoped : f.Scoped vars.size) (hform : formErrors vars f = [])
    (hterminal : terminal = .liveness ∨ terminal = .sharing)
    (h : analyze vars f terminal = .ok o) : ∃ (r : Run) (p : Propagation) (m : LivePoints),
      Passed vars f p m ∧ r.store = m.store ∧
      o.liveness.identities = r.identities ∧ o.liveness.live = m.live ∧
      o.liveness.exits = m.exits := by
  obtain ⟨r, hr, rfl⟩ := analyze_eq_ok.1 h
  rcases hterminal with rfl | rfl
  · obtain ⟨s, v, p, m, hs, hp, hm, rfl⟩ := (Run.upTo_liveness_eq_ok hform).1 hr
    exact ⟨_, p, m, passed_of_ok hscoped hform hs hp hm, rfl, rfl, rfl, rfl⟩
  · obtain ⟨s, v, p, m, w, hs, hp, hm, _, rfl⟩ := (Run.upTo_sharing_eq_ok hform).1 hr
    exact ⟨_, p, m, passed_of_ok hscoped hform hs hp hm, rfl, rfl, rfl, rfl⟩

namespace Passed

variable {p : Propagation} {m : LivePoints}

/-- The parameters and the variables that are bound in the body grow. -/
theorem sorted (h : Passed vars f p m) :
    (f.params ++ f.body.allBindings.map (·.1)).Pairwise (· < ·) :=
  h.resolved.sorted.sublist (h.flat.map_fst_allBindings_sublist.append_left _)

/-- A handle of the program is bound behind the live sets if it is a parameter or is bound in the
body. -/
theorem mem_sets_iff (h : Passed vars f p m) {v : Handle} :
    v ∈ m.store.sets ∧ v < vars.size ↔ v ∈ f.params ++ f.body.allBindings.map (·.1) := by
  have hfirst := h.grows.firstMinted_eq
  constructor
  · rintro ⟨hmem, hlt⟩
    have hnot : ∀ {s : Store}, s.Sound → s.firstMinted = vars.size → ¬ s.supply.next ≤ v :=
      fun hsound heq hle =>
        absurd (heq ▸ Nat.le_trans hsound.firstMinted_le hle) (Nat.not_le.2 hlt)
    have hprop := (h.minted.only hmem).resolve_right fun hv =>
      hv.elim (fun hv => nomatch hv) (hnot h.grows.sound hfirst)
    rcases h.grows.only hprop with hv | hv | hle
    · exact absurd hv sets_empty
    · exact hv
    · exact absurd hle (hnot (sound_empty vars.size) rfl)
  · intro hv
    refine ⟨mem_of_getElem? ((h.minted.sets (h.grows.bound hv)).trans
      (getElem?_of_mem (h.grows.bound hv))), h.resolved.lt_size ?_⟩
    exact (h.flat.map_fst_allBindings_sublist.append_left f.params).subset hv

/-- **Identities are published for the parameters and for what is bound in the body,** in the
order of the handles. -/
theorem map_fst_identities (h : Passed vars f p m) {r : Run} (hstore : r.store = m.store) :
    r.identities.map (·.1) = f.params ++ f.body.allBindings.map (·.1) := by
  have hsorted : (r.identities.map (·.1)).Pairwise (· < ·) := by
    refine List.pairwise_map.2 (List.Pairwise.sublist List.filter_sublist ?_)
    exact Std.ExtTreeMap.ordered_keys_toList.imp fun hlt => Nat.compare_eq_lt.1 hlt
  refine List.SortedLT.eq_of_mem_iff hsorted.sortedLT h.sorted.sortedLT fun v => ?_
  rw [← h.mem_sets_iff, ← hstore, Run.identities, List.mem_map]
  have hminted : r.store.isMinted v = false ↔ v < vars.size := by
    rw [isMinted, decide_eq_false_iff_not, Nat.not_le, hstore, h.minted.firstMinted_eq,
      h.grows.firstMinted_eq]
    rfl
  constructor
  · rintro ⟨⟨v, set⟩, hmem, rfl⟩
    obtain ⟨hentry, hnot⟩ := List.mem_filter.1 hmem
    rw [Bool.not_eq_true'] at hnot
    exact ⟨mem_of_getElem? (Std.ExtTreeMap.mem_toList_iff_getElem?_eq_some.1 hentry),
      hminted.1 hnot⟩
  · rintro ⟨hmem, hlt⟩
    refine ⟨(v, r.store.setOf v), List.mem_filter.2 ⟨?_, ?_⟩, rfl⟩
    · exact Std.ExtTreeMap.mem_toList_iff_getElem?_eq_some.2 (getElem?_of_mem hmem)
    · rw [Bool.not_eq_true']
      exact hminted.2 hlt

/-- Every place of the body has a point with a live set. -/
theorem exists_liveAt? (h : Passed vars f p m) {l : Liveness} (hlive : l.live = m.live)
    (hexits : l.exits = m.exits) {place : Place} (hplace : place ∈ places .body f.body) :
    ∃ point set, place.point? l = some point ∧ l.liveAt? point = some set := by
  rw [← map_fst_liveEntries p.store.setOf .body ∅, List.mem_map] at hplace
  obtain ⟨⟨place, set⟩, hentry, rfl⟩ := hplace
  obtain ⟨point, hpoint, hset⟩ := (h.solved _ hentry).liveAt? hlive hexits
  exact ⟨point, set, hpoint, hset⟩

end Passed

/-- The functions of a program that could be read bind different handles. -/
theorem disjoint_of_functions {source entry : String} {program : Program}
    {warnings : List Diagnostic} {f : Function} {g : String × Function}
    (hread : readProgram source = .ok (program, warnings))
    (hentry : program.function? entry = some f) (hg : g ∈ program.functions) (hne : g.1 ≠ entry) :
    (g.2.params ++ g.2.body.binders).Disjoint (f.params ++ f.body.binders) := by
  obtain ⟨m, _, hm, hclean⟩ := readProgram_eq_ok_iff.1 hread
  obtain ⟨hhandles, -⟩ := ofModule_wellFormed hm hclean
  have hnodup : (program.functions.flatMap
      fun g => g.2.params ++ g.2.body.binders).Nodup := hhandles ▸ List.nodup_range
  obtain ⟨-, hpairwise⟩ := List.nodup_flatMap.1 hnodup
  have : Std.Symm (Function.onFun List.Disjoint
      fun g : String × Program.Function => g.2.params ++ g.2.body.binders) :=
    ⟨fun _ _ hdisjoint => hdisjoint.symm⟩
  exact hpairwise.forall hg (mem_functions_of_function? hentry) fun heq => hne (heq ▸ rfl)

end Analysis

namespace Report

open Analysis Identity Program

/-! ### Reading a document -/

namespace Json

/-- A field of a document. -/
def field? (name : String) : Json → Option Json
  | .object fields => fields.lookup name
  | _ => none

/-- The text in a field of a document. -/
def text? (name : String) (j : Json) : Option String :=
  match j.field? name with
  | some (.text s) => some s
  | _ => none

/-- The items of the list in a field of a document. -/
def items? (name : String) (j : Json) : Option (List Json) :=
  match j.field? name with
  | some (.list items) => some items
  | _ => none

end Json

/-- How a place is written: a binder with its name, an exit with that word. -/
inductive WrittenPlace (vars : BinderTable) : Place → String → Prop
  | binding {v : Handle} {b : Binder} : vars.entries[v]? = some b →
    WrittenPlace vars (.binding v) ("%" ++ b.name)
  | exit (scope : Scope) : WrittenPlace vars (.exit scope) "exit"

/-- How a sequence is written: a branch with the name of the conditional it is one of. -/
inductive WrittenScope (vars : BinderTable) : Scope → String → Prop
  | body : WrittenScope vars .body "body"
  | thenOf {z : Handle} {b : Binder} : vars.entries[z]? = some b →
    WrittenScope vars (.thenOf z) ("then %" ++ b.name)
  | elseOf {z : Handle} {b : Binder} : vars.entries[z]? = some b →
    WrittenScope vars (.elseOf z) ("else %" ++ b.name)

/-- The items are the names that the result gives to the members of a set, in the order of the
handles. -/
def ListsNames (l : Liveness) (set : HandleSet) (items : List Json) : Prop :=
  List.Forall₂ (fun v item => ∃ name, l.names[v]? = some name ∧ item = .text name) set.toList items

/-- The item tells of the place, of the sequence around it, and of what is live there. -/
structure ReportsPoint (vars : BinderTable) (l : Liveness) (x : Scope × Place) (item : Json) :
    Prop where
  point : ∃ text, item.text? "point" = some text ∧ WrittenPlace vars x.2 text
  scope : ∃ text, item.text? "scope" = some text ∧ WrittenScope vars x.1 text
  live : ∃ point set items, x.2.point? l = some point ∧ l.live[point]? = some set ∧
    item.items? "live" = some items ∧ ListsNames l set items

/-- The item tells of the binder and of its identities. -/
structure ReportsBinder (vars : BinderTable) (l : Liveness) (e : Handle × HandleSet)
    (item : Json) : Prop where
  binder : ∃ text, item.text? "binder" = some text ∧ WrittenPlace vars (.binding e.1) text
  identities : ∃ items, item.items? "identities" = some items ∧ ListsNames l e.2 items

/-! ### What is written -/

section Written

variable {vars : BinderTable} {l : Liveness}

/-- A handle of the program is displayed with the name in the table. -/
theorem exists_binder {v : Handle} (h : v < vars.size) :
    ∃ b, vars.entries[v]? = some b ∧ vars.display v = "%" ++ b.name := by
  have hb : vars.entries[v]? = some vars.entries[v] := Array.getElem?_eq_getElem h
  refine ⟨_, hb, ?_⟩
  rw [BinderTable.display, BinderTable.name?, hb]
  rfl

theorem writtenPlace_display {v : Handle} (h : v < vars.size) :
    WrittenPlace vars (.binding v) (vars.display v) := by
  obtain ⟨b, hb, hdisplay⟩ := exists_binder h
  exact hdisplay ▸ .binding hb

theorem writtenScope_phrase {scope : Scope} (h : ∀ z, scope.owner? = some z → z < vars.size) :
    WrittenScope vars scope (scopePhrase vars scope) := by
  cases scope with
  | body => exact .body
  | thenOf z =>
    obtain ⟨b, hb, hdisplay⟩ := exists_binder (h z rfl)
    rw [scopePhrase, hdisplay, ← String.append_assoc]
    exact .thenOf hb
  | elseOf z =>
    obtain ⟨b, hb, hdisplay⟩ := exists_binder (h z rfl)
    rw [scopePhrase, hdisplay, ← String.append_assoc]
    exact .elseOf hb

theorem listsNames_namesOf {set : HandleSet} (h : ∀ v ∈ set, l.names[v]? = some (l.name v)) :
    ListsNames l set ((l.namesOf set).map .text) := by
  rw [ListsNames, Liveness.namesOf, List.map_map, List.forall₂_map_right_iff, List.forall₂_same]
  exact fun v hv => ⟨_, h v (Std.ExtTreeSet.mem_toList.1 hv), rfl⟩

end Written

/-! ### Reports -/

/-- What a report calls a place. -/
def placeLabel (vars : BinderTable) : Place → String
  | .binding v => vars.display v
  | .exit _ => "exit"

/-- The place of a mark; a headline is none. -/
def PlacedMark.place? (m : PlacedMark) : Option (Scope × Place) :=
  match m.mark with
  | .binding v => some (m.scope, .binding v)
  | .branch _ => none
  | .exit => some (m.scope, .exit m.scope)

mutual

/-- **The marks of a sequence are its places,** with headlines between them. -/
theorem filterMap_place?_marks : ∀ (scope : Scope) (depth : Nat) (e : Expr),
    (marks scope depth e).filterMap PlacedMark.place? = textOrder scope e
  | scope, depth, .letIn v value body => by
    have hfirst : PlacedMark.place? ⟨depth, scope, .binding v⟩ = some (scope, .binding v) := rfl
    rw [marks, textOrder, List.cons_append, List.filterMap_cons_some hfirst,
      List.filterMap_append, filterMap_place?_branchMarks scope depth v value,
      filterMap_place?_marks scope depth body]
  | _, _, .var _ | _, _, .const _ | _, _, .op _ | _, _, .call .. | _, _, .tuple _ | _, _, .get ..
  | _, _, .cond .. | _, _, .closure .. => rfl

theorem filterMap_place?_branchMarks : ∀ (scope : Scope) (depth : Nat) (v : Handle) (value : Expr),
    (branchMarks scope depth v value).filterMap PlacedMark.place? = textOrderInside v value
  | scope, depth, v, .cond _ thenBranch elseBranch _ => by
    have hthen : PlacedMark.place? ⟨depth + 1, scope, .branch "then"⟩ = none := rfl
    have helse : PlacedMark.place? ⟨depth + 1, scope, .branch "else"⟩ = none := rfl
    rw [branchMarks, textOrderInside, List.cons_append, List.filterMap_cons_none hthen,
      List.filterMap_append, List.filterMap_cons_none helse,
      filterMap_place?_marks (.thenOf v) (depth + 2) thenBranch,
      filterMap_place?_marks (.elseOf v) (depth + 2) elseBranch]
  | _, _, _, .var _ | _, _, _, .const _ | _, _, _, .op _ | _, _, _, .call .. | _, _, _, .tuple _
  | _, _, _, .get .. | _, _, _, .letIn .. | _, _, _, .closure .. => rfl

end

/-- The entry of a place, unless nothing is known of it. -/
def shownAt? (vars : BinderTable) (l : Liveness) (x : Scope × Place) : Option PointEntry :=
  ((x.2.point? l).bind l.liveAt?).map fun set =>
    ⟨placeLabel vars x.2, scopePhrase vars x.1, l.namesOf set⟩

theorem entry?_eq (vars : BinderTable) (l : Liveness) (m : PlacedMark) :
    m.entry? vars l = m.place?.bind (shownAt? vars l) := by
  obtain ⟨depth, scope, mark⟩ := m
  cases mark <;> rfl

/-- The entries of a report are those of the places in the order of the text. -/
theorem pointEntries_eq (f : Function) (vars : BinderTable) (l : Liveness) :
    pointEntries f vars l = (textOrder .body f.body).filterMap (shownAt? vars l) := by
  rw [pointEntries, functionMarks, ← filterMap_place?_marks .body 0, List.filterMap_filterMap]
  exact congrArg (List.filterMap · _) (funext (entry?_eq vars l))

/-- The entry of a place whose point is known tells of it. -/
theorem exists_reportsPoint {vars : BinderTable} {l : Liveness} {x : Scope × Place}
    (hpoint : ∃ point set, x.2.point? l = some point ∧ l.liveAt? point = some set ∧
      ∀ v ∈ set, l.names[v]? = some (l.name v))
    (hplace : ∀ v, x.2 = .binding v → v < vars.size)
    (hscope : ∀ z, x.1.owner? = some z → z < vars.size) :
    ∃ entry, shownAt? vars l x = some entry ∧ ReportsPoint vars l x entry.json := by
  obtain ⟨scope, place⟩ := x
  obtain ⟨point, set, hpoint, hset, hnames⟩ := hpoint
  refine ⟨⟨placeLabel vars place, scopePhrase vars scope, l.namesOf set⟩, ?_, ⟨_, rfl, ?_⟩,
    ⟨_, rfl, writtenScope_phrase hscope⟩, point, set, _, hpoint, hset, rfl,
    listsNames_namesOf hnames⟩
  · rw [shownAt?, hpoint, Option.bind_some, hset]
    rfl
  · cases place with
    | binding v => exact writtenPlace_display (hplace v rfl)
    | exit scope => exact .exit scope

/-- Where every place has an entry that tells of it, none is left out. -/
theorem reports_filterMap {vars : BinderTable} {l : Liveness} {order : List (Scope × Place)}
    (h : ∀ x ∈ order, ∃ entry, shownAt? vars l x = some entry ∧
      ReportsPoint vars l x entry.json) :
    List.Forall₂ (ReportsPoint vars l) order
      ((order.filterMap (shownAt? vars l)).map PointEntry.json) := by
  induction order with
  | nil => exact .nil
  | cons x order ih =>
    obtain ⟨entry, hentry, hreports⟩ := h x List.mem_cons_self
    rw [List.filterMap_cons_some hentry]
    exact .cons hreports (ih fun y hy => h y (List.mem_cons_of_mem _ hy))

/-- The result and its document cover the function `f` of the program. -/
structure Coverage (program : Program) (entry : String) (f : Function) (o : Outcome)
    (document : Json) : Prop where
  binding_live {scope : Scope} {seq : Expr} {b : Handle × Expr} :
    SequenceOf .body f.body scope seq → b ∈ seq.bindings →
      ∃ set, o.liveness.live[b.1]? = some set
  exit_live {scope : Scope} {seq : Expr} : SequenceOf .body f.body scope seq →
    ∃ exit set, o.liveness.exits.lookup scope = some exit ∧ o.liveness.live[exit]? = some set
  mem_order {scope : Scope} {place : Place} :
    (scope, place) ∈ textOrder .body f.body ↔ PlaceIn .body f.body scope place
  order_nodup : ((textOrder .body f.body).map (·.2)).Nodup
  points : ∃ items, document.items? "points" = some items ∧
    List.Forall₂ (ReportsPoint program.vars o.liveness) (textOrder .body f.body) items
  identities_sorted : (o.liveness.identities.map (·.1)).Pairwise (· < ·)
  mem_identities {v : Handle} : v ∈ o.liveness.identities.map (·.1) ↔ v ∈ f.params ∨
    ∃ scope seq value, SequenceOf .body f.body scope seq ∧ (v, value) ∈ seq.bindings
  identities : ∃ items, document.items? "identities" = some items ∧
    List.Forall₂ (ReportsBinder program.vars o.liveness) o.liveness.identities items
  not_in_closure {scope : Scope} {seq body : Expr} {v w : Handle} {params : List Handle} :
    SequenceOf .body f.body scope seq → (v, .closure params body) ∈ seq.bindings →
      w ∈ params ++ body.binders → w ∉ o.liveness.identities.map (·.1)
  not_elsewhere {g : String × Function} {w : Handle} : g ∈ program.functions → g.1 ≠ entry →
    w ∈ g.2.params ++ g.2.body.binders → w ∉ o.liveness.identities.map (·.1)

/-- **Reports cover every point exactly once.**  Take a function of a program that could be read,
in the form that the passes are made for, and a result with live sets.  Every binder and every exit
of the body and of all branches has a live set and one item in the document, in the order of the
text and with the sequence around it; and identities are listed for the parameters and for those
binders only. -/
theorem report_covers {source entry : String} {program : Program} {warnings : List Diagnostic}
    {f : Function} {terminal : Pass} {o : Outcome}
    (hread : readProgram source = .ok (program, warnings))
    (hentry : program.function? entry = some f) (hform : formErrors program.vars f = [])
    (hterminal : terminal = .liveness ∨ terminal = .sharing)
    (hanalyze : analyze program.vars f terminal = .ok o) :
    Coverage program entry f o (document entry f program.vars o) := by
  obtain ⟨r, p, m, h, hstore, hids, hlive, hexits⟩ :=
    exists_run_passed (readProgram_scoped hread hentry) hform hterminal hanalyze
  have hkeys : o.liveness.identities.map (·.1) = f.params ++ f.body.allBindings.map (·.1) :=
    hids ▸ h.map_fst_identities hstore
  have hat : ∀ x ∈ textOrder .body f.body,
      ∃ point set, x.2.point? o.liveness = some point ∧ o.liveness.liveAt? point = some set :=
    fun x hx => h.exists_liveAt? hlive hexits (map_snd_textOrder .body f.body ▸
      List.mem_map_of_mem hx)
  have hbinders : f.params ++ f.body.allBindings.map (·.1) ⊆ f.params ++ f.body.binders :=
    (h.flat.map_fst_allBindings_sublist.append_left f.params).subset
  have hlt : ∀ v ∈ f.params ++ f.body.allBindings.map (·.1), v < program.vars.size :=
    fun v hv => h.resolved.lt_size (hbinders hv)
  have hnodup : (f.params ++ f.body.binders).Nodup := h.resolved.sorted.imp Nat.ne_of_lt
  refine ⟨fun {scope seq b} hseq hb => ?_, fun {scope seq} hseq => ?_,
    mem_textOrder_iff h.flat, ?_, ⟨_, rfl, ?_⟩, hkeys ▸ h.sorted, ?_, ⟨_, rfl, ?_⟩,
    fun {scope seq body v w params} hseq hv hw hmem => ?_, fun {g w} hg hne hw hmem => ?_⟩
  · obtain ⟨point, set, hpoint, hset⟩ :=
      hat (scope, .binding b.1) ((mem_textOrder_iff h.flat).2 ⟨seq, hseq, .inr ⟨_, _, rfl, hb⟩⟩)
    obtain rfl := Option.some.inj hpoint
    exact ⟨set, hset⟩
  · exact hat (scope, .exit scope) ((mem_textOrder_iff h.flat).2 ⟨seq, hseq, .inl rfl⟩)
  · rw [map_snd_textOrder]
    exact nodup_places h.flat
      (hnodup.sublist (h.flat.map_fst_allBindings_sublist.trans (List.sublist_append_right _ _)))
      fun _ _ heq => nomatch heq
  · rw [pointEntries_eq]
    refine reports_filterMap fun x hx => ?_
    obtain ⟨scope, place⟩ := x
    have hplace : PlaceIn .body f.body scope place := (mem_textOrder_iff h.flat).1 hx
    obtain ⟨point, set, hpoint, hset⟩ := hat _ hx
    refine exists_reportsPoint ⟨point, set, hpoint, hset, fun v hv =>
      names_of_mentions hanalyze (.live hset hv)⟩ (fun v hv => ?_) fun z hz => ?_
    · obtain rfl : place = .binding v := hv
      exact hlt v (List.mem_append_right _ hplace.binder_mem)
    · exact hlt z (List.mem_append_right _ (hplace.owner_mem hz))
  · intro v
    rw [hkeys, List.mem_append, mem_map_fst_allBindings_iff h.flat .body]
  · rw [List.forall₂_map_right_iff, List.forall₂_same]
    exact fun e he => ⟨⟨_, rfl, writtenPlace_display (hlt e.1 (hkeys ▸ List.mem_map_of_mem he))⟩,
      _, rfl, listsNames_namesOf fun v hv => names_of_mentions hanalyze (.identity he hv)⟩
  · have hperm := h.flat.binders_perm.append_left f.params
    rw [hperm.nodup_iff, ← List.append_assoc] at hnodup
    exact List.disjoint_of_nodup_append hnodup (hkeys ▸ hmem) (hseq.mem_closureBinders hv hw)
  · exact disjoint_of_functions hread hentry hg hne hw (hbinders (hkeys ▸ hmem))

/-- The points of a document, each with the sequence around it. -/
def Json.scopedPoints? (document : Json) : Option (List (String × String)) := do
  let items ← document.items? "points"
  items.mapM fun item => return (← item.text? "point", ← item.text? "scope")

/-- The binders `%g` and `%y` of `everyKindSource` are points of a branch of `%z`; the parameter
`6` of the closure is in neither list. -/
theorem report_covers_everyKind : ∃ o, readProgram everyKindSource = .ok (everyKindProgram, []) ∧
    everyKindProgram.function? "main" = some everyKindFunction ∧
    formErrors everyKindProgram.vars everyKindFunction = [] ∧
    analyze everyKindProgram.vars everyKindFunction .liveness = .ok o ∧
    Coverage everyKindProgram "main" everyKindFunction o
      (document "main" everyKindFunction everyKindProgram.vars o) ∧
    textOrder .body everyKindFunction.body =
      [(.body, .binding 2), (.body, .binding 5), (.thenOf 5, .binding 3), (.thenOf 5, .binding 4),
        (.thenOf 5, .exit (.thenOf 5)), (.elseOf 5, .exit (.elseOf 5)), (.body, .binding 7),
        (.body, .binding 8), (.body, .binding 9), (.body, .exit .body)] ∧
    (document "main" everyKindFunction everyKindProgram.vars o).scopedPoints? =
      some [("%t", "body"), ("%z", "body"), ("%g", "then %z"), ("%y", "then %z"),
        ("exit", "then %z"), ("exit", "else %z"), ("%f", "body"), ("%w", "body"), ("%r", "body"),
        ("exit", "body")] ∧
    o.liveness.identities.map (·.1) = [0, 1, 2, 3, 4, 5, 7, 8, 9] := by
  have hentry : everyKindProgram.function? "main" = some everyKindFunction := rfl
  have hform : formErrors everyKindProgram.vars everyKindFunction = [] := by decide +kernel
  have hrun : ((analyze everyKindProgram.vars everyKindFunction .liveness).toOption.any
      fun o => (document "main" everyKindFunction everyKindProgram.vars o).scopedPoints? =
          some [("%t", "body"), ("%z", "body"), ("%g", "then %z"), ("%y", "then %z"),
            ("exit", "then %z"), ("exit", "else %z"), ("%f", "body"), ("%w", "body"),
            ("%r", "body"), ("exit", "body")] ∧
        o.liveness.identities.map (·.1) = [0, 1, 2, 3, 4, 5, 7, 8, 9]) = true := by
    decide +kernel
  obtain ⟨o, hanalyze, htest⟩ := exists_ok_of_any hrun
  exact ⟨o, readProgram_everyKindSource, hentry, hform, hanalyze,
    report_covers readProgram_everyKindSource hentry hform (.inl rfl) hanalyze, rfl,
    of_decide_eq_true htest⟩

end Report
end TensorLiveness
