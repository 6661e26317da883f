/-
# The published live sets solve the equations

The walk backwards makes every live set out of handles that it mints.  What it publishes is the
solution of equations that mint nothing (`liveEntries`), over the identities that were published
before the walk (`live_sets_solve_equations`):

| point | live there, if `after` is live behind |
| --- | --- |
| exit of a sequence | what its result stands for, and what is needed behind the sequence |
| alias, constant, tuple, projection, closure | what its variable stands for, and `after` |
| operator | what the next binder of the sequence stands for, and `after` |
| call | what its arguments stand for, and `after` without its own identities |
| conditional | what its condition and the free variables of its branches stand for, and the same |
| branch of a conditional | its sequence, with that rest of `after` needed behind |

The equations look at the variables of the sequence only (`liveEntries_congr`), and have one entry
for each of its points (`pointOf_iff_mem_liveEntries`).
-/

import TensorLiveness.Proofs.Analysis.Birth

namespace TensorLiveness
namespace Analysis

open Identity Program Store

/-! ### The variables that the equations look at -/

section Congruence

variable {ids ids' : Handle → HandleSet}

theorem unionAll_congr {us : List Handle} (h : ∀ u ∈ us, ids u = ids' u) :
    unionAll ids us = unionAll ids' us :=
  List.foldr_ext _ _ _ fun u hu set => congrArg (· ∪ set) (h u hu)

theorem firstIds_congr {e : Expr} (h : ∀ u, Mentioned e u → ids u = ids' u) :
    firstIds ids e = firstIds ids' e := by
  cases e with
  | letIn v value body => exact h v mentioned_binder
  | _ => rfl

/-- A binding looks at its own variable and at what its value mentions. -/
theorem liveBinding_congr {v : Handle} {value : Expr} {next after : HandleSet}
    (hv : ids v = ids' v) (hvalue : ∀ u ∈ value.occurrences, ids u = ids' u) :
    liveBinding ids v next after value = liveBinding ids' v next after value := by
  cases value with
  | op name => rfl
  | call callee args ty => rw [liveBinding, liveBinding, hv, unionAll_congr hvalue]
  | cond test thenBranch elseBranch ty => rw [liveBinding, liveBinding, hv, unionAll_congr hvalue]
  | _ => exact congrArg (· ∪ after) hv

theorem liveFirst_congr {e : Expr} (incoming : HandleSet)
    (h : ∀ u, Mentioned e u → ids u = ids' u) :
    liveFirst ids incoming e = liveFirst ids' incoming e := by
  induction e using Expr.bindings.induct with
  | case1 v value body ih =>
    have hbody : ∀ u, Mentioned body u → ids u = ids' u := fun u hu => h u (mentioned_of_body hu)
    rw [liveFirst, liveFirst, ih hbody, firstIds_congr hbody]
    exact liveBinding_congr (h v mentioned_binder) fun u hu => h u (mentioned_of_value hu)
  | case2 e hlet =>
    cases e with
    | letIn v value body => exact absurd rfl (hlet v value body)
    | var r => rw [liveFirst, liveFirst, h r (Or.inl List.mem_cons_self)]
    | _ => rfl

/-- **The equations look at the variables of the sequence only.** -/
theorem liveEntries_congr {e : Expr} (he : e.Flat) : (∀ u, Mentioned e u → ids u = ids' u) →
    ∀ (scope : Scope) (incoming : HandleSet),
      liveEntries ids scope incoming e = liveEntries ids' scope incoming e := by
  induction he with
  | result r =>
    intro h scope incoming
    rw [liveEntries, liveEntries, liveFirst_congr incoming h]
    all_goals exact fun v value body heq => Expr.noConfusion heq
  | bind v hsimple _ ih =>
    intro h scope incoming
    rw [liveEntries, liveEntries, Simple.liveInside_eq hsimple, Simple.liveInside_eq hsimple,
      liveFirst_congr incoming h, ih (fun u hu => h u (mentioned_of_body hu))]
  | @cond v c thenBranch elseBranch body ty hthen helse hbody iht ihf ihb =>
    intro h scope incoming
    have hin : ∀ {inner taken}, BranchOf v (.cond (.var c) thenBranch elseBranch ty) inner taken →
        ∀ u, Mentioned taken u → ids u = ids' u := by
      intro inner taken hbranch u hu
      rcases hu with hu | hu
      · exact h u (mentioned_of_value (hbranch.occurrences hu))
      · obtain ⟨b, hb, rfl⟩ := List.mem_map.1 hu
        exact h b.1 (mentioned_of_inside (List.mem_map_of_mem (hbranch.branchBindings hb)))
    have hrest : ∀ u, Mentioned body u → ids u = ids' u := fun u hu => h u (mentioned_of_body hu)
    rw [liveEntries, liveEntries, liveInside, liveInside, liveFirst_congr incoming h,
      liveFirst_congr incoming hrest, h v mentioned_binder, iht (hin (.thenBranch ..)),
      ihf (hin (.elseBranch ..)), ihb hrest]

end Congruence

/-! ### The points of a sequence -/

mutual

/-- The equations have one entry for each place of the sequence, in the order of the text. -/
theorem map_fst_liveEntries (ids : Handle → HandleSet) : ∀ (scope : Scope) (incoming : HandleSet)
    (e : Expr), (liveEntries ids scope incoming e).map (·.1) = places scope e
  | scope, incoming, .letIn v value body => by
    rw [liveEntries, places, List.map_cons, List.map_append, map_fst_liveInside ids,
      map_fst_liveEntries ids]
  | _, _, .var _ | _, _, .const _ | _, _, .op _ | _, _, .call .. | _, _, .tuple _ | _, _, .get ..
  | _, _, .cond .. | _, _, .closure .. => rfl

theorem map_fst_liveInside (ids : Handle → HandleSet) : ∀ (v : Handle) (after : HandleSet)
    (value : Expr), (liveInside ids v after value).map (·.1) = placesInside v value
  | v, after, .cond test thenBranch elseBranch ty => by
    rw [liveInside, placesInside, List.map_append, map_fst_liveEntries ids,
      map_fst_liveEntries ids]
  | _, _, .var _ | _, _, .const _ | _, _, .op _ | _, _, .call .. | _, _, .tuple _ | _, _, .get ..
  | _, _, .letIn .. | _, _, .closure .. => rfl

end

/-- A point of a sequence: a binder of it or of a branch nested in it, or the exit of either. -/
inductive PointOf (scope : Scope) (e : Expr) : Place → Prop
  | binder {v : Handle} {value : Expr} : (v, value) ∈ e.allBindings → PointOf scope e (.binding v)
  | exit : PointOf scope e (.exit scope)
  | branchExit {z : Handle} {value taken : Expr} {inner : Scope} : (z, value) ∈ e.allBindings →
    BranchOf z value inner taken → PointOf scope e (.exit inner)

namespace PointOf

variable {scope inner : Scope} {v : Handle} {value taken body e : Expr} {place : Place}

theorem behind (h : PointOf scope body place) : PointOf scope (.letIn v value body) place := by
  cases h with
  | binder hv => exact .binder (Expr.mem_allBindings_of_body hv)
  | exit => exact .exit
  | branchExit hz hbranch => exact .branchExit (Expr.mem_allBindings_of_body hz) hbranch

theorem inside (hbranch : BranchOf v value inner taken) (h : PointOf inner taken place) :
    PointOf scope (.letIn v value body) place := by
  have hin : ∀ {b}, b ∈ taken.allBindings → b ∈ (Expr.letIn v value body).allBindings := fun hb =>
    Expr.mem_allBindings_of_inside (hbranch.branchBindings hb)
  cases h with
  | binder hw => exact .binder (hin hw)
  | exit => exact .branchExit Expr.binding_mem_allBindings hbranch
  | branchExit hz hbranch' => exact .branchExit (hin hz) hbranch'

theorem mem_places (he : e.Flat) (h : PointOf scope e place) : place ∈ places scope e := by
  cases h with
  | binder hv => exact binding_mem_places he hv scope
  | exit => exact exit_mem_places he scope
  | branchExit hz hbranch =>
    have hpart := Subsequence.of_branch he hz hbranch scope
    exact hpart.mem_places (exit_mem_places (hpart.flat he) _)

end PointOf

/-- The places of a sequence are its points. -/
theorem pointOf_of_mem_places {e : Expr} (he : e.Flat) : ∀ {scope : Scope} {place : Place},
    place ∈ places scope e → PointOf scope e place := by
  induction he with
  | result r =>
    intro scope place h
    obtain rfl := List.mem_singleton.1 h
    exact .exit
  | @bind v value body hsimple _ ih =>
    intro scope place h
    have hinside : placesInside v value = [] := by cases hsimple <;> rfl
    rw [places, hinside, List.nil_append] at h
    rcases List.mem_cons.1 h with rfl | h
    · exact .binder Expr.binding_mem_allBindings
    · exact (ih h).behind
  | cond v c ty _ _ _ iht ihf ihb =>
    intro scope place h
    rw [places, placesInside, List.mem_cons, List.mem_append, List.mem_append] at h
    rcases h with rfl | (h | h) | h
    · exact .binder Expr.binding_mem_allBindings
    · exact (iht h).inside (.thenBranch ..)
    · exact (ihf h).inside (.elseBranch ..)
    · exact (ihb h).behind

/-- **Every point of a sequence has an entry,** and no other place has one. -/
theorem pointOf_iff_mem_liveEntries {e : Expr} (he : e.Flat) (ids : Handle → HandleSet)
    {scope : Scope} {incoming : HandleSet} {place : Place} :
    PointOf scope e place ↔ ∃ set, (place, set) ∈ liveEntries ids scope incoming e := by
  have hplaces : place ∈ places scope e ↔ PointOf scope e place :=
    ⟨pointOf_of_mem_places he, PointOf.mem_places he⟩
  rw [← hplaces, ← map_fst_liveEntries ids scope incoming, List.mem_map]
  constructor
  · rintro ⟨⟨_, set⟩, hentry, rfl⟩
    exact ⟨set, hentry⟩
  · rintro ⟨set, hentry⟩
    exact ⟨_, hentry, rfl⟩

/-! ### Analysed programs -/

/-- What a variable stands for in a result; nothing, if it has no set there. -/
def Liveness.setOf (l : Liveness) (v : Handle) : HandleSet := (l.identitiesOf? v).getD ∅

/-- **The published live sets solve the equations.**  Once the identities of an accepted function
of a program that could be read have been found, the live sets are found as well.  They leave the
identities of every variable as they are, and at each binder and each exit, of the body and of all
branches, what is live is what the equations give over these identities. -/
theorem live_sets_solve_equations {source entry : String} {program : Program}
    {warnings : List Diagnostic} {f : Function} {terminal : Pass} {forward : Outcome}
    (hread : readProgram source = .ok (program, warnings))
    (hentry : program.function? entry = some f) (hform : formErrors program.vars f = [])
    (hforward : analyze program.vars f .identities = .ok forward)
    (hterminal : terminal = .liveness ∨ terminal = .sharing) :
    ∃ o, analyze program.vars f terminal = .ok o ∧
      (∀ v ∈ f.params ++ f.body.allBindings.map (·.1), ∃ set,
        forward.liveness.identitiesOf? v = some set ∧ o.liveness.identitiesOf? v = some set) ∧
      (∀ place, PointOf .body f.body place ↔
        ∃ set, (place, set) ∈ liveEntries forward.liveness.setOf .body ∅ f.body) ∧
      ∀ place set, (place, set) ∈ liveEntries forward.liveness.setOf .body ∅ f.body →
        ∃ point, place.point? o.liveness = some point ∧ o.liveness.liveAt? point = some set := by
  have hscoped := readProgram_scoped hread hentry
  obtain ⟨o, ho⟩ :=
    exists_ok_of_identities (fun v => hscoped.lt_size) (not_stray hscoped) hforward terminal
  obtain ⟨r, p, m, hr, hstore, hpassed, hlive, hexits, hids⟩ :=
    exists_passed_from hscoped hform hterminal ho
  obtain ⟨r', hr', rfl⟩ := analyze_eq_ok.1 hforward
  obtain rfl := Except.ok.inj (hr.symm.trans hr')
  -- what the run up to the identities publishes is what the walk backwards starts from
  have hfirst : ∀ v < program.vars.size,
      (r.outcome program.vars .identities).liveness.identitiesOf? v = p.store.sets[v]? := by
    intro v hv
    rw [← hstore]
    refine Run.identitiesOf?_outcome ?_
    rw [hstore, hpassed.grows.firstMinted_eq]
    exact hv
  have hsets : ∀ u, Mentioned f.body u →
      p.store.setOf u = (r.outcome program.vars .identities).liveness.setOf u := fun u hu => by
    rw [Liveness.setOf, hfirst u (hpassed.mem_of_mentioned hu).2]
    rfl
  have hentries := liveEntries_congr hpassed.flat hsets .body ∅
  have hbound : ∀ v ∈ f.params ++ f.body.allBindings.map (·.1),
      v ∈ p.store.sets ∧ v < program.vars.size := fun v hv => by
    refine ⟨hpassed.grows.bound hv, ?_⟩
    rcases List.mem_append.1 hv with hv | hv
    · exact hscoped.lt_size (List.mem_append_left _ hv)
    · exact hscoped.lt_size
        (List.mem_append_right _ (hpassed.flat.map_fst_allBindings_sublist.subset hv))
  refine ⟨o, ho, fun v hv => ?_, fun place => pointOf_iff_mem_liveEntries hpassed.flat _,
    fun place set hentry => ?_⟩
  · obtain ⟨hmem, hlt⟩ := hbound v hv
    exact ⟨p.store.setOf v, by rw [hfirst v hlt, getElem?_of_mem hmem],
      hpassed.identitiesOf?_eq hids hmem hlt⟩
  · exact (hpassed.solved _ (hentries ▸ hentry)).liveAt? hlive hexits

/-- A program with a binding of every kind, one of an operator inside a branch. -/
def everyKindSource : String :=
  "fn @main(%c: Tensor, %a: Tensor) \x7b let %t = (%a, 0); let %z = if (%c) \x7b " ++
    "let %g = neg; let %y = add(%a, %c); %y \x7d else \x7b %a \x7d; " ++
    "let %f = fn(%p: Tensor) \x7b add(%p, %t) \x7d; let %w = %t.0; let %r = mul(%z, %w); %r \x7d"

/-- The function of `everyKindSource`. -/
def everyKindFunction : Function :=
  ⟨[0, 1], .letIn 2 (.tuple [.var 1, .const .zero]) <|
    .letIn 5 (.cond (.var 0)
      (.letIn 3 (.op "neg") <| .letIn 4 (.call (.op "add") [.var 1, .var 0] .tensor) (.var 4))
      (.var 1) .tensor) <|
    .letIn 7 (.closure [6] (.call (.op "add") [.var 6, .var 2] .tensor)) <|
    .letIn 8 (.get (.var 2) 0) <| .letIn 9 (.call (.op "mul") [.var 5, .var 8] .tensor) (.var 9)⟩

/-- What `everyKindSource` says. -/
def everyKindProgram : Program :=
  ⟨⟨#[⟨"c", .tensor, ⟨9, 19⟩⟩, ⟨"a", .tensor, ⟨21, 31⟩⟩,
    ⟨"t", .tuple [.tensor, .tensor], ⟨35, 52⟩⟩, ⟨"g", .func, ⟨72, 85⟩⟩,
    ⟨"y", .tensor, ⟨86, 107⟩⟩, ⟨"z", .tensor, ⟨53, 125⟩⟩, ⟨"p", .tensor, ⟨138, 148⟩⟩,
    ⟨"f", .func, ⟨126, 166⟩⟩, ⟨"w", .tensor, ⟨167, 181⟩⟩, ⟨"r", .tensor, ⟨182, 203⟩⟩]⟩,
    [("main", everyKindFunction)]⟩

set_option maxRecDepth 4000 in
theorem readProgram_everyKindSource :
    readProgram everyKindSource = .ok (everyKindProgram, []) := by
  cbv

/-- At the operator in the branch the result of the call behind it is live already. -/
theorem live_sets_solve_equations_everyKind : ∃ forward o set,
    readProgram everyKindSource = .ok (everyKindProgram, []) ∧
    everyKindProgram.function? "main" = some everyKindFunction ∧
    formErrors everyKindProgram.vars everyKindFunction = [] ∧
    analyze everyKindProgram.vars everyKindFunction .identities = .ok forward ∧
    analyze everyKindProgram.vars everyKindFunction .sharing = .ok o ∧
    o.liveness.liveAt? 3 = some set ∧ set.toList = [10, 11, 14] := by
  have hentry : everyKindProgram.function? "main" = some everyKindFunction := rfl
  have hform : formErrors everyKindProgram.vars everyKindFunction = [] := by decide +kernel
  have hrun : ((analyze everyKindProgram.vars everyKindFunction .identities).toOption.any
      fun forward => (liveEntries forward.liveness.setOf .body ∅ everyKindFunction.body).any
        fun entry => entry.1 = .binding 3 ∧ entry.2.toList = [10, 11, 14]) = true := by
    decide +kernel
  obtain ⟨forward, hforward, htest⟩ := exists_ok_of_any hrun
  obtain ⟨⟨place, set⟩, hmem, hset⟩ := List.any_eq_true.1 htest
  obtain ⟨rfl, hset⟩ := of_decide_eq_true hset
  obtain ⟨o, ho, -, -, hsolved⟩ :=
    live_sets_solve_equations readProgram_everyKindSource hentry hform hforward (.inr rfl)
  obtain ⟨point, hpoint, hlive⟩ := hsolved _ set hmem
  obtain rfl := Option.some.inj hpoint
  exact ⟨forward, o, set, readProgram_everyKindSource, hentry, hform, hforward, ho, hlive, hset⟩

end Analysis
end TensorLiveness
