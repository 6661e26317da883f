/-
# Live along every control path

A control path visits the bindings of a sequence in order; at a conditional it goes through one
of the two branches up to its exit, and on behind the conditional.  `Needed` says of such a
list of waypoints which identities are used on it before anything mints them.

What is needed inside a branch is an identity of a variable that occurs free in the branch
(`exists_occurrence_of_needed`), so the conditional in front of it has it too.  With that, the
equations of the live sets carry everything that is needed backwards over every waypoint
(`live_of_needed`), and `live_until_used` says it of an analysed program.
-/

import Mathlib
import TensorLiveness.Proofs.Analysis.Run

namespace TensorLiveness
namespace Analysis

open Identity Program Store

/-- A stop on a control path: a binding, or the end of a sequence with this result. -/
inductive Waypoint
  | binding (v : Handle) (value : Expr)
  | exit (scope : Scope) (result : Handle)

namespace Waypoint

/-- The place of a stop. -/
def place : Waypoint → Place
  | .binding v _ => .binding v
  | .exit scope _ => .exit scope

/-- The variables whose buffers are used at a stop. -/
def uses : Waypoint → List Handle
  | .binding _ (.call _ args _) => args.filterMap Expr.var?
  | .binding _ (.cond test _ _ _) => test.var?.toList
  | .binding _ (.const _) | .binding _ (.op _) => []
  | .binding v _ => [v]
  | .exit _ result => [result]

/-- The variable whose buffers come into being at a stop: a call makes its own, and a
conditional has its own when the branch that was taken ends. -/
def mints? : Waypoint → Option Handle
  | .binding v (.call ..) => some v
  | .binding _ _ => none
  | .exit scope _ => scope.owner?

end Waypoint

/-- The stops on the way through a sequence, whichever branches are taken. -/
inductive ControlPath : Scope → Expr → List Waypoint → Prop
  | result (scope : Scope) (r : Handle) : ControlPath scope (.var r) [.exit scope r]
  | bind {scope : Scope} {v : Handle} {value body : Expr} {path : List Waypoint} :
    value.isCond = false → ControlPath scope body path →
    ControlPath scope (.letIn v value body) (.binding v value :: path)
  | branch {scope inner : Scope} {v : Handle} {value taken body : Expr}
    {inside path : List Waypoint} : BranchOf v value inner taken →
    ControlPath inner taken inside → ControlPath scope body path →
    ControlPath scope (.letIn v value body) (.binding v value :: (inside ++ path))

section Needs

variable {ids : Handle → HandleSet}

/-- An identity is used at a stop. -/
def Waypoint.UsesId (ids : Handle → HandleSet) (w : Waypoint) (x : Handle) : Prop :=
  ∃ u ∈ w.uses, x ∈ ids u

/-- An identity comes into being at a stop. -/
def Waypoint.MintsId (ids : Handle → HandleSet) (w : Waypoint) (x : Handle) : Prop :=
  ∃ v, w.mints? = some v ∧ x ∈ ids v

/-- On this way an identity is used before anything mints it. -/
def Needed (ids : Handle → HandleSet) : List Waypoint → Handle → Prop
  | [], _ => False
  | w :: ws, x => w.UsesId ids x ∨ Needed ids ws x ∧ ¬ w.MintsId ids x

/-- What is needed on two ways in a row is needed on the first, or on the second and not
minted on the first. -/
theorem needed_append {ws ws' : List Waypoint} {x : Handle} (h : Needed ids (ws ++ ws') x) :
    Needed ids ws x ∨ Needed ids ws' x ∧ ∀ w ∈ ws, ¬ w.MintsId ids x := by
  induction ws with
  | nil => exact Or.inr ⟨h, fun w hw => absurd hw List.not_mem_nil⟩
  | cons w ws ih =>
    rcases h with huse | ⟨hlater, hmint⟩
    · exact Or.inl (Or.inl huse)
    · rcases ih hlater with hfirst | ⟨hsecond, hmints⟩
      · exact Or.inl (Or.inr ⟨hfirst, hmint⟩)
      · refine Or.inr ⟨hsecond, fun w' hw' => ?_⟩
        rcases List.mem_cons.1 hw' with rfl | hw'
        · exact hmint
        · exact hmints w' hw'

/-- What is used at some stop, and minted at none before, is needed. -/
theorem needed_of_getElem? {x : Handle} : ∀ {ws : List Waypoint} {j : Nat} {w : Waypoint},
    ws[j]? = some w → w.UsesId ids x →
      (∀ k w', k < j → ws[k]? = some w' → ¬ w'.MintsId ids x) → Needed ids ws x := by
  intro ws
  induction ws with
  | nil =>
    intro j w hj
    rw [List.getElem?_nil] at hj
    cases hj
  | cons w₀ ws ih =>
    intro j w hj huse hmints
    cases j with
    | zero =>
      obtain rfl := Option.some.inj hj
      exact Or.inl huse
    | succ j =>
      refine Or.inr ⟨ih hj huse fun k w' hk hw' => ?_, ?_⟩
      · exact hmints (k + 1) w' (Nat.succ_lt_succ hk) hw'
      · exact hmints 0 w₀ (Nat.succ_pos j) rfl

/-- A way through a sequence ends at its exit. -/
theorem ControlPath.exit_mem {scope : Scope} {e : Expr} {path : List Waypoint}
    (h : ControlPath scope e path) : ∃ r, Waypoint.exit scope r ∈ path := by
  induction h with
  | result scope r => exact ⟨r, List.mem_cons_self⟩
  | bind _ _ ih =>
    obtain ⟨r, hr⟩ := ih
    exact ⟨r, List.mem_cons_of_mem _ hr⟩
  | branch _ _ _ _ ih =>
    obtain ⟨r, hr⟩ := ih
    exact ⟨r, List.mem_cons_of_mem _ (List.mem_append_right _ hr)⟩

/-! ### Where identities come from -/

/-- A variable whose value is not made anew stands only for what its value mentions. -/
def Inherits (ids : Handle → HandleSet) (v : Handle) (value : Expr) : Prop :=
  value.isMade = false → ∀ x ∈ ids v, ∃ u ∈ value.occurrences, x ∈ ids u

theorem inherits_of_isMade {v : Handle} {value : Expr} (h : value.isMade = true) :
    Inherits ids v value := fun hnot => absurd (h.symm.trans hnot) (by decide)

/-- A binding uses what its value mentions, or its own variable if that is not made anew. -/
theorem Waypoint.mem_uses_binding {v u : Handle} {value : Expr}
    (h : u ∈ (Waypoint.binding v value).uses) :
    u ∈ value.occurrences ∨ u = v ∧ value.isMade = false := by
  cases value with
  | call callee args ty =>
    exact Or.inl (List.mem_append_right _ (Expr.mem_occurrencesAll_of_var? h))
  | cond test thenBranch elseBranch ty =>
    cases test with
    | var c => exact Or.inl (List.mem_append_left _ (List.mem_append_left _ h))
    | _ => exact absurd h List.not_mem_nil
  | const value => exact absurd h List.not_mem_nil
  | op name => exact absurd h List.not_mem_nil
  | _ => exact Or.inr ⟨List.mem_singleton.1 h, rfl⟩

/-- What is used at the binding of a value is mentioned by the value. -/
theorem exists_occurrence_of_uses {v : Handle} {value : Expr} (hfrom : Inherits ids v value)
    {x : Handle} (h : (Waypoint.binding v value).UsesId ids x) :
    ∃ u ∈ value.occurrences, x ∈ ids u := by
  obtain ⟨u, hu, hx⟩ := h
  rcases Waypoint.mem_uses_binding hu with hu | ⟨rfl, hmade⟩
  · exact ⟨u, hu, hx⟩
  · exact hfrom hmade x hx

/-- The step over a conditional of which the branch `taken` is gone through. -/
theorem exists_occurrence_of_branch {v : Handle} {value taken body : Expr} {inner : Scope}
    {r x : Handle} {inside path : List Waypoint} (hbranch : BranchOf v value inner taken)
    (hexit : Waypoint.exit inner r ∈ inside)
    (hinside : Needed ids inside x → ∃ u ∈ taken.occurrences, x ∈ ids u)
    (hbody : Needed ids path x → ∃ u ∈ body.occurrences, x ∈ ids u)
    (h : Needed ids (.binding v value :: (inside ++ path)) x) :
    ∃ u ∈ (Expr.letIn v value body).occurrences, x ∈ ids u := by
  rcases h with huse | ⟨hlater, _⟩
  · obtain ⟨u, hu, hx⟩ := exists_occurrence_of_uses (inherits_of_isMade hbranch.isMade) huse
    exact ⟨u, List.mem_append_left _ hu, hx⟩
  · rcases needed_append hlater with hfirst | ⟨hsecond, hmints⟩
    · obtain ⟨u, hu, hx⟩ := hinside hfirst
      exact ⟨u, List.mem_append_left _ (hbranch.occurrences hu), hx⟩
    · obtain ⟨u, hu, hx⟩ := hbody hsecond
      have hne : u ≠ v := by
        rintro rfl
        exact hmints _ hexit ⟨u, hbranch.owner?_eq, hx⟩
      exact ⟨u, List.mem_append_right _ (List.mem_filter.2 ⟨hu, decide_eq_true hne⟩), hx⟩

/-- **What is needed on the way through a sequence occurs free in it.** -/
theorem exists_occurrence_of_needed {scope : Scope} {e : Expr} {path : List Waypoint}
    (hpath : ControlPath scope e path)
    (hfrom : ∀ v value, (v, value) ∈ e.allBindings → Inherits ids v value) {x : Handle}
    (h : Needed ids path x) : ∃ u ∈ e.occurrences, x ∈ ids u := by
  induction hpath with
  | result scope r =>
    rcases h with ⟨u, hu, hx⟩ | ⟨h, _⟩
    · exact ⟨u, hu, hx⟩
    · exact absurd h id
  | @bind scope v value body path hcond _ ih =>
    have hv : Inherits ids v value := hfrom v value Expr.binding_mem_allBindings
    have hbody : ∀ w y, (w, y) ∈ body.allBindings → Inherits ids w y := fun w y hb =>
      hfrom w y (Expr.mem_allBindings_of_body hb)
    rcases h with huse | ⟨hlater, hmint⟩
    · obtain ⟨u, hu, hx⟩ := exists_occurrence_of_uses hv huse
      exact ⟨u, List.mem_append_left _ hu, hx⟩
    · obtain ⟨u, hu, hx⟩ := ih hbody hlater
      by_cases hne : u = v
      · -- an identity of `v` itself: it was minted here, or the value has it too
        subst hne
        have hmade : value.isMade = false := by
          cases value with
          | call callee args ty => exact absurd ⟨u, rfl, hx⟩ hmint
          | cond test thenBranch elseBranch ty => cases hcond
          | _ => rfl
        obtain ⟨w, hw, hx⟩ := hv hmade x hx
        exact ⟨w, List.mem_append_left _ hw, hx⟩
      · exact ⟨u, List.mem_append_right _ (List.mem_filter.2 ⟨hu, decide_eq_true hne⟩), hx⟩
  | branch hbranch hinside _ ihi ihb =>
    obtain ⟨r, hexit⟩ := hinside.exit_mem
    refine exists_occurrence_of_branch hbranch hexit (ihi fun w y hb => ?_)
      (ihb fun w y hb => ?_) h
    · exact hfrom w y (Expr.mem_allBindings_of_inside (hbranch.branchBindings hb))
    · exact hfrom w y (Expr.mem_allBindings_of_body hb)

/-! ### Backwards over the waypoints -/

section Binding

variable {v x : Handle} {next after : HandleSet} {value : Expr}

/-- All that a call or a conditional mentions is live at it. -/
theorem mem_liveBinding_of_occurrence (hmade : value.isMade = true)
    (h : ∃ u ∈ value.occurrences, x ∈ ids u) : x ∈ liveBinding ids v next after value := by
  cases value with
  | call callee args ty => exact Std.ExtTreeSet.mem_union_iff.2 (Or.inl (mem_unionAll.2 h))
  | cond test thenBranch elseBranch ty =>
    exact Std.ExtTreeSet.mem_union_iff.2 (Or.inl (mem_unionAll.2 h))
  | _ => cases hmade

/-- What a binding uses is live at it. -/
theorem mem_liveBinding_of_uses (h : (Waypoint.binding v value).UsesId ids x) :
    x ∈ liveBinding ids v next after value := by
  have hself : (∃ u ∈ [v], x ∈ ids u) → x ∈ ids v ∪ after := by
    rintro ⟨u, hu, hx⟩
    exact Std.ExtTreeSet.mem_union_iff.2 (Or.inl (List.mem_singleton.1 hu ▸ hx))
  cases value with
  | call callee args ty =>
    exact mem_liveBinding_of_occurrence rfl (exists_occurrence_of_uses (inherits_of_isMade rfl) h)
  | cond test thenBranch elseBranch ty =>
    exact mem_liveBinding_of_occurrence rfl (exists_occurrence_of_uses (inherits_of_isMade rfl) h)
  | const value =>
    obtain ⟨u, hu, _⟩ := h
    exact absurd hu List.not_mem_nil
  | op name =>
    obtain ⟨u, hu, _⟩ := h
    exact absurd hu List.not_mem_nil
  | var w => exact hself h
  | tuple fields => exact hself h
  | get source index => exact hself h
  | closure params body => exact hself h
  | letIn w y body => exact hself h

/-- What is live behind a binding and not made there is live at it. -/
theorem mem_liveBinding_of_after (hafter : x ∈ after) (hmade : value.isMade = true → x ∉ ids v) :
    x ∈ liveBinding ids v next after value := by
  cases value with
  | call callee args ty =>
    exact Std.ExtTreeSet.mem_union_iff.2
      (Or.inr (Std.ExtTreeSet.mem_diff_iff.2 ⟨hafter, hmade rfl⟩))
  | cond test thenBranch elseBranch ty =>
    exact Std.ExtTreeSet.mem_union_iff.2
      (Or.inr (Std.ExtTreeSet.mem_diff_iff.2 ⟨hafter, hmade rfl⟩))
  | _ => exact Std.ExtTreeSet.mem_union_iff.2 (Or.inr hafter)

/-- The step over a binding that is no conditional. -/
theorem mem_liveBinding_of_needed {ws : List Waypoint} (hcond : value.isCond = false)
    (hlater : Needed ids ws x → x ∈ after) (h : Needed ids (.binding v value :: ws) x) :
    x ∈ liveBinding ids v next after value := by
  rcases h with huse | ⟨hws, hmint⟩
  · exact mem_liveBinding_of_uses huse
  · refine mem_liveBinding_of_after (hlater hws) fun hmade hx => ?_
    cases value with
    | call callee args ty => exact hmint ⟨v, rfl, hx⟩
    | cond test thenBranch elseBranch ty => cases hcond
    | _ => cases hmade

/-- The step over a conditional of which the branch `taken` is gone through. -/
theorem mem_liveBinding_of_branch {taken : Expr} {inner : Scope} {inside ws : List Waypoint}
    (hbranch : BranchOf v value inner taken) (hpath : ControlPath inner taken inside)
    (hfrom : ∀ w y, (w, y) ∈ taken.allBindings → Inherits ids w y)
    (hlater : Needed ids ws x → x ∈ after)
    (h : Needed ids (.binding v value :: (inside ++ ws)) x) :
    x ∈ liveBinding ids v next after value := by
  rcases h with huse | ⟨hws, _⟩
  · exact mem_liveBinding_of_uses huse
  · rcases needed_append hws with hfirst | ⟨hsecond, hmints⟩
    · obtain ⟨u, hu, hx⟩ := exists_occurrence_of_needed hpath hfrom hfirst
      exact mem_liveBinding_of_occurrence hbranch.isMade ⟨u, hbranch.occurrences hu, hx⟩
    · obtain ⟨r, hexit⟩ := hpath.exit_mem
      exact mem_liveBinding_of_after (hlater hsecond) fun _ hx =>
        hmints _ hexit ⟨v, hbranch.owner?_eq, hx⟩

end Binding

/-- **What is needed from a sequence on is live at its first point.**  `incoming` holds what is
needed on the way `rest` behind it and is not minted at its exit. -/
theorem mem_liveFirst_of_needed {scope : Scope} {e : Expr} {path : List Waypoint}
    (hpath : ControlPath scope e path) :
    (∀ v value, (v, value) ∈ e.allBindings → Inherits ids v value) →
      ∀ {rest : List Waypoint} {incoming : HandleSet},
        (∀ x, Needed ids rest x → (∀ v, scope.owner? = some v → x ∉ ids v) → x ∈ incoming) →
          ∀ {x : Handle}, Needed ids (path ++ rest) x → x ∈ liveFirst ids incoming e := by
  induction hpath with
  | result scope r =>
    intro _ rest incoming hrest x h
    rw [liveFirst, Std.ExtTreeSet.mem_union_iff]
    rcases h with ⟨u, hu, hx⟩ | ⟨hlater, hmint⟩
    · exact Or.inl (List.mem_singleton.1 hu ▸ hx)
    · exact Or.inr (hrest x hlater fun v hv hx => hmint ⟨v, hv, hx⟩)
  | @bind scope v value body path hcond _ ih =>
    intro hfrom rest incoming hrest x h
    refine mem_liveBinding_of_needed hcond (ih (fun w y hb => hfrom w y ?_) hrest) h
    exact Expr.mem_allBindings_of_body hb
  | branch hbranch hinside _ _ ihb =>
    intro hfrom rest incoming hrest x h
    rw [List.cons_append, List.append_assoc] at h
    refine mem_liveBinding_of_branch hbranch hinside (fun w y hb => hfrom w y ?_)
      (ihb (fun w y hb => hfrom w y ?_) hrest) h
    · exact Expr.mem_allBindings_of_inside (hbranch.branchBindings hb)
    · exact Expr.mem_allBindings_of_body hb

/-- At every stop of a way, behind which `rest` follows, all that is needed from there on is
live. -/
def LiveAlong (ids : Handle → HandleSet) (entries : List (Place × HandleSet))
    (rest : List Waypoint) : List Waypoint → Prop
  | [] => True
  | w :: ws =>
    (∃ set, (w.place, set) ∈ entries ∧ ∀ x, Needed ids (w :: (ws ++ rest)) x → x ∈ set) ∧
      LiveAlong ids entries rest ws

theorem LiveAlong.mono {entries entries' : List (Place × HandleSet)} {rest ws : List Waypoint}
    (hsub : ∀ entry ∈ entries, entry ∈ entries') (h : LiveAlong ids entries rest ws) :
    LiveAlong ids entries' rest ws := by
  induction ws with
  | nil => trivial
  | cons w ws ih =>
    obtain ⟨⟨set, hmem, hset⟩, hws⟩ := h
    exact ⟨⟨set, hsub _ hmem, hset⟩, ih hws⟩

theorem LiveAlong.append {entries : List (Place × HandleSet)} {rest ws ws' : List Waypoint}
    (h : LiveAlong ids entries (ws' ++ rest) ws) (h' : LiveAlong ids entries rest ws') :
    LiveAlong ids entries rest (ws ++ ws') := by
  induction ws with
  | nil => exact h'
  | cons w ws ih =>
    obtain ⟨⟨set, hmem, hset⟩, hws⟩ := h
    refine ⟨⟨set, hmem, fun x hx => hset x ?_⟩, ih hws⟩
    rw [← List.append_assoc]
    exact hx

/-- What is needed from the stop number `i` on is live there. -/
theorem LiveAlong.getElem? {entries : List (Place × HandleSet)} : ∀ {ws : List Waypoint} {i : Nat}
    {w : Waypoint}, LiveAlong ids entries [] ws → ws[i]? = some w →
      ∃ set, (w.place, set) ∈ entries ∧ ∀ x, Needed ids (ws.drop i) x → x ∈ set := by
  intro ws
  induction ws with
  | nil =>
    intro i w _ hi
    rw [List.getElem?_nil] at hi
    cases hi
  | cons w₀ ws ih =>
    rintro i w ⟨⟨set, hmem, hset⟩, hws⟩ hi
    cases i with
    | zero =>
      obtain rfl := Option.some.inj hi
      rw [List.append_nil] at hset
      exact ⟨set, hmem, hset⟩
    | succ i => exact ih hws hi

/-- **What is needed from any stop on is live there.** -/
theorem liveAlong_of_path {scope : Scope} {e : Expr} {path : List Waypoint}
    (hpath : ControlPath scope e path) :
    (∀ v value, (v, value) ∈ e.allBindings → Inherits ids v value) →
      ∀ (rest : List Waypoint) (incoming : HandleSet),
        (∀ x, Needed ids rest x → (∀ v, scope.owner? = some v → x ∉ ids v) → x ∈ incoming) →
          LiveAlong ids (liveEntries ids scope incoming e) rest path := by
  induction hpath with
  | result scope r =>
    intro hfrom rest incoming hrest
    exact ⟨⟨_, List.mem_cons_self, fun x hx =>
      mem_liveFirst_of_needed (ControlPath.result scope r) hfrom hrest hx⟩, trivial⟩
  | @bind scope v value body path hcond hbody ih =>
    intro hfrom rest incoming hrest
    have hlater := ih (fun w y hb => hfrom w y (Expr.mem_allBindings_of_body hb)) rest incoming
      hrest
    refine ⟨⟨_, List.mem_cons_self, fun x hx =>
      mem_liveFirst_of_needed (ControlPath.bind hcond hbody) hfrom hrest hx⟩, ?_⟩
    exact hlater.mono fun entry hentry => List.mem_cons_of_mem _ (List.mem_append_right _ hentry)
  | @branch scope inner v value taken body inside path hbranch hinside hbody ihi ihb =>
    intro hfrom rest incoming hrest
    have hhead := fun x => mem_liveFirst_of_needed (ControlPath.branch hbranch hinside hbody) hfrom
      hrest (x := x)
    have hfrom' : ∀ w y, (w, y) ∈ body.allBindings → Inherits ids w y := fun w y hb =>
      hfrom w y (Expr.mem_allBindings_of_body hb)
    have hfirst := ihi
      (fun w y hb => hfrom w y (Expr.mem_allBindings_of_inside (hbranch.branchBindings hb)))
      (path ++ rest) (liveFirst ids incoming body \ ids v) fun x hx hv =>
        Std.ExtTreeSet.mem_diff_iff.2
          ⟨mem_liveFirst_of_needed hbody hfrom' hrest hx, hv v hbranch.owner?_eq⟩
    refine ⟨⟨_, List.mem_cons_self, hhead⟩, LiveAlong.append (hfirst.mono fun entry hentry => ?_)
      ((ihb hfrom' rest incoming hrest).mono fun entry hentry => ?_)⟩
    · exact List.mem_cons_of_mem _ (List.mem_append_left _ (hbranch.liveInside hentry))
    · exact List.mem_cons_of_mem _ (List.mem_append_right _ hentry)

end Needs

/-! ### Analysed programs -/

/-- What a variable stands for comes from what its value mentions. -/
theorem Denotes.inherits {p : Propagation} {v : Handle} {value : Expr} (h : Denotes p v value)
    (hcovers : p.store.Covers) (hunique : value.UniqueBinders) :
    Inherits p.store.setOf v value := by
  intro hmade x hx
  have hempty : p.store.setOf v = ∅ → ∃ u ∈ value.occurrences, x ∈ p.store.setOf u := fun heq =>
    absurd (heq ▸ hx) Std.ExtTreeSet.not_mem_empty
  cases h with
  | var _ heq _ => exact ⟨_, List.mem_cons_self, heq ▸ hx⟩
  | const value heq _ => exact hempty heq
  | op name heq _ => exact hempty heq
  | closure _ hmem _ =>
    obtain ⟨u, hu, hx⟩ := (hmem x).1 hx
    exact ⟨u, (Expr.mem_freeVarsUnder hunique).1 hu, hx⟩
  | call _ => cases hmade
  | tuple _ hmem _ =>
    obtain ⟨u, hu, hx⟩ := (hmem x).1 hx
    obtain ⟨field, hfield, hvar⟩ := List.mem_map.1 hu
    exact ⟨u, Expr.mem_occurrencesAll_of_var? (List.mem_filterMap.2 ⟨field, hfield, hvar⟩), hx⟩
  | field hfields hindex heq _ =>
    exact ⟨_, List.mem_cons_self, hcovers hfields (List.mem_of_getElem? hindex) (heq ▸ hx)⟩
  | untracked _ _ heq _ => exact hempty heq
  | cond _ _ _ _ _ => cases hmade

section Mentioned

variable {v u : Handle} {value body : Expr}

/-- A variable that occurs free in the sequence or is bound in it. -/
def Mentioned (e : Expr) (u : Handle) : Prop := u ∈ e.occurrences ∨ u ∈ e.allBindings.map (·.1)

theorem mentioned_of_value (h : u ∈ value.occurrences) : Mentioned (.letIn v value body) u :=
  Or.inl (List.mem_append_left _ h)

theorem mentioned_binder : Mentioned (.letIn v value body) v := by
  refine Or.inr ?_
  rw [Expr.allBindings, List.map_append, List.map_cons]
  exact List.mem_append_right _ List.mem_cons_self

theorem mentioned_of_inside (h : u ∈ value.branchBindings.map (·.1)) :
    Mentioned (.letIn v value body) u := by
  refine Or.inr ?_
  rw [Expr.allBindings, List.map_append]
  exact List.mem_append_left _ h

theorem mentioned_of_body (h : Mentioned body u) : Mentioned (.letIn v value body) u := by
  rcases h with h | h
  · by_cases hne : u = v
    · exact hne ▸ mentioned_binder
    · exact Or.inl (List.mem_append_right _ (List.mem_filter.2 ⟨h, decide_eq_true hne⟩))
  · refine Or.inr ?_
    rw [Expr.allBindings, List.map_append, List.map_cons]
    exact List.mem_append_right _ (List.mem_cons_of_mem _ h)

theorem mentioned_of_stop (h : u ∈ (Waypoint.binding v value).uses ∨
    (Waypoint.binding v value).mints? = some u) : Mentioned (.letIn v value body) u := by
  rcases h with h | h
  · rcases Waypoint.mem_uses_binding h with h | ⟨rfl, _⟩
    · exact mentioned_of_value h
    · exact mentioned_binder
  · have heq : v = u := by
      cases value with
      | call callee args ty => exact Option.some.inj h
      | _ => cases h
    exact heq ▸ mentioned_binder

end Mentioned

/-- What a stop uses or mints is mentioned or bound in the sequence, or belongs to the
conditional around it. -/
theorem ControlPath.mentioned {scope : Scope} {e : Expr} {path : List Waypoint}
    (hpath : ControlPath scope e path) : ∀ {w : Waypoint} {u : Handle}, w ∈ path →
      (u ∈ w.uses ∨ w.mints? = some u) → scope.owner? = some u ∨ Mentioned e u := by
  induction hpath with
  | result scope r =>
    intro w u hw hu
    obtain rfl := List.mem_singleton.1 hw
    exact hu.symm.imp_right Or.inl
  | bind _ _ ih =>
    intro w u hw hu
    rcases List.mem_cons.1 hw with rfl | hw
    · exact Or.inr (mentioned_of_stop hu)
    · exact (ih hw hu).imp_right mentioned_of_body
  | branch hbranch _ _ ihi ihb =>
    intro w u hw hu
    rcases List.mem_cons.1 hw with rfl | hw
    · exact Or.inr (mentioned_of_stop hu)
    · rcases List.mem_append.1 hw with hw | hw
      · refine Or.inr ?_
        rcases ihi hw hu with h | h | h
        · exact Option.some.inj (hbranch.owner?_eq.symm.trans h) ▸ mentioned_binder
        · exact mentioned_of_value (hbranch.occurrences h)
        · obtain ⟨b, hb, rfl⟩ := List.mem_map.1 h
          exact mentioned_of_inside (List.mem_map_of_mem (hbranch.branchBindings hb))
      · exact (ihb hw hu).imp_right mentioned_of_body

/-- The identities that come into being at a stop, as they are published. -/
def Waypoint.Mints (l : Liveness) (w : Waypoint) (x : Handle) : Prop :=
  ∃ v ids, w.mints? = some v ∧ l.identitiesOf? v = some ids ∧ x ∈ ids

/-- The program point of a stop. -/
def Waypoint.point? (l : Liveness) : Waypoint → Option Handle
  | .binding v _ => some v
  | .exit scope _ => l.exit? scope

/-- The set of a stop is published at its point. -/
theorem LivePoints.Solved.published {m : LivePoints} {w : Waypoint} {set : HandleSet}
    (h : m.Solved w.place set) {l : Liveness} (hlive : l.live = m.live)
    (hexits : l.exits = m.exits) :
    ∃ point, w.point? l = some point ∧ l.liveAt? point = some set := by
  cases w with
  | binding v value =>
    cases h with
    | binding hset => exact ⟨v, rfl, by rw [Liveness.liveAt?, hlive, hset]⟩
  | exit scope r =>
    cases h with
    | exit hlookup _ hset =>
      exact ⟨_, by rw [Waypoint.point?, Liveness.exit?, hexits, hlookup],
        by rw [Liveness.liveAt?, hlive, hset]⟩

section Published

variable {vars : BinderTable} {f : Function} {p : Propagation} {m : LivePoints}

/-- A variable of the body of a resolved function is a bound handle of the program. -/
theorem Passed.mem_of_mentioned (h : Passed vars f p m) {u : Handle} (hu : Mentioned f.body u) :
    u ∈ p.store.sets ∧ u < vars.size := by
  rcases hu with hu | hu
  · have hu := h.resolved.closed hu
    exact ⟨h.grows.bound (List.mem_append_left _ hu),
      h.resolved.lt_size (List.mem_append_left _ hu)⟩
  · exact ⟨h.grows.bound (List.mem_append_right _ hu), h.resolved.lt_size
      (List.mem_append_right _ (h.flat.map_fst_allBindings_sublist.subset hu))⟩

/-- What is published of a bound variable of the program is what the store has for it. -/
theorem Passed.identitiesOf?_eq (h : Passed vars f p m) {l : Liveness}
    (hids : ∀ v < vars.size, l.identitiesOf? v = m.store.sets[v]?) {v : Handle}
    (hmem : v ∈ p.store.sets) (hlt : v < vars.size) :
    l.identitiesOf? v = some (p.store.setOf v) := by
  rw [hids v hlt, h.minted.sets hmem, getElem?_of_mem hmem]

/-- What a variable of the body stands for comes from what its value mentions. -/
theorem Passed.inherits (h : Passed vars f p m) {v : Handle} {value : Expr}
    (hb : (v, value) ∈ f.body.allBindings) : Inherits p.store.setOf v value :=
  (h.denotes hb).inherits (h.grows.covers (covers_empty _))
    (h.flat.ascending_of_mem h.resolved.ascending hb).1.uniqueBinders

/-- **On every control path, what is needed from a stop on is live at its point.** -/
theorem Passed.live_of_needed (h : Passed vars f p m) {path : List Waypoint}
    (hpath : ControlPath .body f.body path) {i : Nat} {w : Waypoint} (hi : path[i]? = some w) :
    ∃ set, m.Solved w.place set ∧ ∀ x, Needed p.store.setOf (path.drop i) x → x ∈ set := by
  have halong := liveAlong_of_path hpath (fun v value hb => h.inherits hb) [] ∅
    fun x hx => absurd hx id
  obtain ⟨set, hmem, hset⟩ := halong.getElem? hi
  exact ⟨set, h.solved _ hmem, hset⟩

end Published

/-- **Live until used.** Take any control path of a program that could be read and analysed, and
any two stops on it in order: what a variable used at the later one stands for is live at the
earlier one, unless a stop from the earlier one on mints it. -/
theorem live_until_used {source entry : String} {program : Program} {warnings : List Diagnostic}
    {f : Function} {terminal : Pass} {o : Outcome}
    (hread : readProgram source = .ok (program, warnings))
    (hentry : program.function? entry = some f) (hform : formErrors program.vars f = [])
    (hterminal : terminal = .liveness ∨ terminal = .sharing)
    (hanalyze : analyze program.vars f terminal = .ok o) {path : List Waypoint}
    (hpath : ControlPath .body f.body path) {i j : Nat} (hij : i ≤ j) {earlier later : Waypoint}
    (hi : path[i]? = some earlier) (hj : path[j]? = some later) {u : Handle}
    (hu : u ∈ later.uses) :
    ∃ point live ids, earlier.point? o.liveness = some point ∧
      o.liveness.liveAt? point = some live ∧ o.liveness.identitiesOf? u = some ids ∧
      ∀ x ∈ ids, (∀ k between, i ≤ k → k < j → path[k]? = some between →
        ¬ between.Mints o.liveness x) → x ∈ live := by
  obtain ⟨p, m, hpassed, hlive, hexits, hids⟩ :=
    exists_passed (readProgram_scoped hread hentry) hform hterminal hanalyze
  -- the published identities of a variable of the body are those of the store
  have hpublished : ∀ {v}, Mentioned f.body v →
      o.liveness.identitiesOf? v = some (p.store.setOf v) := fun {v} hv => by
    obtain ⟨hmem, hlt⟩ := hpassed.mem_of_mentioned hv
    exact hpassed.identitiesOf?_eq hids hmem hlt
  have hmentioned : ∀ {w v}, w ∈ path → (v ∈ w.uses ∨ w.mints? = some v) →
      Mentioned f.body v := fun hw hv =>
    (hpath.mentioned hw hv).resolve_left fun heq => by cases heq
  obtain ⟨set, hsolved, hset⟩ := hpassed.live_of_needed hpath hi
  obtain ⟨point, hpoint, hliveAt⟩ := hsolved.published hlive hexits
  refine ⟨point, set, p.store.setOf u, hpoint, hliveAt,
    hpublished (hmentioned (List.mem_of_getElem? hj) (Or.inl hu)), fun x hx hmints => ?_⟩
  refine hset x (needed_of_getElem? (j := j - i) ?_ ⟨u, hu, hx⟩ fun k w hk hw => ?_)
  · rw [List.getElem?_drop, Nat.add_sub_cancel' hij, hj]
  · rw [List.getElem?_drop] at hw
    rintro ⟨v, hv, hxv⟩
    exact hmints (i + k) w (Nat.le_add_right i k) (by omega) hw
      ⟨v, _, hv, hpublished (hmentioned (List.mem_of_getElem? hw) (Or.inr hv)), hxv⟩

/-- A program that calls an operator in one branch of a conditional. -/
def branchSource : String :=
  "fn @main(%c: Tensor, %a: Tensor) \x7b let %z = if (%c) \x7b let %y = add(%a, %c); %y \x7d " ++
    "else \x7b %a \x7d; %z \x7d"

/-- The conditional of `branchSource`. -/
def branchCond : Expr :=
  .cond (.var 0) (.letIn 2 (.call (.op "add") [.var 1, .var 0] .tensor) (.var 2)) (.var 1) .tensor

/-- What `branchSource` says. -/
def branchProgram : Program :=
  ⟨⟨#[⟨"c", .tensor, ⟨9, 19⟩⟩, ⟨"a", .tensor, ⟨21, 31⟩⟩, ⟨"y", .tensor, ⟨54, 75⟩⟩,
    ⟨"z", .tensor, ⟨35, 93⟩⟩]⟩, [("main", ⟨[0, 1], .letIn 3 branchCond (.var 3)⟩)]⟩

/-- The buffer that is used in the branch is live at the conditional in front of it. -/
theorem live_until_used_in_branch : ∃ f o live,
    readProgram branchSource = .ok (branchProgram, []) ∧
      branchProgram.function? "main" = some f ∧ formErrors branchProgram.vars f = [] ∧
      analyze branchProgram.vars f .sharing = .ok o ∧ o.liveness.liveAt? 3 = some live ∧
      5 ∈ live := by
  have hread : readProgram branchSource = .ok (branchProgram, []) := by cbv
  have hentry : branchProgram.function? "main" = some ⟨[0, 1], .letIn 3 branchCond (.var 3)⟩ := rfl
  have hrun : ((analyze branchProgram.vars ⟨[0, 1], .letIn 3 branchCond (.var 3)⟩
      .sharing).toOption.any fun o =>
        (o.liveness.identitiesOf? 1).any (·.toList = [5])) = true := by decide +kernel
  obtain ⟨o, hanalyze, hids⟩ := exists_ok_of_any hrun
  have hpath : ControlPath .body (.letIn 3 branchCond (.var 3))
      [.binding 3 branchCond, .binding 2 (.call (.op "add") [.var 1, .var 0] .tensor),
        .exit (.thenOf 3) 2, .exit .body 3] :=
    .branch (.thenBranch _ _ _ _) (.bind rfl (.result _ 2)) (.result _ 3)
  obtain ⟨point, live, ids, hpoint, hlive, hids', hmem⟩ := live_until_used hread hentry rfl
    (Or.inr rfl) hanalyze hpath (i := 0) (j := 1) (Nat.zero_le 1) rfl rfl (u := 1)
    List.mem_cons_self
  obtain rfl := Option.some.inj hpoint
  rw [hids', Option.any_some, decide_eq_true_iff] at hids
  have hfive : 5 ∈ ids := Std.ExtTreeSet.mem_toList.1 (hids ▸ List.mem_singleton.2 rfl)
  refine ⟨_, o, live, hread, hentry, rfl, hanalyze, hlive, hmem 5 hfive ?_⟩
  -- the conditional itself mints nothing before its branch is left
  rintro k between - hk hb ⟨v, -, hv, -⟩
  obtain rfl : k = 0 := by omega
  obtain rfl := Option.some.inj hb
  cases hv

end Analysis
end TensorLiveness
