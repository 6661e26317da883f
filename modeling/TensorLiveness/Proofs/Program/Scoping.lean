/-
# Occurrences, binders and lexical scope

What a program mentions and what it binds, by recursion on the expression:

* `Expr.occurrences`: the variables that occur free under lexical scoping, as often and
  in the order in which they are written.  A `let` is not in scope in its own value.
* `Expr.binders`: the handles that are bound anywhere inside, in the order in which they
  are allocated: those inside a value before the `let` that it belongs to.

`FreeVarWalk` lets a binder hide its name from its own position on.  As long as no binder
is repeated and none is mentioned outside its scope (`Expr.UniqueBinders`) that makes no
difference (`mem_freeVarsUnder`).  In a resolved program binders even grow along the text
(`Expr.Ascending`), so a variable is smaller than every binder that can see it.
-/

import Mathlib.Tactic.Tauto
import TensorLiveness.Program.FreeVars

namespace TensorLiveness
namespace Program

mutual

/-- The free occurrences of variables. -/
def Expr.occurrences : Expr → List Handle
  | .var v => [v]
  | .const _ | .op _ => []
  | .call callee args _ => callee.occurrences ++ Expr.occurrencesAll args
  | .tuple fields => Expr.occurrencesAll fields
  | .get source _ => source.occurrences
  | .cond test thenBranch elseBranch _ =>
    test.occurrences ++ thenBranch.occurrences ++ elseBranch.occurrences
  | .closure params body => body.occurrences.filter (· ∉ params)
  | .letIn v value body => value.occurrences ++ body.occurrences.filter (· ≠ v)

/-- The free occurrences of variables in expressions. -/
def Expr.occurrencesAll : List Expr → List Handle
  | [] => []
  | e :: es => e.occurrences ++ Expr.occurrencesAll es

end

/-- The variables among expressions occur free in them. -/
theorem Expr.mem_occurrencesAll_of_var? {args : List Expr} {u : Handle}
    (h : u ∈ args.filterMap Expr.var?) : u ∈ Expr.occurrencesAll args := by
  induction args with
  | nil => exact absurd h List.not_mem_nil
  | cons arg args ih =>
    rw [Expr.occurrencesAll, List.mem_append]
    rw [List.filterMap_cons] at h
    cases arg with
    | var w =>
      rcases List.mem_cons.1 h with rfl | h
      · exact Or.inl List.mem_cons_self
      · exact Or.inr (ih h)
    | _ => exact Or.inr (ih h)

mutual

/-- The handles bound inside an expression. -/
def Expr.binders : Expr → List Handle
  | .var _ | .const _ | .op _ => []
  | .call callee args _ => callee.binders ++ Expr.bindersAll args
  | .tuple fields => Expr.bindersAll fields
  | .get source _ => source.binders
  | .cond test thenBranch elseBranch _ =>
    test.binders ++ thenBranch.binders ++ elseBranch.binders
  | .closure params body => params ++ body.binders
  | .letIn v value body => value.binders ++ v :: body.binders

/-- The handles bound inside expressions. -/
def Expr.bindersAll : List Expr → List Handle
  | [] => []
  | e :: es => e.binders ++ Expr.bindersAll es

end

/-- No binder of `bs` is repeated, and none is in `us`. -/
structure Apart (bs us : List Handle) : Prop where
  nodup : bs.Nodup
  not_mem {u : Handle} : u ∈ us → u ∉ bs

theorem Apart.mono {bs bs' us us' : List Handle} (h : Apart bs us) (hbs : bs'.Sublist bs)
    (hus : ∀ u ∈ us', u ∈ us ∨ u ∉ bs') : Apart bs' us' :=
  ⟨h.nodup.sublist hbs, fun {u} hu hmem =>
    (hus u hu).elim (fun hu => h.not_mem hu (hbs.subset hmem)) fun hn => hn hmem⟩

/-- No binder is repeated, and none is mentioned outside its scope. -/
def Expr.UniqueBinders (e : Expr) : Prop := Apart e.binders e.occurrences

/-! ### The walk for free variables -/

namespace FreeVarWalk

/-- Meet variables one by one. -/
def mentionAll (w : FreeVarWalk) (us : List Handle) : FreeVarWalk := us.foldl mention w

theorem mentionAll_append (w : FreeVarWalk) (us vs : List Handle) :
    w.mentionAll (us ++ vs) = (w.mentionAll us).mentionAll vs := List.foldl_append

@[simp] theorem bound_mention (w : FreeVarWalk) (v : Handle) : (w.mention v).bound = w.bound := by
  unfold mention
  split <;> rfl

@[simp] theorem bound_mentionAll (w : FreeVarWalk) (us : List Handle) :
    (w.mentionAll us).bound = w.bound := by
  induction us generalizing w with
  | nil => rfl
  | cons u us ih => exact (ih (w.mention u)).trans (bound_mention w u)

theorem mem_bound_bindAll {w : FreeVarWalk} {vs : List Handle} {x : Handle} :
    x ∈ (w.bindAll vs).bound ↔ x ∈ w.bound ∨ x ∈ vs := by
  unfold bindAll
  dsimp only
  induction vs generalizing w with
  | nil => simp
  | cons v vs ih =>
    rw [List.foldl_cons, ih (w := ⟨w.bound.insert v, w.found⟩), Std.ExtTreeSet.mem_insert,
      Std.LawfulEqOrd.compare_eq_iff_eq, List.mem_cons, eq_comm]
    tauto

theorem mem_found_mention {w : FreeVarWalk} {v x : Handle} :
    x ∈ (w.mention v).found ↔ x ∈ w.found ∨ x = v ∧ x ∉ w.bound := by
  unfold mention
  split
  · rename_i h
    constructor
    · exact Or.inl
    · rintro (hx | ⟨rfl, hx⟩)
      · exact hx
      · exact h.resolve_left hx
  · rename_i h
    rw [List.mem_append, List.mem_singleton]
    constructor
    · rintro (hx | rfl)
      · exact Or.inl hx
      · exact Or.inr ⟨rfl, fun hb => h (Or.inl hb)⟩
    · rintro (hx | ⟨rfl, _⟩)
      · exact Or.inl hx
      · exact Or.inr rfl

theorem mem_found_mentionAll {w : FreeVarWalk} {us : List Handle} {x : Handle} :
    x ∈ (w.mentionAll us).found ↔ x ∈ w.found ∨ x ∈ us ∧ x ∉ w.bound := by
  induction us generalizing w with
  | nil => simp [mentionAll]
  | cons u us ih =>
    rw [show w.mentionAll (u :: us) = (w.mention u).mentionAll us from rfl, ih,
      mem_found_mention, bound_mention, List.mem_cons]
    tauto

/-- What is found depends on the binders met only as far as they are mentioned.  A
mentioned variable that is hidden (`p` fails) may as well not be mentioned. -/
theorem found_mentionAll_filter (p : Handle → Bool) : ∀ (us : List Handle) {w w' : FreeVarWalk},
    w'.found = w.found → (∀ u ∈ us, u ∈ w'.bound ↔ u ∈ w.bound ∨ p u = false) →
      (w'.mentionAll us).found = (w.mentionAll (us.filter p)).found
  | [], _, _, hfound, _ => hfound
  | u :: us, w, w', hfound, hbound => by
    have hu := hbound u List.mem_cons_self
    have hus : ∀ x ∈ us, x ∈ w'.bound ↔ x ∈ w.bound ∨ p x = false := fun x hx =>
      hbound x (List.mem_cons_of_mem u hx)
    rw [show w'.mentionAll (u :: us) = (w'.mention u).mentionAll us from rfl]
    cases hp : p u with
    | false =>
      have hskip : w'.mention u = w' := if_pos (Or.inl (hu.2 (Or.inr hp)))
      rw [List.filter_cons_of_neg (by rw [hp]; exact Bool.false_ne_true), hskip]
      exact found_mentionAll_filter p us hfound hus
    | true =>
      rw [List.filter_cons_of_pos hp]
      refine found_mentionAll_filter p us (w := w.mention u) ?_ fun x hx => ?_
      · have hiff : u ∈ w'.bound ↔ u ∈ w.bound := by rw [hu, hp]; simp
        unfold mention
        simp only [hiff, hfound]
        split
        · exact hfound
        · rfl
      · rw [bound_mention, bound_mention]
        exact hus x hx

/-- A walk that went past `us` and goes on to `vs` finds what a walk past both finds. -/
theorem found_mentionAll_trans {w w₁ : FreeVarWalk} {us vs : List Handle} (p : Handle → Bool)
    (hfound : w₁.found = (w.mentionAll us).found)
    (hbound : ∀ u ∈ vs, u ∈ w₁.bound ↔ u ∈ w.bound ∨ p u = false) :
    (w₁.mentionAll vs).found = (w.mentionAll (us ++ vs.filter p)).found := by
  rw [mentionAll_append]
  refine found_mentionAll_filter p vs hfound fun u hu => ?_
  rw [bound_mentionAll]
  exact hbound u hu

/-- The same where nothing is hidden: `bs` was bound on the way, and `vs` avoids it. -/
theorem found_mentionAll_trans_of_not_mem {w w₁ : FreeVarWalk} {us vs bs : List Handle}
    (hfound : w₁.found = (w.mentionAll us).found)
    (hbound : ∀ x, x ∈ w₁.bound ↔ x ∈ w.bound ∨ x ∈ bs) (hvs : ∀ u ∈ vs, u ∉ bs) :
    (w₁.mentionAll vs).found = (w.mentionAll (us ++ vs)).found := by
  have hshown : ∀ u ∈ vs, u ∈ w₁.bound ↔ u ∈ w.bound ∨ true = false := fun u hu => by
    rw [hbound]
    simp [hvs u hu]
  have := found_mentionAll_trans (fun _ => true) hfound hshown
  rwa [List.filter_eq_self.2 fun _ _ => rfl] at this

end FreeVarWalk

open FreeVarWalk

mutual

/-- **The walk finds the free occurrences, each once,** and comes out knowing the binders. -/
theorem Expr.walkFree_spec : ∀ (e : Expr) (w : FreeVarWalk), e.UniqueBinders →
    (e.walkFree w).found = (w.mentionAll e.occurrences).found ∧
      ∀ x, x ∈ (e.walkFree w).bound ↔ x ∈ w.bound ∨ x ∈ e.binders
  | .var v, w, _ => ⟨rfl, fun x => by simp [Expr.walkFree, Expr.binders]⟩
  | .const _, _, _ | .op _, _, _ => ⟨rfl, fun x => by simp [Expr.walkFree, Expr.binders]⟩
  | .call callee args _, w, h => by
    rw [Expr.UniqueBinders, Expr.binders, Expr.occurrences] at h
    obtain ⟨hf, hb⟩ := callee.walkFree_spec w
      (h.mono (List.sublist_append_left _ _) fun u hu => Or.inl (List.mem_append_left _ hu))
    obtain ⟨hfs, hbs⟩ := Expr.walkFreeAll_spec args (callee.walkFree w)
      (h.mono (List.sublist_append_right _ _) fun u hu => Or.inl (List.mem_append_right _ hu))
    refine ⟨?_, fun x => ?_⟩
    · rw [Expr.walkFree, Expr.occurrences, hfs]
      exact found_mentionAll_trans_of_not_mem hf hb fun u hu hmem =>
        h.not_mem (List.mem_append_right _ hu) (List.mem_append_left _ hmem)
    · rw [Expr.walkFree, Expr.binders, hbs, hb, List.mem_append, or_assoc]
  | .tuple fields, w, h => by
    rw [Expr.walkFree, Expr.occurrences, Expr.binders]
    exact Expr.walkFreeAll_spec fields w h
  | .get source _, w, h => by
    rw [Expr.walkFree, Expr.occurrences, Expr.binders]
    exact source.walkFree_spec w h
  | .cond test thenBranch elseBranch _, w, h => by
    rw [Expr.UniqueBinders, Expr.binders, Expr.occurrences] at h
    have h₁₂ : Apart (test.binders ++ thenBranch.binders)
        (test.occurrences ++ thenBranch.occurrences) :=
      h.mono (List.sublist_append_left _ _) fun u hu => Or.inl (List.mem_append_left _ hu)
    obtain ⟨hf₁, hb₁⟩ := test.walkFree_spec w
      (h₁₂.mono (List.sublist_append_left _ _) fun u hu => Or.inl (List.mem_append_left _ hu))
    obtain ⟨hf₂, hb₂⟩ := thenBranch.walkFree_spec (test.walkFree w)
      (h₁₂.mono (List.sublist_append_right _ _) fun u hu => Or.inl (List.mem_append_right _ hu))
    obtain ⟨hf₃, hb₃⟩ := elseBranch.walkFree_spec (thenBranch.walkFree (test.walkFree w))
      (h.mono (List.sublist_append_right _ _) fun u hu => Or.inl (List.mem_append_right _ hu))
    have hf₁₂ : (thenBranch.walkFree (test.walkFree w)).found =
        (w.mentionAll (test.occurrences ++ thenBranch.occurrences)).found :=
      hf₂.trans <| found_mentionAll_trans_of_not_mem hf₁ hb₁ fun u hu hmem =>
        h₁₂.not_mem (List.mem_append_right _ hu) (List.mem_append_left _ hmem)
    have hb₁₂ : ∀ x, x ∈ (thenBranch.walkFree (test.walkFree w)).bound ↔
        x ∈ w.bound ∨ x ∈ test.binders ++ thenBranch.binders := fun x => by
      rw [hb₂, hb₁, List.mem_append, or_assoc]
    refine ⟨?_, fun x => ?_⟩
    · rw [Expr.walkFree, Expr.occurrences, hf₃]
      exact found_mentionAll_trans_of_not_mem hf₁₂ hb₁₂ fun u hu hmem =>
        h.not_mem (List.mem_append_right _ hu) (List.mem_append_left _ hmem)
    · rw [Expr.walkFree, Expr.binders, hb₃, hb₁₂, List.mem_append (s := _ ++ _), or_assoc]
  | .closure params body, w, h => by
    rw [Expr.UniqueBinders, Expr.binders, Expr.occurrences] at h
    have hparams : ∀ u ∈ params, u ∉ body.binders := fun u hu hmem =>
      (List.nodup_append.1 h.nodup).2.2 u hu u hmem rfl
    obtain ⟨hf, hb⟩ := body.walkFree_spec (w.bindAll params)
      (h.mono (List.sublist_append_right _ _) fun u hu => by
        by_cases hp : u ∈ params
        · exact Or.inr (hparams u hp)
        · exact Or.inl (List.mem_filter.2 ⟨hu, decide_eq_true hp⟩))
    refine ⟨?_, fun x => ?_⟩
    · rw [Expr.walkFree, Expr.occurrences, hf]
      refine found_mentionAll_filter _ _ rfl fun u _ => ?_
      rw [mem_bound_bindAll, decide_eq_false_iff_not, not_not]
    · rw [Expr.walkFree, Expr.binders, hb, mem_bound_bindAll, List.mem_append, or_assoc]
  | .letIn v value body, w, h => by
    rw [Expr.UniqueBinders, Expr.binders, Expr.occurrences] at h
    obtain ⟨_, htail, hcross⟩ := List.nodup_append.1 h.nodup
    obtain ⟨hvbody, _⟩ := List.nodup_cons.1 htail
    have hbody : ∀ u ∈ body.occurrences, u ≠ v →
        u ∉ value.binders ++ v :: body.binders := fun u hu hne =>
      h.not_mem (List.mem_append_right _ (List.mem_filter.2 ⟨hu, decide_eq_true hne⟩))
    obtain ⟨hf₁, hb₁⟩ := value.walkFree_spec w
      (h.mono (List.sublist_append_left _ _) fun u hu => Or.inl (List.mem_append_left _ hu))
    obtain ⟨hf₂, hb₂⟩ := body.walkFree_spec ((value.walkFree w).bindAll [v])
      (h.mono ((List.sublist_cons_self _ _).trans (List.sublist_append_right _ _)) fun u hu => by
        by_cases hne : u = v
        · exact Or.inr (hne ▸ hvbody)
        · exact Or.inl (List.mem_append_right _ (List.mem_filter.2 ⟨hu, decide_eq_true hne⟩)))
    refine ⟨?_, fun x => ?_⟩
    · rw [Expr.walkFree, Expr.occurrences, hf₂]
      refine found_mentionAll_trans _ hf₁ fun u hu => ?_
      rw [mem_bound_bindAll, hb₁, List.mem_singleton, decide_eq_false_iff_not, not_not]
      by_cases hne : u = v
      · simp only [hne, or_true]
      · have hnot : u ∉ value.binders := fun hmem =>
          hbody u hu hne (List.mem_append_left _ hmem)
        simp only [hnot, or_false]
    · rw [Expr.walkFree, Expr.binders, hb₂, mem_bound_bindAll, hb₁, List.mem_singleton,
        List.mem_append, List.mem_cons, or_assoc, or_assoc]

/-- The same for a walk through expressions. -/
theorem Expr.walkFreeAll_spec : ∀ (es : List Expr) (w : FreeVarWalk),
    Apart (Expr.bindersAll es) (Expr.occurrencesAll es) →
      (Expr.walkFreeAll es w).found = (w.mentionAll (Expr.occurrencesAll es)).found ∧
        ∀ x, x ∈ (Expr.walkFreeAll es w).bound ↔ x ∈ w.bound ∨ x ∈ Expr.bindersAll es
  | [], w, _ => ⟨rfl, fun x => by simp [Expr.walkFreeAll, Expr.bindersAll]⟩
  | e :: es, w, h => by
    rw [Expr.bindersAll, Expr.occurrencesAll] at h
    obtain ⟨hf, hb⟩ := e.walkFree_spec w
      (h.mono (List.sublist_append_left _ _) fun u hu => Or.inl (List.mem_append_left _ hu))
    obtain ⟨hfs, hbs⟩ := Expr.walkFreeAll_spec es (e.walkFree w)
      (h.mono (List.sublist_append_right _ _) fun u hu => Or.inl (List.mem_append_right _ hu))
    refine ⟨?_, fun x => ?_⟩
    · rw [Expr.walkFreeAll, Expr.occurrencesAll, hfs]
      exact found_mentionAll_trans_of_not_mem hf hb fun u hu hmem =>
        h.not_mem (List.mem_append_right _ hu) (List.mem_append_left _ hmem)
    · rw [Expr.walkFreeAll, Expr.bindersAll, hbs, hb, List.mem_append, or_assoc]

end

/-- **The free variables of a closure are those that occur free in it.** -/
theorem Expr.mem_freeVarsUnder {params : List Handle} {body : Expr}
    (h : (Expr.closure params body).UniqueBinders) {x : Handle} :
    x ∈ body.freeVarsUnder params ↔ x ∈ (Expr.closure params body).occurrences := by
  have hempty : x ∉ (∅ : Std.ExtTreeSet Handle) := Std.ExtTreeSet.not_mem_empty
  have := ((Expr.closure params body).walkFree_spec ⟨∅, []⟩ h).1
  rw [Expr.walkFree] at this
  rw [Expr.freeVarsUnder, this, mem_found_mentionAll]
  simp [hempty]

/-- The free variables of an expression are those that occur free in it. -/
theorem Expr.mem_freeVars {e : Expr} (h : e.UniqueBinders) {x : Handle} :
    x ∈ e.freeVars ↔ x ∈ e.occurrences := by
  have hocc : (Expr.closure [] e).occurrences = e.occurrences := by
    simp [Expr.occurrences]
  rw [← hocc]
  refine Expr.mem_freeVarsUnder ?_
  rw [Expr.UniqueBinders, hocc]
  exact h

/-- The walk `w'` comes out of `w` on the way past `us`: what is found was found before or is among
`us` and was not hidden, and no binder is forgotten. -/
structure FreeVarWalk.Passes (w w' : FreeVarWalk) (us : List Handle) : Prop where
  found {x : Handle} : x ∈ w'.found → x ∈ w.found ∨ x ∈ us ∧ x ∉ w.bound
  bound {x : Handle} : x ∈ w.bound → x ∈ w'.bound

namespace FreeVarWalk.Passes

variable {w w₁ w₂ : FreeVarWalk} {us vs bs : List Handle}

theorem refl (w : FreeVarWalk) : w.Passes w [] := ⟨Or.inl, id⟩

theorem trans (h : w.Passes w₁ us) (h' : w₁.Passes w₂ vs) : w.Passes w₂ (us ++ vs) := by
  refine ⟨fun {x} hx => ?_, fun hx => h'.bound (h.bound hx)⟩
  rw [List.mem_append]
  rcases h'.found hx with hx | ⟨hx, hnot⟩
  · exact (h.found hx).imp_right fun h => ⟨Or.inl h.1, h.2⟩
  · exact Or.inr ⟨Or.inr hx, fun hb => hnot (h.bound hb)⟩

/-- What the binders `bs` hide does not count. -/
theorem of_bindAll (h : (w.bindAll bs).Passes w₁ us) (hvs : ∀ x ∈ us, x ∉ bs → x ∈ vs) :
    w.Passes w₁ vs := by
  refine ⟨fun {x} hx => ?_, fun hx => h.bound (mem_bound_bindAll.2 (Or.inl hx))⟩
  rcases h.found hx with hx | ⟨hx, hnot⟩
  · exact Or.inl hx
  · rw [mem_bound_bindAll, not_or] at hnot
    exact Or.inr ⟨hvs x hx hnot.2, hnot.1⟩

end FreeVarWalk.Passes

mutual

/-- **The walk finds nothing but free occurrences,** whichever binders it meets. -/
theorem Expr.walkFree_passes : ∀ (e : Expr) (w : FreeVarWalk), w.Passes (e.walkFree w) e.occurrences
  | .var v, w => by
    refine ⟨fun {x} hx => ?_, fun {x} hx => ?_⟩
    · rw [Expr.walkFree, mem_found_mention] at hx
      exact hx.imp_right fun h => ⟨List.mem_singleton.2 h.1, h.2⟩
    · rwa [Expr.walkFree, bound_mention]
  | .const _, w | .op _, w => .refl w
  | .call callee args _, w => (callee.walkFree_passes w).trans (Expr.walkFreeAll_passes args _)
  | .tuple fields, w => Expr.walkFreeAll_passes fields w
  | .get source _, w => source.walkFree_passes w
  | .cond test thenBranch elseBranch _, w =>
    ((test.walkFree_passes w).trans (thenBranch.walkFree_passes _)).trans
      (elseBranch.walkFree_passes _)
  | .closure params body, w =>
    (body.walkFree_passes (w.bindAll params)).of_bindAll fun _ hx hnot =>
      List.mem_filter.2 ⟨hx, decide_eq_true hnot⟩
  | .letIn v value body, w =>
    (value.walkFree_passes w).trans <|
      (body.walkFree_passes ((value.walkFree w).bindAll [v])).of_bindAll fun _ hx hnot =>
        List.mem_filter.2 ⟨hx, decide_eq_true fun heq => hnot (List.mem_singleton.2 heq)⟩

/-- The same for a walk through expressions. -/
theorem Expr.walkFreeAll_passes : ∀ (es : List Expr) (w : FreeVarWalk),
    w.Passes (Expr.walkFreeAll es w) (Expr.occurrencesAll es)
  | [], w => .refl w
  | e :: es, w => (e.walkFree_passes w).trans (Expr.walkFreeAll_passes es _)

end

/-- A closure captures nothing that does not occur free in it. -/
theorem Expr.occurrences_of_freeVarsUnder {params : List Handle} {body : Expr} {x : Handle}
    (h : x ∈ body.freeVarsUnder params) : x ∈ (Expr.closure params body).occurrences := by
  have hwalk := (Expr.closure params body).walkFree_passes ⟨∅, []⟩
  exact ((hwalk.found h).resolve_left List.not_mem_nil).1

theorem Expr.occurrences_of_freeVars {e : Expr} {x : Handle} (h : x ∈ e.freeVars) :
    x ∈ e.occurrences := by
  have hclosure := Expr.occurrences_of_freeVarsUnder h
  exact (List.mem_filter.1 hclosure).1

/-! ### Binders in the order of the text -/

/-- Binders grow along the text, and what is mentioned is smaller than all of them. -/
structure Expr.Ascending (e : Expr) : Prop where
  sorted : e.binders.Pairwise (· < ·)
  below {u w : Handle} : u ∈ e.occurrences → w ∈ e.binders → u < w

namespace Expr.Ascending

variable {v : Handle} {x e c t f : Expr} {ty : Ty}

theorem uniqueBinders {e : Expr} (h : e.Ascending) : e.UniqueBinders :=
  ⟨h.sorted.imp Nat.ne_of_lt, fun hu hmem => Nat.lt_irrefl _ (h.below hu hmem)⟩

theorem value (h : (Expr.letIn v x e).Ascending) : x.Ascending := by
  obtain ⟨hsorted, hbelow⟩ := h
  simp only [binders, occurrences, List.mem_append] at hsorted hbelow
  exact ⟨(List.pairwise_append.1 hsorted).1, fun hu hw => hbelow (Or.inl hu) (Or.inl hw)⟩

theorem body (h : (Expr.letIn v x e).Ascending) : e.Ascending := by
  obtain ⟨hsorted, hbelow⟩ := h
  simp only [binders, occurrences, List.mem_append, List.mem_cons, List.mem_filter,
    decide_eq_true_eq] at hsorted hbelow
  obtain ⟨hv, hbody⟩ := List.pairwise_cons.1 (List.pairwise_append.1 hsorted).2.1
  refine ⟨hbody, fun {u w} hu hw => ?_⟩
  by_cases hne : u = v
  · exact hne ▸ hv w hw
  · exact hbelow (Or.inr ⟨hu, hne⟩) (Or.inr (Or.inr hw))

theorem thenBranch (h : (Expr.cond c t f ty).Ascending) :
    t.Ascending := by
  obtain ⟨hsorted, hbelow⟩ := h
  simp only [binders, occurrences, List.mem_append] at hsorted hbelow
  obtain ⟨-, hthen, -⟩ := List.pairwise_append.1 (List.pairwise_append.1 hsorted).1
  exact ⟨hthen, fun hu hw => hbelow (Or.inl (Or.inr hu)) (Or.inl (Or.inr hw))⟩

theorem elseBranch (h : (Expr.cond c t f ty).Ascending) :
    f.Ascending := by
  obtain ⟨hsorted, hbelow⟩ := h
  simp only [binders, occurrences, List.mem_append] at hsorted hbelow
  exact ⟨(List.pairwise_append.1 hsorted).2.1, fun hu hw => hbelow (Or.inr hu) (Or.inr hw)⟩

/-- The binders of the first branch are smaller than those of the second. -/
theorem lt_of_mem_branches (h : (Expr.cond c t f ty).Ascending) {u w : Handle}
    (hu : u ∈ t.binders) (hw : w ∈ f.binders) : u < w :=
  (List.pairwise_append.1 h.sorted).2.2 u (List.mem_append_right _ hu) w hw

/-- What a value mentions is smaller than the variable that it is bound to. -/
theorem lt_of_mem_value (h : (Expr.letIn v x e).Ascending) {u : Handle}
    (hu : u ∈ x.occurrences) : u < v :=
  h.below (List.mem_append_left _ hu) (List.mem_append_right _ List.mem_cons_self)

/-- The binders inside a value are smaller than the variable that it is bound to. -/
theorem lt_of_mem_binders (h : (Expr.letIn v x e).Ascending) {u : Handle}
    (hu : u ∈ x.binders) : u < v :=
  (List.pairwise_append.1 h.sorted).2.2 u hu v List.mem_cons_self

/-- A variable is smaller than the binders behind it. -/
theorem lt_of_mem_body (h : (Expr.letIn v x e).Ascending) {w : Handle}
    (hw : w ∈ e.binders) : v < w :=
  (List.pairwise_cons.1 (List.pairwise_append.1 h.sorted).2.1).1 w hw

end Expr.Ascending

end Program
end TensorLiveness
