/-
# Queries for free variables

The walk for free variables keeps one growing set of binders, and a memo keeps its answers.
Whatever was asked before, an answer is the list of the free occurrences, each variable once:

| step                     | lemma                       |
|--------------------------|-----------------------------|
| the walk without a memo  | `Query.walked_eq`           |
| one table of the memo    | `Holds.hit`, `Holds.insert` |
| one query to the memo    | `FreeVarMemo.Remembers.ask` |
| a history of queries     | `FreeVarMemo.Remembers.askAll`, `FreeVarMemo.askAll_empty` |

An occurrence stands for the address of an expression.  As long as the memo lives, one
address has one expression (`History.text`).
-/

import Mathlib.Data.Finset.Card
import Mathlib.Data.Finset.Dedup
import TensorLiveness.Proofs.Program.Scoping

namespace TensorLiveness
namespace Program

/-! ### What the walk finds -/

/-- A walk that knows no binder finds every variable once, in the order of first mention. -/
theorem FreeVarWalk.found_mentionAll_eraseDups (us vs : List Handle) :
    (mentionAll ⟨∅, us.eraseDups⟩ vs).found = (us ++ vs).eraseDups := by
  induction vs generalizing us with
  | nil => rw [List.append_nil]; rfl
  | cons v vs ih =>
    have hstep : mention ⟨∅, us.eraseDups⟩ v = ⟨∅, (us ++ [v]).eraseDups⟩ := by
      have hempty : v ∉ (∅ : Std.ExtTreeSet Handle) := Std.ExtTreeSet.not_mem_empty
      have hone : [v].eraseDups = [v] := List.eraseDups_cons
      by_cases hv : v ∈ us <;>
        simp [mention, hempty, hv, hone, List.eraseDups_append, List.removeAll]
    calc (mentionAll ⟨∅, us.eraseDups⟩ (v :: vs)).found
        = (mentionAll (mention ⟨∅, us.eraseDups⟩ v) vs).found := rfl
      _ = ((us ++ [v]) ++ vs).eraseDups := by rw [hstep, ih]
      _ = (us ++ v :: vs).eraseDups := by rw [List.append_assoc, List.singleton_append]

/-- The free variables of a closure, as a list. -/
theorem Expr.freeVarsUnder_eq {params : List Handle} {body : Expr}
    (h : (Expr.closure params body).UniqueBinders) :
    body.freeVarsUnder params = (Expr.closure params body).occurrences.eraseDups := by
  have hwalk := ((Expr.closure params body).walkFree_spec ⟨∅, []⟩ h).1
  rw [Expr.walkFree] at hwalk
  exact hwalk.trans (FreeVarWalk.found_mentionAll_eraseDups [] _)

/-- The free variables of an expression, as a list. -/
theorem Expr.freeVars_eq {e : Expr} (h : e.UniqueBinders) :
    e.freeVars = e.occurrences.eraseDups :=
  (e.walkFree_spec ⟨∅, []⟩ h).1.trans (FreeVarWalk.found_mentionAll_eraseDups [] _)

/-! ### Queries -/

/-- A question to the memo: about the expression at an occurrence, or about the closure with
these parameters whose body stands there. -/
inductive Query
  | plain (occurrence : Nat) (e : Expr)
  | closure (occurrence : Nat) (params : List Handle) (body : Expr)

namespace Query

/-- Where the expression stands that the memo looks up. -/
def occurrence : Query → Nat
  | .plain k _ | .closure k _ _ => k

/-- The expression that stands there. -/
def text : Query → Expr
  | .plain _ e | .closure _ _ e => e

/-- The expression whose free variables are asked for. -/
def subject : Query → Expr
  | .plain _ e => e
  | .closure _ params body => .closure params body

/-- The answer without a memo. -/
def walked : Query → List Handle
  | .plain _ e => e.freeVars
  | .closure _ params body => body.freeVarsUnder params

/-- The occurrence that a plain question is about. -/
def plain? : Query → Option Nat
  | .plain k _ => some k
  | .closure .. => none

/-- The occurrence that a question about a closure is about. -/
def closure? : Query → Option Nat
  | .plain .. => none
  | .closure k _ _ => some k

theorem walked_eq {q : Query} (h : q.subject.UniqueBinders) :
    q.walked = q.subject.occurrences.eraseDups := by
  cases q with
  | plain k e => exact Expr.freeVars_eq h
  | closure k params body => exact Expr.freeVarsUnder_eq h

end Query

/-- Queries as one analysis makes them: an occurrence has one expression, a closure's body is
always asked with the same parameters, and binders are unique and used in scope. -/
structure History (qs : List Query) : Prop where
  text {q q' : Query} : q ∈ qs → q' ∈ qs → q.occurrence = q'.occurrence → q.text = q'.text
  params {k : Nat} {params params' : List Handle} {body body' : Expr} :
    .closure k params body ∈ qs → .closure k params' body' ∈ qs → params = params'
  unique {q : Query} : q ∈ qs → q.subject.UniqueBinders

namespace History

variable {qs : List Query}

theorem mono {qs' : List Query} (h : History qs) (hsub : qs' ⊆ qs) : History qs' :=
  ⟨fun hq hq' => h.text (hsub hq) (hsub hq'), fun hq hq' => h.params (hsub hq) (hsub hq'),
    fun hq => h.unique (hsub hq)⟩

/-- Plain questions about one occurrence have one answer. -/
theorem walked_plain (h : History qs) {k : Nat} {q q' : Query} (hq : q ∈ qs) (hq' : q' ∈ qs)
    (hk : q.plain? = some k) (hk' : q'.plain? = some k) : q.walked = q'.walked := by
  cases q with
  | closure => cases hk
  | plain j e =>
    cases q' with
    | closure => cases hk'
    | plain j' e' =>
      have hoccurrence : j = j' := Option.some.inj (hk.trans hk'.symm)
      have htext : e = e' := h.text hq hq' hoccurrence
      rw [Query.walked, Query.walked, htext]

/-- Questions about the closure at one occurrence have one answer. -/
theorem walked_closure (h : History qs) {k : Nat} {q q' : Query} (hq : q ∈ qs) (hq' : q' ∈ qs)
    (hk : q.closure? = some k) (hk' : q'.closure? = some k) : q.walked = q'.walked := by
  cases q with
  | plain => cases hk
  | closure j params body =>
    cases q' with
    | plain => cases hk'
    | closure j' params' body' =>
      obtain rfl : j = j' := Option.some.inj (hk.trans hk'.symm)
      have htext : body = body' := h.text hq hq' rfl
      rw [Query.walked, Query.walked, htext, h.params hq hq']

end History

/-! ### One table -/

/-- The table holds the answers to the questions of `past` that `key?` files under an
occurrence, and nothing else. -/
def Holds (key? : Query → Option Nat) (t : Std.ExtTreeMap Nat (List Handle))
    (past : List Query) : Prop :=
  ∀ k vs, t[k]? = some vs ↔ ∃ q ∈ past, key? q = some k ∧ q.walked = vs

namespace Holds

variable {key? : Query → Option Nat} {t : Std.ExtTreeMap Nat (List Handle)}
  {past : List Query} {q : Query} {k : Nat} {vs : List Handle}

/-- A question that is filed elsewhere changes nothing. -/
theorem skip (h : Holds key? t past) (hq : key? q = none) : Holds key? t (past ++ [q]) := by
  intro k vs
  rw [h k vs]
  simp [or_and_right, exists_or, hq]

/-- A question that finds an entry gets its answer from it. -/
theorem hit (h : Holds key? t past) (hk : key? q = some k) (hvs : t[k]? = some vs)
    (hsame : ∀ q' ∈ past, key? q' = some k → q'.walked = q.walked) :
    vs = q.walked ∧ Holds key? t (past ++ [q]) := by
  obtain ⟨q', hq', hk', rfl⟩ := (h k vs).1 hvs
  have hans := hsame q' hq' hk'
  refine ⟨hans, fun j us => ?_⟩
  rw [h j us]
  constructor
  · rintro ⟨r, hr, hr'⟩
    exact ⟨r, List.mem_append_left _ hr, hr'⟩
  · rintro ⟨r, hr, hj, hus⟩
    rcases List.mem_append.1 hr with hr | hr
    · exact ⟨r, hr, hj, hus⟩
    · obtain rfl := List.mem_singleton.1 hr
      exact ⟨q', hq', hk'.trans (hk.symm.trans hj), hans.trans hus⟩

/-- A question that finds no entry leaves one. -/
theorem insert (h : Holds key? t past) (hk : key? q = some k) (hnone : t[k]? = none) :
    Holds key? (t.insert k q.walked) (past ++ [q]) := by
  have hfresh : ∀ r ∈ past, key? r ≠ some k := fun r hr hrk => by
    have hsome := (h k r.walked).2 ⟨r, hr, hrk, rfl⟩
    rw [hnone] at hsome
    cases hsome
  intro j us
  rw [Std.ExtTreeMap.getElem?_insert]
  by_cases heq : k = j
  · rw [if_pos (Std.LawfulEqOrd.compare_eq_iff_eq.2 heq), ← heq, Option.some.injEq]
    constructor
    · exact fun hus => ⟨q, by simp, hk, hus⟩
    · rintro ⟨r, hr, hrk, hus⟩
      rcases List.mem_append.1 hr with hr | hr
      · exact absurd hrk (hfresh r hr)
      · exact List.mem_singleton.1 hr ▸ hus
  · rw [if_neg (heq ∘ Std.LawfulEqOrd.compare_eq_iff_eq.1), h j us]
    simp [or_and_right, exists_or, hk, heq]

/-- The table has one entry for each occurrence that was asked about. -/
theorem size_eq (h : Holds key? t past) : t.size = (past.filterMap key?).toFinset.card := by
  rw [← Std.ExtTreeMap.length_keys, ← List.toFinset_card_of_nodup Std.ExtTreeMap.nodup_keys]
  congr 1
  ext k
  rw [List.mem_toFinset, List.mem_toFinset, Std.ExtTreeMap.mem_keys, List.mem_filterMap,
    Std.ExtTreeMap.mem_iff_isSome_getElem?, Option.isSome_iff_exists]
  constructor
  · rintro ⟨vs, hvs⟩
    obtain ⟨q, hq, hk, -⟩ := (h k vs).1 hvs
    exact ⟨q, hq, hk⟩
  · rintro ⟨q, hq, hk⟩
    exact ⟨q.walked, (h k q.walked).2 ⟨q, hq, hk, rfl⟩⟩

end Holds

/-! ### The memo -/

namespace FreeVarMemo

/-- Ask one question. -/
def ask (m : FreeVarMemo) : Query → List Handle × FreeVarMemo
  | .plain k e => m.freeVars k e
  | .closure k params body => m.freeVarsUnder k params body

/-- Ask questions one after the other. -/
def askAll (m : FreeVarMemo) : List Query → List (List Handle) × FreeVarMemo
  | [] => ([], m)
  | q :: qs => ((m.ask q).1 :: ((m.ask q).2.askAll qs).1, ((m.ask q).2.askAll qs).2)

/-- The memo holds the answers to the questions of `past`, plain ones and those about closures
apart. -/
structure Remembers (m : FreeVarMemo) (past : List Query) : Prop where
  plain : Holds Query.plain? m.plain past
  closures : Holds Query.closure? m.closures past

namespace Remembers

variable {m : FreeVarMemo} {past : List Query}

theorem empty : FreeVarMemo.empty.Remembers [] := by
  constructor <;> intro k vs <;> simp [FreeVarMemo.empty]

/-- **A question is answered as without a memo,** and remembered. -/
theorem ask (h : m.Remembers past) {q : Query} (hpast : History (past ++ [q])) :
    (m.ask q).1 = q.walked ∧ (m.ask q).2.Remembers (past ++ [q]) := by
  have hmem : ∀ {q'}, q' ∈ past → q' ∈ past ++ [q] := List.mem_append_left _
  have hq : q ∈ past ++ [q] := List.mem_append_right _ List.mem_cons_self
  cases q with
  | plain k e =>
    have hkey : (Query.plain k e).plain? = some k := rfl
    rw [FreeVarMemo.ask, FreeVarMemo.freeVars]
    split
    case h_1 vs hvs =>
      obtain ⟨hans, hplain⟩ := h.plain.hit hkey hvs fun q' hq' hk' =>
        hpast.walked_plain (hmem hq') hq hk' hkey
      exact ⟨hans, hplain, h.closures.skip rfl⟩
    case h_2 hnone => exact ⟨rfl, h.plain.insert hkey hnone, h.closures.skip rfl⟩
  | closure k params body =>
    have hkey : (Query.closure k params body).closure? = some k := rfl
    rw [FreeVarMemo.ask, FreeVarMemo.freeVarsUnder]
    split
    case h_1 vs hvs =>
      obtain ⟨hans, hclosures⟩ := h.closures.hit hkey hvs fun q' hq' hk' =>
        hpast.walked_closure (hmem hq') hq hk' hkey
      exact ⟨hans, h.plain.skip rfl, hclosures⟩
    case h_2 hnone => exact ⟨rfl, h.plain.skip rfl, h.closures.insert hkey hnone⟩

/-- **So is every question of a history.** -/
theorem askAll (h : m.Remembers past) {qs : List Query} (hpast : History (past ++ qs)) :
    (m.askAll qs).1 = qs.map Query.walked ∧ (m.askAll qs).2.Remembers (past ++ qs) := by
  induction qs generalizing m past with
  | nil => exact ⟨rfl, by rwa [List.append_nil]⟩
  | cons q qs ih =>
    have hassoc : past ++ q :: qs = (past ++ [q]) ++ qs := by simp
    rw [hassoc] at hpast ⊢
    obtain ⟨hans, hask⟩ := h.ask (hpast.mono (List.subset_append_left _ _))
    obtain ⟨hanss, hall⟩ := ih hask hpast
    exact ⟨by rw [FreeVarMemo.askAll, List.map_cons, hans, hanss], hall⟩

end Remembers

/-- **Free variables are the lexical free variables, whatever was asked before.**  Each answer
of a new memo lists the free occurrences in the expression asked about, every variable once and
in the order of its first occurrence.  The memo keeps one answer for each expression that was
asked about plainly and one for each closure. -/
theorem askAll_empty {qs : List Query} (h : History qs) :
    (empty.askAll qs).1 = qs.map (fun q => q.subject.occurrences.eraseDups) ∧
      (empty.askAll qs).2.size = (qs.filterMap Query.plain?).toFinset.card +
        (qs.filterMap Query.closure?).toFinset.card := by
  obtain ⟨hanswers, hmemo⟩ := Remembers.empty.askAll h
  refine ⟨?_, ?_⟩
  · rw [hanswers]
    exact List.map_congr_left fun q hq => Query.walked_eq (h.unique hq)
  · rw [size, hmemo.plain.size_eq, hmemo.closures.size_eq, List.nil_append]

/-- A sequence that binds `2` and has a closure with the parameter `3` behind it. -/
def sampleBody : Expr :=
  .letIn 2 (.call (.op "add") [.var 0, .var 1] .tensor)
    (.tuple [.closure [3] (.call (.var 3) [.var 2, .var 4] .tensor), .var 0, .var 2])

/-- The sequence is asked about plainly, as the body of a closure and plainly again. -/
def sampleQueries : List Query :=
  [.plain 7 sampleBody, .closure 7 [0] sampleBody, .plain 7 sampleBody, .plain 9 (.var 0)]

theorem sampleQueries_history : History sampleQueries where
  text {q q'} hq hq' hocc := by
    simp only [sampleQueries, List.mem_cons, List.not_mem_nil, or_false] at hq hq'
    rcases hq with rfl | rfl | rfl | rfl <;> rcases hq' with rfl | rfl | rfl | rfl <;>
      first | rfl | cases hocc
  params h h' := by
    simp only [sampleQueries, List.mem_cons, List.not_mem_nil, or_false, false_or, reduceCtorEq,
      Query.closure.injEq] at h h'
    rw [h.2.1, h'.2.1]
  unique {q} hq := by
    simp only [sampleQueries, List.mem_cons, List.not_mem_nil, or_false] at hq
    rcases hq with rfl | rfl | rfl | rfl <;> exact ⟨by decide, by decide⟩

theorem askAll_sampleQueries :
    History sampleQueries ∧
      (empty.askAll sampleQueries).1 = [[0, 1, 4], [1, 4], [0, 1, 4], [0]] ∧
      (empty.askAll sampleQueries).2.size = 3 :=
  ⟨sampleQueries_history, askAll_empty sampleQueries_history⟩

end FreeVarMemo

end Program
end TensorLiveness
