/-
# Flat let sequences

The form that the passes are made for, as a predicate: a sequence that results in a
variable and binds simple values and conditionals on variables, whose branches are
sequences of the same form.  Its three constructors are the cases of every induction
over a sequence:

| constructor | sequence |
| --- | --- |
| `Flat.result` | a variable |
| `Flat.bind` | a simple value, and the rest |
| `Flat.cond` | a conditional with two sequences, and the rest |

`Expr.allBindings` lists the bindings of a sequence and of the branches nested in it in
the order in which they are allocated; the inside of a closure does not count.
-/

import TensorLiveness.Proofs.Program.Scoping

namespace TensorLiveness
namespace Program

mutual

/-- The bindings of a let sequence and of its branches. -/
def Expr.allBindings : Expr → List (Handle × Expr)
  | .letIn v value body => value.branchBindings ++ (v, value) :: body.allBindings
  | _ => []

/-- The bindings of the branches of a value. -/
def Expr.branchBindings : Expr → List (Handle × Expr)
  | .cond _ thenBranch elseBranch _ => thenBranch.allBindings ++ elseBranch.allBindings
  | _ => []

end

/-- A conditional. -/
def Expr.isCond : Expr → Bool
  | .cond .. => true
  | _ => false

/-- A value that has buffers of its own: the result of a call or of a conditional. -/
def Expr.isMade : Expr → Bool
  | .call .. | .cond .. => true
  | _ => false

/-- A value without a sequence to go through. -/
inductive Expr.Simple : Expr → Prop
  | var (u : Handle) : Simple (.var u)
  | const (value : Number.Binary64) : Simple (.const value)
  | op (name : String) : Simple (.op name)
  | call (name : String) {args : List Expr} (ty : Ty) :
    (∀ arg ∈ args, arg.isAtom) → Simple (.call (.op name) args ty)
  | tuple {fields : List Expr} : (∀ field ∈ fields, field.isAtom) → Simple (.tuple fields)
  | get (u : Handle) (index : Nat) : Simple (.get (.var u) index)
  | closure (params : List Handle) (body : Expr) : Simple (.closure params body)

/-- A let sequence in which every intermediate value has a name. -/
inductive Expr.Flat : Expr → Prop
  | result (r : Handle) : Flat (.var r)
  | bind (v : Handle) {value body : Expr} : value.Simple → Flat body →
    Flat (.letIn v value body)
  | cond (v c : Handle) {thenBranch elseBranch body : Expr} (ty : Ty) : Flat thenBranch →
    Flat elseBranch → Flat body →
    Flat (.letIn v (.cond (.var c) thenBranch elseBranch ty) body)

namespace Expr

theorem Simple.branchBindings_eq {value : Expr} (h : value.Simple) : value.branchBindings = [] := by
  cases h <;> rfl

theorem Simple.allBindings_letIn {value : Expr} (h : value.Simple) (v : Handle) (body : Expr) :
    (letIn v value body).allBindings = (v, value) :: body.allBindings := by
  rw [allBindings, h.branchBindings_eq, List.nil_append]

theorem allBindings_cond (v : Handle) (test thenBranch elseBranch body : Expr) (ty : Ty) :
    (letIn v (cond test thenBranch elseBranch ty) body).allBindings =
      thenBranch.allBindings ++ elseBranch.allBindings ++
        (v, cond test thenBranch elseBranch ty) :: body.allBindings := by
  rw [allBindings, branchBindings]

theorem mem_allBindings_of_body {v : Handle} {value body : Expr} {b : Handle × Expr}
    (h : b ∈ body.allBindings) : b ∈ (letIn v value body).allBindings :=
  List.mem_append_right _ (List.mem_cons_of_mem _ h)

theorem mem_allBindings_of_inside {v : Handle} {value body : Expr} {b : Handle × Expr}
    (h : b ∈ value.branchBindings) : b ∈ (letIn v value body).allBindings :=
  List.mem_append_left _ h

theorem binding_mem_allBindings {v : Handle} {value body : Expr} :
    (v, value) ∈ (letIn v value body).allBindings :=
  List.mem_append_right _ List.mem_cons_self

/-- The branches of a conditional in a flat sequence are flat, and so is the rest. -/
theorem Flat.branches {v : Handle} {test thenBranch elseBranch body : Expr} {ty : Ty}
    (h : (letIn v (Expr.cond test thenBranch elseBranch ty) body).Flat) :
    thenBranch.Flat ∧ elseBranch.Flat ∧ body.Flat := by
  cases h with
  | bind _ hsimple _ => cases hsimple
  | cond _ _ _ hthen helse hbody => exact ⟨hthen, helse, hbody⟩

/-- The variables bound in a sequence are among its binders, in the same order. -/
theorem Flat.map_fst_allBindings_sublist {e : Expr} (h : e.Flat) :
    (e.allBindings.map (·.1)).Sublist e.binders := by
  induction h with
  | result r => exact List.nil_sublist _
  | bind v hv _ ih =>
    rw [hv.allBindings_letIn, List.map_cons, binders]
    exact (ih.cons_cons v).trans (List.sublist_append_right _ _)
  | cond v c ty _ _ _ iht ihe ihb =>
    rw [allBindings_cond, List.map_append, List.map_append, List.map_cons, binders, binders,
      binders, List.nil_append]
    exact (iht.append ihe).append (ihb.cons_cons v)

/-- A flat sequence results in a variable, which occurs free in it or is bound by it. -/
theorem Flat.exists_result {e : Expr} (h : e.Flat) :
    ∃ r, e.result = .var r ∧ (r ∈ e.occurrences ∨ r ∈ e.allBindings.map (·.1)) := by
  have hrest : ∀ {v : Handle} {value body : Expr},
      (∃ r, body.result = .var r ∧ (r ∈ body.occurrences ∨ r ∈ body.allBindings.map (·.1))) →
      ∃ r, (letIn v value body).result = .var r ∧ (r ∈ (letIn v value body).occurrences ∨
        r ∈ (letIn v value body).allBindings.map (·.1)) := by
    rintro v value body ⟨r, hr, hmem⟩
    refine ⟨r, hr, ?_⟩
    rw [allBindings, List.map_append, List.map_cons, List.mem_append, List.mem_cons]
    rcases hmem with hmem | hmem
    · by_cases hne : r = v
      · exact Or.inr (Or.inr (Or.inl hne))
      · exact Or.inl (List.mem_append_right _ (List.mem_filter.2 ⟨hmem, decide_eq_true hne⟩))
    · exact Or.inr (Or.inr (Or.inr hmem))
  induction h with
  | result r => exact ⟨r, rfl, Or.inl List.mem_cons_self⟩
  | bind v _ _ ih => exact hrest ih
  | cond v c ty _ _ _ _ _ ihb => exact hrest ihb

/-- **A bound value mentions smaller variables only,** and its own binders ascend. -/
theorem Flat.ascending_of_mem {e : Expr} (h : e.Flat) (ha : e.Ascending) {v : Handle}
    {value : Expr} (hmem : (v, value) ∈ e.allBindings) :
    value.Ascending ∧ ∀ u ∈ value.occurrences, u < v := by
  induction h with
  | result r => cases hmem
  | bind w hw _ ih =>
    rw [hw.allBindings_letIn] at hmem
    rcases List.mem_cons.1 hmem with heq | hmem
    · obtain ⟨rfl, rfl⟩ := Prod.mk.inj heq
      exact ⟨ha.value, fun u hu => ha.lt_of_mem_value hu⟩
    · exact ih ha.body hmem
  | cond w c ty _ _ _ iht ihe ihb =>
    rw [allBindings_cond, List.mem_append, List.mem_append] at hmem
    rcases hmem with (hmem | hmem) | hmem
    · exact iht ha.value.thenBranch hmem
    · exact ihe ha.value.elseBranch hmem
    · rcases List.mem_cons.1 hmem with heq | hmem
      · obtain ⟨rfl, rfl⟩ := Prod.mk.inj heq
        exact ⟨ha.value, fun u hu => ha.lt_of_mem_value hu⟩
      · exact ihb ha.body hmem

end Expr

end Program
end TensorLiveness
