/-
# What the form check guarantees

A function without findings has the form that the passes are made for
(`flat_of_formErrors_eq_nil`): nothing is left to chance by the passes that skip a case the
check has ruled out.  Every finding is an error (`isError_of_mem_formErrors`), so one
finding is enough to stop the analysis.
-/

import TensorLiveness.Analysis.Form
import TensorLiveness.Proofs.Program.Flat

namespace TensorLiveness
namespace Analysis

open Program

variable {vars : BinderTable}

/-! ### No findings -/

theorem isOp_of_calleeErrors {site : Option Handle} {callee : Expr}
    (h : calleeErrors vars site callee = []) : ∃ name, callee = .op name := by
  cases callee with
  | op name => exact ⟨name, rfl⟩
  | _ => exact absurd h (List.cons_ne_nil _ _)

theorem isAtom_of_argumentErrors {site : Option Handle} {arg : Expr}
    (h : argumentErrors vars site arg = []) : arg.isAtom = true := by
  unfold argumentErrors at h
  split at h
  · assumption
  · exact absurd h (List.cons_ne_nil _ _)

theorem isAtom_of_fieldsErrors {site : Option Handle} : ∀ {fields : List Expr} {i : Nat},
    fieldsErrors vars site i fields = [] → ∀ field ∈ fields, field.isAtom = true := by
  intro fields
  induction fields with
  | nil => exact fun _ field hfield => absurd hfield List.not_mem_nil
  | cons e es ih =>
    intro i h field hfield
    rw [fieldsErrors, List.append_eq_nil_iff, List.append_eq_nil_iff] at h
    obtain ⟨⟨he, _⟩, hes⟩ := h
    rcases List.mem_cons.1 hfield with rfl | hfield
    · unfold fieldErrors at he
      split at he
      · assumption
      · exact absurd he (List.cons_ne_nil _ _)
    · exact ih hes field hfield

theorem var_of_sourceErrors {site : Option Handle} {source : Expr}
    (h : sourceErrors vars site source = []) : ∃ u, source = .var u := by
  cases source with
  | var u => exact ⟨u, rfl⟩
  | _ => exact absurd h (List.cons_ne_nil _ _)

theorem var_of_testErrors {site : Option Handle} {test : Expr}
    (h : testErrors vars site test = []) : ∃ c, test = .var c := by
  cases test with
  | var c => exact ⟨c, rfl⟩
  | _ => exact absurd h (List.cons_ne_nil _ _)

theorem resultErrors_sequence_ne_nil {site : Option Handle} {e : Expr} (h : e.var? = none) :
    resultErrors vars .sequence site e ≠ [] := by
  unfold resultErrors
  rw [h]
  exact List.cons_ne_nil _ _

/-- A bound value without findings, other than a conditional, is simple. -/
theorem simple_of_exprErrors {v : Handle} {value : Expr} (hbind : bindingErrors vars v value = [])
    (h : exprErrors vars .operand (some v) value = [])
    (hcond : ∀ test thenBranch elseBranch ty, value ≠ .cond test thenBranch elseBranch ty) :
    value.Simple := by
  cases value with
  | var u => exact .var u
  | const c => exact .const c
  | op name => exact .op name
  | call callee args ty =>
    simp only [exprErrors, List.append_eq_nil_iff, List.flatMap_eq_nil_iff] at h
    obtain ⟨⟨⟨⟨_, hcallee⟩, hargs⟩, _⟩, _⟩ := h
    obtain ⟨name, rfl⟩ := isOp_of_calleeErrors hcallee
    exact .call name ty fun arg harg => isAtom_of_argumentErrors (hargs arg harg)
  | tuple fields =>
    simp only [exprErrors, List.append_eq_nil_iff] at h
    exact .tuple (isAtom_of_fieldsErrors h.2)
  | get source index =>
    simp only [exprErrors, List.append_eq_nil_iff] at h
    obtain ⟨u, rfl⟩ := var_of_sourceErrors h.1.2
    exact .get u index
  | cond test thenBranch elseBranch ty => exact absurd rfl (hcond test thenBranch elseBranch ty)
  | closure params body => exact .closure params body
  | letIn w x body => exact absurd hbind (List.cons_ne_nil _ _)

/-- **A sequence without findings is flat.** -/
theorem flat_of_exprErrors : ∀ {e : Expr} {site : Option Handle},
    exprErrors vars .sequence site e = [] → e.Flat
  | .var r, _, _ => .result r
  | .letIn v value body, site, h => by
    by_cases hcond : ∃ test thenBranch elseBranch ty, value = .cond test thenBranch elseBranch ty
    · obtain ⟨test, thenBranch, elseBranch, ty, rfl⟩ := hcond
      simp only [exprErrors, List.append_eq_nil_iff] at h
      obtain ⟨⟨_, ⟨⟨⟨_, htest⟩, _⟩, hthen⟩, helse⟩, hbody⟩ := h
      obtain ⟨c, rfl⟩ := var_of_testErrors htest
      exact .cond v c ty (flat_of_exprErrors hthen) (flat_of_exprErrors helse)
        (flat_of_exprErrors hbody)
    · simp only [exprErrors, List.append_eq_nil_iff] at h
      obtain ⟨⟨hbind, hvalue⟩, hbody⟩ := h
      exact .bind v (simple_of_exprErrors hbind hvalue fun _ _ _ _ heq =>
        hcond ⟨_, _, _, _, heq⟩) (flat_of_exprErrors hbody)
  | .const c, site, h => absurd h (resultErrors_sequence_ne_nil rfl)
  | .op name, site, h => absurd h (resultErrors_sequence_ne_nil rfl)
  | .call callee args ty, site, h => by
    simp only [exprErrors, List.append_eq_nil_iff] at h
    exact absurd h.1.1.1.1 (resultErrors_sequence_ne_nil rfl)
  | .tuple fields, site, h => by
    simp only [exprErrors, List.append_eq_nil_iff] at h
    exact absurd h.1 (resultErrors_sequence_ne_nil rfl)
  | .get source index, site, h => by
    simp only [exprErrors, List.append_eq_nil_iff] at h
    exact absurd h.1.1 (resultErrors_sequence_ne_nil rfl)
  | .cond test thenBranch elseBranch ty, site, h => by
    simp only [exprErrors, List.append_eq_nil_iff] at h
    exact absurd h.1.1.1.1 (resultErrors_sequence_ne_nil rfl)
  | .closure params body, site, h => by
    simp only [exprErrors, List.append_eq_nil_iff] at h
    exact absurd h.1 (resultErrors_sequence_ne_nil rfl)

/-- **A function without findings has a flat body.** -/
theorem flat_of_formErrors_eq_nil {f : Function} (h : formErrors vars f = []) : f.body.Flat :=
  flat_of_exprErrors h

/-! ### Every finding is an error -/

/-- What is found unless `c` holds. -/
theorem isError_of_mem_ite {c : Prop} [Decidable c] {e d : Diagnostic} (he : e.isError = true)
    (h : d ∈ if c then [] else [e]) : d.isError = true := by
  split at h
  · exact absurd h List.not_mem_nil
  · exact List.mem_singleton.1 h ▸ he

theorem isError_of_mem_resultErrors {position : Position} {site : Option Handle} {e : Expr}
    {d : Diagnostic} (h : d ∈ resultErrors vars position site e) : d.isError = true := by
  cases position with
  | sequence => exact isError_of_mem_ite rfl h
  | operand => exact absurd h List.not_mem_nil

theorem isError_of_mem_bindingErrors {v : Handle} {e : Expr} {d : Diagnostic}
    (h : d ∈ bindingErrors vars v e) : d.isError = true := by
  unfold bindingErrors at h
  split at h
  · exact List.mem_singleton.1 h ▸ rfl
  · exact absurd h List.not_mem_nil

mutual

/-- **Every finding in an expression is an error.** -/
theorem isError_of_mem_exprErrors : ∀ (e : Expr) {position : Position} {site : Option Handle}
    {d : Diagnostic}, d ∈ exprErrors vars position site e → d.isError = true
  | .var _, _, _, _, h => absurd h List.not_mem_nil
  | .const _, _, _, _, h | .op _, _, _, _, h => isError_of_mem_resultErrors h
  | .call callee args ty, position, site, d, h => by
    simp only [exprErrors, List.mem_append, List.mem_flatMap] at h
    rcases h with (((h | h) | ⟨arg, _, h⟩) | h) | h
    · exact isError_of_mem_resultErrors h
    · exact isError_of_mem_ite rfl h
    · exact isError_of_mem_ite rfl h
    · exact isError_of_mem_exprErrors callee h
    · exact isError_of_mem_argsErrors args h
  | .tuple fields, position, site, d, h => by
    simp only [exprErrors, List.mem_append] at h
    rcases h with h | h
    · exact isError_of_mem_resultErrors h
    · exact isError_of_mem_fieldsErrors fields h
  | .get source index, position, site, d, h => by
    simp only [exprErrors, List.mem_append] at h
    rcases h with (h | h) | h
    · exact isError_of_mem_resultErrors h
    · exact isError_of_mem_ite rfl h
    · exact isError_of_mem_exprErrors source h
  | .cond test thenBranch elseBranch ty, position, site, d, h => by
    simp only [exprErrors, List.mem_append] at h
    rcases h with (((h | h) | h) | h) | h
    · exact isError_of_mem_resultErrors h
    · exact isError_of_mem_ite rfl h
    · exact isError_of_mem_exprErrors test h
    · exact isError_of_mem_exprErrors thenBranch h
    · exact isError_of_mem_exprErrors elseBranch h
  | .closure params body, position, site, d, h => by
    simp only [exprErrors, List.mem_append] at h
    rcases h with h | h
    · exact isError_of_mem_resultErrors h
    · exact isError_of_mem_exprErrors body h
  | .letIn v value body, .sequence, site, d, h => by
    simp only [exprErrors, List.mem_append] at h
    rcases h with (h | h) | h
    · exact isError_of_mem_bindingErrors h
    · exact isError_of_mem_exprErrors value h
    · exact isError_of_mem_exprErrors body h
  | .letIn v value body, .operand, site, d, h => by
    simp only [exprErrors, List.mem_append] at h
    rcases h with h | h
    · exact isError_of_mem_exprErrors value h
    · exact isError_of_mem_exprErrors body h

/-- The same for arguments. -/
theorem isError_of_mem_argsErrors : ∀ (es : List Expr) {site : Option Handle} {d : Diagnostic},
    d ∈ argsErrors vars site es → d.isError = true
  | [], _, _, h => absurd h List.not_mem_nil
  | e :: es, site, d, h => by
    rw [argsErrors, List.mem_append] at h
    rcases h with h | h
    · exact isError_of_mem_exprErrors e h
    · exact isError_of_mem_argsErrors es h

/-- The same for tuple fields. -/
theorem isError_of_mem_fieldsErrors : ∀ (es : List Expr) {site : Option Handle} {i : Nat}
    {d : Diagnostic}, d ∈ fieldsErrors vars site i es → d.isError = true
  | [], _, _, _, h => absurd h List.not_mem_nil
  | e :: es, site, i, d, h => by
    rw [fieldsErrors, List.mem_append, List.mem_append] at h
    rcases h with (h | h) | h
    · exact isError_of_mem_ite rfl h
    · exact isError_of_mem_exprErrors e h
    · exact isError_of_mem_fieldsErrors es h

end

/-- **One finding stops the analysis.** -/
theorem anyError_formErrors {f : Function} :
    anyError (formErrors vars f) = true ↔ formErrors vars f ≠ [] := by
  unfold anyError
  rw [List.any_eq_true]
  constructor
  · rintro ⟨d, hd, _⟩
    exact List.ne_nil_of_mem hd
  · intro h
    obtain ⟨d, hd⟩ := List.exists_mem_of_ne_nil _ h
    exact ⟨d, hd, isError_of_mem_exprErrors f.body hd⟩

end Analysis
end TensorLiveness
