/-
# What resolution guarantees

Whatever findings there are, the handles of a resolved expression are in order: its binders
are the handles allocated while it was resolved, one after the other
(`Resolver.Resolves.binders_eq`), and it mentions no variable that was not in scope
(`Resolver.Resolves.visible`).  So a function of a program that could be read is closed,
and its parameters and binders grow along its text (`readProgram_scoped`).
-/

import TensorLiveness.Check
import TensorLiveness.Proofs.Program.Scoping

namespace TensorLiveness
namespace Program

/-- A closed function whose parameters and binders grow along its text and have a place in
a table of `size` binders. -/
structure Function.Scoped (f : Function) (size : Nat) : Prop where
  sorted : (f.params ++ f.body.binders).Pairwise (· < ·)
  closed {u : Handle} : u ∈ f.body.occurrences → u ∈ f.params
  lt_size {v : Handle} : v ∈ f.params ++ f.body.binders → v < size

theorem Function.Scoped.ascending {f : Function} {size : Nat} (h : f.Scoped size) :
    f.body.Ascending :=
  ⟨(List.pairwise_append.1 h.sorted).2.1, fun hu hw =>
    (List.pairwise_append.1 h.sorted).2.2 _ (h.closed hu) _ hw⟩

theorem Function.Scoped.mono {f : Function} {size size' : Nat} (h : f.Scoped size)
    (hle : size ≤ size') : f.Scoped size' :=
  ⟨h.sorted, h.closed, fun hv => Nat.lt_of_lt_of_le (h.lt_size hv) hle⟩

/-- A name is found exactly if it is there. -/
theorem lookup_eq_none_iff_not_mem {α : Type} {l : List (String × α)} {name : String} :
    l.lookup name = none ↔ name ∉ l.map (·.1) := by
  rw [List.lookup_eq_none_iff, List.mem_map]
  constructor
  · rintro h ⟨b, hb, rfl⟩
    exact absurd (h b hb) (by simp)
  · intro h b hb
    rw [bne_iff_ne]
    exact fun heq => h ⟨b, hb, heq.symm⟩

namespace Resolver

/-- Between two states of the resolver the handles `bs` were allocated, and `us` are
mentioned of what is in scope. -/
structure Resolves (env : Env) (s t : Resolver) (bs us : List Handle) : Prop where
  size_le : s.vars.size ≤ t.vars.size
  binders_eq : bs = List.range' s.vars.size (t.vars.size - s.vars.size)
  visible {u : Handle} : u ∈ us → ∃ name, (name, u) ∈ env

/-- Nothing is allocated. -/
theorem Resolves.refl {env : Env} {s t : Resolver} (h : t.vars = s.vars) {us : List Handle}
    (hus : ∀ u ∈ us, ∃ name, (name, u) ∈ env) : Resolves env s t [] us := by
  refine ⟨Nat.le_of_eq (by rw [h]), ?_, hus _⟩
  rw [h, Nat.sub_self]
  rfl

theorem Resolves.nothing {env : Env} {s t : Resolver} (h : t.vars = s.vars) :
    Resolves env s t [] [] := .refl h fun _ hu => nomatch hu

/-- What is allocated one after the other is allocated together. -/
theorem Resolves.trans {env env' : Env} {s t r : Resolver} {bs bs' us us' vs : List Handle}
    (h : Resolves env s t bs us) (h' : Resolves env' t r bs' us')
    (hvs : ∀ u ∈ vs, ∃ name, (name, u) ∈ env) : Resolves env s r (bs ++ bs') vs := by
  have hle := h.size_le
  have hle' := h'.size_le
  refine ⟨Nat.le_trans hle hle', ?_, hvs _⟩
  rw [h.binders_eq, h'.binders_eq, show t.vars.size = s.vars.size + (t.vars.size - s.vars.size) by
    omega, Nat.add_sub_cancel_left, List.range'_append_1]
  congr 1
  omega

theorem vars_report (s : Resolver) (d : Diagnostic) : (s.report d).vars = s.vars := rfl

theorem vars_note (s : Resolver) (name : Syntax.Name) : (s.note name).vars = s.vars := by
  unfold note
  split <;> rfl

section

variable (s : Resolver) (name : Syntax.Name) (ty : Ty) (span : Text.Span)

theorem handle_bind : (s.bind name ty span).1 = s.vars.size := by
  simp only [bind, BinderTable.fresh, vars_note]

theorem entries_bind :
    (s.bind name ty span).2.vars.entries = s.vars.entries.push ⟨name.name, ty, span⟩ := by
  simp only [bind, BinderTable.fresh, vars_note]

theorem size_bind : (s.bind name ty span).2.vars.size = s.vars.size + 1 := by
  rw [BinderTable.size, entries_bind, Array.size_push]
  rfl

/-- Binding allocates the next handle. -/
theorem bind_spec (env : Env) :
    Resolves env s (s.bind name ty span).2 [(s.bind name ty span).1] [] := by
  refine ⟨size_bind s name ty span ▸ Nat.le_succ _, ?_, fun hu => nomatch hu⟩
  rw [handle_bind, size_bind, Nat.add_sub_cancel_left]
  rfl

end

/-- Parameters take the next handles and come into scope. -/
theorem bindParams_spec : ∀ (ps : List Syntax.Param) (env : Env) (s : Resolver),
    Resolves env s (s.bindParams env ps).2 (s.bindParams env ps).1.1 [] ∧
      ∀ b ∈ (s.bindParams env ps).1.2, b ∈ env ∨ b.2 ∈ (s.bindParams env ps).1.1
  | [], env, s => ⟨.refl rfl (fun _ hu => nomatch hu), fun _ hb => Or.inl hb⟩
  | p :: ps, env, s => by
    have hbind := bind_spec s p.name (Ty.ofSyntax p.ty) p.span env
    obtain ⟨hrest, hscope⟩ := bindParams_spec ps
      ((p.name.name, (s.bind p.name (Ty.ofSyntax p.ty) p.span).1) :: env)
      (s.bind p.name (Ty.ofSyntax p.ty) p.span).2
    refine ⟨hbind.trans hrest (fun _ hu => nomatch hu), fun b hb => ?_⟩
    rcases hscope b hb with hb | hb
    · rcases List.mem_cons.1 hb with rfl | hb
      · exact Or.inr List.mem_cons_self
      · exact Or.inl hb
    · exact Or.inr (List.mem_cons_of_mem _ hb)

theorem reference_spec (env : Env) (s : Resolver) (name : Syntax.Name) :
    Resolves env s (s.reference env name).2 (s.reference env name).1.binders
      (s.reference env name).1.occurrences := by
  unfold reference
  split
  · rename_i v hv
    refine .refl rfl fun u hu => ⟨name.name, ?_⟩
    rw [Expr.occurrences, List.mem_singleton] at hu
    obtain ⟨l₁, l₂, rfl, _⟩ := List.lookup_eq_some_iff.1 hv
    exact hu ▸ List.mem_append_right _ List.mem_cons_self
  · refine .refl (vars_report _ _) fun u hu => ?_
    rw [Expr.occurrences] at hu
    cases hu

theorem callee_spec (env : Env) (s : Resolver) (f : Syntax.Callee) :
    Resolves env s (s.callee env f).2 (s.callee env f).1.binders
      (s.callee env f).1.occurrences := by
  cases f with
  | op name => exact .refl rfl fun _ hu => nomatch hu
  | var name => exact reference_spec env s name

@[simp] theorem binders_withResultType (ty : Ty) (e : Expr) :
    (e.withResultType ty).binders = e.binders := by
  cases e <;> rfl

@[simp] theorem occurrences_withResultType (ty : Ty) (e : Expr) :
    (e.withResultType ty).occurrences = e.occurrences := by
  cases e <;> rfl

mutual

/-- **Resolution allocates in the order of the text and respects scope.** -/
theorem expr_spec : ∀ (e : Syntax.Expr) (env : Env) (s : Resolver),
    Resolves env s (s.expr env e).2 (s.expr env e).1.binders (s.expr env e).1.occurrences
  | .var name _, env, s => reference_spec env s name
  | .number _ _, env, s => .refl rfl fun _ hu => nomatch hu
  | .op _ _, env, s => .refl rfl fun _ hu => nomatch hu
  | .call f args _, env, s => by
    have hf := callee_spec env s f
    have hargs := exprs_spec args env (s.callee env f).2
    refine hf.trans hargs fun u hu => ?_
    exact (List.mem_append.1 hu).elim hf.visible hargs.visible
  | .tuple fields _, env, s => exprs_spec fields env s
  | .get source _ _, env, s => expr_spec source env s
  | .cond test thenBlock elseBlock _, env, s => by
    have htest := expr_spec test env s
    have hthen := block_spec thenBlock env (s.expr env test).2
    have helse := block_spec elseBlock env ((s.expr env test).2.block env thenBlock).2
    have hboth := htest.trans hthen fun u hu =>
      (List.mem_append.1 hu).elim htest.visible hthen.visible
    refine hboth.trans helse fun u hu => ?_
    exact (List.mem_append.1 hu).elim hboth.visible helse.visible
  | .closure params body _, env, s => by
    obtain ⟨hparams, hscope⟩ := bindParams_spec params env s
    have hbody := block_spec body (s.bindParams env params).1.2 (s.bindParams env params).2
    refine hparams.trans hbody fun u hu => ?_
    obtain ⟨hu, hnot⟩ := List.mem_filter.1 hu
    obtain ⟨name, hb⟩ := hbody.visible hu
    exact ⟨name, (hscope _ hb).resolve_right (of_decide_eq_true hnot)⟩

/-- The same for expressions from left to right. -/
theorem exprs_spec : ∀ (es : List Syntax.Expr) (env : Env) (s : Resolver),
    Resolves env s (s.exprs env es).2 (Expr.bindersAll (s.exprs env es).1)
      (Expr.occurrencesAll (s.exprs env es).1)
  | [], env, s => .refl rfl fun _ hu => nomatch hu
  | e :: es, env, s => by
    have he := expr_spec e env s
    have hes := exprs_spec es env (s.expr env e).2
    refine he.trans hes fun u hu => ?_
    exact (List.mem_append.1 hu).elim he.visible hes.visible

/-- The same for a block. -/
theorem block_spec : ∀ (b : Syntax.Block) (env : Env) (s : Resolver),
    Resolves env s (s.block env b).2 (s.block env b).1.binders (s.block env b).1.occurrences
  | .result value _, env, s => expr_spec value env s
  | .bind name ty value span rest, env, s => by
    have hvalue := expr_spec value env s
    have hbind := bind_spec (s.expr env value).2 name
      ((ty.map Ty.ofSyntax).getD ((s.expr env value).1.infer (s.expr env value).2.vars)) span env
    let bound := (s.expr env value).2.bind name
      ((ty.map Ty.ofSyntax).getD ((s.expr env value).1.infer (s.expr env value).2.vars)) span
    have hrest := block_spec rest ((name.name, bound.1) :: env) bound.2
    have hboth := (hvalue.trans hbind fun _ hu => hvalue.visible hu).trans hrest
      fun _ hu => hvalue.visible hu
    rw [block, Expr.binders, Expr.occurrences, binders_withResultType,
      occurrences_withResultType]
    refine ⟨hboth.size_le, ?_, fun {u} hu => ?_⟩
    · rw [← hboth.binders_eq, List.append_assoc]
      rfl
    · rcases List.mem_append.1 hu with hu | hu
      · exact hvalue.visible hu
      · obtain ⟨hu, hne⟩ := List.mem_filter.1 hu
        obtain ⟨n, hb⟩ := hrest.visible hu
        rcases List.mem_cons.1 hb with heq | hb
        · exact absurd (Prod.mk.inj heq).2 (of_decide_eq_true hne)
        · exact ⟨n, hb⟩

end

/-! ### Functions -/

/-- A function allocates its parameters and what its body binds. -/
theorem function_resolves (s : Resolver) (f : Syntax.FunctionDecl) :
    Resolves [] s (s.function f).2 ((s.function f).1.params ++ (s.function f).1.body.binders) [] :=
  (bindParams_spec f.params [] s).1.trans
    (block_spec f.body (s.bindParams [] f.params).1.2 (s.bindParams [] f.params).2)
    fun _ hu => nomatch hu

/-- A resolved function is closed and its binders ascend. -/
theorem function_spec (s : Resolver) (f : Syntax.FunctionDecl) :
    s.vars.size ≤ (s.function f).2.vars.size ∧
      (s.function f).1.Scoped (s.function f).2.vars.size := by
  obtain ⟨_, hscope⟩ := bindParams_spec f.params [] s
  have hbody := block_spec f.body (s.bindParams [] f.params).1.2 (s.bindParams [] f.params).2
  have hresolves := function_resolves s f
  refine ⟨hresolves.size_le, ?_, fun {u} hu => ?_, fun {v} hv => ?_⟩
  · rw [hresolves.binders_eq]
    exact List.pairwise_lt_range'
  · obtain ⟨name, hb⟩ := hbody.visible hu
    exact (hscope _ hb).resolve_left fun h => nomatch h
  · rw [hresolves.binders_eq] at hv
    obtain ⟨_, hlt⟩ := List.mem_range'_1.1 hv
    rw [Nat.add_sub_cancel' hresolves.size_le] at hlt
    exact hlt

/-- **The functions of a module allocate one after the other.** -/
theorem functions_resolves : ∀ (fs : List Syntax.FunctionDecl) (seen : List (String × Text.Span))
    (s : Resolver), Resolves [] s (s.functions seen fs).2
      ((s.functions seen fs).1.flatMap fun g => g.2.params ++ g.2.body.binders) [] := by
  intro fs
  induction fs with
  | nil => exact fun _ s => .nothing rfl
  | cons f fs ih =>
    intro seen s
    rw [functions]
    split
    · exact (Resolves.nothing (vars_report s _)).trans
        (ih seen (s.report _)) fun _ hu => nomatch hu
    · exact (function_resolves s f).trans (ih ((f.name.name, f.name.span) :: seen) (s.function f).2)
        fun _ hu => nomatch hu

/-- The functions of a module are closed and their binders ascend. -/
theorem functions_spec : ∀ (fs : List Syntax.FunctionDecl) (seen : List (String × Text.Span))
    (s : Resolver), s.vars.size ≤ (s.functions seen fs).2.vars.size ∧
      ∀ g ∈ (s.functions seen fs).1, g.2.Scoped (s.functions seen fs).2.vars.size := by
  intro fs
  induction fs with
  | nil => exact fun _ s => ⟨Nat.le_refl _, fun _ hg => nomatch hg⟩
  | cons f fs ih =>
    intro seen s
    rw [functions]
    split
    · exact ih seen (s.report _)
    · obtain ⟨hle, hscoped⟩ := function_spec s f
      obtain ⟨hle', hscoped'⟩ := ih ((f.name.name, f.name.span) :: seen) (s.function f).2
      refine ⟨Nat.le_trans hle hle', fun g hg => ?_⟩
      rcases List.mem_cons.1 hg with rfl | hg
      · exact hscoped.mono hle'
      · exact hscoped' g hg

end Resolver

end Program

/-- What it takes to read a program. -/
theorem readProgram_eq_ok_iff {source : String} {p : Program} {warnings : List Diagnostic} :
    readProgram source = .ok (p, warnings) ↔ ∃ m, Syntax.parse source = (some m, []) ∧
      Program.ofModule m = (p, warnings) ∧ anyError warnings = false := by
  constructor
  · intro hread
    unfold readProgram at hread
    split at hread
    · rename_i m hparse
      dsimp only at hread
      split at hread
      · cases hread
      · rename_i hclean
        obtain ⟨hp, hwarnings⟩ := Prod.mk.inj (Except.ok.inj hread)
        exact ⟨m, hparse, Prod.ext hp hwarnings, hwarnings ▸ Bool.eq_false_iff.2 hclean⟩
    · cases hread
  · rintro ⟨m, hparse, hm, hclean⟩
    simp only [readProgram, hparse, hm, hclean]
    rfl

theorem mem_functions_of_function? {p : Program} {entry : String} {f : Program.Function}
    (h : p.function? entry = some f) : (entry, f) ∈ p.functions := by
  obtain ⟨l₁, l₂, heq, _⟩ := List.lookup_eq_some_iff.1 h
  exact heq ▸ List.mem_append_right _ List.mem_cons_self

open Program in
/-- **A function of a program that could be read is closed and its binders ascend.** -/
theorem readProgram_scoped {source entry : String} {p : Program} {warnings : List Diagnostic}
    {f : Function} (hread : readProgram source = .ok (p, warnings))
    (hf : p.function? entry = some f) : f.Scoped p.vars.size := by
  obtain ⟨m, _, hm, _⟩ := readProgram_eq_ok_iff.1 hread
  obtain rfl : (ofModule m).1 = p := congrArg Prod.fst hm
  exact (Resolver.functions_spec m.functions [] .start).2 (entry, f)
    (mem_functions_of_function? hf)

end TensorLiveness
