/-
# Modules alike

Two syntax trees are alike if they differ in spans and in the names of their local variables only,
and the names are related one to one by `R` (`Syntax.ModuleAlike`).  Their resolutions go side by
side: where the first allocates the handle `v`, the second allocates `ρ v`.

| lemma | about |
| --- | --- |
| `Follows.note`, `Follows.bind`, `Follows.bindParams` | binders |
| `follows_reference` | names that are used |
| `follows_expr`, `follows_block` | trees, by recursion on their likeness |
| `follows_functions` | lists of functions |

With `ρ = id` this says that the names do not matter (`ofModule_alike`).  The second state may
know names besides (`extra`), which none of the related names is.
-/

import Mathlib.Data.List.Forall2
import Mathlib.Data.Option.Defs
import Mathlib.Logic.Relator
import TensorLiveness.Proofs.Program.Renumbering

namespace TensorLiveness
namespace Syntax

open Number Program Text

/-! ### Trees alike -/

section Alike

variable (R : String → String → Prop)

/-- The parameters have related names and the same type. -/
structure ParamAlike (p p' : Param) : Prop where
  name : R p.name.name p'.name.name
  ty : Ty.ofSyntax p'.ty = Ty.ofSyntax p.ty

/-- The same operator is called, or variables with related names. -/
inductive CalleeAlike : Callee → Callee → Prop
  | op {n n' : Name} : n'.name = n.name → CalleeAlike (.op n) (.op n')
  | var {n n' : Name} : R n.name n'.name → CalleeAlike (.var n) (.var n')

mutual

/-- Expressions that differ in spans and related names only. -/
inductive ExprAlike : Expr → Expr → Prop
  | var {n n' : Name} (s s' : Span) : R n.name n'.name → ExprAlike (.var n s) (.var n' s')
  | number (value : Binary64) (s s' : Span) : ExprAlike (.number value s) (.number value s')
  | op {n n' : Name} (s s' : Span) : n'.name = n.name → ExprAlike (.op n s) (.op n' s')
  | call {f f' : Callee} {args args' : List Expr} (s s' : Span) : CalleeAlike R f f' →
    ExprsAlike args args' → ExprAlike (.call f args s) (.call f' args' s')
  | tuple {fields fields' : List Expr} (s s' : Span) : ExprsAlike fields fields' →
    ExprAlike (.tuple fields s) (.tuple fields' s')
  | get {source source' : Expr} (index : Nat) (s s' : Span) : ExprAlike source source' →
    ExprAlike (.get source index s) (.get source' index s')
  | cond {test test' : Expr} {thenBlock thenBlock' elseBlock elseBlock' : Block} (s s' : Span) :
    ExprAlike test test' → BlockAlike thenBlock thenBlock' → BlockAlike elseBlock elseBlock' →
    ExprAlike (.cond test thenBlock elseBlock s) (.cond test' thenBlock' elseBlock' s')
  | closure {params params' : List Param} {body body' : Block} (s s' : Span) :
    List.Forall₂ (ParamAlike R) params params' → BlockAlike body body' →
    ExprAlike (.closure params body s) (.closure params' body' s')

/-- Expressions alike, one by one. -/
inductive ExprsAlike : List Expr → List Expr → Prop
  | nil : ExprsAlike [] []
  | cons {e e' : Expr} {es es' : List Expr} : ExprAlike e e' → ExprsAlike es es' →
    ExprsAlike (e :: es) (e' :: es')

/-- Blocks alike. -/
inductive BlockAlike : Block → Block → Prop
  | bind {n n' : Name} {ty ty' : Option TypeTerm} {value value' : Expr} {rest rest' : Block}
    (s s' : Span) : R n.name n'.name → ty'.map Ty.ofSyntax = ty.map Ty.ofSyntax →
    ExprAlike value value' → BlockAlike rest rest' →
    BlockAlike (.bind n ty value s rest) (.bind n' ty' value' s' rest')
  | result {e e' : Expr} (s s' : Span) : ExprAlike e e' →
    BlockAlike (.result e s) (.result e' s')

end

/-- Functions of one name that are alike. -/
structure FunctionAlike (f f' : FunctionDecl) : Prop where
  name_eq : f'.name.name = f.name.name
  params : List.Forall₂ (ParamAlike R) f.params f'.params
  body : BlockAlike R f.body f'.body

/-- Modules that differ in spans and in the related names of local variables only. -/
def ModuleAlike (m m' : Module) : Prop :=
  List.Forall₂ (FunctionAlike R) m.functions m'.functions

end Alike

end Syntax

namespace Program

open Syntax Text

/-- The binders have related names and the same type. -/
structure Binder.Alike (R : String → String → Prop) (b b' : Binder) : Prop where
  name : R b.name b'.name
  ty_eq : b'.ty = b.ty

/-- The second table has for `ρ v` a binder like the one that the first has for `v`. -/
def BinderTable.Alike (R : String → String → Prop) (ρ : Handle → Handle)
    (vars vars' : BinderTable) : Prop :=
  ∀ v : Handle, Option.Rel (Binder.Alike R) vars.entries[v]? vars'.entries[ρ v]?

theorem BinderTable.Alike.ty?_eq {R : String → String → Prop} {ρ : Handle → Handle}
    {vars vars' : BinderTable} (h : BinderTable.Alike R ρ vars vars') (v : Handle) :
    vars'.ty? (ρ v) = vars.ty? v := by
  have hentry := h v
  rw [BinderTable.ty?, BinderTable.ty?]
  generalize vars.entries[v]? = b at hentry ⊢
  generalize vars'.entries[ρ v]? = b' at hentry ⊢
  cases hentry with
  | none => rfl
  | some hb => exact congrArg some hb.ty_eq

/-- The binders in scope are found under related names. -/
def EnvAlike (R : String → String → Prop) (ρ : Handle → Handle) (env env' : Env) : Prop :=
  ∀ ⦃a b : String⦄, R a b → env'.lookup b = (env.lookup a).map ρ

theorem EnvAlike.cons {R : String → String → Prop} (hR : Relator.BiUnique R)
    {ρ : Handle → Handle} {env env' : Env} (h : EnvAlike R ρ env env') {a b : String}
    (hab : R a b) (v : Handle) :
    EnvAlike R ρ ((a, v) :: env) ((b, ρ v) :: env') := by
  intro a' b' hab'
  rw [List.lookup_cons, List.lookup_cons]
  by_cases heq : a' = a
  · obtain rfl := heq
    rw [hR.2 hab' hab, beq_self_eq_true, beq_self_eq_true]
    rfl
  · have hne : b' ≠ b := by
      rintro rfl
      exact heq (hR.1 hab' hab)
    rw [beq_false_of_ne heq, beq_false_of_ne hne]
    exact h hab'

namespace Resolver

variable {R : String → String → Prop} {ρ : Handle → Handle} {extra : List String}
  {s t : Resolver} {env env' : Env}

/-- The second resolution is where the first one is, with `ρ v` for the handle `v`.  It may have
met the names `extra` besides. -/
structure Follows (R : String → String → Prop) (ρ : Handle → Handle) (extra : List String)
    (s t : Resolver) : Prop where
  next (i : Nat) : ρ (s.vars.size + i) = t.vars.size + i
  vars : BinderTable.Alike R ρ s.vars t.vars
  noted (b : String) : b ∈ t.binders.map (·.1) ↔ (∃ a ∈ s.binders.map (·.1), R a b) ∨ b ∈ extra
  kinds : t.diagnostics.map Diagnostic.kind = s.diagnostics.map Diagnostic.kind

/-- Both resolutions return the same under other numbers. -/
def SideBySide (R : String → String → Prop) (ρ : Handle → Handle) (extra : List String)
    (r r' : Expr × Resolver) : Prop :=
  r'.1 = r.1.renumber ρ ∧ Follows R ρ extra r.2 r'.2

theorem follows_start : Follows R id [] start start := by
  refine ⟨fun _ => rfl, fun v => ?_, fun b => ?_, rfl⟩
  · exact .none
  · simp [start]

theorem Follows.report (h : Follows R ρ extra s t) {d d' : Diagnostic}
    (hd : d'.kind = d.kind) : Follows R ρ extra (s.report d) (t.report d') :=
  ⟨h.next, h.vars, h.noted, by
    rw [Resolver.report, Resolver.report, List.map_append, List.map_append, h.kinds,
      List.map_singleton, List.map_singleton, hd]⟩

section

variable (hR : Relator.BiUnique R) (hextra : ∀ ⦃a b : String⦄, R a b → b ∉ extra)

include hR hextra

/-- Related names have been met by both or by neither. -/
theorem Follows.lookup_eq_none_iff (h : Follows R ρ extra s t) {a b : String} (hab : R a b) :
    t.binders.lookup b = none ↔ s.binders.lookup a = none := by
  rw [lookup_eq_none_iff_not_mem, lookup_eq_none_iff_not_mem, h.noted, not_iff_not,
    or_iff_left (hextra hab)]
  constructor
  · rintro ⟨a', ha', hab'⟩
    exact hR.1 hab' hab ▸ ha'
  · exact fun ha => ⟨a, ha, hab⟩

theorem Follows.note (h : Follows R ρ extra s t) {n n' : Name} (hn : R n.name n'.name) :
    Follows R ρ extra (s.note n) (t.note n') := by
  have hiff := h.lookup_eq_none_iff hR hextra hn
  unfold Resolver.note
  cases hs : s.binders.lookup n.name with
  | some first =>
    cases ht : t.binders.lookup n'.name with
    | some first' => exact h.report rfl
    | none => exact absurd (hiff.1 ht) (by rw [hs]; exact Option.some_ne_none _)
  | none =>
    rw [hiff.2 hs]
    refine ⟨h.next, h.vars, fun b => ?_, h.kinds⟩
    simp only [List.map_append, List.map_singleton, List.mem_append, List.mem_singleton, h.noted]
    constructor
    · rintro ((⟨a, ha, hab⟩ | hb) | rfl)
      · exact Or.inl ⟨a, Or.inl ha, hab⟩
      · exact Or.inr hb
      · exact Or.inl ⟨_, Or.inr rfl, hn⟩
    · rintro (⟨a, ha | rfl, hab⟩ | hb)
      · exact Or.inl (Or.inl ⟨a, ha, hab⟩)
      · exact Or.inr (hR.2 hab hn)
      · exact Or.inl (Or.inr hb)

/-- **The second binder gets the other number of the first.** -/
theorem Follows.bind (h : Follows R ρ extra s t) {n n' : Name} (hn : R n.name n'.name) (ty : Ty)
    (span span' : Span) : (t.bind n' ty span').1 = ρ (s.bind n ty span).1 ∧
      Follows R ρ extra (s.bind n ty span).2 (t.bind n' ty span').2 := by
  have hnote := h.note hR hextra hn
  refine ⟨?_, fun i => ?_, fun v => ?_, hnote.noted, hnote.kinds⟩
  · rw [handle_bind, handle_bind]
    exact (h.next 0).symm
  · rw [size_bind, size_bind, Nat.add_assoc, Nat.add_assoc]
    exact h.next (1 + i)
  · rw [entries_bind, entries_bind]
    have hsize : s.vars.entries.size = s.vars.size := rfl
    have hsize' : t.vars.entries.size = t.vars.size := rfl
    rcases Nat.lt_trichotomy v s.vars.size with hlt | rfl | hgt
    · have hentry := h.vars v
      rw [Array.getElem?_eq_getElem hlt] at hentry
      obtain ⟨b', hb'⟩ : ∃ b', t.vars.entries[ρ v]? = some b' := by
        cases hb' : t.vars.entries[ρ v]? with
        | none =>
          rw [hb'] at hentry
          cases hentry
        | some b' => exact ⟨b', rfl⟩
      obtain ⟨hlt', rfl⟩ := Array.getElem?_eq_some_iff.1 hb'
      rw [Array.getElem?_push_lt hlt, Array.getElem?_push_lt hlt']
      rwa [hb'] at hentry
    · have hlast : ρ s.vars.size = t.vars.size := h.next 0
      rw [hlast, ← hsize, ← hsize', Array.getElem?_push_size, Array.getElem?_push_size]
      exact .some ⟨hn, rfl⟩
    · obtain ⟨i, rfl⟩ := Nat.exists_eq_add_of_lt hgt
      rw [Nat.add_assoc, h.next, Array.getElem?_eq_none (by rw [Array.size_push]; omega),
        Array.getElem?_eq_none (by rw [Array.size_push]; omega)]
      exact .none

theorem Follows.bindParams {ps ps' : List Param} (hps : List.Forall₂ (ParamAlike R) ps ps') :
    ∀ {env env' : Env} {s t : Resolver}, Follows R ρ extra s t → EnvAlike R ρ env env' →
      (t.bindParams env' ps').1.1 = (s.bindParams env ps).1.1.map ρ ∧
        EnvAlike R ρ (s.bindParams env ps).1.2 (t.bindParams env' ps').1.2 ∧
        Follows R ρ extra (s.bindParams env ps).2 (t.bindParams env' ps').2 := by
  induction hps with
  | nil => exact fun h henv => ⟨rfl, henv, h⟩
  | @cons p p' ps ps' hp _ ih =>
    intro env env' s t h henv
    obtain ⟨hv, hbind⟩ := h.bind hR hextra hp.name (Ty.ofSyntax p.ty) p.span p'.span
    have hscope := EnvAlike.cons hR henv hp.name (s.bind p.name (Ty.ofSyntax p.ty) p.span).1
    rw [← hv] at hscope
    obtain ⟨hvs, henvs, hrest⟩ := ih hbind hscope
    simp only [Resolver.bindParams, hp.ty]
    refine ⟨?_, henvs, hrest⟩
    rw [hvs, hv, List.map_cons]

end

/-! ### Trees -/

theorem follows_reference (h : Follows R ρ extra s t) (henv : EnvAlike R ρ env env') {n n' : Name}
    (hn : R n.name n'.name) :
    SideBySide R ρ extra (s.reference env n) (t.reference env' n') := by
  unfold reference
  rw [henv hn]
  cases env.lookup n.name with
  | some v => exact ⟨rfl, h⟩
  | none => exact ⟨rfl, h.report rfl⟩

theorem follows_callee (h : Follows R ρ extra s t) (henv : EnvAlike R ρ env env')
    {f f' : Callee} (hf : CalleeAlike R f f') :
    SideBySide R ρ extra (s.callee env f) (t.callee env' f') := by
  cases hf with
  | @op n n' hn => exact ⟨congrArg Expr.op hn, h⟩
  | var hn => exact follows_reference h henv hn

mutual

/-- **Trees alike are resolved side by side.** -/
theorem follows_expr (hR : Relator.BiUnique R)
    (hextra : ∀ ⦃a b : String⦄, R a b → b ∉ extra) :
    ∀ {tree tree' : Syntax.Expr}, ExprAlike R tree tree' →
    ∀ {env env' : Env} {s t : Resolver}, Follows R ρ extra s t → EnvAlike R ρ env env' →
      SideBySide R ρ extra (s.expr env tree) (t.expr env' tree')
  | _, _, .var _ _ hn, _, _, _, _, h, henv => follows_reference h henv hn
  | _, _, .number _ _ _, _, _, _, _, h, _ => ⟨rfl, h⟩
  | _, _, .op _ _ hn, _, _, _, _, h, _ => ⟨congrArg Expr.op hn, h⟩
  | _, _, .call _ _ hf hargs, _, _, _, _, h, henv => by
    obtain ⟨hcallee, h₁⟩ := follows_callee h henv hf
    obtain ⟨hes, h₂⟩ := follows_exprs hR hextra hargs h₁ henv
    refine ⟨?_, h₂⟩
    simp only [Resolver.expr, Expr.renumber, hcallee, hes]
  | _, _, .tuple _ _ hfields, _, _, _, _, h, henv => by
    obtain ⟨hes, h₁⟩ := follows_exprs hR hextra hfields h henv
    refine ⟨?_, h₁⟩
    simp only [Resolver.expr, Expr.renumber, hes]
  | _, _, .get _ _ _ hsource, _, _, _, _, h, henv => by
    obtain ⟨he, h₁⟩ := follows_expr hR hextra hsource h henv
    refine ⟨?_, h₁⟩
    simp only [Resolver.expr, Expr.renumber, he]
  | _, _, .cond _ _ htest hthen helse, _, _, _, _, h, henv => by
    obtain ⟨hc, h₁⟩ := follows_expr hR hextra htest h henv
    obtain ⟨ht, h₂⟩ := follows_block hR hextra hthen h₁ henv
    obtain ⟨hf, h₃⟩ := follows_block hR hextra helse h₂ henv
    refine ⟨?_, h₃⟩
    simp only [Resolver.expr, Expr.renumber, hc, ht, hf]
  | _, _, .closure _ _ hparams hbody, _, _, _, _, h, henv => by
    obtain ⟨hvs, henvs, h₁⟩ := h.bindParams hR hextra hparams henv
    obtain ⟨he, h₂⟩ := follows_block hR hextra hbody h₁ henvs
    refine ⟨?_, h₂⟩
    simp only [Resolver.expr, Expr.renumber, hvs, he]

/-- The same for trees from left to right. -/
theorem follows_exprs (hR : Relator.BiUnique R)
    (hextra : ∀ ⦃a b : String⦄, R a b → b ∉ extra) :
    ∀ {trees trees' : List Syntax.Expr}, ExprsAlike R trees trees' →
    ∀ {env env' : Env} {s t : Resolver}, Follows R ρ extra s t → EnvAlike R ρ env env' →
      (t.exprs env' trees').1 = Expr.renumberAll ρ (s.exprs env trees).1 ∧
        Follows R ρ extra (s.exprs env trees).2 (t.exprs env' trees').2
  | _, _, .nil, _, _, _, _, h, _ => ⟨rfl, h⟩
  | _, _, .cons htree htrees, _, _, _, _, h, henv => by
    obtain ⟨he, h₁⟩ := follows_expr hR hextra htree h henv
    obtain ⟨hes, h₂⟩ := follows_exprs hR hextra htrees h₁ henv
    refine ⟨?_, h₂⟩
    simp only [Resolver.exprs, Expr.renumberAll, he, hes]

/-- The same for blocks.  A type that is not written is inferred from equal types. -/
theorem follows_block (hR : Relator.BiUnique R)
    (hextra : ∀ ⦃a b : String⦄, R a b → b ∉ extra) :
    ∀ {b b' : Block}, BlockAlike R b b' →
    ∀ {env env' : Env} {s t : Resolver}, Follows R ρ extra s t → EnvAlike R ρ env env' →
      SideBySide R ρ extra (s.block env b) (t.block env' b')
  | _, _, .result _ _ hvalue, _, _, _, _, h, henv => follows_expr hR hextra hvalue h henv
  | _, _, @BlockAlike.bind _ n n' ty ty' value value' _ _ span span' hn hty hvalue hrest,
      env, env', s, t, h, henv => by
    obtain ⟨he, h₁⟩ := follows_expr hR hextra hvalue h henv
    have htype : (ty'.map Ty.ofSyntax).getD
        ((t.expr env' value').1.infer (t.expr env' value').2.vars) =
          (ty.map Ty.ofSyntax).getD ((s.expr env value).1.infer (s.expr env value).2.vars) := by
      rw [hty, he, Expr.infer_renumber h₁.vars.ty?_eq]
    obtain ⟨hv, h₂⟩ := h₁.bind hR hextra hn
      ((ty.map Ty.ofSyntax).getD ((s.expr env value).1.infer (s.expr env value).2.vars))
      span span'
    have hscope := EnvAlike.cons hR henv hn ((s.expr env value).2.bind n
      ((ty.map Ty.ofSyntax).getD ((s.expr env value).1.infer (s.expr env value).2.vars)) span).1
    rw [← hv] at hscope
    obtain ⟨hbody, h₃⟩ := follows_block hR hextra hrest h₂ hscope
    unfold SideBySide
    simp only [Resolver.block, htype]
    refine ⟨?_, h₃⟩
    rw [hbody, hv, he, Expr.renumber, Expr.renumber_withResultType]

end

theorem follows_function (hR : Relator.BiUnique R)
    (hextra : ∀ ⦃a b : String⦄, R a b → b ∉ extra)
    (h : Follows R ρ extra s t) {f f' : FunctionDecl}
    (hf : FunctionAlike R f f') : (t.function f').1 = (s.function f).1.renumber ρ ∧
      Follows R ρ extra (s.function f).2 (t.function f').2 := by
  have hnone : EnvAlike R ρ [] [] := fun _ _ _ => rfl
  obtain ⟨hvs, henv, h₁⟩ := h.bindParams hR hextra hf.params hnone
  obtain ⟨hbody, h₂⟩ := follows_block hR hextra hf.body h₁ henv
  refine ⟨?_, h₂⟩
  simp only [Resolver.function, Function.renumber, hvs, hbody]

/-- **Functions alike are resolved side by side,** and the same ones are left out. -/
theorem follows_functions (hR : Relator.BiUnique R)
    (hextra : ∀ ⦃a b : String⦄, R a b → b ∉ extra)
    {fs fs' : List FunctionDecl} (hfs : List.Forall₂ (FunctionAlike R) fs fs') :
    ∀ {seen seen' : List (String × Span)} {s t : Resolver}, Follows R ρ extra s t →
      seen'.map (·.1) = seen.map (·.1) →
        (t.functions seen' fs').1 =
            (s.functions seen fs).1.map (fun g => (g.1, g.2.renumber ρ)) ∧
          Follows R ρ extra (s.functions seen fs).2 (t.functions seen' fs').2 := by
  induction hfs with
  | nil => exact fun h _ => ⟨rfl, h⟩
  | @cons f f' fs fs' hf _ ih =>
    intro seen seen' s t h hseen
    have hiff : seen'.lookup f'.name.name = none ↔ seen.lookup f.name.name = none := by
      rw [lookup_eq_none_iff_not_mem, lookup_eq_none_iff_not_mem, hseen, hf.name_eq]
    rw [functions, functions]
    cases hfirst : seen.lookup f.name.name with
    | some first =>
      cases hfirst' : seen'.lookup f'.name.name with
      | some first' => exact ih (h.report rfl) hseen
      | none => exact absurd (hiff.1 hfirst') (by rw [hfirst]; exact Option.some_ne_none _)
    | none =>
      rw [hiff.2 hfirst]
      obtain ⟨hg, h₁⟩ := follows_function hR hextra h hf
      have hnames : ((f'.name.name, f'.name.span) :: seen').map (·.1) =
          ((f.name.name, f.name.span) :: seen).map (·.1) := by
        rw [List.map_cons, List.map_cons, hseen, hf.name_eq]
      obtain ⟨hgs, h₂⟩ := ih h₁ hnames
      refine ⟨?_, h₂⟩
      simp only [List.map_cons]
      rw [hgs, hg, hf.name_eq]

end Resolver

variable {R : String → String → Prop}

/-- **Modules alike have the same functions, and findings of the same kinds.**  Their binders have
related names and the same types. -/
theorem ofModule_alike (hR : Relator.BiUnique R) {m m' : Module} (h : ModuleAlike R m m') :
    (ofModule m').1.functions = (ofModule m).1.functions ∧
      BinderTable.Alike R id (ofModule m).1.vars (ofModule m').1.vars ∧
      (ofModule m').1.vars.size = (ofModule m).1.vars.size ∧
      (ofModule m').2.map Diagnostic.kind = (ofModule m).2.map Diagnostic.kind := by
  have hseen : ([] : List (String × Span)).map (·.1) = ([] : List (String × Span)).map (·.1) :=
    rfl
  obtain ⟨hfs, hfollows⟩ := Resolver.follows_functions hR (fun _ _ _ => List.not_mem_nil) h
    Resolver.follows_start hseen
  refine ⟨?_, hfollows.vars, (hfollows.next 0).symm, hfollows.kinds⟩
  refine hfs.trans (List.map_id'' (fun g => ?_) _)
  rw [Function.renumber, List.map_id, Expr.renumber_id]

end Program
end TensorLiveness
