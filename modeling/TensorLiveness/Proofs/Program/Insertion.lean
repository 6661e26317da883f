/-
# Programs with one binding more

`Syntax.ModuleInserts x value rest entry m m'` says that the module `m'` is `m` with a binding of
the new name `x` to `value` in front of `rest`, which is the end of the body of `entry` or of a
branch in it.  Resolution allocates one handle more, and `skip k` is how the others move:

| in the first program | in the second |
| --- | --- |
| `v`, if `v < k` | `v` |
| `v`, if `k ≤ v` | `v + 1` |
| | `k`, the new one |

`ofModule_inserts` says that the function resolves to itself with a binding of `k` inserted
(`Expr.Inserts`), and to no new findings.  Up to the insertion two resolutions go side by side
under equal numbers, behind it under `skip k` (`Follows.insert`).
-/

import Mathlib.Order.Monotone.Basic
import Mathlib.Order.Nat
import TensorLiveness.Proofs.Program.Alike
import TensorLiveness.Proofs.Program.Flat
import TensorLiveness.Proofs.Program.Spelling

namespace TensorLiveness
namespace Syntax

open Number Program Text

/-! ### Syntax trees -/

/-- A value that stands for no buffer: a number or an operator. -/
inductive Expr.Bufferless : Expr → Prop
  | number (value : Binary64) (span : Span) : Bufferless (.number value span)
  | op (name : Name) (span : Span) : Bufferless (.op name span)

/-- A bare operator. -/
def Expr.isOp : Expr → Bool
  | .op .. => true
  | _ => false

/-- A call. -/
def Expr.isCall : Expr → Bool
  | .call .. => true
  | _ => false

/-- A conditional. -/
def Expr.isCond : Expr → Bool
  | .cond .. => true
  | _ => false

/-- What the first statement of a block binds. -/
def Block.first? : Block → Option Expr
  | .bind _ _ value _ _ => some value
  | .result .. => none

/-- The same name, which is not `x`. -/
def SameBut (x : String) (a b : String) : Prop := b = a ∧ a ≠ x

section Inserts

variable (x : String) (value : Expr) (rest : Block)

/-- The second block is the first with a binding of `x` to `value` in front of `rest`.  Spans may
differ, and `x` is mentioned nowhere else. -/
inductive BlockInserts : Block → Block → Prop
  | here {n : Name} {rest' : Block} (ty : Option TypeTerm) (s : Span) : n.name = x →
    BlockAlike (SameBut x) rest rest' → BlockInserts rest (.bind n ty value s rest')
  | later {n n' : Name} {ty ty' : Option TypeTerm} {v v' : Expr} {b b' : Block} (s s' : Span) :
    SameBut x n.name n'.name → ty'.map Ty.ofSyntax = ty.map Ty.ofSyntax →
    ExprAlike (SameBut x) v v' → BlockInserts b b' →
    BlockInserts (.bind n ty v s b) (.bind n' ty' v' s' b')
  | thenBlock {n n' : Name} {ty ty' : Option TypeTerm} {test test' : Expr}
    {taken taken' other other' b b' : Block} (s s' t t' : Span) :
    SameBut x n.name n'.name → ty'.map Ty.ofSyntax = ty.map Ty.ofSyntax →
    ExprAlike (SameBut x) test test' → BlockInserts taken taken' →
    BlockAlike (SameBut x) other other' → BlockAlike (SameBut x) b b' →
    BlockInserts (.bind n ty (.cond test taken other t) s b)
      (.bind n' ty' (.cond test' taken' other' t') s' b')
  | elseBlock {n n' : Name} {ty ty' : Option TypeTerm} {test test' : Expr}
    {taken taken' other other' b b' : Block} (s s' t t' : Span) :
    SameBut x n.name n'.name → ty'.map Ty.ofSyntax = ty.map Ty.ofSyntax →
    ExprAlike (SameBut x) test test' → BlockAlike (SameBut x) other other' →
    BlockInserts taken taken' → BlockAlike (SameBut x) b b' →
    BlockInserts (.bind n ty (.cond test other taken t) s b)
      (.bind n' ty' (.cond test' other' taken' t') s' b')

/-- The same in the body of the function `entry`, one of the list. -/
inductive FunctionsInsert (entry : String) : List FunctionDecl → List FunctionDecl → Prop
  | here {f f' : FunctionDecl} {fs fs' : List FunctionDecl} : f.name.name = entry →
    f'.name.name = entry → List.Forall₂ (ParamAlike (SameBut x)) f.params f'.params →
    BlockInserts x value rest f.body f'.body →
    List.Forall₂ (FunctionAlike (SameBut x)) fs fs' → FunctionsInsert entry (f :: fs) (f' :: fs')
  | later {f f' : FunctionDecl} {fs fs' : List FunctionDecl} : FunctionAlike (SameBut x) f f' →
    FunctionsInsert entry fs fs' → FunctionsInsert entry (f :: fs) (f' :: fs')

/-- The second module is the first with a binding of `x` to `value` in front of `rest`, in the
function `entry`. -/
def ModuleInserts (entry : String) (m m' : Module) : Prop :=
  FunctionsInsert x value rest entry m.functions m'.functions

end Inserts

variable {x : String}

theorem biUnique_sameBut : Relator.BiUnique (SameBut x) :=
  ⟨fun _ _ _ h h' => h.1.symm.trans h'.1, fun _ _ _ h h' => h.1.trans h'.1.symm⟩

theorem SameBut.not_mem {a b : String} (h : SameBut x a b) : b ∉ [x] := fun hb =>
  h.2 (h.1.symm.trans (List.mem_singleton.1 hb))

/-- No name is new before the inserted binding. -/
theorem SameBut.not_mem_nil (x : String) : ∀ ⦃a b : String⦄, SameBut x a b →
    b ∉ ([] : List String) := fun _ _ _ => List.not_mem_nil

theorem FunctionsInsert.exists_mem {value : Expr} {rest : Block} {entry : String}
    {fs fs' : List FunctionDecl} (h : FunctionsInsert x value rest entry fs fs') :
    entry ∈ fs.map (·.name.name) := by
  induction h with
  | here hname _ _ _ _ => exact hname ▸ List.mem_cons_self
  | later _ _ ih => exact List.mem_cons_of_mem _ ih

end Syntax

namespace Program

open Syntax Text

/-! ### Handles that move up -/

/-- How handles move when the handle `k` is taken by something else. -/
def skip (k v : Nat) : Nat := if v < k then v else v + 1

variable {k v : Nat}

theorem skip_of_lt (h : v < k) : skip k v = v := if_pos h

theorem skip_of_le (h : k ≤ v) : skip k v = v + 1 := if_neg (Nat.not_lt.2 h)

theorem skip_add (k i : Nat) : skip k (k + i) = k + 1 + i := by
  rw [skip_of_le (Nat.le_add_right k i)]
  omega

theorem strictMono_skip (k : Nat) : StrictMono (skip k) := by
  intro u v huv
  unfold skip
  split <;> split <;> omega

theorem skip_ne (k v : Nat) : skip k v ≠ k := by
  unfold skip
  split <;> omega

theorem add_one_le_skip_iff {n : Nat} (hk : k ≤ n) : n + 1 ≤ skip k v ↔ n ≤ v := by
  unfold skip
  split <;> omega

/-! ### Expressions -/

namespace Expr

/-- A value that stands for no buffer: a number or an operator. -/
inductive Bufferless : Expr → Prop
  | const (value : Number.Binary64) : Bufferless (.const value)
  | op (name : String) : Bufferless (.op name)

/-- A call. -/
def isCall : Expr → Bool
  | .call .. => true
  | _ => false

/-- What the first binding of a sequence binds. -/
def first? : Expr → Option Expr
  | .letIn _ value _ => some value
  | _ => none

/-- The second sequence is the first with a binding of `k` to `value` in front of `rest`, under the
handles that `k` leaves. -/
inductive Inserts (k : Handle) (value rest : Expr) : Expr → Expr → Prop
  | here : Inserts k value rest rest (.letIn k value (rest.renumber (skip k)))
  | later (v : Handle) (x : Expr) {b b' : Expr} : Inserts k value rest b b' →
    Inserts k value rest (.letIn v x b) (.letIn (skip k v) (x.renumber (skip k)) b')
  | thenBranch (v : Handle) (test : Expr) {taken taken' : Expr} (other : Expr) (ty : Ty)
    (b : Expr) : Inserts k value rest taken taken' →
    Inserts k value rest (.letIn v (.cond test taken other ty) b) (.letIn (skip k v)
      (.cond (test.renumber (skip k)) taken' (other.renumber (skip k)) ty) (b.renumber (skip k)))
  | elseBranch (v : Handle) (test other : Expr) {taken taken' : Expr} (ty : Ty) (b : Expr) :
    Inserts k value rest taken taken' →
    Inserts k value rest (.letIn v (.cond test other taken ty) b) (.letIn (skip k v)
      (.cond (test.renumber (skip k)) (other.renumber (skip k)) taken' ty) (b.renumber (skip k)))

variable {value rest e e' : Expr}

theorem Inserts.of_eq {d d' : Expr} (h : Inserts k value rest e e') (hd : d = e) (hd' : d' = e') :
    Inserts k value rest d d' := by
  rwa [hd, hd']

/-- The inserted binding does not change the type of a sequence. -/
theorem Inserts.infer_eq (h : Inserts k value rest e e') {vars vars' : BinderTable}
    (hty : ∀ v, vars'.ty? (skip k v) = vars.ty? v) : e'.infer vars' = e.infer vars := by
  induction h with
  | here => rw [infer, infer_renumber hty]
  | later v x _ ih => rw [infer, infer, ih]
  | thenBranch v test other ty b _ _ | elseBranch v test other ty b _ _ =>
    rw [infer, infer, infer_renumber hty]

theorem Inserts.flat (h : Inserts k value rest e e') (he : e.Flat) : rest.Flat := by
  induction h with
  | here => exact he
  | later v x _ ih => cases he with
    | bind _ _ hb => exact ih hb
    | cond _ _ _ _ _ hb => exact ih hb
  | thenBranch v test other ty b _ ih => exact ih he.branches.1
  | elseBranch v test other ty b _ ih => exact ih he.branches.2.1

theorem Inserts.mem_allBindings (h : Inserts k value rest e e') {b : Handle × Expr}
    (hb : b ∈ rest.allBindings) : b ∈ e.allBindings := by
  induction h with
  | here => exact hb
  | later v x _ ih => exact mem_allBindings_of_body ih
  | thenBranch v test other ty b _ ih =>
    exact mem_allBindings_of_inside (List.mem_append_left _ ih)
  | elseBranch v test other ty b _ ih =>
    exact mem_allBindings_of_inside (List.mem_append_right _ ih)

/-- The inserted binding mentions nothing. -/
theorem Inserts.occurrences_eq (h : Inserts k value rest e e') (hvalue : value.Bufferless) :
    e'.occurrences = e.occurrences.map (skip k) := by
  have hinjective := (strictMono_skip k).injective
  induction h with
  | here =>
    have hvalue : value.occurrences = [] := by cases hvalue <;> rfl
    rw [occurrences, hvalue, occurrences_renumber hinjective, List.nil_append,
      List.filter_eq_self]
    intro u hu
    obtain ⟨w, _, rfl⟩ := List.mem_map.1 hu
    exact decide_eq_true (skip_ne k w)
  | @later v x b _ _ ih =>
    have hfilter := filter_map_renumber hinjective b.occurrences [v]
    simp only [List.map_cons, List.map_nil, List.mem_singleton] at hfilter
    rw [occurrences, occurrences, ih, occurrences_renumber hinjective, hfilter, List.map_append]
  | thenBranch v test other ty b _ ih | elseBranch v test other ty b _ ih =>
    have hfilter := filter_map_renumber hinjective b.occurrences [v]
    simp only [List.map_cons, List.map_nil, List.mem_singleton] at hfilter
    simp only [occurrences, ih, occurrences_renumber hinjective, List.map_append, hfilter]

end Expr

/-- The second function is the first with a binding of `k` to `value` in front of `rest`. -/
structure Function.Inserts (k : Handle) (value rest : Expr) (f f' : Function) : Prop where
  params : f'.params = f.params.map (skip k)
  body : Expr.Inserts k value rest f.body f'.body

/-! ### Resolution -/

section Env

variable {x : String} {env env' : Env}

/-- The binders in scope are below `n`. -/
def Below (env : Env) (n : Nat) : Prop := ∀ b ∈ env, b.2 < n

theorem Below.mono {n n' : Nat} (h : Below env n) (hle : n ≤ n') : Below env n' := fun b hb =>
  Nat.lt_of_lt_of_le (h b hb) hle

theorem Below.cons {n n' : Nat} (h : Below env n) (hle : n ≤ n') {v : Handle} (hv : v < n')
    (name : String) : Below ((name, v) :: env) n' := by
  intro b hb
  rcases List.mem_cons.1 hb with rfl | hb
  · exact hv
  · exact h.mono hle b hb

/-- What is in scope before handles move is in scope behind. -/
theorem EnvAlike.move {n : Nat} (h : EnvAlike (SameBut x) id env env') (henv : Below env n)
    (hk : n ≤ k) : EnvAlike (SameBut x) (skip k) env env' := by
  intro a b hab
  refine (h hab).trans ?_
  cases hlookup : env.lookup a with
  | none => rfl
  | some v =>
    obtain ⟨l₁, l₂, rfl, _⟩ := List.lookup_eq_some_iff.1 hlookup
    have hv : v < n := henv (a, v) (List.mem_append_right _ List.mem_cons_self)
    exact congrArg some (skip_of_lt (Nat.lt_of_lt_of_le hv hk)).symm

/-- The new name hides nothing. -/
theorem EnvAlike.hide (h : EnvAlike (SameBut x) (skip k) env env') (v : Handle) :
    EnvAlike (SameBut x) (skip k) env ((x, v) :: env') := by
  rintro _ a ⟨rfl, hax⟩
  rw [List.lookup_cons, beq_false_of_ne hax]
  exact h ⟨rfl, hax⟩

end Env

/-- The binders keep their names. -/
theorem BinderTable.Alike.name?_eq {x : String} {ρ : Handle → Handle} {vars vars' : BinderTable}
    (h : BinderTable.Alike (SameBut x) ρ vars vars') (v : Handle) :
    vars'.name? (ρ v) = vars.name? v := by
  have hentry := h v
  rw [BinderTable.name?, BinderTable.name?]
  generalize vars.entries[v]? = b at hentry ⊢
  generalize vars'.entries[ρ v]? = b' at hentry ⊢
  cases hentry with
  | none => rfl
  | some hb => exact congrArg some hb.name.1

namespace Resolver

variable {x entry : String} {value : Syntax.Expr} {rest : Block} {s t : Resolver}
  {env env' : Env}

theorem below_bindParams (ps : List Param) (s : Resolver) :
    Below (s.bindParams [] ps).1.2 (s.bindParams [] ps).2.vars.size := by
  intro b hb
  obtain ⟨hspec, hscope⟩ := bindParams_spec ps [] s
  have hmem := (hscope b hb).resolve_left List.not_mem_nil
  rw [hspec.binders_eq, List.mem_range'_1, Nat.add_sub_cancel' hspec.size_le] at hmem
  exact hmem.2

/-- What was resolved before handles move does not change. -/
theorem Resolves.renumber_skip {us : List Handle} {e : Expr}
    (h : Resolves env s t e.binders us) (hus : us = e.occurrences) (henv : Below env s.vars.size)
    (hk : t.vars.size ≤ k) : e.renumber (skip k) = e.renumber id := by
  subst hus
  refine e.renumber_congr fun v hv => skip_of_lt (Nat.lt_of_lt_of_le ?_ hk)
  have hle := h.size_le
  rcases List.mem_append.1 hv with hv | hv
  · rw [h.binders_eq, List.mem_range'_1] at hv
    omega
  · obtain ⟨name, hmem⟩ := h.visible hv
    exact Nat.lt_of_lt_of_le (henv _ hmem) hle

/-- **A binding of the new name** takes the next handle, which the other resolution gives to
something else from then on. -/
theorem Follows.insert (h : Follows (SameBut x) id [] s t) {n : Name} (hn : n.name = x) (ty : Ty)
    (span : Span) : (t.bind n ty span).1 = s.vars.size ∧
      Follows (SameBut x) (skip s.vars.size) [x] s (t.bind n ty span).2 := by
  have hsize : t.vars.size = s.vars.size := (h.next 0).symm
  have hnew : t.binders.lookup n.name = none := by
    rw [lookup_eq_none_iff_not_mem, h.noted, hn]
    rintro (⟨a, _, hax⟩ | hx)
    · exact hax.2 hax.1.symm
    · exact List.not_mem_nil hx
  have hnote : t.note n = { t with binders := t.binders ++ [(n.name, n.span)] } := by
    rw [Resolver.note, hnew]
  refine ⟨(handle_bind t n ty span).trans hsize, fun i => ?_, fun v => ?_, fun b => ?_, ?_⟩
  · rw [size_bind, hsize, skip_add]
  · rw [entries_bind]
    have hentries : t.vars.entries.size = s.vars.size := hsize
    rcases Nat.lt_or_ge v s.vars.size with hlt | hle
    · rw [skip_of_lt hlt, Array.getElem?_push_lt (hentries ▸ hlt), ← Array.getElem?_eq_getElem]
      exact h.vars v
    · rw [skip_of_le hle, Array.getElem?_eq_none hle,
        Array.getElem?_eq_none (by rw [Array.size_push, hentries]; omega)]
      exact .none
  · change b ∈ (t.note n).binders.map (·.1) ↔ _
    rw [hnote, List.map_append, List.mem_append, h.noted, List.map_singleton, hn]
    simp
  · change (t.note n).diagnostics.map Diagnostic.kind = _
    rw [hnote]
    exact h.kinds

/-- The first value of a sequence is a call or a conditional as that of the block is. -/
def SameStart (b : Block) (e : Expr) : Prop :=
  e.first?.map (fun v => (v.isCall, v.isCond)) =
    b.first?.map fun v => (v.isCall, v.isCond)

theorem sameStart_block (b : Block) (env : Env) (s : Resolver) :
    SameStart b (s.block env b).1 := by
  cases b with
  | bind name ty value span rest =>
    refine congrArg some ?_
    cases value with
    | var n _ =>
      simp only [expr, reference]
      split <;> rfl
    | _ => rfl
  | result value span =>
    cases value with
    | var n _ =>
      simp only [SameStart, block, expr, reference]
      split <;> rfl
    | _ => rfl

/-- The value `value` and the block `rest` are resolved to `e` and `r`. -/
structure Resolved (value : Syntax.Expr) (rest : Block) (e r : Expr) : Prop where
  bufferless : e.Bufferless
  isOp : e.isOp = value.isOp
  start : SameStart rest r

/-- What resolution makes of a block and of the same with a binding inserted. -/
def InsertsBetween (x : String) (value : Syntax.Expr) (rest : Block) (n : Nat)
    (r r' : Expr × Resolver) : Prop :=
  ∃ k e b, n ≤ k ∧ k ≤ r.2.vars.size ∧ Resolved value rest e b ∧ Expr.Inserts k e b r.1 r'.1 ∧
    Follows (SameBut x) (skip k) [x] r.2 r'.2

/-- A binding whose value has been resolved, and the block behind it. -/
def bound (env : Env) (s : Resolver) (name : Name) (ty : Option TypeTerm) (span : Span)
    (rest : Block) (value : Expr) : Expr × Resolver :=
  let ty := (ty.map Ty.ofSyntax).getD (value.infer s.vars)
  let body := (s.bind name ty span).2.block ((name.name, (s.bind name ty span).1) :: env) rest
  (.letIn (s.bind name ty span).1 (value.withResultType ty) body.1, body.2)

theorem block_bind (env : Env) (s : Resolver) (name : Name) (ty : Option TypeTerm)
    (value : Syntax.Expr) (span : Span) (rest : Block) :
    s.block env (.bind name ty value span rest) =
      bound env (s.expr env value).2 name ty span rest (s.expr env value).1 := rfl

section

variable {R : String → String → Prop} {ρ : Handle → Handle} {extra : List String}
  (hR : Relator.BiUnique R) (hextra : ∀ ⦃a b : String⦄, R a b → b ∉ extra)

include hR hextra

/-- Values of one type are bound alike. -/
theorem follows_bound (h : Follows R ρ extra s t) (henv : EnvAlike R ρ env env') {n n' : Name}
    (hn : R n.name n'.name) {ty ty' : Option TypeTerm}
    (hty : ty'.map Ty.ofSyntax = ty.map Ty.ofSyntax) {e e' : Expr}
    (hinfer : e'.infer t.vars = e.infer s.vars) (span span' : Span) : ∃ ty₀ s₁ t₁,
      Follows R ρ extra s₁ t₁ ∧
      EnvAlike R ρ ((n.name, s.vars.size) :: env) ((n'.name, ρ s.vars.size) :: env') ∧
      s₁.vars.size = s.vars.size + 1 ∧
      (∀ b, bound env s n ty span b e = (.letIn s.vars.size (e.withResultType ty₀)
        (s₁.block ((n.name, s.vars.size) :: env) b).1,
          (s₁.block ((n.name, s.vars.size) :: env) b).2)) ∧
      ∀ b, bound env' t n' ty' span' b e' = (.letIn (ρ s.vars.size) (e'.withResultType ty₀)
        (t₁.block ((n'.name, ρ s.vars.size) :: env') b).1,
          (t₁.block ((n'.name, ρ s.vars.size) :: env') b).2) := by
  have hlast := handle_bind s n ((ty.map Ty.ofSyntax).getD (e.infer s.vars)) span
  obtain ⟨hv, h₁⟩ := h.bind hR hextra hn ((ty.map Ty.ofSyntax).getD (e.infer s.vars)) span span'
  rw [hlast] at hv
  refine ⟨(ty.map Ty.ofSyntax).getD (e.infer s.vars), _, _, h₁, henv.cons hR hn _, size_bind ..,
    fun b => ?_, fun b => ?_⟩
  · rw [bound, hlast]
  · simp only [bound, hty, hinfer]
    rw [hv]

/-- Values of one type are bound alike in front of blocks alike. -/
theorem follows_bound_block (h : Follows R ρ extra s t) (henv : EnvAlike R ρ env env')
    {n n' : Name} (hn : R n.name n'.name) {ty ty' : Option TypeTerm}
    (hty : ty'.map Ty.ofSyntax = ty.map Ty.ofSyntax) {e e' : Expr}
    (hinfer : e'.infer t.vars = e.infer s.vars) {b b' : Block} (hb : BlockAlike R b b')
    (span span' : Span) : ∃ v ty₀ body,
      (bound env s n ty span b e).1 = .letIn v (e.withResultType ty₀) body ∧
      (bound env' t n' ty' span' b' e').1 =
        .letIn (ρ v) (e'.withResultType ty₀) (body.renumber ρ) ∧
      s.vars.size ≤ (bound env s n ty span b e).2.vars.size ∧
      Follows R ρ extra (bound env s n ty span b e).2 (bound env' t n' ty' span' b' e').2 := by
  obtain ⟨ty₀, s₁, t₁, h₁, hscope, hsize, hs, ht⟩ :=
    follows_bound hR hextra h henv hn hty hinfer span span'
  obtain ⟨hbody, h₂⟩ := follows_block hR hextra hb h₁ hscope
  rw [hs, ht, hbody]
  refine ⟨_, ty₀, _, rfl, rfl, ?_, h₂⟩
  exact Nat.le_trans (hsize ▸ Nat.le_succ _) (block_spec b _ _).size_le

end

theorem follows_inserts_here (hvalue : value.Bufferless) (h : Follows (SameBut x) id [] s t)
    (henv : EnvAlike (SameBut x) id env env') (hbelow : Below env s.vars.size) {n : Name}
    {rest' : Block} (hn : n.name = x) (hrest : BlockAlike (SameBut x) rest rest')
    (ty : Option TypeTerm) (span : Span) :
    InsertsBetween x value rest s.vars.size (s.block env rest)
      (t.block env' (.bind n ty value span rest')) := by
  obtain ⟨e, he, hbufferless, hisOp, hty⟩ : ∃ e : Expr, t.expr env' value = (e, t) ∧
      e.Bufferless ∧ e.isOp = value.isOp ∧ ∀ ty, e.withResultType ty = e := by
    cases hvalue with
    | number c _ => exact ⟨.const c, rfl, .const c, rfl, fun _ => rfl⟩
    | op name _ => exact ⟨.op name.name, rfl, .op name.name, rfl, fun _ => rfl⟩
  obtain ⟨hhandle, hinsert⟩ := h.insert hn ((ty.map Ty.ofSyntax).getD (e.infer t.vars)) span
  obtain ⟨hblock, hfollows⟩ := follows_block biUnique_sameBut (fun _ _ h => h.not_mem) hrest hinsert
    ((henv.move hbelow (Nat.le_refl _)).hide _)
  refine ⟨s.vars.size, e, _, Nat.le_refl _, (block_spec rest env s).size_le,
    ⟨hbufferless, hisOp, sameStart_block rest env s⟩, ?_⟩
  rw [block_bind, he]
  simp only [bound, hty, hn, hhandle]
  rw [hblock]
  exact ⟨.here, hfollows⟩

/-- **Blocks with a binding inserted** are resolved alike. -/
theorem follows_inserts (hvalue : value.Bufferless) {b b' : Block}
    (hb : BlockInserts x value rest b b') : ∀ {env env' : Env} {s t : Resolver},
      Follows (SameBut x) id [] s t → EnvAlike (SameBut x) id env env' →
        Below env s.vars.size →
          InsertsBetween x value rest s.vars.size (s.block env b) (t.block env' b') := by
  have hextra : ∀ ⦃a b : String⦄, SameBut x a b → b ∉ [x] := fun _ _ h => h.not_mem
  induction hb with
  | here ty span hn hrest =>
    exact fun h henv hbelow => follows_inserts_here hvalue h henv hbelow hn hrest ty span
  | @later n n' ty ty' v v' b b' span span' hn hty hv _ ih =>
    intro env env' s t h henv hbelow
    obtain ⟨he, h₁⟩ := follows_expr biUnique_sameBut (SameBut.not_mem_nil x) hv h henv
    have hspec := expr_spec v env s
    have hinfer := Expr.infer_renumber h₁.vars.ty?_eq (s.expr env v).1
    obtain ⟨ty₀, s₁, t₁, h₂, hscope, hsize, hs, ht⟩ :=
      follows_bound biUnique_sameBut (SameBut.not_mem_nil x) h₁ henv hn hty (he ▸ hinfer) span span'
    have hbelow₁ : Below ((n.name, (s.expr env v).2.vars.size) :: env) s₁.vars.size :=
      hbelow.cons (hsize ▸ Nat.le_succ_of_le hspec.size_le) (hsize ▸ Nat.lt_succ_self _) n.name
    obtain ⟨k, e, r, hle, hlt, hresolved, hinserts, h₃⟩ := ih h₂ hscope hbelow₁
    rw [hsize] at hle
    rw [block_bind, block_bind, hs, ht]
    refine ⟨k, e, r, Nat.le_trans hspec.size_le (Nat.le_of_succ_le hle), hlt, hresolved, ?_, h₃⟩
    have hinserted := hinserts.later (s.expr env v).2.vars.size
      ((s.expr env v).1.withResultType ty₀)
    rwa [Expr.renumber_withResultType, hspec.renumber_skip rfl hbelow (Nat.le_of_succ_le hle), ← he,
      skip_of_lt hle] at hinserted
  | @thenBlock n n' ty ty' test test' taken taken' other other' b b' span span' tspan tspan' hn hty
      htest _ hother hb ih =>
    intro env env' s t h henv hbelow
    obtain ⟨hc, h₁⟩ := follows_expr biUnique_sameBut (SameBut.not_mem_nil x) htest h henv
    have hspec := expr_spec test env s
    have hbelow₁ : Below env (s.expr env test).2.vars.size := hbelow.mono hspec.size_le
    obtain ⟨k, e, r, hle, hlt, hresolved, hinserts, h₂⟩ := ih h₁ henv hbelow₁
    have henv₂ := henv.move hbelow₁ hle
    obtain ⟨hf, h₃⟩ := follows_block biUnique_sameBut hextra hother h₂ henv₂
    have hsize := (block_spec other env ((s.expr env test).2.block env taken).2).size_le
    have hinfer := hinserts.infer_eq h₃.vars.ty?_eq
    obtain ⟨v, ty₀, body, hs, ht, hle', h₄⟩ := follows_bound_block biUnique_sameBut hextra h₃ henv₂
      hn hty (show (Expr.cond (t.expr env' test').1 _ _ .tensor).infer _ =
        (Expr.cond (s.expr env test).1 _ _ .tensor).infer _ from hinfer) hb span span'
    have hinserted := hinserts.thenBranch v (s.expr env test).1
      (((s.expr env test).2.block env taken).2.block env other).1 ty₀ body
    rw [hspec.renumber_skip rfl hbelow hle, ← hc, ← hf] at hinserted
    rw [block_bind, block_bind]
    exact ⟨k, e, r, Nat.le_trans hspec.size_le hle, hlt.trans (hsize.trans hle'), hresolved,
      hinserted.of_eq hs ht, h₄⟩
  | @elseBlock n n' ty ty' test test' taken taken' other other' b b' span span' tspan tspan' hn hty
      htest hother _ hb ih =>
    intro env env' s t h henv hbelow
    obtain ⟨hc, h₁⟩ := follows_expr biUnique_sameBut (SameBut.not_mem_nil x) htest h henv
    obtain ⟨hf, h₂⟩ := follows_block biUnique_sameBut (SameBut.not_mem_nil x) hother h₁ henv
    have hspec := expr_spec test env s
    have hbelow₁ : Below env (s.expr env test).2.vars.size := hbelow.mono hspec.size_le
    have hspec₂ := block_spec other env (s.expr env test).2
    obtain ⟨k, e, r, hle, hlt, hresolved, hinserts, h₃⟩ := ih h₂ henv (hbelow₁.mono hspec₂.size_le)
    have henv₃ := henv.move hbelow₁ (hspec₂.size_le.trans hle)
    have hinfer : ((t.expr env' test').2.block env' other').1.infer
        (((t.expr env' test').2.block env' other').2.block env' taken').2.vars =
          ((s.expr env test).2.block env other).1.infer
            (((s.expr env test).2.block env other).2.block env taken).2.vars := by
      rw [hf, ← hspec₂.renumber_skip rfl hbelow₁ hle]
      exact Expr.infer_renumber h₃.vars.ty?_eq _
    obtain ⟨v, ty₀, body, hs, ht, hle', h₄⟩ := follows_bound_block biUnique_sameBut hextra h₃ henv₃
      hn hty (show (Expr.cond (t.expr env' test').1 _ _ .tensor).infer _ =
        (Expr.cond (s.expr env test).1 _ _ .tensor).infer _ from hinfer) hb span span'
    have hinserted := hinserts.elseBranch v (s.expr env test).1
      ((s.expr env test).2.block env other).1 ty₀ body
    rw [hspec.renumber_skip rfl hbelow (hspec₂.size_le.trans hle), ← hc,
      hspec₂.renumber_skip rfl hbelow₁ hle, ← hf] at hinserted
    rw [block_bind, block_bind]
    exact ⟨k, e, r, hspec.size_le.trans (hspec₂.size_le.trans hle), hlt.trans hle', hresolved,
      hinserted.of_eq hs ht, h₄⟩

/-- **Functions with a binding inserted** are resolved alike. -/
theorem follows_function_inserts (hvalue : value.Bufferless) (h : Follows (SameBut x) id [] s t)
    {f f' : FunctionDecl} (hparams : List.Forall₂ (ParamAlike (SameBut x)) f.params f'.params)
    (hbody : BlockInserts x value rest f.body f'.body) : ∃ k e r, k ≤ (s.function f).2.vars.size ∧
      Resolved value rest e r ∧ (s.function f).1.Inserts k e r (t.function f').1 ∧
      Follows (SameBut x) (skip k) [x] (s.function f).2 (t.function f').2 := by
  have hnone : EnvAlike (SameBut x) id [] [] := fun _ _ _ => rfl
  obtain ⟨hvs, henv, h₁⟩ := h.bindParams biUnique_sameBut (SameBut.not_mem_nil x) hparams hnone
  obtain ⟨k, e, r, hle, hlt, hresolved, hinserts, h₂⟩ :=
    follows_inserts hvalue hbody h₁ henv (below_bindParams f.params s)
  refine ⟨k, e, r, hlt, hresolved, ⟨?_, hinserts⟩, h₂⟩
  obtain ⟨hspec, -⟩ := bindParams_spec f.params [] s
  refine hvs.trans (List.map_congr_left fun v hv => (skip_of_lt ?_).symm)
  rw [hspec.binders_eq, List.mem_range'_1, Nat.add_sub_cancel' hspec.size_le] at hv
  exact Nat.lt_of_lt_of_le hv.2 hle

/-- **Lists of functions with a binding inserted** are resolved alike. -/
theorem follows_functions_inserts (hvalue : value.Bufferless) {fs fs' : List FunctionDecl}
    (hfs : FunctionsInsert x value rest entry fs fs') : ∀ {seen seen' : List (String × Span)}
      {s t : Resolver}, Follows (SameBut x) id [] s t → seen'.map (·.1) = seen.map (·.1) →
        (s.functions seen fs).2.Clean → ∃ k e r f f', k ≤ (s.functions seen fs).2.vars.size ∧
          Resolved value rest e r ∧ (s.functions seen fs).1.lookup entry = some f ∧
          (t.functions seen' fs').1.lookup entry = some f' ∧ f.Inserts k e r f' ∧
          Follows (SameBut x) (skip k) [x] (s.functions seen fs).2 (t.functions seen' fs').2 := by
  -- no name is repeated, so the functions before `entry` are not left out
  have hnone : ∀ {f f' : FunctionDecl} {fs : List FunctionDecl} {seen seen' : List (String × Span)}
      {s : Resolver}, f'.name.name = f.name.name → seen'.map (·.1) = seen.map (·.1) →
      (s.functions seen (f :: fs)).2.Clean → seen.lookup f.name.name = none ∧
        seen'.lookup f'.name.name = none ∧ f.name.name ∉ fs.map (·.name.name) := by
    intro f f' fs seen seen' s hname hseen hclean
    obtain ⟨-, hnodup, hnew⟩ := (functions_faithful (f :: fs) seen s).holds hclean (.refl _)
    have hnot := hnew f List.mem_cons_self
    refine ⟨lookup_eq_none_iff_not_mem.2 hnot, lookup_eq_none_iff_not_mem.2 ?_,
      (List.nodup_cons.1 hnodup).1⟩
    rwa [hseen, hname]
  induction hfs with
  | @here f f' fs fs' hname hname' hparams hbody hfs =>
    intro seen seen' s t h hseen hclean
    obtain ⟨hfirst, hfirst', -⟩ := hnone (hname'.trans hname.symm) hseen hclean
    obtain ⟨k, e, r, hlt, hresolved, hinserts, h₁⟩ :=
      follows_function_inserts hvalue h hparams hbody
    have hseen' : ((f'.name.name, f'.name.span) :: seen').map (·.1) =
        ((f.name.name, f.name.span) :: seen).map (·.1) := by
      rw [List.map_cons, List.map_cons, hseen, hname, hname']
    obtain ⟨-, h₂⟩ := follows_functions biUnique_sameBut (fun _ _ h => h.not_mem) hfs h₁ hseen'
    have hle := (functions_spec fs ((f.name.name, f.name.span) :: seen) (s.function f).2).1
    simp only [functions, hfirst, hfirst']
    refine ⟨k, e, r, _, _, hlt.trans hle, hresolved, ?_, ?_, hinserts, h₂⟩
    · rw [List.lookup_cons, hname, beq_self_eq_true]
    · rw [List.lookup_cons, hname', beq_self_eq_true]
  | @later f f' fs fs' hf hfs ih =>
    intro seen seen' s t h hseen hclean
    obtain ⟨hfirst, hfirst', hnot⟩ := hnone hf.name_eq hseen hclean
    have hne : entry ≠ f.name.name := fun heq => hnot (heq ▸ hfs.exists_mem)
    obtain ⟨-, h₁⟩ := follows_function biUnique_sameBut (SameBut.not_mem_nil x) h hf
    have hseen' : ((f'.name.name, f'.name.span) :: seen').map (·.1) =
        ((f.name.name, f.name.span) :: seen).map (·.1) := by
      rw [List.map_cons, List.map_cons, hseen, hf.name_eq]
    simp only [functions, hfirst, hfirst'] at hclean ⊢
    obtain ⟨k, e, r, g, g', hlt, hresolved, hg, hg', hinserts, h₂⟩ := ih h₁ hseen' hclean
    refine ⟨k, e, r, g, g', hlt, hresolved, ?_, ?_, hinserts, h₂⟩
    · rwa [List.lookup_cons, beq_false_of_ne hne]
    · have hne' : entry ≠ f'.name.name := hf.name_eq ▸ hne
      rwa [List.lookup_cons, beq_false_of_ne hne']

end Resolver

/-- **A module with a binding inserted** has no new findings.  Its function is the old one with a
binding of the next free handle `k` inserted, and its table has the old binders where `k` leaves
them. -/
theorem ofModule_inserts {x entry : String} {value : Syntax.Expr} {rest : Block} {m m' : Module}
    (hvalue : value.Bufferless) (h : ModuleInserts x value rest entry m m')
    (hclean : anyError (ofModule m).2 = false) : anyError (ofModule m').2 = false ∧
      ∃ k e r f f', k ≤ (ofModule m).1.vars.size ∧ Resolver.Resolved value rest e r ∧
        (ofModule m).1.function? entry = some f ∧ (ofModule m').1.function? entry = some f' ∧
        f.Inserts k e r f' ∧ (ofModule m').1.vars.size = (ofModule m).1.vars.size + 1 ∧
        BinderTable.Alike (SameBut x) (skip k) (ofModule m).1.vars (ofModule m').1.vars := by
  have hstart : Resolver.Follows (SameBut x) id [] .start .start := by
    refine ⟨fun _ => rfl, fun v => .none, fun b => ?_, rfl⟩
    simp [Resolver.start]
  have hseen : ([] : List (String × Span)).map (·.1) = ([] : List (String × Span)).map (·.1) :=
    rfl
  obtain ⟨k, e, r, f, f', hle, hresolved, hf, hf', hinserts, hfollows⟩ :=
    Resolver.follows_functions_inserts hvalue h hstart hseen hclean
  refine ⟨(anyError_of_kinds hfollows.kinds).trans hclean, k, e, r, f, f', hle, hresolved, hf, hf',
    hinserts, ?_, hfollows.vars⟩
  exact (hfollows.next 0).symm.trans (skip_of_le hle)

end Program
end TensorLiveness
