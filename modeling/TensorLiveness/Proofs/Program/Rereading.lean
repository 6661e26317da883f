/-
# A printed program reads back

Of a program that was read, whose functions pass the form check and whose numbers are finite, the
printed functions make up a text that reads as the same program: same functions, same handles, same
names and types (`readProgram_print`).

The proof has two halves that meet at the tokens.  What is printed is scanned as its tokens
(`scans_functions`).  The tokens derive trees in which every binder has its type written
(`Writable.restores`), and these are resolved to the functions again (`functions_restore`): the
next handle is the one that the binder had, because handles were given in the order of the text;
its name is new, because no name was given twice; and a name in scope finds its own binder.
-/

import Mathlib
import TensorLiveness.Proofs.Program.Writing

namespace TensorLiveness
namespace Program

open Number Syntax

/-! ### Resolving what was resolved before -/

section

variable {vars : BinderTable}

/-- No two binders have one name. -/
def BinderTable.Distinct (vars : BinderTable) : Prop :=
  ∀ ⦃u v : Handle⦄ ⦃name : String⦄, vars.name? u = some name → vars.name? v = some name → u = v

theorem BinderTable.distinct_of_nodup (h : (vars.entries.toList.map (·.name)).Nodup) :
    vars.Distinct := by
  intro u v name hu hv
  have := (lookup?_of_name? h hu).symm.trans (lookup?_of_name? h hv)
  exact Option.some.inj this

/-- The resolver has the first binders of `vars` and has found nothing wrong. -/
structure Retraces (vars : BinderTable) (s : Resolver) : Prop where
  name?_eq {v : Handle} : v < s.vars.size → s.vars.name? v = vars.name? v
  ty?_eq {v : Handle} : v < s.vars.size → s.vars.ty? v = vars.ty? v
  noted : s.Noted
  clean : s.diagnostics = []

/-- From `s` to `t` the binders `bs` were allocated, and the resolver still has the binders of
`vars`. -/
structure Allocates (vars : BinderTable) (s t : Resolver) (bs : List Handle) : Prop where
  retraces : Retraces vars t
  size_eq : t.vars.size = s.vars.size + bs.length

theorem Allocates.refl {s : Resolver} (h : Retraces vars s) : Allocates vars s s [] := ⟨h, rfl⟩

theorem Allocates.trans {s t r : Resolver} {as bs : List Handle} (h : Allocates vars s t as)
    (h' : Allocates vars t r bs) : Allocates vars s r (as ++ bs) :=
  ⟨h'.retraces, by rw [h'.size_eq, h.size_eq, List.length_append, Nat.add_assoc]⟩

/-- The handles are numbered from `k` on. -/
def Numbered (k : Nat) (bs : List Handle) : Prop := bs = List.range' k bs.length

theorem Numbered.append {k : Nat} {as bs : List Handle} (h : Numbered k (as ++ bs)) :
    Numbered k as ∧ Numbered (k + as.length) bs := by
  rw [Numbered, List.length_append, ← List.range'_append_1] at h
  exact List.append_inj h (List.length_range'.symm)

theorem Numbered.cons {k : Nat} {v : Handle} {bs : List Handle} (h : Numbered k (v :: bs)) :
    v = k ∧ Numbered (k + 1) bs := by
  rw [Numbered, List.length_cons, List.range'_succ] at h
  exact List.cons.inj h

/-- Every variable in scope is found under its name. -/
def Finds (vars : BinderTable) (env : Env) (scope : List Handle) (size : Nat) : Prop :=
  ∀ u ∈ scope, u < size ∧ ∃ name, vars.name? u = some name ∧ env.lookup name = some u

theorem Finds.mono {env : Env} {scope scope' : List Handle} {size size' : Nat}
    (h : Finds vars env scope size) (hscope : ∀ u ∈ scope', u ∈ scope) (hle : size ≤ size') :
    Finds vars env scope' size' := by
  intro u hu
  obtain ⟨hlt, hname⟩ := h u (hscope u hu)
  exact ⟨Nat.lt_of_lt_of_le hlt hle, hname⟩

theorem Finds.nil (env : Env) (size : Nat) : Finds vars env [] size :=
  fun _ hu => absurd hu List.not_mem_nil

/-- A new binder comes into scope; it hides none, since its name is new. -/
theorem Finds.cons (hdistinct : vars.Distinct) {env : Env} {scope : List Handle} {v : Handle}
    (h : Finds vars env scope v) {name : String} (hv : vars.name? v = some name) :
    Finds vars ((name, v) :: env) (v :: scope) (v + 1) := by
  intro u hu
  rcases List.mem_cons.1 hu with rfl | hu
  · exact ⟨Nat.lt_succ_self _, name, hv, List.lookup_cons_self⟩
  · obtain ⟨hlt, name', hu, hlookup⟩ := h u hu
    refine ⟨Nat.lt_succ_of_lt hlt, name', hu, ?_⟩
    have hne : name' ≠ name := by
      rintro rfl
      exact absurd (hdistinct hu hv) (Nat.ne_of_lt hlt)
    rw [List.lookup_cons, beq_false_of_ne hne]
    exact hlookup

theorem Allocates.finds {s t : Resolver} {bs : List Handle} (h : Allocates vars s t bs) {env : Env}
    {scope : List Handle} (hfinds : Finds vars env scope s.vars.size) :
    Finds vars env scope t.vars.size :=
  hfinds.mono (fun _ hu => hu) (h.size_eq ▸ Nat.le_add_right _ _)

theorem Allocates.numbered {s t : Resolver} {as bs : List Handle} (h : Allocates vars s t as)
    (hbs : Numbered (s.vars.size + as.length) bs) : Numbered t.vars.size bs := by
  rwa [h.size_eq]

/-- Resolving goes the way it went before: with the binders of `vars` so far and the variables in
scope, it returns `x` and allocates `bs`. -/
def Restores {α : Type} (vars : BinderTable) (run : Env → Resolver → α × Resolver) (x : α)
    (bs : List Handle) (admits : List Handle → Prop) : Prop :=
  ∀ ⦃scope env s⦄, Retraces vars s → Finds vars env scope s.vars.size → admits scope →
    Numbered s.vars.size bs → ∃ t, run env s = (x, t) ∧ Allocates vars s t bs

namespace Resolver

/-- A name that comes later in the table has not been noted yet. -/
theorem note_eq_of_retraces (hdistinct : vars.Distinct) {s : Resolver} (hs : Retraces vars s)
    {name : Syntax.Name} (hname : vars.name? s.vars.size = some name.name) :
    s.note name = { s with binders := s.binders ++ [(name.name, name.span)] } := by
  have hnew : name.name ∉ s.binders.map (·.1) := by
    rw [hs.noted.names_eq]
    intro hmem
    obtain ⟨b, hb, hbname⟩ := List.mem_map.1 hmem
    obtain ⟨u, hu⟩ := List.mem_iff_getElem?.1 hb
    rw [Array.getElem?_toList] at hu
    have hlt : u < s.vars.size := (Array.getElem?_eq_some_iff.1 hu).1
    have hu' : vars.name? u = some name.name := by
      rw [← hs.name?_eq hlt, BinderTable.name?, hu, Option.map_some, hbname]
    exact absurd (hdistinct hu' hname) (Nat.ne_of_lt hlt)
  rw [note, lookup_eq_none_iff_not_mem.2 hnew]

/-- **A binder gets the handle that it had.** -/
theorem bind_restores (hdistinct : vars.Distinct) {s : Resolver} (hs : Retraces vars s)
    {name : Syntax.Name} {ty : Ty} (span : Text.Span)
    (hname : vars.name? s.vars.size = some name.name) (hty : vars.ty? s.vars.size = some ty) :
    ∃ t, s.bind name ty span = (s.vars.size, t) ∧ Allocates vars s t [s.vars.size] := by
  have hclean : (s.bind name ty span).2.diagnostics = [] := by
    change (s.note name).diagnostics = []
    rw [note_eq_of_retraces hdistinct hs hname]
    exact hs.clean
  have hnoted := (bind_faithful s name ty span).noted (by rw [Clean, hclean]; rfl) hs.noted
  have hbefore : ∀ u < s.vars.size,
      (s.bind name ty span).2.vars.entries[u]? = s.vars.entries[u]? := by
    intro u hu
    rw [entries_bind, Array.getElem?_push_lt hu]
    exact (Array.getElem?_eq_getElem hu).symm
  have hlast : (s.bind name ty span).2.vars.entries[s.vars.size]? =
      some ⟨name.name, ty, span⟩ := by
    rw [entries_bind]
    exact Array.getElem?_push_size
  refine ⟨(s.bind name ty span).2, Prod.ext (handle_bind s name ty span) rfl,
    ⟨fun {u} hu => ?_, fun {u} hu => ?_, hnoted, hclean⟩, size_bind s name ty span⟩
  · rw [size_bind] at hu
    rcases Nat.lt_succ_iff_lt_or_eq.1 hu with hlt | rfl
    · rw [BinderTable.name?, hbefore u hlt]
      exact hs.name?_eq hlt
    · rw [BinderTable.name?, hlast, hname]
      rfl
  · rw [size_bind] at hu
    rcases Nat.lt_succ_iff_lt_or_eq.1 hu with hlt | rfl
    · rw [BinderTable.ty?, hbefore u hlt]
      exact hs.ty?_eq hlt
    · rw [BinderTable.ty?, hlast, hty]
      rfl

/-- Parameters get the handles that they had and come into scope. -/
theorem bindParams_restores (hdistinct : vars.Distinct) {ps : List Syntax.Param}
    {vs : List Handle} (h : List.Forall₂ (Declares vars) ps vs) :
    ∀ {scope : List Handle} {env : Env} {s : Resolver}, Retraces vars s →
      Finds vars env scope s.vars.size → Numbered s.vars.size vs →
      ∃ env' t, s.bindParams env ps = ((vs, env'), t) ∧ Allocates vars s t vs ∧
        Finds vars env' (vs ++ scope) t.vars.size := by
  induction h with
  | nil => exact fun {_ env s} hs hfinds _ => ⟨env, s, rfl, .refl hs, hfinds⟩
  | @cons p v ps vs hp _ ih =>
    intro scope env s hs hfinds hnumbered
    obtain ⟨rfl, hrest⟩ := hnumbered.cons
    obtain ⟨t, hbind, ht⟩ := bind_restores hdistinct hs p.span hp.1 hp.2
    have hsize : t.vars.size = s.vars.size + 1 := ht.size_eq
    have hfinds' : Finds vars ((p.name.name, s.vars.size) :: env) (s.vars.size :: scope)
        t.vars.size := by
      rw [hsize]
      exact hfinds.cons hdistinct hp.1
    obtain ⟨env', r, hparams, hr, hscope⟩ := ih ht.retraces hfinds' (by rwa [hsize])
    refine ⟨env', r, ?_, ht.trans hr, hscope.mono (fun u hu => ?_) (Nat.le_refl _)⟩
    · rw [bindParams, hbind]
      simp only [hparams]
    · simp only [List.mem_append, List.mem_cons] at hu ⊢
      tauto

theorem reference_restores {scope : List Handle} {env : Env} {s : Resolver} {size : Nat}
    (hfinds : Finds vars env scope size) {v : Handle} (hv : v ∈ scope) {name : Syntax.Name}
    (hname : Named vars name v) : s.reference env name = (.var v, s) := by
  obtain ⟨_, name', hname', hlookup⟩ := hfinds v hv
  obtain rfl : name.name = name' := Option.some.inj (hname.symm.trans hname')
  rw [reference, hlookup]

end Resolver

/-! ### Resolving a tree by its parts -/

/-- The tree is resolved to the expression again. -/
abbrev RestoresExpr (vars : BinderTable) (tree : Syntax.Expr) (e : Expr) : Prop :=
  Restores vars (fun env s => s.expr env tree) e e.binders fun scope => e.WellScoped scope

/-- The block is resolved to the let sequence again. -/
abbrev RestoresBlock (vars : BinderTable) (b : Syntax.Block) (e : Expr) : Prop :=
  Restores vars (fun env s => s.block env b) e e.binders fun scope => e.WellScoped scope

theorem RestoresExpr.var {name : Syntax.Name} {v : Handle} (hv : Named vars name v)
    (span : Text.Span) : RestoresExpr vars (.var name span) (.var v) :=
  fun _ _ s hs hfinds hscoped _ =>
    ⟨s, Resolver.reference_restores hfinds hscoped hv, .refl hs⟩

theorem RestoresExpr.get {tree : Syntax.Expr} {e : Expr} (h : RestoresExpr vars tree e)
    (index : Nat) (span : Text.Span) :
    RestoresExpr vars (.get tree index span) (.get e index) := by
  intro scope env s hs hfinds hscoped hnumbered
  obtain ⟨t, hrun, ht⟩ := h hs hfinds hscoped hnumbered
  exact ⟨t, by simp only [Resolver.expr, hrun], ht⟩

theorem exprs_restores {trees : List Syntax.Expr} {es : List Expr}
    (h : List.Forall₂ (RestoresExpr vars) trees es) :
    Restores vars (fun env s => s.exprs env trees) es (Expr.bindersAll es)
      fun scope => Expr.WellScopedAll scope es := by
  induction h with
  | nil => exact fun _ _ s hs _ _ _ => ⟨s, rfl, .refl hs⟩
  | cons he _ ih =>
    intro scope env s hs hfinds hscoped hnumbered
    obtain ⟨hn, hns⟩ := hnumbered.append
    obtain ⟨t, hrun, ht⟩ := he hs hfinds hscoped.1 hn
    obtain ⟨r, hruns, hr⟩ := ih ht.retraces (ht.finds hfinds) hscoped.2 (ht.numbered hns)
    refine ⟨r, ?_, ht.trans hr⟩
    simp only [Resolver.exprs, hrun, hruns]

theorem RestoresExpr.tuple {trees : List Syntax.Expr} {es : List Expr}
    (h : List.Forall₂ (RestoresExpr vars) trees es) (span : Text.Span) :
    RestoresExpr vars (.tuple trees span) (.tuple es) := by
  intro scope env s hs hfinds hscoped hnumbered
  obtain ⟨t, hrun, ht⟩ := exprs_restores h hs hfinds hscoped hnumbered
  exact ⟨t, by simp only [Resolver.expr, hrun], ht⟩

theorem RestoresExpr.call (name : Syntax.Name) {trees : List Syntax.Expr} {es : List Expr}
    (h : List.Forall₂ (RestoresExpr vars) trees es) (span : Text.Span) :
    RestoresExpr vars (.call (.op name) trees span) (.call (.op name.name) es .tensor) := by
  intro scope env s hs hfinds hscoped hnumbered
  obtain ⟨t, hrun, ht⟩ := exprs_restores h hs hfinds hscoped.2 hnumbered
  exact ⟨t, by simp only [Resolver.expr, Resolver.callee, hrun], ht⟩

theorem RestoresExpr.cond {test : Syntax.Expr} {thenBlock elseBlock : Syntax.Block} {c t f : Expr}
    (hc : RestoresExpr vars test c) (ht : RestoresBlock vars thenBlock t)
    (hf : RestoresBlock vars elseBlock f) (span : Text.Span) :
    RestoresExpr vars (.cond test thenBlock elseBlock span) (.cond c t f .tensor) := by
  intro scope env s hs hfinds hscoped hnumbered
  obtain ⟨hboth, hn₃⟩ := Numbered.append hnumbered
  obtain ⟨hn₁, hn₂⟩ := hboth.append
  obtain ⟨s₁, hrun₁, h₁⟩ := hc hs hfinds hscoped.1 hn₁
  obtain ⟨s₂, hrun₂, h₂⟩ := ht h₁.retraces (h₁.finds hfinds) hscoped.2.1 (h₁.numbered hn₂)
  have hfront := h₁.trans h₂
  obtain ⟨s₃, hrun₃, h₃⟩ :=
    hf h₂.retraces (hfront.finds hfinds) hscoped.2.2 (hfront.numbered hn₃)
  refine ⟨s₃, ?_, hfront.trans h₃⟩
  simp only [Resolver.expr, hrun₁, hrun₂, hrun₃]

theorem RestoresExpr.closure (hdistinct : vars.Distinct) {ps : List Syntax.Param}
    {vs : List Handle} (hps : List.Forall₂ (Declares vars) ps vs) {b : Syntax.Block} {body : Expr}
    (hbody : RestoresBlock vars b body) (span : Text.Span) :
    RestoresExpr vars (.closure ps b span) (.closure vs body) := by
  intro scope env s hs hfinds hscoped hnumbered
  obtain ⟨hn₁, hn₂⟩ := Numbered.append hnumbered
  obtain ⟨env', s₁, hrun₁, h₁, hfinds₁⟩ :=
    Resolver.bindParams_restores hdistinct hps hs hfinds hn₁
  obtain ⟨s₂, hrun₂, h₂⟩ := hbody h₁.retraces hfinds₁ hscoped (h₁.numbered hn₂)
  refine ⟨s₂, ?_, h₁.trans h₂⟩
  simp only [Resolver.expr, hrun₁, hrun₂]

theorem RestoresBlock.result {tree : Syntax.Expr} {e : Expr} (h : RestoresExpr vars tree e)
    (span : Text.Span) : RestoresBlock vars (.result tree span) e := by
  intro scope env s hs hfinds hscoped hnumbered
  obtain ⟨t, hrun, ht⟩ := h hs hfinds hscoped hnumbered
  exact ⟨t, by simp only [Resolver.block, hrun], ht⟩

theorem wellScoped_withResultType (ty : Ty) (e : Expr) (scope : List Handle) :
    (e.withResultType ty).WellScoped scope ↔ e.WellScoped scope := by
  cases e <;> exact Iff.rfl

/-- **A binding whose type is written** is resolved again: its binder comes behind those of its
value and in front of those of the rest. -/
theorem RestoresBlock.bind (hdistinct : vars.Distinct) {name : Syntax.Name} {v : Handle}
    (hv : Named vars name v) {t : TypeTerm} (hty : vars.ty? v = some (Ty.ofSyntax t))
    {tree : Syntax.Expr} {value : Expr} (hvalue : RestoresExpr vars tree value)
    {rest : Syntax.Block} {body : Expr} (hbody : RestoresBlock vars rest body)
    (span : Text.Span) : RestoresBlock vars (.bind name (some t) tree span rest)
      (.letIn v (value.withResultType (Ty.ofSyntax t)) body) := by
  intro scope env s hs hfinds hscoped hnumbered
  rw [Expr.binders, Resolver.binders_withResultType] at hnumbered ⊢
  obtain ⟨hn₁, hn₂⟩ := hnumbered.append
  obtain ⟨s₁, hrun₁, h₁⟩ := hvalue hs hfinds ((wellScoped_withResultType _ _ _).1 hscoped.1) hn₁
  obtain ⟨rfl, hn₃⟩ := (h₁.numbered hn₂).cons
  obtain ⟨s₂, hrun₂, h₂⟩ := Resolver.bind_restores hdistinct h₁.retraces span hv hty
  have hsize : s₂.vars.size = s₁.vars.size + 1 := h₂.size_eq
  have hfinds₂ : Finds vars ((name.name, s₁.vars.size) :: env) (s₁.vars.size :: scope)
      s₂.vars.size := by
    rw [hsize]
    exact (h₁.finds hfinds).cons hdistinct hv
  obtain ⟨s₃, hrun₃, h₃⟩ := hbody h₂.retraces hfinds₂ hscoped.2 (h₂.numbered hn₃)
  refine ⟨s₃, ?_, h₁.trans (h₂.trans h₃)⟩
  simp only [Resolver.block, hrun₁, Option.map_some, Option.getD_some, hrun₂, hrun₃]

/-! ### From tokens to trees -/

/-- The name that a lexeme carries. -/
theorem ident_eq {l : Lexeme} {name : String} (h : l.token = .localName name ∨
    l.token = .globalName name ∨ l.token = .identifier name) : l.ident = ⟨name, l.span⟩ := by
  unfold Lexeme.ident
  rcases h with h | h | h <;> rw [h]

theorem named_ident {l : Lexeme} {v : Handle} {name : String} (hv : vars.name? v = some name)
    (hl : l.token = .localName name) : Named vars l.ident v := by
  rw [Named, ident_eq (.inl hl), hv]

/-- **Lists.**  Where the tokens of each item derive something that belongs to it, those of the
list do. -/
theorem exists_items {α β : Type} {item : List Lexeme → α → Prop} {R : α → β → Prop}
    {tokens : β → List Token} : ∀ {ys : List β}, (∀ y ∈ ys, ∀ ls : List Lexeme,
      ls.map (·.token) = tokens y → ∃ x, item ls x ∧ R x y) →
    ∀ {ls : List Lexeme}, ls.map (·.token) = listed (ys.map tokens) →
      ∃ xs, Items item ls xs ∧ List.Forall₂ R xs ys
  | [], _, ls, h => by
    obtain ⟨l, rfl, hl⟩ := List.map_eq_singleton_iff.1 h
    exact ⟨[], .close (congrArg Token.terminal hl), .nil⟩
  | [y], hitem, ls, h => by
    obtain ⟨ls₁, ls₂, rfl, h₁, h₂⟩ := List.map_eq_append_iff.1 h
    obtain ⟨l, rfl, hl⟩ := List.map_eq_singleton_iff.1 h₂
    obtain ⟨x, hx, hR⟩ := hitem y List.mem_cons_self ls₁ h₁
    exact ⟨[x], .last hx (congrArg Token.terminal hl), .cons hR .nil⟩
  | y :: y' :: ys, hitem, ls, h => by
    rw [listed, List.map_cons, List.map_cons, commas, List.append_assoc, List.cons_append] at h
    obtain ⟨ls₁, ls₂, rfl, h₁, h₂⟩ := List.map_eq_append_iff.1 h
    obtain ⟨l, ls₃, rfl, hl, h₃⟩ := List.map_eq_cons_iff.1 h₂
    obtain ⟨x, hx, hR⟩ := hitem y List.mem_cons_self ls₁ h₁
    obtain ⟨xs, hxs, hRs⟩ := exists_items (fun z hz => hitem z (List.mem_cons_of_mem _ hz)) h₃
    exact ⟨x :: xs, .cons hx (congrArg Token.terminal hl) hxs, .cons hR hRs⟩

theorem Ty.tokensAll_eq (ts : List Ty) : Ty.tokensAll ts = ts.map Ty.tokens := by
  induction ts with
  | nil => rfl
  | cons t ts ih => rw [Ty.tokensAll, List.map_cons, ih]

theorem Expr.tokensAll_eq (es : List Expr) :
    Expr.tokensAll vars es = es.map (Expr.tokens vars) := by
  induction es with
  | nil => rfl
  | cons e es ih => rw [Expr.tokensAll, List.map_cons, ih]

theorem Ty.ofSyntaxAll_eq (ts : List TypeTerm) : Ty.ofSyntaxAll ts = ts.map Ty.ofSyntax := by
  induction ts with
  | nil => rfl
  | cons t ts ih => rw [Ty.ofSyntaxAll, List.map_cons, ih]

mutual

/-- **A type is written again.** -/
theorem Ty.Writable.derives : ∀ {ty : Ty}, ty.Writable → ∀ ls : List Lexeme,
    ls.map (·.token) = ty.tokens → ∃ t, DerivesType ls t ∧ Ty.ofSyntax t = ty
  | .tensor, _, ls, h => by
    obtain ⟨l, rfl, hl⟩ := List.map_eq_singleton_iff.1 h
    refine ⟨_, .named (congrArg Token.terminal hl), ?_⟩
    rw [ident_eq (.inr (.inr hl))]
    rfl
  | .func, _, ls, h => by
    obtain ⟨l, rfl, hl⟩ := List.map_eq_singleton_iff.1 h
    refine ⟨_, .named (congrArg Token.terminal hl), ?_⟩
    rw [ident_eq (.inr (.inr hl))]
    rfl
  | .other name, hwritable, ls, h => by
    obtain ⟨l, rfl, hl⟩ := List.map_eq_singleton_iff.1 h
    refine ⟨_, .named (congrArg Token.terminal hl), ?_⟩
    rw [ident_eq (.inr (.inr hl)), Ty.ofSyntax, if_neg hwritable.2.1, if_neg hwritable.2.2]
  | .tuple fields, hwritable, ls, h => by
    obtain ⟨l, ls₁, rfl, hl, h₁⟩ := List.map_eq_cons_iff.1 h
    rw [Ty.tokensAll_eq] at h₁
    obtain ⟨ts, hitems, hts⟩ := exists_items (Ty.WritableAll.derives hwritable) h₁
    refine ⟨_, .tuple (congrArg Token.terminal hl) hitems, ?_⟩
    rw [Ty.ofSyntax, Ty.ofSyntaxAll_eq, ← map_eq_of_forall₂ (f := id) (fun _ _ h => h.symm) hts,
      List.map_id]

theorem Ty.WritableAll.derives : ∀ {ts : List Ty}, Ty.WritableAll ts → ∀ ty ∈ ts,
    ∀ ls : List Lexeme, ls.map (·.token) = ty.tokens → ∃ t, DerivesType ls t ∧ Ty.ofSyntax t = ty
  | [], _, _, hmem, _, _ => absurd hmem List.not_mem_nil
  | t :: ts, h, ty, hmem, ls, hls => by
    rcases List.mem_cons.1 hmem with heq | hmem
    · rw [heq] at hls ⊢
      exact Ty.Writable.derives h.1 ls hls
    · exact Ty.WritableAll.derives h.2 ty hmem ls hls

end

/-- **A parameter is written again.** -/
theorem param_derives (hvars : vars.Writable) {v : Handle} (hv : vars.Declared v)
    {ls : List Lexeme} (h : ls.map (·.token) = vars.declarationTokens v) :
    ∃ p, DerivesParam ls p ∧ Declares vars p v := by
  obtain ⟨⟨name, hname⟩, ty, hty⟩ := hv
  rw [BinderTable.declarationTokens, nameOf_eq hname, hty] at h
  obtain ⟨l, ls₁, rfl, hl, h₁⟩ := List.map_eq_cons_iff.1 h
  obtain ⟨colon, ls₂, rfl, hcolon, h₂⟩ := List.map_eq_cons_iff.1 h₁
  obtain ⟨t, ht, rfl⟩ := (hvars.ty hty).derives ls₂ h₂
  exact ⟨_, .mk (congrArg Token.terminal hl) (congrArg Token.terminal hcolon) ht,
    named_ident hname hl, hty⟩

theorem params_derive (hvars : vars.Writable) {vs : List Handle} (hvs : ∀ v ∈ vs, vars.Declared v)
    {ls : List Lexeme} (h : ls.map (·.token) = listed (vs.map vars.declarationTokens)) :
    ∃ ps, Items DerivesParam ls ps ∧ List.Forall₂ (Declares vars) ps vs :=
  exists_items (fun v hv _ hls => param_derives hvars (hvs v hv) hls) h

/-- A block is read again when what is inside its braces is. -/
theorem enclosed_restores {e : Expr} (h : ∀ (start : Nat) (ls : List Lexeme),
    ls.map (·.token) = e.tokens vars ++ [.rightBrace] →
      ∃ b, DerivesRest start ls b ∧ RestoresBlock vars b e) {ls : List Lexeme}
    (hls : ls.map (·.token) = enclosed (e.tokens vars)) :
    ∃ b, DerivesBlock ls b ∧ RestoresBlock vars b e := by
  obtain ⟨l, ls, rfl, hl, hrest⟩ := List.map_eq_cons_iff.1 hls
  obtain ⟨b, hb, hrestores⟩ := h l.span.start ls hrest
  exact ⟨b, .mk (congrArg Token.terminal hl) hb, hrestores⟩

mutual

/-- **What can be written is read again** from its tokens. -/
theorem Writable.restores (hvars : vars.Writable) (hdistinct : vars.Distinct) :
    ∀ {e : Expr}, Writable vars e → ∀ ls : List Lexeme, ls.map (·.token) = e.tokens vars →
      ∃ tree, Derives ls tree ∧ RestoresExpr vars tree e
  | .var v, .var hv, ls, h => by
    obtain ⟨l, rfl, hl⟩ := List.map_eq_singleton_iff.1 h
    rw [nameOf_eq hv] at hl
    exact ⟨_, .var (congrArg Token.terminal hl), .var (named_ident hv hl) _⟩
  | .const value, .const _, ls, h => by
    obtain ⟨l, rfl, hl⟩ := List.map_eq_singleton_iff.1 h
    exact ⟨_, .number hl, fun _ _ s hs _ _ _ => ⟨s, rfl, .refl hs⟩⟩
  | .op name, .op _, ls, h => by
    obtain ⟨l, rfl, hl⟩ := List.map_eq_singleton_iff.1 h
    refine ⟨_, .op (congrArg Token.terminal hl), fun _ _ s hs _ _ _ => ⟨s, ?_, .refl hs⟩⟩
    rw [ident_eq (.inr (.inr hl))]
    rfl
  | .call _ args _, .call _ hargs, ls, h => by
    obtain ⟨l, ls₁, rfl, hl, h₁⟩ := List.map_eq_cons_iff.1 h
    obtain ⟨lOpen, ls₂, rfl, hlOpen, h₂⟩ := List.map_eq_cons_iff.1 h₁
    rw [Expr.tokensAll_eq] at h₂
    obtain ⟨trees, hitems, htrees⟩ := exists_items (WritableAll.restores hvars hdistinct hargs) h₂
    refine ⟨_, .callOp (congrArg Token.terminal hl) (congrArg Token.terminal hlOpen) hitems, ?_⟩
    have := RestoresExpr.call l.ident htrees (spanOf (l :: lOpen :: ls₂))
    rwa [ident_eq (.inr (.inr hl))] at this ⊢
  | .tuple fields, .tuple hfields, ls, h => by
    obtain ⟨l, ls₁, rfl, hl, h₁⟩ := List.map_eq_cons_iff.1 h
    rw [Expr.tokensAll_eq] at h₁
    have hitem := WritableAll.restores hvars hdistinct hfields
    obtain ⟨trees, hitems, htrees⟩ : ∃ trees, Items Derives ls₁ trees ∧
        List.Forall₂ (RestoresExpr vars) trees fields := by
      split at h₁
      · -- the only field has a comma behind it
        rename_i hlength
        obtain ⟨field, rfl⟩ := List.length_eq_one_iff.1 hlength
        obtain ⟨ls₂, ls₃, rfl, h₂, h₃⟩ := List.map_eq_append_iff.1 h₁
        obtain ⟨lComma, ls₄, rfl, hlComma, h₄⟩ := List.map_eq_cons_iff.1 h₃
        obtain ⟨lClose, rfl, hlClose⟩ := List.map_eq_singleton_iff.1 h₄
        obtain ⟨tree, htree, hrestores⟩ := hitem field List.mem_cons_self ls₂ h₂
        exact ⟨[tree], .cons htree (congrArg Token.terminal hlComma)
          (.close (congrArg Token.terminal hlClose)), .cons hrestores .nil⟩
      · exact exists_items hitem h₁
    exact ⟨_, .tuple (congrArg Token.terminal hl) hitems, .tuple htrees _⟩
  | .get _ index, @Writable.get _ v _ _ hv _, ls, h => by
    obtain ⟨l, ls₁, rfl, hl, h₁⟩ := List.map_eq_cons_iff.1 h
    obtain ⟨lIndex, rfl, hlIndex⟩ := List.map_eq_singleton_iff.1 h₁
    rw [nameOf_eq hv] at hl
    exact ⟨_, @Derives.get [l] _ lIndex index (.var (congrArg Token.terminal hl)) hlIndex,
      .get (.var (named_ident hv hl) _) index _⟩
  | .cond test thenBranch elseBranch _, .cond htest hthen helse, ls, h => by
    obtain ⟨l, ls₁, rfl, hl, h₁⟩ := List.map_eq_cons_iff.1 h
    obtain ⟨lOpen, ls₂, rfl, hlOpen, h₂⟩ := List.map_eq_cons_iff.1 h₁
    obtain ⟨lsTest, ls₃, rfl, hlsTest, h₃⟩ := List.map_eq_append_iff.1 h₂
    obtain ⟨lClose, ls₄, rfl, hlClose, h₄⟩ := List.map_eq_cons_iff.1 h₃
    obtain ⟨lsThen, ls₅, rfl, hlsThen, h₅⟩ := List.map_eq_append_iff.1 h₄
    obtain ⟨lElse, lsElse, rfl, hlElse, hlsElse⟩ := List.map_eq_cons_iff.1 h₅
    obtain ⟨c, hc, hcRestores⟩ := Writable.restores hvars hdistinct htest lsTest hlsTest
    obtain ⟨t, ht, htRestores⟩ :=
      enclosed_restores (WritableBlock.restores hvars hdistinct hthen) hlsThen
    obtain ⟨f, hf, hfRestores⟩ :=
      enclosed_restores (WritableBlock.restores hvars hdistinct helse) hlsElse
    exact ⟨_, .cond (congrArg Token.terminal hl) (congrArg Token.terminal hlOpen) hc
      (congrArg Token.terminal hlClose) ht (congrArg Token.terminal hlElse) hf,
      .cond hcRestores htRestores hfRestores _⟩
  | .closure params body, .closure hparams hbody, ls, h => by
    obtain ⟨l, ls₁, rfl, hl, h₁⟩ := List.map_eq_cons_iff.1 h
    obtain ⟨lOpen, ls₂, rfl, hlOpen, h₂⟩ := List.map_eq_cons_iff.1 h₁
    obtain ⟨lsParams, lsBody, rfl, hlsParams, hlsBody⟩ := List.map_eq_append_iff.1 h₂
    obtain ⟨ps, hps, hdeclares⟩ := params_derive hvars hparams hlsParams
    obtain ⟨b, hb, hbRestores⟩ :=
      enclosed_restores (WritableBlock.restores hvars hdistinct hbody) hlsBody
    exact ⟨_, .closure (congrArg Token.terminal hl) (congrArg Token.terminal hlOpen) hps hb,
      .closure hdistinct hdeclares hbRestores _⟩

theorem WritableAll.restores (hvars : vars.Writable) (hdistinct : vars.Distinct) :
    ∀ {es : List Expr}, WritableAll vars es → ∀ e ∈ es, ∀ ls : List Lexeme,
      ls.map (·.token) = e.tokens vars → ∃ tree, Derives ls tree ∧ RestoresExpr vars tree e
  | [], _, _, hmem, _, _ => absurd hmem List.not_mem_nil
  | e :: es, .cons h hs, e', hmem, ls, hls => by
    rcases List.mem_cons.1 hmem with heq | hmem
    · rw [heq] at hls ⊢
      exact Writable.restores hvars hdistinct h ls hls
    · exact WritableAll.restores hvars hdistinct hs e' hmem ls hls

/-- The same for a block from its tokens and the brace that closes it. -/
theorem WritableBlock.restores (hvars : vars.Writable) (hdistinct : vars.Distinct) :
    ∀ {e : Expr}, WritableBlock vars e → ∀ (start : Nat) (ls : List Lexeme),
      ls.map (·.token) = e.tokens vars ++ [.rightBrace] →
      ∃ b, DerivesRest start ls b ∧ RestoresBlock vars b e
  | e, .result he, start, ls, h => by
    obtain ⟨ls₁, ls₂, rfl, h₁, h₂⟩ := List.map_eq_append_iff.1 h
    obtain ⟨lClose, rfl, hlClose⟩ := List.map_eq_singleton_iff.1 h₂
    obtain ⟨tree, htree, hrestores⟩ := Writable.restores hvars hdistinct he ls₁ h₁
    exact ⟨_, .result htree (congrArg Token.terminal hlClose), .result hrestores _⟩
  | _, @WritableBlock.bind _ v name ty value body hv hty hvalue hbody, start, ls, h => by
    simp only [Expr.tokens, tokens_withResultType, BinderTable.declarationTokens, nameOf_eq hv,
      hty, Option.getD_some, List.cons_append, List.append_assoc] at h
    obtain ⟨l, ls₁, rfl, hl, h₁⟩ := List.map_eq_cons_iff.1 h
    obtain ⟨lName, ls₂, rfl, hlName, h₂⟩ := List.map_eq_cons_iff.1 h₁
    obtain ⟨lColon, ls₃, rfl, hlColon, h₃⟩ := List.map_eq_cons_iff.1 h₂
    obtain ⟨lsType, ls₄, rfl, hlsType, h₄⟩ := List.map_eq_append_iff.1 h₃
    obtain ⟨lEquals, ls₅, rfl, hlEquals, h₅⟩ := List.map_eq_cons_iff.1 h₄
    obtain ⟨lsValue, ls₆, rfl, hlsValue, h₆⟩ := List.map_eq_append_iff.1 h₅
    obtain ⟨lSemicolon, lsRest, rfl, hlSemicolon, hlsRest⟩ := List.map_eq_cons_iff.1 h₆
    obtain ⟨t, ht, rfl⟩ := (hvars.ty hty).derives lsType hlsType
    obtain ⟨tree, htree, htreeRestores⟩ :=
      Writable.restores hvars hdistinct hvalue lsValue hlsValue
    obtain ⟨b, hb, hbRestores⟩ := WritableBlock.restores hvars hdistinct hbody start lsRest hlsRest
    exact ⟨_, .bind (congrArg Token.terminal hl) (congrArg Token.terminal hlName)
      (.some (congrArg Token.terminal hlColon) ht) (congrArg Token.terminal hlEquals) htree
      (congrArg Token.terminal hlSemicolon) hb,
      .bind hdistinct (named_ident hv hlName) hty htreeRestores hbRestores _⟩

end

/-! ### Functions -/

/-- **A function is read again** from its tokens. -/
theorem WritableFunction.restores (hvars : vars.Writable) (hdistinct : vars.Distinct)
    {g : String × Function} (h : WritableFunction vars g) (hscoped : g.2.body.WellScoped g.2.params)
    {ls : List Lexeme} (hls : ls.map (·.token) = g.2.tokens vars g.1) :
    ∃ f, DerivesFunction ls f ∧ f.name.name = g.1 ∧ ∀ {s : Resolver}, Retraces vars s →
      Numbered s.vars.size (g.2.params ++ g.2.body.binders) →
        ∃ t, s.function f = (g.2, t) ∧ Allocates vars s t (g.2.params ++ g.2.body.binders) := by
  obtain ⟨l, ls₁, rfl, hl, h₁⟩ := List.map_eq_cons_iff.1 hls
  obtain ⟨lName, ls₂, rfl, hlName, h₂⟩ := List.map_eq_cons_iff.1 h₁
  obtain ⟨lOpen, ls₃, rfl, hlOpen, h₃⟩ := List.map_eq_cons_iff.1 h₂
  obtain ⟨lsParams, lsBody, rfl, hlsParams, hlsBody⟩ := List.map_eq_append_iff.1 h₃
  obtain ⟨ps, hps, hpsDeclares⟩ := params_derive hvars h.params hlsParams
  obtain ⟨b, hb, hbRestores⟩ := enclosed_restores (h.body.restores hvars hdistinct) hlsBody
  refine ⟨_, .mk (congrArg Token.terminal hl) (congrArg Token.terminal hlName)
    (congrArg Token.terminal hlOpen) hps hb, by rw [ident_eq (.inr (.inl hlName))],
    fun {s} hs hnumbered => ?_⟩
  obtain ⟨hn₁, hn₂⟩ := hnumbered.append
  obtain ⟨env, s₁, hrun₁, h₁, hfinds⟩ :=
    Resolver.bindParams_restores hdistinct hpsDeclares hs (.nil [] _) hn₁
  rw [List.append_nil] at hfinds
  obtain ⟨s₂, hrun₂, h₂⟩ := hbRestores h₁.retraces hfinds hscoped (h₁.numbered hn₂)
  refine ⟨s₂, ?_, h₁.trans h₂⟩
  simp only [Resolver.function, hrun₁, hrun₂]

/-- **Functions are read again,** one after the other. -/
theorem functions_restore (hvars : vars.Writable) (hdistinct : vars.Distinct) :
    ∀ {gs : List (String × Function)}, (∀ g ∈ gs, WritableFunction vars g) →
      (∀ g ∈ gs, g.2.body.WellScoped g.2.params) → (gs.map (·.1)).Nodup → ∀ {ls : List Lexeme},
        ls.map (·.token) = gs.flatMap (fun g => g.2.tokens vars g.1) →
          ∃ fs, DerivesFunctions ls fs ∧ ∀ {seen : List (String × Text.Span)} {s : Resolver},
            Retraces vars s → (∀ g ∈ gs, seen.lookup g.1 = none) →
              Numbered s.vars.size (gs.flatMap fun g => g.2.params ++ g.2.body.binders) →
                ∃ t, s.functions seen fs = (gs, t) ∧
                  Allocates vars s t (gs.flatMap fun g => g.2.params ++ g.2.body.binders) := by
  intro gs
  induction gs with
  | nil =>
    intro _ _ _ ls hls
    obtain rfl := List.map_eq_nil_iff.1 hls
    exact ⟨[], .nil, fun {_ s} hs _ _ => ⟨s, rfl, .refl hs⟩⟩
  | cons g gs ih =>
    intro hwritable hscoped hnodup ls hls
    obtain ⟨hg, hgs⟩ := List.forall_mem_cons.1 hwritable
    obtain ⟨hgScoped, hgsScoped⟩ := List.forall_mem_cons.1 hscoped
    obtain ⟨hnotmem, hnodup⟩ := List.nodup_cons.1 hnodup
    obtain ⟨ls₁, ls₂, rfl, hls₁, hls₂⟩ := List.map_eq_append_iff.1 hls
    obtain ⟨f, hf, hname, hfRestores⟩ := hg.restores hvars hdistinct hgScoped hls₁
    obtain ⟨fs, hfs, hfsRestores⟩ := ih hgs hgsScoped hnodup hls₂
    refine ⟨f :: fs, .cons hf hfs, fun {seen s} hs hseen hnumbered => ?_⟩
    obtain ⟨hn₁, hn₂⟩ := Numbered.append hnumbered
    obtain ⟨s₁, hrun₁, h₁⟩ := hfRestores hs hn₁
    obtain ⟨hgSeen, hgsSeen⟩ := List.forall_mem_cons.1 hseen
    have hgsSeen' : ∀ g' ∈ gs, ((f.name.name, f.name.span) :: seen).lookup g'.1 = none := by
      intro g' hg'
      have hne : g'.1 ≠ f.name.name := by
        rw [hname]
        exact fun heq => hnotmem (List.mem_map.2 ⟨g', hg', heq⟩)
      rw [List.lookup_cons, beq_false_of_ne hne]
      exact hgsSeen g' hg'
    obtain ⟨s₂, hrun₂, h₂⟩ := hfsRestores h₁.retraces hgsSeen' (h₁.numbered hn₂)
    refine ⟨s₂, ?_, h₁.trans h₂⟩
    rw [Resolver.functions, hname, hgSeen]
    rw [hname] at hrun₂
    simp only [hrun₁, hrun₂]

end

/-! ### Programs -/

theorem retraces_start (vars : BinderTable) : Retraces vars .start :=
  ⟨fun hv => absurd hv (Nat.not_lt_zero _), fun hv => absurd hv (Nat.not_lt_zero _), ⟨rfl, .nil⟩,
    rfl⟩

/-- Two tables of one size with the same names and types below it have the same at every handle. -/
theorem Retraces.eq_of_size {vars : BinderTable} {s : Resolver} (h : Retraces vars s)
    (hsize : s.vars.size = vars.size) (v : Handle) :
    s.vars.name? v = vars.name? v ∧ s.vars.ty? v = vars.ty? v := by
  rcases Nat.lt_or_ge v s.vars.size with hlt | hge
  · exact ⟨h.name?_eq hlt, h.ty?_eq hlt⟩
  · have hs : s.vars.entries[v]? = none := Array.getElem?_eq_none hge
    have hvars : vars.entries[v]? = none :=
      Array.getElem?_eq_none (Nat.le_trans (Nat.le_of_eq hsize.symm) hge)
    simp only [BinderTable.name?, BinderTable.ty?, hs, hvars, and_self]

/-- The functions of a legible module that resolves without errors can be written. -/
theorem writable_of_module {m : Syntax.Module} (h : anyError (ofModule m).2 = false)
    (hlegible : ∀ f ∈ m.functions, f.Legible)
    (hform : ∀ g ∈ (ofModule m).1.functions, Analysis.formErrors (ofModule m).1.vars g.2 = []) :
    ∀ g ∈ (ofModule m).1.functions, WritableFunction (ofModule m).1.vars g := by
  intro g hg
  obtain ⟨i, hi, rfl⟩ := List.mem_iff_getElem.1 hg
  have hall := (ofModule_spells h).1
  have hi' : i < m.functions.length := hall.length_eq ▸ hi
  have hspells := (List.forall₂_iff_get.1 hall).2 i hi' hi
  exact hspells.writable (hlegible _ (List.getElem_mem hi')) (hform _ hg)

end Program

open Program Syntax

theorem orderly_of_lexemes {source : String} (h : lexicalErrors source = [])
    (hfinite : ∀ l ∈ lexemes source, ∀ x, l.token = .number x → x.IsFinite) :
    Orderly (lexemes source) :=
  ⟨clear_of_significant source.toList (significant_eq_iff.2 ⟨h, rfl⟩),
    fun {l x} hl hx => hfinite l hl x hx⟩

/-- **A printed program reads back.**  Of a program that was read, whose functions pass the form
check and whose numbers are finite, the printed functions are a text that reads as the same
functions, over a table with the same names and types. -/
theorem readProgram_print {source : String} {p : TensorLiveness.Program}
    {warnings : List Diagnostic} (hread : readProgram source = .ok (p, warnings))
    (hform : ∀ g ∈ p.functions, Analysis.formErrors p.vars g.2 = [])
    (hfinite : ∀ l ∈ lexemes source, ∀ x, l.token = .number x → x.IsFinite) :
    ∃ p', readProgram (String.join (p.functions.map fun g => g.2.print p.vars g.1)) =
        .ok (p', []) ∧ p'.functions = p.functions ∧ p'.vars.size = p.vars.size ∧
      ∀ v, p'.vars.name? v = p.vars.name? v ∧ p'.vars.ty? v = p.vars.ty? v := by
  obtain ⟨m, hparse, hm, hclean⟩ := readProgram_eq_ok_iff.1 hread
  obtain ⟨hlexical, hderives⟩ := parse_sound hparse
  have hlegible := hderives.legible (orderly_of_lexemes hlexical hfinite)
  obtain ⟨hhandles, hscoped, _, _⟩ := ofModule_wellFormed hm hclean
  obtain rfl : (ofModule m).1 = p := congrArg Prod.fst hm
  obtain rfl : (ofModule m).2 = warnings := congrArg Prod.snd hm
  obtain ⟨hspells, _, hbinders⟩ := ofModule_spells hclean
  have hvars : (ofModule m).1.vars.Writable :=
    Resolver.functions_writable m.functions [] .start hlegible fun _ _ hb => nomatch hb
  have hwritable := writable_of_module hclean hlegible hform
  -- the printed text has the tokens of the functions and derives trees for them
  obtain ⟨hlexical', htokens⟩ := (scans_functions hvars hwritable).tokens_eq trivial
  have hnodup : ((ofModule m).1.functions.map (·.1)).Nodup := by
    rwa [map_eq_of_forall₂ (fun _ _ h => h.name_eq) hspells]
  obtain ⟨fs, hfs, hrestores⟩ := functions_restore hvars (BinderTable.distinct_of_nodup hbinders)
    hwritable hscoped hnodup htokens
  obtain ⟨m', hparse', rfl⟩ := exists_parse hlexical' hfs
  -- resolved from the start, the trees are the functions again
  have hnumbered : Numbered 0 ((ofModule m).1.functions.flatMap fun g =>
      g.2.params ++ g.2.body.binders) := by
    rw [Numbered, hhandles, List.length_range, List.range_eq_range']
  obtain ⟨t, hrun, ht⟩ := @hrestores [] _ (retraces_start _) (fun _ _ => rfl) hnumbered
  have hsize : t.vars.size = (ofModule m).1.vars.size := by
    rw [ht.size_eq, hhandles, List.length_range]
    exact Nat.zero_add _
  have hm' : ofModule m' = (⟨t.vars, (ofModule m).1.functions⟩, []) := by
    rw [ofModule, hrun, ← ht.retraces.clean]
  exact ⟨_, readProgram_eq_ok_iff.2 ⟨m', hparse', hm', rfl⟩, rfl, hsize,
    ht.retraces.eq_of_size hsize⟩

/-- A program that leaves out most types, with a tuple of one field and one of none. -/
def terseSource : String :=
  "fn @main(%c: Tensor, %p: (Tensor, Func)) \x7b let %x = %p.0; let %t = (%x,); " ++
    "let %f = fn(%y: Tensor) \x7b let %z = add(%y, -0.0); %z \x7d; " ++
    "let %r = if (%c) \x7b %x \x7d else \x7b %c \x7d; %r \x7d fn @unit() \x7b let %u = (); %u \x7d"

/-- What `terseSource` says. -/
def terseProgram : TensorLiveness.Program :=
  ⟨⟨#[⟨"c", .tensor, ⟨9, 19⟩⟩, ⟨"p", .tuple [.tensor, .func], ⟨21, 39⟩⟩,
    ⟨"x", .tensor, ⟨43, 57⟩⟩, ⟨"t", .tuple [.tensor], ⟨58, 73⟩⟩, ⟨"y", .tensor, ⟨86, 96⟩⟩,
    ⟨"z", .tensor, ⟨100, 123⟩⟩, ⟨"f", .func, ⟨74, 129⟩⟩, ⟨"r", .tensor, ⟨130, 166⟩⟩,
    ⟨"u", .tuple [], ⟨185, 197⟩⟩]⟩,
    [("main", ⟨[0, 1], .letIn 2 (.get (.var 1) 0) <| .letIn 3 (.tuple [.var 2]) <|
      .letIn 6 (.closure [4] (.letIn 5
        (.call (.op "add") [.var 4, .const (.finite true .zero)] .tensor) (.var 5))) <|
      .letIn 7 (.cond (.var 0) (.var 2) (.var 0) .tensor) (.var 7)⟩),
    ("unit", ⟨[], .letIn 8 (.tuple []) (.var 8)⟩)]⟩

/-- The functions of `terseProgram` as they are printed. -/
def terseText : String :=
  "fn @main(%c: Tensor, %p: (Tensor, Func)) \x7b\n  let %x: Tensor = %p.0;\n" ++
    "  let %t: (Tensor) = (%x,);\n  let %f: Func = fn(%y: Tensor) \x7b\n" ++
    "    let %z: Tensor = add(%y, -0);\n    %z\n  \x7d;\n" ++
    "  let %r: Tensor = if (%c) \x7b\n    %x\n  \x7d else \x7b\n    %c\n  \x7d;\n  %r\n\x7d\n" ++
    "fn @unit() \x7b\n  let %u: () = ();\n  %u\n\x7d\n"

set_option maxRecDepth 4000 in
/-- The text with all types reads as the program that was read without them. -/
theorem readProgram_print_terse : readProgram terseSource = .ok (terseProgram, []) ∧
    ∃ p', readProgram terseText = .ok (p', []) ∧
      p'.functions = terseProgram.functions ∧ p'.vars.size = 9 ∧
      p'.vars.name? 3 = some "t" ∧ p'.vars.ty? 3 = some (.tuple [.tensor]) := by
  have hread : readProgram terseSource = .ok (terseProgram, []) := by cbv
  have hform : ∀ g ∈ terseProgram.functions,
      Analysis.formErrors terseProgram.vars g.2 = [] := by decide +kernel
  have hzero : ∀ l ∈ lexemes terseSource, l.token.terminal = .number →
      l.token = .number (.finite true .zero) := by decide +kernel
  have htext : String.join (terseProgram.functions.map fun g =>
      g.2.print terseProgram.vars g.1) = terseText := by decide +kernel
  have hfinite : ∀ l ∈ lexemes terseSource, ∀ x, l.token = .number x → x.IsFinite := by
    intro l hl x hx
    have hvalue := hzero l hl (congrArg Token.terminal hx)
    obtain rfl := Token.number.inj (hx.symm.trans hvalue)
    exact ⟨true, .zero, rfl⟩
  obtain ⟨p', hread', hfunctions, hsize, hvars⟩ := readProgram_print hread hform hfinite
  rw [htext] at hread'
  exact ⟨hread, p', hread', hfunctions, hsize, (hvars 3).1, (hvars 3).2⟩

end TensorLiveness
