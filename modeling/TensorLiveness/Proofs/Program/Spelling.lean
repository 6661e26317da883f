/-
# What a tree spells

`Spells vars tree e` says that the syntax tree `tree` is the expression `e` with the names and
the types that the table `vars` has for its handles.  Where resolution finds no error it
leaves such a program behind, and every binder has a name of its own (`ofModule_spells`).

| lemma | about |
| --- | --- |
| `bind_faithful`, `bindParams_faithful` | binders |
| `reference_faithful` | names that are used |
| `expr_faithful`, `block_faithful` | trees, by recursion on them |
| `functions_faithful` | whole modules |

`Faithful s t P` is what the recursion carries along: if there is no error in the state `t` then
there was none in `s`, and `P` holds of every table that starts like the one of `t`.
-/

import Mathlib.Data.List.Forall2
import Mathlib.Data.List.Nodup
import TensorLiveness.Proofs.Program.Resolution

namespace TensorLiveness
namespace Program

open Number

/-! ### Tables -/

/-- Every binder of `t` is a binder of `u` with the same handle. -/
def BinderTable.Starts (t u : BinderTable) : Prop :=
  ∀ ⦃v : Handle⦄ ⦃b : Binder⦄, t.entries[v]? = some b → u.entries[v]? = some b

namespace BinderTable.Starts

variable {t u w : BinderTable}

theorem refl (t : BinderTable) : t.Starts t := fun _ _ h => h

theorem trans (h : t.Starts u) (h' : u.Starts w) : t.Starts w := fun _ _ hb => h' (h hb)

end BinderTable.Starts

/-! ### The relation -/

section Spelling

variable (vars : BinderTable)

/-- The handle `v` has this name. -/
def Named (name : Syntax.Name) (v : Handle) : Prop := vars.name? v = some name.name

/-- The handle `v` has the name and the type of this parameter. -/
def Declares (p : Syntax.Param) (v : Handle) : Prop :=
  Named vars p.name v ∧ vars.ty? v = some (Ty.ofSyntax p.ty)

/-- What is called has this name. -/
inductive SpellsCallee : Syntax.Callee → Expr → Prop
  | op (name : Syntax.Name) : SpellsCallee (.op name) (.op name.name)
  | var {name : Syntax.Name} {v : Handle} : Named vars name v → SpellsCallee (.var name) (.var v)

mutual

/-- The tree is the expression, with names for handles. -/
inductive Spells : Syntax.Expr → Expr → Prop
  | var {name : Syntax.Name} {v : Handle} (span : Text.Span) : Named vars name v →
    Spells (.var name span) (.var v)
  | number (value : Binary64) (span : Text.Span) : Spells (.number value span) (.const value)
  | op (name : Syntax.Name) (span : Text.Span) : Spells (.op name span) (.op name.name)
  | call {f : Syntax.Callee} {callee : Expr} {args : List Syntax.Expr} {es : List Expr}
    (span : Text.Span) : SpellsCallee vars f callee → SpellsAll args es →
    Spells (.call f args span) (.call callee es .tensor)
  | tuple {fields : List Syntax.Expr} {es : List Expr} (span : Text.Span) :
    SpellsAll fields es → Spells (.tuple fields span) (.tuple es)
  | get {source : Syntax.Expr} {e : Expr} (index : Nat) (span : Text.Span) : Spells source e →
    Spells (.get source index span) (.get e index)
  | cond {test : Syntax.Expr} {thenBlock elseBlock : Syntax.Block} {c t f : Expr}
    (span : Text.Span) : Spells test c → SpellsBlock thenBlock t → SpellsBlock elseBlock f →
    Spells (.cond test thenBlock elseBlock span) (.cond c t f .tensor)
  | closure {params : List Syntax.Param} {vs : List Handle} {block : Syntax.Block} {body : Expr}
    (span : Text.Span) : List.Forall₂ (Declares vars) params vs → SpellsBlock block body →
    Spells (.closure params block span) (.closure vs body)

/-- The trees are the expressions, one by one. -/
inductive SpellsAll : List Syntax.Expr → List Expr → Prop
  | nil : SpellsAll [] []
  | cons {tree : Syntax.Expr} {e : Expr} {trees : List Syntax.Expr} {es : List Expr} :
    Spells tree e → SpellsAll trees es → SpellsAll (tree :: trees) (e :: es)

/-- The block is the let sequence.  A call or a conditional that is bound has the type of its
binder. -/
inductive SpellsBlock : Syntax.Block → Expr → Prop
  | bind {name : Syntax.Name} {v : Handle} {written : Option Syntax.TypeTerm} {ty : Ty}
    {tree : Syntax.Expr} {value body : Expr} {rest : Syntax.Block} (span : Text.Span) :
    Named vars name v → vars.ty? v = some ty → (∀ t, written = some t → ty = Ty.ofSyntax t) →
    Spells tree value → SpellsBlock rest body →
    SpellsBlock (.bind name written tree span rest) (.letIn v (value.withResultType ty) body)
  | result {tree : Syntax.Expr} {e : Expr} (span : Text.Span) : Spells tree e →
    SpellsBlock (.result tree span) e

end

/-- The declaration is the function, under its name. -/
structure SpellsFunction (f : Syntax.FunctionDecl) (g : String × Function) : Prop where
  name_eq : g.1 = f.name.name
  params : List.Forall₂ (Declares vars) f.params g.2.params
  body : SpellsBlock vars f.body g.2.body

end Spelling

/-! ### Resolution without errors -/

namespace Resolver

/-- Nothing was found wrong. -/
def Clean (s : Resolver) : Prop := anyError s.diagnostics = false

/-- The noted names are those of the table, and none is repeated. -/
structure Noted (s : Resolver) : Prop where
  names_eq : s.binders.map (·.1) = s.vars.entries.toList.map (·.name)
  nodup : (s.binders.map (·.1)).Nodup

/-- A step from `s` to `t`.  If it finds nothing wrong, `P` holds of every table that starts with
the binders of `t`. -/
structure Faithful (s t : Resolver) (P : BinderTable → Prop) : Prop where
  starts : s.vars.Starts t.vars
  clean : t.Clean → s.Clean
  noted : t.Clean → s.Noted → t.Noted
  holds {vars : BinderTable} : t.Clean → t.vars.Starts vars → P vars

namespace Faithful

variable {s t r : Resolver} {P Q R : BinderTable → Prop}

theorem refl (h : ∀ vars, s.vars.Starts vars → P vars) : Faithful s s P :=
  ⟨.refl _, fun h => h, fun _ h => h, fun _ => h _⟩

theorem trans (h : Faithful s t P) (h' : Faithful t r Q)
    (hR : ∀ vars, t.vars.Starts vars → r.vars.Starts vars → P vars → Q vars → R vars) :
    Faithful s r R :=
  ⟨h.starts.trans h'.starts, fun hr => h.clean (h'.clean hr),
    fun hr hs => h'.noted hr (h.noted (h'.clean hr) hs), fun {vars} hr hvars =>
      have hstarts := h'.starts.trans hvars
      hR vars hstarts hvars (h.holds (h'.clean hr) hstarts) (h'.holds hr hvars)⟩

theorem mono (h : Faithful s t P) (hR : ∀ vars, t.vars.Starts vars → P vars → R vars) :
    Faithful s t R :=
  ⟨h.starts, h.clean, h.noted, fun ht hvars => hR _ hvars (h.holds ht hvars)⟩

end Faithful

/-- An error is for good. -/
theorem report_faithful (s : Resolver) {d : Diagnostic} (hd : d.isError = true)
    (P : BinderTable → Prop) : Faithful s (s.report d) P := by
  have hne : ¬ (s.report d).Clean := by simp [Clean, report, anyError, hd]
  exact ⟨.refl _, fun h => absurd h hne, fun h => absurd h hne, fun h => absurd h hne⟩

theorem note_eq_of_clean {s : Resolver} {name : Syntax.Name} (h : (s.note name).Clean) :
    name.name ∉ s.binders.map (·.1) ∧
      s.note name = { s with binders := s.binders ++ [(name.name, name.span)] } := by
  unfold note at h ⊢
  split at h
  · exact absurd h ((report_faithful s rfl fun _ => False).holds · (.refl _))
  · rename_i hnone
    exact ⟨lookup_eq_none_iff_not_mem.1 hnone, rfl⟩

/-- A binder has its name and its type. -/
theorem bind_faithful (s : Resolver) (name : Syntax.Name) (ty : Ty) (span : Text.Span) :
    Faithful s (s.bind name ty span).2 fun vars =>
      Named vars name (s.bind name ty span).1 ∧ vars.ty? (s.bind name ty span).1 = some ty := by
  have hclean : (s.bind name ty span).2.Clean ↔ (s.note name).Clean := Iff.rfl
  have hbinders : (s.bind name ty span).2.binders = (s.note name).binders := rfl
  refine ⟨fun v b hb => ?_, fun h => ?_, fun h hs => ?_, fun {vars} _ hvars => ?_⟩
  · obtain ⟨hlt, rfl⟩ := Array.getElem?_eq_some_iff.1 hb
    rw [entries_bind, Array.getElem?_push_lt hlt]
  · have hnote := (note_eq_of_clean (hclean.1 h)).2
    rw [hclean, hnote] at h
    exact h
  · obtain ⟨hnew, hnote⟩ := note_eq_of_clean (hclean.1 h)
    refine ⟨?_, ?_⟩
    · rw [hbinders, hnote, entries_bind]
      simp [hs.names_eq]
    · rw [hbinders, hnote, List.map_append]
      refine List.nodup_append.2 ⟨hs.nodup, List.nodup_singleton _, fun a ha b hb hab => ?_⟩
      have hb := List.mem_singleton.1 hb
      exact hnew (by simpa [hab, hb] using ha)
  · have hlast : (s.bind name ty span).2.vars.entries[(s.bind name ty span).1]? =
        some ⟨name.name, ty, span⟩ := by
      rw [entries_bind, handle_bind, BinderTable.size, Array.getElem?_push_size]
    have hbound := hvars hlast
    exact ⟨by rw [Named, BinderTable.name?, hbound]; rfl, by rw [BinderTable.ty?, hbound]; rfl⟩

/-- The binders in scope have their names. -/
def Legend (env : Env) (vars : BinderTable) : Prop :=
  ∀ ⦃name : String⦄ ⦃v : Handle⦄, (name, v) ∈ env → vars.name? v = some name

theorem Legend.cons {env : Env} {vars : BinderTable} (h : Legend env vars) {name : Syntax.Name}
    {v : Handle} (hv : Named vars name v) : Legend ((name.name, v) :: env) vars := by
  intro name' v' hmem
  rcases List.mem_cons.1 hmem with heq | hmem
  · obtain ⟨rfl, rfl⟩ := Prod.mk.inj heq
    exact hv
  · exact h hmem

/-- Parameters have their names and types, and are in scope under their names. -/
theorem bindParams_faithful : ∀ (ps : List Syntax.Param) (env : Env) (s : Resolver),
    Faithful s (s.bindParams env ps).2 fun vars =>
      List.Forall₂ (Declares vars) ps (s.bindParams env ps).1.1 ∧
        (Legend env vars → Legend (s.bindParams env ps).1.2 vars)
  | [], _, _ => .refl fun _ _ => ⟨.nil, fun h => h⟩
  | p :: ps, env, s => by
    have hbind := bind_faithful s p.name (Ty.ofSyntax p.ty) p.span
    refine hbind.trans (bindParams_faithful ps _ _) fun vars _ _ hp hps => ?_
    exact ⟨.cons hp hps.1, fun henv => hps.2 (henv.cons hp.1)⟩

/-- A name that is found in scope stands for the binder there. -/
theorem reference_faithful (env : Env) (s : Resolver) (name : Syntax.Name) :
    Faithful s (s.reference env name).2 fun vars => Legend env vars →
      ∃ v, (s.reference env name).1 = .var v ∧ Named vars name v := by
  unfold reference
  split
  · rename_i v hv
    refine .refl fun vars _ henv => ⟨v, rfl, henv ?_⟩
    obtain ⟨l₁, l₂, rfl, _⟩ := List.lookup_eq_some_iff.1 hv
    exact List.mem_append_right _ List.mem_cons_self
  · exact report_faithful _ rfl _

theorem callee_faithful (env : Env) (s : Resolver) (f : Syntax.Callee) :
    Faithful s (s.callee env f).2 fun vars => Legend env vars →
      SpellsCallee vars f (s.callee env f).1 := by
  cases f with
  | op name => exact .refl fun _ _ _ => .op name
  | var name =>
    refine (reference_faithful env s name).mono fun vars _ h henv => ?_
    obtain ⟨v, hv, hnamed⟩ := h henv
    rw [callee, hv]
    exact .var hnamed

mutual

/-- **Without an error a tree spells what it is resolved to.** -/
theorem expr_faithful : ∀ (tree : Syntax.Expr) (env : Env) (s : Resolver),
    Faithful s (s.expr env tree).2 fun vars => Legend env vars →
      Spells vars tree (s.expr env tree).1
  | .var name span, env, s => by
    refine (reference_faithful env s name).mono fun vars _ h henv => ?_
    obtain ⟨v, hv, hnamed⟩ := h henv
    rw [expr, hv]
    exact .var span hnamed
  | .number value span, _, _ => .refl fun _ _ _ => .number value span
  | .op name span, _, _ => .refl fun _ _ _ => .op name span
  | .call f args span, env, s =>
    (callee_faithful env s f).trans (exprs_faithful args env (s.callee env f).2)
      fun _ _ _ hf hargs henv => .call span (hf henv) (hargs henv)
  | .tuple fields span, env, s =>
    (exprs_faithful fields env s).mono fun _ _ h henv => .tuple span (h henv)
  | .get source index span, env, s =>
    (expr_faithful source env s).mono fun _ _ h henv => .get index span (h henv)
  | .cond test thenBlock elseBlock span, env, s => by
    have htest := expr_faithful test env s
    have hthen := block_faithful thenBlock env (s.expr env test).2
    have helse := block_faithful elseBlock env ((s.expr env test).2.block env thenBlock).2
    refine (htest.trans hthen fun _ _ _ hc ht => And.intro hc ht).trans helse
      fun vars _ _ h hf henv => ?_
    exact .cond span (h.1 henv) (h.2 henv) (hf henv)
  | .closure params body span, env, s =>
    (bindParams_faithful params env s).trans (block_faithful body _ _)
      fun _ _ _ hparams hbody henv => .closure span hparams.1 (hbody (hparams.2 henv))

/-- The same for trees from left to right. -/
theorem exprs_faithful : ∀ (trees : List Syntax.Expr) (env : Env) (s : Resolver),
    Faithful s (s.exprs env trees).2 fun vars => Legend env vars →
      SpellsAll vars trees (s.exprs env trees).1
  | [], _, _ => .refl fun _ _ _ => .nil
  | tree :: trees, env, s =>
    (expr_faithful tree env s).trans (exprs_faithful trees env (s.expr env tree).2)
      fun _ _ _ h htrees henv => .cons (h henv) (htrees henv)

/-- The same for a block. -/
theorem block_faithful : ∀ (b : Syntax.Block) (env : Env) (s : Resolver),
    Faithful s (s.block env b).2 fun vars => Legend env vars →
      SpellsBlock vars b (s.block env b).1
  | .result tree span, env, s =>
    (expr_faithful tree env s).mono fun _ _ h henv => .result span (h henv)
  | .bind name written tree span rest, env, s => by
    let ty := (written.map Ty.ofSyntax).getD ((s.expr env tree).1.infer (s.expr env tree).2.vars)
    let bound := (s.expr env tree).2.bind name ty span
    have hvalue := expr_faithful tree env s
    have hbind := bind_faithful (s.expr env tree).2 name ty span
    have hrest := block_faithful rest ((name.name, bound.1) :: env) bound.2
    refine (hvalue.trans hbind fun _ _ _ hv hb => And.intro hv hb).trans hrest
      fun vars _ _ h hbody henv => ?_
    refine .bind span h.2.1 h.2.2 (fun t ht => ?_) (h.1 henv) (hbody (henv.cons h.2.1))
    rw [ht]
    rfl

end

theorem function_faithful (s : Resolver) (f : Syntax.FunctionDecl) :
    Faithful s (s.function f).2 fun vars => SpellsFunction vars f (f.name.name, (s.function f).1) :=
  (bindParams_faithful f.params [] s).trans (block_faithful f.body _ _)
    fun _ _ _ hparams hbody =>
      ⟨rfl, hparams.1, hbody (hparams.2 fun _ _ h => absurd h List.not_mem_nil)⟩

/-- The functions of a module spell those of the program, and no name is repeated. -/
theorem functions_faithful : ∀ (fs : List Syntax.FunctionDecl) (seen : List (String × Text.Span))
    (s : Resolver), Faithful s (s.functions seen fs).2 fun vars =>
      List.Forall₂ (SpellsFunction vars) fs (s.functions seen fs).1 ∧
        (fs.map (·.name.name)).Nodup ∧ ∀ f ∈ fs, f.name.name ∉ seen.map (·.1) := by
  intro fs
  induction fs with
  | nil => exact fun _ s => .refl fun _ _ => ⟨.nil, .nil, fun _ h => nomatch h⟩
  | cons f fs ih =>
    intro seen s
    rw [functions]
    split
    · exact (report_faithful s rfl fun _ => False).trans (ih seen _) fun _ _ _ h _ => h.elim
    · rename_i hnone
      refine (function_faithful s f).trans (ih _ _) fun vars _ _ hf hfs => ?_
      obtain ⟨hall, hnodup, hseen⟩ := hfs
      refine ⟨.cons hf hall, List.nodup_cons.2 ⟨fun hmem => ?_, hnodup⟩, fun g hg => ?_⟩
      · obtain ⟨g, hg, hname⟩ := List.mem_map.1 hmem
        exact hseen g hg (hname ▸ List.mem_cons_self)
      · rcases List.mem_cons.1 hg with rfl | hg
        · exact lookup_eq_none_iff_not_mem.1 hnone
        · exact fun hmem => hseen g hg (List.mem_cons_of_mem _ hmem)

end Resolver

/-- **A module without errors spells its program,** and no name is repeated in it. -/
theorem ofModule_spells {m : Syntax.Module} (h : anyError (ofModule m).2 = false) :
    List.Forall₂ (SpellsFunction (ofModule m).1.vars) m.functions (ofModule m).1.functions ∧
      (m.functions.map (·.name.name)).Nodup ∧
      ((ofModule m).1.vars.entries.toList.map (·.name)).Nodup := by
  have hfaithful := Resolver.functions_faithful m.functions [] .start
  obtain ⟨hall, hnodup, _⟩ := hfaithful.holds h (.refl _)
  have hnoted := hfaithful.noted h ⟨rfl, .nil⟩
  exact ⟨hall, hnodup, hnoted.names_eq ▸ hnoted.nodup⟩

end Program
end TensorLiveness
