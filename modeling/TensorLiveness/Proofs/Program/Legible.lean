/-
# What can be written again

A program that was read can be written so that it reads back, but for two things: a number that
is not finite has no notation, and behind a number or a word like `fn` a projection would be taken
for something else.  Both are ruled out by hypotheses: the first by one about the source text, the
second by the form check, which admits projections of variables only.

| predicate | about |
| --- | --- |
| `Orderly` | the lexemes of a text |
| `TypeTerm.Legible`, `Expr.Legible`, `Block.Legible` | trees |
| `Ty.Writable`, `BinderTable.Writable` | types and binders |
| `Writable`, `WritableBlock` | expressions that a tree spells |

The lexemes of a text are orderly, so its tree is legible (`DerivesFunctions.legible`), so its
binders and its expressions are writable (`functions_writable`, `Spells.writable`).
-/

import TensorLiveness.Proofs.Analysis.Form
import TensorLiveness.Proofs.Program.Spelling
import TensorLiveness.Proofs.Syntax.Parsing
import TensorLiveness.Proofs.Syntax.Scanning

namespace TensorLiveness

open Number

/-- A number that has a notation. -/
def Number.Binary64.IsFinite (x : Binary64) : Prop := ∃ negative m, x = .finite negative m

namespace Syntax

/-- A name that stands for itself. -/
def IsIdentifier (name : String) : Prop := IsDotted name.toList ∧ name ∉ keywords

/-! ### Legible trees -/

mutual

/-- Every name in the type can be written. -/
def TypeTerm.Legible : TypeTerm → Prop
  | .named name => IsIdentifier name.name
  | .tuple fields _ => TypeTerm.LegibleAll fields

/-- Every name in the types can be written. -/
def TypeTerm.LegibleAll : List TypeTerm → Prop
  | [] => True
  | t :: ts => t.Legible ∧ TypeTerm.LegibleAll ts

end

/-- The name and the type of the parameter can be written. -/
def Param.Legible (p : Param) : Prop := IsWord p.name.name.toList ∧ p.ty.Legible

/-- What is called can be written. -/
def Callee.Legible : Callee → Prop
  | .op name => IsIdentifier name.name
  | .var name => IsWord name.name.toList

mutual

/-- Everything in the tree can be written.  Where an index is behind it (`dot`), an operator may be
spelled like a keyword. -/
def Expr.Legible (dot : Bool) : Expr → Prop
  | .var name _ => IsWord name.name.toList
  | .number value _ => value.IsFinite
  | .op name _ => IsDotted name.name.toList ∧ (dot = false → name.name ∉ keywords)
  | .call f args _ => f.Legible ∧ Expr.LegibleAll args
  | .tuple fields _ => Expr.LegibleAll fields
  | .get source index _ => source.Legible true ∧ index < UInt64.size
  | .cond test thenBlock elseBlock _ =>
    test.Legible false ∧ thenBlock.Legible ∧ elseBlock.Legible
  | .closure params body _ => (∀ p ∈ params, p.Legible) ∧ body.Legible

/-- Everything in the trees can be written. -/
def Expr.LegibleAll : List Expr → Prop
  | [] => True
  | e :: es => e.Legible false ∧ Expr.LegibleAll es

/-- Everything in the block can be written. -/
def Block.Legible : Block → Prop
  | .bind name ty value _ rest =>
    IsWord name.name.toList ∧ (∀ t ∈ ty, t.Legible) ∧ value.Legible false ∧ rest.Legible
  | .result value _ => value.Legible false

end

/-- Everything in the function can be written. -/
structure FunctionDecl.Legible (f : FunctionDecl) : Prop where
  name : IsWord f.name.name.toList
  params : ∀ p ∈ f.params, p.Legible
  body : f.body.Legible

/-! ### Orderly lexemes -/

/-- The tokens are in order, and the numbers among them are finite. -/
structure Orderly (ls : List Lexeme) : Prop where
  clear : Clear (ls.map (·.token))
  finite {l : Lexeme} {x : Binary64} : l ∈ ls → l.token = .number x → x.IsFinite

/-- No index comes next. -/
def NoIndex (tail : List Lexeme) : Prop := ∀ l ∈ tail.head?, l.token.terminal ≠ .index

theorem NoIndex.cons {l : Lexeme} {t : Terminal} (hl : l.token.terminal = t) (ht : t ≠ .index)
    (tail : List Lexeme) : NoIndex (l :: tail) := by
  rintro _ ⟨⟩
  exact hl ▸ ht

namespace Orderly

variable {l : Lexeme} {ls ls' : List Lexeme}

theorem tail (h : Orderly (l :: ls)) : Orderly ls :=
  ⟨h.clear.2.2, fun hl => h.finite (List.mem_cons_of_mem _ hl)⟩

theorem suffix (h : Orderly (ls ++ ls')) : Orderly ls' := by
  induction ls with
  | nil => exact h
  | cons l ls ih => exact ih h.tail

theorem isWord (h : Orderly (l :: ls))
    (hl : l.token.terminal = .localName ∨ l.token.terminal = .globalName) :
    IsWord l.ident.name.toList := by
  have hlegible := h.clear.1
  obtain ⟨token, span⟩ := l
  cases token with
  | localName name => exact hlegible
  | globalName name => exact hlegible
  | _ => rcases hl with hl | hl <;> cases hl

/-- An identifier with no index behind it is no keyword. -/
theorem isDotted (h : Orderly (l :: ls)) (hl : l.token.terminal = .identifier) :
    IsDotted l.ident.name.toList ∧ (NoIndex ls → l.ident.name ∉ keywords) := by
  obtain ⟨hlegible, hkeyword, _⟩ := h.clear
  obtain ⟨token, span⟩ := l
  cases token with
  | identifier name =>
    refine ⟨hlegible, fun hnext hmem => ?_⟩
    obtain ⟨i, hi⟩ := hkeyword name hmem rfl
    cases ls with
    | nil => cases hi
    | cons l' ls =>
      have hindex : l'.token = .index i := Option.some.inj hi
      exact hnext l' rfl (by rw [hindex, Token.terminal])
  | _ => cases hl

theorem isIdentifier (h : Orderly (l :: ls)) (hl : l.token.terminal = .identifier)
    (hnext : NoIndex ls) : IsIdentifier l.ident.name :=
  ⟨(h.isDotted hl).1, (h.isDotted hl).2 hnext⟩

theorem index_lt (h : Orderly (l :: ls)) {i : Nat} (hl : l.token = .index i) :
    i < UInt64.size := by
  have hlegible := h.clear.1
  change l.token.Legible at hlegible
  rw [hl] at hlegible
  exact hlegible

end Orderly

/-! ### What orderly lexemes derive -/

mutual

theorem DerivesType.legible : ∀ {ty : TypeTerm} {ls tail : List Lexeme}, DerivesType ls ty →
    Orderly (ls ++ tail) → NoIndex tail → ty.Legible
  | .named _, _, _, .named hl, h, hnext => h.isIdentifier hl hnext
  | .tuple _ _, _, _, .tuple _ hitems, h, _ => legibleAll_of_types hitems h.tail

theorem legibleAll_of_types : ∀ {ts : List TypeTerm} {ls tail : List Lexeme},
    Items DerivesType ls ts → Orderly (ls ++ tail) → TypeTerm.LegibleAll ts
  | [], _, _, _, _ => trivial
  | [t], _, _, .last ht hl, h => by
    rw [List.append_assoc] at h
    exact ⟨ht.legible h (.cons hl (by decide) _), trivial⟩
  | t :: ts, _, _, .cons ht hl hts, h => by
    rw [List.append_assoc] at h
    exact ⟨ht.legible h (.cons hl (by decide) _), legibleAll_of_types hts h.suffix.tail⟩

end

theorem DerivesParam.legible {p : Param} {ls tail : List Lexeme} (h : DerivesParam ls p)
    (horderly : Orderly (ls ++ tail)) (hnext : NoIndex tail) : p.Legible := by
  obtain ⟨hname, _, hty⟩ := h
  exact ⟨horderly.isWord (.inl hname), hty.legible horderly.tail.tail hnext⟩

theorem legible_of_params {ps : List Param} {ls : List Lexeme} (h : Items DerivesParam ls ps)
    {tail : List Lexeme} (horderly : Orderly (ls ++ tail)) :
    (∀ p ∈ ps, p.Legible) ∧ Orderly tail := by
  induction h with
  | close => exact ⟨fun _ hp => absurd hp List.not_mem_nil, horderly.tail⟩
  | last hp hl =>
    rw [List.append_assoc] at horderly
    refine ⟨fun p hmem => ?_, horderly.suffix.tail⟩
    rw [List.mem_singleton.1 hmem]
    exact hp.legible horderly (.cons hl (by decide) _)
  | cons hp hl _ ih =>
    rw [List.append_assoc] at horderly
    obtain ⟨hps, htail⟩ := ih horderly.suffix.tail
    refine ⟨fun p hmem => ?_, htail⟩
    rcases List.mem_cons.1 hmem with rfl | hmem
    · exact hp.legible horderly (.cons hl (by decide) _)
    · exact hps p hmem

theorem DerivesAnnotation.legible {ty : Option TypeTerm} {ls tail : List Lexeme}
    (h : DerivesAnnotation ls ty) (horderly : Orderly (ls ++ tail)) (hnext : NoIndex tail) :
    ∀ t ∈ ty, t.Legible := by
  cases h with
  | none => exact fun _ ht => nomatch ht
  | some _ hty =>
    rintro _ ⟨⟩
    exact hty.legible horderly.tail hnext

mutual

/-- **A tree that orderly lexemes derive is legible.** -/
theorem Derives.legible : ∀ {e : Expr} {ls tail : List Lexeme} {dot : Bool}, Derives ls e →
    Orderly (ls ++ tail) → (dot = false → NoIndex tail) → e.Legible dot
  | .var .., _, _, _, .var hl, h, _ => h.isWord (.inl hl)
  | .op .., _, _, _, .op hl, h, hnext =>
    ⟨(h.isDotted hl).1, fun hdot => (h.isDotted hl).2 (hnext hdot)⟩
  | .number .., _, _, _, .number hl, h, _ => h.finite List.mem_cons_self hl
  | .call .., _, _, _, .callVar hl _ hitems, h, _ =>
    ⟨h.isWord (.inl hl), legibleAll_of_exprs hitems h.tail.tail⟩
  | .call .., _, _, _, .callOp hl hopen hitems, h, _ =>
    ⟨h.isIdentifier hl (.cons hopen (by decide) _), legibleAll_of_exprs hitems h.tail.tail⟩
  | .tuple .., _, _, _, .tuple _ hitems, h, _ => legibleAll_of_exprs hitems h.tail
  | .get .., _, tail, _, @Derives.get ls _ l _ hsource hl, h, _ => by
    rw [List.append_assoc] at h
    exact ⟨hsource.legible h fun hdot => Bool.noConfusion hdot, h.suffix.index_lt hl⟩
  | .cond .., _, tail, _, @Derives.cond _ _ l₂ l₃ ls ls₁ ls₂ _ _ _ _ _ htest hclose hthen _ helse,
      h, _ => by
    have h₁ : Orderly (ls ++ l₂ :: (ls₁ ++ l₃ :: (ls₂ ++ tail))) := by simpa using h.tail.tail
    have h₂ : Orderly (ls₁ ++ l₃ :: (ls₂ ++ tail)) := h₁.suffix.tail
    exact ⟨htest.legible h₁ fun _ => .cons hclose (by decide) _, hthen.legible h₂,
      helse.legible h₂.suffix.tail⟩
  | .closure .., _, tail, _, @Derives.closure _ _ ls ls' _ _ _ _ hparams hbody, h, _ => by
    have h₁ : Orderly (ls ++ (ls' ++ tail)) := by simpa using h.tail.tail
    obtain ⟨hps, h₂⟩ := legible_of_params hparams h₁
    exact ⟨hps, hbody.legible h₂⟩

theorem legibleAll_of_exprs : ∀ {es : List Expr} {ls tail : List Lexeme},
    Items Derives ls es → Orderly (ls ++ tail) → Expr.LegibleAll es
  | [], _, _, _, _ => trivial
  | [e], _, _, .last he hl, h => by
    rw [List.append_assoc] at h
    exact ⟨he.legible h fun _ => .cons hl (by decide) _, trivial⟩
  | e :: es, _, _, .cons he hl hes, h => by
    rw [List.append_assoc] at h
    exact ⟨he.legible h fun _ => .cons hl (by decide) _, legibleAll_of_exprs hes h.suffix.tail⟩

theorem DerivesBlock.legible : ∀ {b : Block} {ls tail : List Lexeme}, DerivesBlock ls b →
    Orderly (ls ++ tail) → b.Legible
  | _, _, _, .mk _ hrest, h => hrest.legible h.tail

theorem DerivesRest.legible : ∀ {b : Block} {start : Nat} {ls tail : List Lexeme},
    DerivesRest start ls b → Orderly (ls ++ tail) → b.Legible
  | .result .., _, _, _, .result hvalue hl, h => by
    rw [List.append_assoc] at h
    exact hvalue.legible h fun _ => .cons hl (by decide) _
  | .bind .., _, _, tail, @DerivesRest.bind _ _ _ l₁ l₂ ls ls₁ ls₂ _ _ _ _ hname hty hequals hvalue
      hsemicolon hrest, h => by
    have h₁ : Orderly (ls ++ l₁ :: (ls₁ ++ l₂ :: (ls₂ ++ tail))) := by simpa using h.tail.tail
    have h₂ : Orderly (ls₁ ++ l₂ :: (ls₂ ++ tail)) := h₁.suffix.tail
    exact ⟨h.tail.isWord (.inl hname), hty.legible h₁ (.cons hequals (by decide) _),
      hvalue.legible h₂ fun _ => .cons hsemicolon (by decide) _, hrest.legible h₂.suffix.tail⟩

end

/-- **Functions that orderly lexemes derive are legible.** -/
theorem DerivesFunctions.legible {fs : List FunctionDecl} {ls : List Lexeme}
    (h : DerivesFunctions ls fs) (horderly : Orderly ls) : ∀ f ∈ fs, f.Legible := by
  induction h with
  | nil => exact fun _ hf => absurd hf List.not_mem_nil
  | @cons _ ls' f fs hf _ ih =>
    intro g hg
    rcases List.mem_cons.1 hg with rfl | hg
    · cases hf with
      | @mk _ _ _ ls ls₁ _ _ _ hname _ hparams hbody =>
        have h₁ : Orderly (ls ++ (ls₁ ++ ls')) := by simpa using horderly.tail.tail.tail
        obtain ⟨hps, h₂⟩ := legible_of_params hparams h₁
        exact ⟨horderly.tail.isWord (.inr hname), hps, hbody.legible h₂⟩
    · exact ih horderly.suffix g hg

end Syntax

namespace Program

open Syntax (IsWord IsIdentifier TypeTerm)

/-! ### Writable binders -/

mutual

/-- The type can be written. -/
def Ty.Writable : Ty → Prop
  | .tensor | .func => True
  | .tuple fields => Ty.WritableAll fields
  | .other name => IsIdentifier name ∧ name ≠ "Tensor" ∧ name ≠ "Func"

/-- The types can be written. -/
def Ty.WritableAll : List Ty → Prop
  | [] => True
  | t :: ts => t.Writable ∧ Ty.WritableAll ts

end

/-- Every binder can be written with its type. -/
def BinderTable.Writable (t : BinderTable) : Prop :=
  ∀ ⦃v : Handle⦄ ⦃b : Binder⦄, t.entries[v]? = some b → IsWord b.name.toList ∧ b.ty.Writable

theorem BinderTable.Writable.isWord {vars : BinderTable} (h : vars.Writable) {v : Handle}
    {name : String} (hv : vars.name? v = some name) : IsWord name.toList := by
  obtain ⟨b, hb, rfl⟩ := Option.map_eq_some_iff.1 hv
  exact (h hb).1

theorem BinderTable.Writable.ty {vars : BinderTable} (h : vars.Writable) {v : Handle} {ty : Ty}
    (hv : vars.ty? v = some ty) : ty.Writable := by
  obtain ⟨b, hb, rfl⟩ := Option.map_eq_some_iff.1 hv
  exact (h hb).2

mutual

theorem Ty.writable_ofSyntax : ∀ {t : TypeTerm}, t.Legible → (Ty.ofSyntax t).Writable
  | .named name, h => by
    rw [Ty.ofSyntax]
    split
    · trivial
    · split
      · trivial
      · exact ⟨h, ‹_›, ‹_›⟩
  | .tuple fields _, h => Ty.writableAll_ofSyntaxAll h

theorem Ty.writableAll_ofSyntaxAll : ∀ {ts : List TypeTerm}, TypeTerm.LegibleAll ts →
    Ty.WritableAll (Ty.ofSyntaxAll ts)
  | [], _ => trivial
  | _ :: _, h => ⟨Ty.writable_ofSyntax h.1, Ty.writableAll_ofSyntaxAll h.2⟩

end

theorem Ty.WritableAll.getElem? : ∀ {ts : List Ty} {i : Nat} {t : Ty}, Ty.WritableAll ts →
    ts[i]? = some t → t.Writable
  | _ :: _, 0, _, h, hi => Option.some.inj hi ▸ h.1
  | _ :: _, i + 1, _, h, hi => Ty.WritableAll.getElem? h.2 (i := i) hi

theorem Ty.Writable.field {t : Ty} (h : t.Writable) (i : Nat) : (t.field i).Writable := by
  cases t with
  | tuple fields =>
    rw [Ty.field]
    cases hi : fields[i]? with
    | none => trivial
    | some t => exact Ty.WritableAll.getElem? h hi
  | _ => trivial

mutual

/-- A type that is inferred from types that can be written can be written. -/
theorem Expr.infer_writable {vars : BinderTable} (h : vars.Writable) :
    ∀ e : Expr, (e.infer vars).Writable
  | .var v => by
    rw [Expr.infer]
    cases hv : vars.ty? v with
    | none => trivial
    | some ty => exact h.ty hv
  | .const _ | .call .. | .op _ | .closure .. => trivial
  | .tuple fields => Expr.inferAll_writable h fields
  | .get source index => (source.infer_writable h).field index
  | .cond _ thenBranch _ _ => thenBranch.infer_writable h
  | .letIn _ _ body => body.infer_writable h

theorem Expr.inferAll_writable {vars : BinderTable} (h : vars.Writable) :
    ∀ es : List Expr, Ty.WritableAll (Expr.inferAll vars es)
  | [] => trivial
  | e :: es => ⟨e.infer_writable h, Expr.inferAll_writable h es⟩

end

namespace Resolver

theorem bind_writable {s : Resolver} (h : s.vars.Writable) {name : Syntax.Name}
    (hname : IsWord name.name.toList) {ty : Ty} (hty : ty.Writable) (span : Text.Span) :
    (s.bind name ty span).2.vars.Writable := by
  intro v b hb
  rw [entries_bind, Array.getElem?_push] at hb
  split at hb
  · cases hb
    exact ⟨hname, hty⟩
  · exact h hb

theorem bindParams_writable : ∀ (ps : List Syntax.Param) (env : Env) {s : Resolver},
    (∀ p ∈ ps, p.Legible) → s.vars.Writable → (s.bindParams env ps).2.vars.Writable
  | [], _, _, _, h => h
  | p :: ps, _, _, hlegible, h => by
    have hp := hlegible p List.mem_cons_self
    exact bindParams_writable ps _ (fun q hq => hlegible q (List.mem_cons_of_mem _ hq))
      (bind_writable h hp.1 (Ty.writable_ofSyntax hp.2) p.span)

theorem vars_reference (env : Env) (s : Resolver) (name : Syntax.Name) :
    (s.reference env name).2.vars = s.vars := by
  unfold reference
  split <;> rfl

theorem vars_callee (env : Env) (s : Resolver) (f : Syntax.Callee) :
    (s.callee env f).2.vars = s.vars := by
  cases f with
  | op name => rfl
  | var name => exact vars_reference env s name

mutual

/-- **What a legible tree binds can be written.** -/
theorem expr_writable : ∀ (tree : Syntax.Expr) {dot : Bool} {env : Env} {s : Resolver},
    tree.Legible dot → s.vars.Writable → (s.expr env tree).2.vars.Writable
  | .var name _, _, env, s, _, h => (vars_reference env s name).symm ▸ h
  | .number .., _, _, _, _, h | .op .., _, _, _, _, h => h
  | .call f args _, _, env, s, hlegible, h =>
    exprs_writable args hlegible.2 ((vars_callee env s f).symm ▸ h)
  | .tuple fields _, _, _, _, hlegible, h => exprs_writable fields hlegible h
  | .get source _ _, _, _, _, hlegible, h => expr_writable source hlegible.1 h
  | .cond test thenBlock elseBlock _, _, _, _, hlegible, h =>
    block_writable elseBlock hlegible.2.2
      (block_writable thenBlock hlegible.2.1 (expr_writable test hlegible.1 h))
  | .closure params body _, _, env, _, hlegible, h =>
    block_writable body hlegible.2 (bindParams_writable params env hlegible.1 h)

theorem exprs_writable : ∀ (trees : List Syntax.Expr) {env : Env} {s : Resolver},
    Syntax.Expr.LegibleAll trees → s.vars.Writable → (s.exprs env trees).2.vars.Writable
  | [], _, _, _, h => h
  | tree :: trees, _, _, hlegible, h =>
    exprs_writable trees hlegible.2 (expr_writable tree hlegible.1 h)

theorem block_writable : ∀ (b : Syntax.Block) {env : Env} {s : Resolver}, b.Legible →
    s.vars.Writable → (s.block env b).2.vars.Writable
  | .result value _, _, _, hlegible, h => expr_writable value hlegible h
  | .bind name ty value span rest, env, s, hlegible, h => by
    obtain ⟨hname, hty, hvalue, hrest⟩ := hlegible
    have hbefore : (s.expr env value).2.vars.Writable := expr_writable value hvalue h
    refine block_writable rest hrest (bind_writable hbefore hname ?_ span)
    cases ty with
    | none => exact Expr.infer_writable hbefore _
    | some t => exact Ty.writable_ofSyntax (hty t rfl)

end

theorem functions_writable : ∀ (fs : List Syntax.FunctionDecl) (seen : List (String × Text.Span))
    (s : Resolver), (∀ f ∈ fs, f.Legible) → s.vars.Writable →
      (s.functions seen fs).2.vars.Writable := by
  intro fs
  induction fs with
  | nil => exact fun _ _ _ h => h
  | cons f fs ih =>
    intro seen s hlegible h
    have hf := hlegible f List.mem_cons_self
    have hfs := fun g hg => hlegible g (List.mem_cons_of_mem _ hg)
    rw [functions]
    split
    · exact ih _ _ hfs h
    · exact ih _ _ hfs
        (block_writable f.body hf.body (bindParams_writable f.params [] hf.params h))

end Resolver

/-! ### Writable expressions -/

/-- The handle has a name and a type. -/
def BinderTable.Declared (vars : BinderTable) (v : Handle) : Prop :=
  (∃ name, vars.name? v = some name) ∧ ∃ ty, vars.ty? v = some ty

section

variable (vars : BinderTable)

mutual

/-- The expression can be written in the place of an operand: names for its handles, notations for
its numbers, projections of variables only. -/
inductive Writable : Expr → Prop
  | var {v : Handle} {name : String} : vars.name? v = some name → Writable (.var v)
  | const {value : Binary64} : value.IsFinite → Writable (.const value)
  | op {name : String} : IsIdentifier name → Writable (.op name)
  | call {name : String} {args : List Expr} : IsIdentifier name → WritableAll args →
    Writable (.call (.op name) args .tensor)
  | tuple {fields : List Expr} : WritableAll fields → Writable (.tuple fields)
  | get {v : Handle} {name : String} {index : Nat} : vars.name? v = some name →
    index < UInt64.size → Writable (.get (.var v) index)
  | cond {test thenBranch elseBranch : Expr} : Writable test → WritableBlock thenBranch →
    WritableBlock elseBranch → Writable (.cond test thenBranch elseBranch .tensor)
  | closure {params : List Handle} {body : Expr} :
    (∀ v ∈ params, vars.Declared v) → WritableBlock body → Writable (.closure params body)

/-- The expressions can be written as operands. -/
inductive WritableAll : List Expr → Prop
  | nil : WritableAll []
  | cons {e : Expr} {es : List Expr} : Writable e → WritableAll es → WritableAll (e :: es)

/-- The let sequence can be written as a block.  What it binds has the type of its binder. -/
inductive WritableBlock : Expr → Prop
  | result {e : Expr} : Writable e → WritableBlock e
  | bind {v : Handle} {name : String} {ty : Ty} {value body : Expr} : vars.name? v = some name →
    vars.ty? v = some ty → Writable value → WritableBlock body →
    WritableBlock (.letIn v (value.withResultType ty) body)

end

end

section

open Analysis

variable {vars : BinderTable}

theorem exprErrors_withResultType (position : Position) (site : Option Handle) (ty : Ty)
    (e : Expr) :
    exprErrors vars position site (e.withResultType ty) = exprErrors vars position site e := by
  cases e <;> rfl

theorem argsErrors_of_fieldsErrors {site : Option Handle} : ∀ {fields : List Expr} {i : Nat},
    fieldsErrors vars site i fields = [] → argsErrors vars site fields = []
  | [], _, _ => rfl
  | e :: es, i, h => by
    rw [fieldsErrors, List.append_eq_nil_iff, List.append_eq_nil_iff] at h
    rw [argsErrors, h.1.2, argsErrors_of_fieldsErrors h.2, List.append_nil]

theorem declared_of_declares {params : List Syntax.Param} {vs : List Handle}
    (h : List.Forall₂ (Declares vars) params vs) : ∀ v ∈ vs, vars.Declared v := by
  intro v hv
  induction h with
  | nil => cases hv
  | cons hp _ ih =>
    rcases List.mem_cons.1 hv with rfl | hv
    · exact ⟨⟨_, hp.1⟩, _, hp.2⟩
    · exact ih hv

mutual

/-- **What a legible tree spells can be written,** if the form check finds nothing. -/
theorem Spells.writable : ∀ {tree : Syntax.Expr} {e : Expr} {dot : Bool} {position : Position}
    {site : Option Handle}, Spells vars tree e → tree.Legible dot →
      (dot = true → ∀ name, e ≠ .op name) → exprErrors vars position site e = [] → Writable vars e
  | _, _, _, _, _, .var _ hv, _, _, _ => .var hv
  | _, _, _, _, _, .number _ _, hlegible, _, _ => .const hlegible
  | _, _, dot, _, _, .op name _, hlegible, hne, _ => by
    cases dot with
    | true => exact absurd rfl (hne rfl name.name)
    | false => exact .op ⟨hlegible.1, hlegible.2 rfl⟩
  | _, _, _, _, _, .call _ hf hargs, hlegible, _, h => by
    simp only [exprErrors, List.append_eq_nil_iff] at h
    obtain ⟨⟨⟨⟨_, hcallee⟩, _⟩, _⟩, hargsErrors⟩ := h
    cases hf with
    | op name => exact .call hlegible.1 (hargs.writable hlegible.2 hargsErrors)
    | var _ => cases hcallee
  | _, _, _, _, _, .tuple _ hfields, hlegible, _, h => by
    simp only [exprErrors, List.append_eq_nil_iff] at h
    exact .tuple (hfields.writable hlegible (argsErrors_of_fieldsErrors h.2))
  | _, _, _, _, _, .get index _ hsource, hlegible, _, h => by
    simp only [exprErrors, List.append_eq_nil_iff] at h
    obtain ⟨v, rfl⟩ := var_of_sourceErrors h.1.2
    cases hsource with
    | var _ hv => exact .get hv hlegible.2
  | _, _, _, _, _, .cond _ htest hthen helse, hlegible, _, h => by
    simp only [exprErrors, List.append_eq_nil_iff] at h
    obtain ⟨⟨⟨_, htestErrors⟩, hthenErrors⟩, helseErrors⟩ := h
    exact .cond (htest.writable hlegible.1 (fun hdot => Bool.noConfusion hdot) htestErrors)
      (hthen.writable hlegible.2.1 hthenErrors) (helse.writable hlegible.2.2 helseErrors)
  | _, _, _, _, _, .closure _ hparams hbody, hlegible, _, h => by
    simp only [exprErrors, List.append_eq_nil_iff] at h
    exact .closure (declared_of_declares hparams) (hbody.writable hlegible.2 h.2)

theorem SpellsAll.writable : ∀ {trees : List Syntax.Expr} {es : List Expr} {site : Option Handle},
    SpellsAll vars trees es → Syntax.Expr.LegibleAll trees → argsErrors vars site es = [] →
      WritableAll vars es
  | _, _, _, .nil, _, _ => .nil
  | _, _, _, .cons htree htrees, hlegible, h => by
    rw [argsErrors, List.append_eq_nil_iff] at h
    exact .cons (htree.writable hlegible.1 (fun hdot => Bool.noConfusion hdot) h.1)
      (htrees.writable hlegible.2 h.2)

theorem SpellsBlock.writable : ∀ {b : Syntax.Block} {e : Expr} {position : Position}
    {site : Option Handle}, SpellsBlock vars b e → b.Legible →
      exprErrors vars position site e = [] → WritableBlock vars e
  | _, _, _, _, .result _ htree, hlegible, h =>
    .result (htree.writable hlegible (fun hdot => Bool.noConfusion hdot) h)
  | _, _, .sequence, _, .bind _ hv hty _ htree hrest, hlegible, h => by
    simp only [exprErrors, exprErrors_withResultType, List.append_eq_nil_iff] at h
    obtain ⟨_, _, hvalue, hbody⟩ := hlegible
    exact .bind hv hty (htree.writable hvalue (fun hdot => Bool.noConfusion hdot) h.1.2)
      (hrest.writable hbody h.2)
  | _, _, .operand, _, .bind _ hv hty _ htree hrest, hlegible, h => by
    simp only [exprErrors, exprErrors_withResultType, List.append_eq_nil_iff] at h
    obtain ⟨_, _, hvalue, hbody⟩ := hlegible
    exact .bind hv hty (htree.writable hvalue (fun hdot => Bool.noConfusion hdot) h.1)
      (hrest.writable hbody h.2)

end

/-- The function can be written under its name. -/
structure WritableFunction (vars : BinderTable) (g : String × Function) : Prop where
  name : IsWord g.1.toList
  params : ∀ v ∈ g.2.params, vars.Declared v
  body : WritableBlock vars g.2.body

theorem SpellsFunction.writable {f : Syntax.FunctionDecl} {g : String × Function}
    (h : SpellsFunction vars f g) (hlegible : f.Legible) (hform : formErrors vars g.2 = []) :
    WritableFunction vars g :=
  ⟨h.name_eq ▸ hlegible.name, declared_of_declares h.params, h.body.writable hlegible.body hform⟩

end

end Program
end TensorLiveness
