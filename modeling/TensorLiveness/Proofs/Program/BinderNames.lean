/-
# Names of binders are words

Every binder of a program stands in its text as a local name, and no two binders share one.  So
whatever holds of the local names of a text holds of the names in the table (`functions_names`); in
particular they are words, which have no dot in them (`dotless_of_readProgram`).  This is so for
every program that can be read, legible or not: a number may be infinite, a projection may be of
anything.

| lemma | goes through |
| --- | --- |
| `bind_names`, `bindParams_names` | binders and parameters |
| `expr_names`, `exprs_names`, `block_names`, `rest_names` | what lexemes derive |
| `functions_names` | the functions of a text |
-/

import TensorLiveness.Proofs.Program.Rereading

namespace TensorLiveness

namespace Syntax

/-- All local names among the lexemes have `P`. -/
def LocalNames (P : String → Prop) (ls : List Lexeme) : Prop :=
  ∀ l ∈ ls, l.token.terminal = .localName → P l.ident.name

namespace LocalNames

variable {P : String → Prop} {l : Lexeme} {ls ls' : List Lexeme}

theorem head (h : LocalNames P (l :: ls)) (hl : l.token.terminal = .localName) : P l.ident.name :=
  h l List.mem_cons_self hl

theorem tail (h : LocalNames P (l :: ls)) : LocalNames P ls :=
  fun l' hl' => h l' (List.mem_cons_of_mem l hl')

theorem left (h : LocalNames P (ls ++ ls')) : LocalNames P ls :=
  fun l hl => h l (List.mem_append_left ls' hl)

theorem right (h : LocalNames P (ls ++ ls')) : LocalNames P ls' :=
  fun l hl => h l (List.mem_append_right ls hl)

end LocalNames

theorem Clear.legible : ∀ {ts : List Token}, Clear ts → ∀ t ∈ ts, t.Legible
  | [], _, _, ht => absurd ht List.not_mem_nil
  | _ :: _, h, t, ht => by
    rcases List.mem_cons.1 ht with rfl | ht
    · exact h.1
    · exact Clear.legible h.2.2 t ht

/-- The local names of a text are words. -/
theorem localNames_lexemes {source : String} (h : lexicalErrors source = []) :
    LocalNames (fun name => IsWord name.toList) (lexemes source) := by
  have hclear := clear_of_significant source.toList (significant_eq_iff.2 ⟨h, rfl⟩)
  intro l hl hlocal
  have hlegible := Clear.legible hclear l.token (List.mem_map_of_mem hl)
  obtain ⟨token, span⟩ := l
  cases token with
  | localName name => exact hlegible
  | _ => cases hlocal

/-- There is no dot in a word. -/
theorem IsWord.dot_notMem {cs : List Char} (h : IsWord cs) : '.' ∉ cs := by
  obtain ⟨hc, hcs⟩ := h
  intro hmem
  rcases List.mem_cons.1 hmem with rfl | hmem
  · revert hc
    decide
  · have hdot := hcs '.' hmem
    revert hdot
    decide

end Syntax

namespace Program

open Syntax (LocalNames Items Derives DerivesParam DerivesBlock DerivesRest DerivesFunctions
  IsWord Lexeme)

variable {P : String → Prop}

/-- All names in the table have `P`. -/
def BinderTable.Names (P : String → Prop) (vars : BinderTable) : Prop :=
  ∀ ⦃v : Handle⦄ ⦃b : Binder⦄, vars.entries[v]? = some b → P b.name

namespace Resolver

variable {s : Resolver}

theorem bind_names (h : s.vars.Names P) {name : Syntax.Name} (hname : P name.name) (ty : Ty)
    (span : Text.Span) : (s.bind name ty span).2.vars.Names P := by
  intro v b hb
  rw [entries_bind, Array.getElem?_push] at hb
  split at hb
  · cases hb
    exact hname
  · exact h hb

theorem bindParams_names {ps : List Syntax.Param} {ls : List Lexeme}
    (hps : Items DerivesParam ls ps) : ∀ {env : Env} {s : Resolver}, LocalNames P ls →
      s.vars.Names P → (s.bindParams env ps).2.vars.Names P := by
  induction hps with
  | close => exact fun _ h => h
  | last hp _ =>
    intro env s hls h
    obtain ⟨hname, _, _⟩ := hp
    exact bind_names h (hls.left.head hname) _ _
  | cons hp _ _ ih =>
    intro env s hls h
    obtain ⟨hname, _, _⟩ := hp
    exact ih hls.right.tail (bind_names h (hls.left.head hname) _ _)

theorem reference_names (h : s.vars.Names P) (env : Env) (name : Syntax.Name) :
    (s.reference env name).2.vars.Names P := (vars_reference env s name).symm ▸ h

mutual

/-- **What is bound in an expression** goes by local names of its lexemes. -/
theorem expr_names : ∀ (tree : Syntax.Expr) {ls : List Lexeme} {env : Env} {s : Resolver},
    Derives ls tree → LocalNames P ls → s.vars.Names P → (s.expr env tree).2.vars.Names P
  | .var .., _, env, _, .var _, _, h => reference_names h env _
  | .op .., _, _, _, .op _, _, h | .number .., _, _, _, .number _, _, h => h
  | .call _ args _, _, env, _, .callVar _ _ hargs, hls, h =>
    exprs_names args hargs hls.tail.tail (reference_names h env _)
  | .call _ args _, _, _, _, .callOp _ _ hargs, hls, h =>
    exprs_names args hargs hls.tail.tail h
  | .tuple fields _, _, _, _, .tuple _ hfields, hls, h => exprs_names fields hfields hls.tail h
  | .get source .., _, _, _, .get hsource _, hls, h => expr_names source hsource hls.left h
  | .cond test thenBlock elseBlock _, _, _, _, .cond _ _ htest _ hthen _ helse, hls, h =>
    have hrest := hls.tail.tail.right.tail
    block_names elseBlock helse hrest.right.tail
      (block_names thenBlock hthen hrest.left (expr_names test htest hls.tail.tail.left h))
  | .closure _ body _, _, _, _, .closure _ _ hparams hbody, hls, h =>
    block_names body hbody hls.tail.tail.right (bindParams_names hparams hls.tail.tail.left h)

theorem exprs_names : ∀ (trees : List Syntax.Expr) {ls : List Lexeme} {env : Env} {s : Resolver},
    Items Derives ls trees → LocalNames P ls → s.vars.Names P →
      (s.exprs env trees).2.vars.Names P
  | [], _, _, _, _, _, h => h
  | [tree], _, _, _, .last htree _, hls, h => expr_names tree htree hls.left h
  | tree :: trees, _, _, _, .cons htree _ htrees, hls, h =>
    exprs_names trees htrees hls.right.tail (expr_names tree htree hls.left h)

theorem block_names : ∀ (b : Syntax.Block) {ls : List Lexeme} {env : Env} {s : Resolver},
    DerivesBlock ls b → LocalNames P ls → s.vars.Names P → (s.block env b).2.vars.Names P
  | b, _, _, _, .mk _ hrest, hls, h => rest_names b hrest hls.tail h

theorem rest_names : ∀ (b : Syntax.Block) {start : Nat} {ls : List Lexeme} {env : Env}
    {s : Resolver}, DerivesRest start ls b → LocalNames P ls → s.vars.Names P →
      (s.block env b).2.vars.Names P
  | .result value _, _, _, _, _, .result hvalue _, hls, h => expr_names value hvalue hls.left h
  | .bind _ _ value _ rest, _, _, _, _, .bind _ hname _ _ hvalue _ hrest, hls, h =>
    have hbehind := hls.tail.tail.right.tail
    rest_names rest hrest hbehind.right.tail
      (bind_names (expr_names value hvalue hbehind.left h) (hls.tail.head hname) _ _)

end

/-- **What is bound in functions** goes by local names of their lexemes. -/
theorem functions_names {fs : List Syntax.FunctionDecl} {ls : List Lexeme}
    (hfs : DerivesFunctions ls fs) : ∀ {seen : List (String × Text.Span)} {s : Resolver},
      LocalNames P ls → s.vars.Names P → (s.functions seen fs).2.vars.Names P := by
  induction hfs with
  | nil => exact fun _ h => h
  | cons hf _ ih =>
    intro seen s hls h
    rw [functions]
    split
    · exact ih hls.right h
    · refine ih hls.right ?_
      obtain ⟨_, _, _, hparams, hbody⟩ := hf
      have hrest := hls.left.tail.tail.tail
      exact block_names _ hbody hrest.right (bindParams_names hparams hrest.left h)

end Resolver

end Program

open Program in
/-- The binders of a program that could be read have names of their own, without a dot. -/
theorem dotless_of_readProgram {source : String} {p : Program} {warnings : List Diagnostic}
    (hread : readProgram source = .ok (p, warnings)) :
    p.vars.Names (fun name => '.' ∉ name.toList) ∧ p.vars.Distinct := by
  obtain ⟨m, hparse, hm, hclean⟩ := readProgram_eq_ok_iff.1 hread
  obtain ⟨hlexical, hderives⟩ := Syntax.parse_sound hparse
  obtain rfl : (ofModule m).1 = p := congrArg Prod.fst hm
  obtain rfl : (ofModule m).2 = warnings := congrArg Prod.snd hm
  have hwords : (ofModule m).1.vars.Names fun name => Syntax.IsWord name.toList :=
    Resolver.functions_names hderives (Syntax.localNames_lexemes hlexical) fun _ _ hb => nomatch hb
  exact ⟨fun _ _ hb => (hwords hb).dot_notMem,
    BinderTable.distinct_of_nodup (ofModule_spells hclean).2.2⟩

end TensorLiveness
