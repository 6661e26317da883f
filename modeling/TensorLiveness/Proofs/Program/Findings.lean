/-
# The findings of resolution

Resolution reports the scoping errors of a module, all of them and nothing else, in the order of
the text (`ofModule_findings`).  Which those are does not depend on the resolver: a module is
read as a list of uses of names (`moduleUses`), each with the names it can see, and a use is
judged by its own scope and by the binders before it (`NameUse.finding?`).

| a name | is wrong if | code |
| --- | --- | --- |
| of a function | an earlier function has it; the function is skipped | E0003 |
| of a parameter or `let` | an earlier binder of the module has it | E0002 |
| that is referred to | no parameter and no earlier `let` around it has it | E0001 |

A `let` does not see itself, and what a branch or a closure binds is gone behind it: an expression
sees what is in scope around it and what it binds itself (`exprUses_sees`,
`Resolver.Past.undefined_of_not_bound`).
-/

import Mathlib.Tactic.ByContra
import TensorLiveness.Proofs.Program.Resolution

namespace TensorLiveness
namespace Program

open Text

/-! ### Uses of names -/

/-- What the text does with a name: it names a function behind the functions `earlier`, binds a
variable, or refers to one where the names `scope` are visible. -/
inductive NameUse
  | function (name : Syntax.Name) (earlier : List Syntax.Name)
  | binder (name : Syntax.Name)
  | reference (name : Syntax.Name) (scope : List String)

/-- The uses of names in parameters. -/
def paramUses (ps : List Syntax.Param) : List NameUse := ps.map fun p => .binder p.name

/-- The names in scope behind parameters. -/
def paramScope (scope : List String) (ps : List Syntax.Param) : List String :=
  (ps.map (·.name.name)).reverse ++ scope

/-- The uses of names in what is called. -/
def calleeUses (scope : List String) : Syntax.Callee → List NameUse
  | .op _ => []
  | .var name => [.reference name scope]

mutual

/-- The uses of names in an expression, where the names `scope` are visible. -/
def exprUses (scope : List String) : Syntax.Expr → List NameUse
  | .var name _ => [.reference name scope]
  | .number _ _ | .op _ _ => []
  | .call f args _ => calleeUses scope f ++ exprsUses scope args
  | .tuple fields _ => exprsUses scope fields
  | .get source _ _ => exprUses scope source
  | .cond test thenBlock elseBlock _ =>
    exprUses scope test ++ blockUses scope thenBlock ++ blockUses scope elseBlock
  | .closure params body _ => paramUses params ++ blockUses (paramScope scope params) body

/-- The uses of names in expressions. -/
def exprsUses (scope : List String) : List Syntax.Expr → List NameUse
  | [] => []
  | e :: es => exprUses scope e ++ exprsUses scope es

/-- The uses of names in a block.  A `let` binds behind its value and is visible in the rest. -/
def blockUses (scope : List String) : Syntax.Block → List NameUse
  | .bind name _ value _ rest =>
    exprUses scope value ++ .binder name :: blockUses (name.name :: scope) rest
  | .result value _ => exprUses scope value

end

/-- The uses of names in functions behind the functions `earlier`.  A function whose name is taken
is not entered. -/
def functionUses (earlier : List Syntax.Name) : List Syntax.FunctionDecl → List NameUse
  | [] => []
  | f :: fs =>
    .function f.name earlier ::
      (if f.name.name ∈ earlier.map (·.name) then []
        else paramUses f.params ++ blockUses (paramScope [] f.params) f.body) ++
      functionUses (earlier ++ [f.name]) fs

/-- The first of the names that reads like this. -/
def firstNamed (names : List Syntax.Name) (name : String) : Option Syntax.Name :=
  names.find? fun n => n.name = name

namespace NameUse

/-- The name that a use binds. -/
def bound? : NameUse → Option Syntax.Name
  | .binder name => some name
  | .function .. | .reference .. => none

/-- What is wrong with a use of a name behind other uses. -/
def finding? (past : List NameUse) : NameUse → Option Diagnostic
  | .function name earlier => (firstNamed earlier name.name).map fun first =>
    (Diagnostic.error .duplicateFunction name.span
      ("duplicate function '@" ++ name.name ++ "'")).relatedTo first.span "first defined here"
  | .binder name => (firstNamed (past.filterMap bound?) name.name).map fun first =>
    ((Diagnostic.error .duplicateBinder name.span
      ("duplicate binder '%" ++ name.name ++ "'")).relatedTo first.span
        "first bound here").hinted "binders must be unique (single-assignment form)"
  | .reference name scope =>
    if name.name ∈ scope then none
    else some <| Diagnostic.error .undefinedVariable name.span
      ("undefined variable '%" ++ name.name ++ "'")

end NameUse

/-- What is wrong with the uses of names behind other uses, in their order. -/
def findingsBehind (past : List NameUse) : List NameUse → List Diagnostic
  | [] => []
  | u :: us => (u.finding? past).toList ++ findingsBehind (past ++ [u]) us

/-- What is wrong with uses of names, each judged behind those before it. -/
def findings (us : List NameUse) : List Diagnostic := findingsBehind [] us

theorem findingsBehind_append (past us vs : List NameUse) :
    findingsBehind past (us ++ vs) = findingsBehind past us ++ findingsBehind (past ++ us) vs := by
  induction us generalizing past with
  | nil => rw [List.nil_append, List.append_nil]; rfl
  | cons u us ih =>
    rw [List.cons_append, findingsBehind, findingsBehind, ih, List.append_assoc, List.append_assoc,
      List.singleton_append]

theorem findings_concat (us : List NameUse) (u : NameUse) :
    findings (us ++ [u]) = findings us ++ (u.finding? us).toList := by
  rw [findings, findingsBehind_append, List.nil_append, findingsBehind, findingsBehind,
    List.append_nil]
  rfl

theorem firstNamed_concat (names : List Syntax.Name) (n : Syntax.Name) (x : String) :
    firstNamed (names ++ [n]) x =
      (firstNamed names x).or (if n.name = x then some n else none) := by
  rw [firstNamed, List.find?_append, List.find?_singleton]
  simp [firstNamed]

/-- A name that is there already is found where it was. -/
theorem firstNamed_concat_of_some {names : List Syntax.Name} {n first : Syntax.Name}
    (h : firstNamed names n.name = some first) (x : String) :
    firstNamed (names ++ [n]) x = firstNamed names x := by
  rw [firstNamed_concat]
  by_cases hx : n.name = x
  · rw [← hx, h, Option.some_or]
  · rw [if_neg hx, Option.or_none]

/-- A new name is found at its place. -/
theorem firstNamed_concat_of_none {names : List Syntax.Name} {n : Syntax.Name}
    (h : firstNamed names n.name = none) (x : String) :
    firstNamed (names ++ [n]) x = if n.name = x then some n else firstNamed names x := by
  rw [firstNamed_concat]
  by_cases hx : n.name = x
  · rw [← hx, h, Option.none_or, if_pos rfl]
  · rw [if_neg hx, if_neg hx, Option.or_none]

theorem firstNamed_eq_none_iff {names : List Syntax.Name} {x : String} :
    firstNamed names x = none ↔ x ∉ names.map (·.name) := by
  simp [firstNamed]

/-! ### The resolver -/

namespace Resolver

/-- The resolver has gone past the uses `past`: it has reported what is wrong with them, and it
has noted the first binder of each name. -/
structure Past (s : Resolver) (past : List NameUse) : Prop where
  diagnostics_eq : s.diagnostics = findings past
  lookup_eq (x : String) :
    s.binders.lookup x = (firstNamed (past.filterMap NameUse.bound?) x).map (·.span)

namespace Past

variable {s : Resolver} {past : List NameUse}

theorem start : Resolver.start.Past [] := ⟨rfl, fun _ => rfl⟩

/-- A use that binds nothing and is right leaves the state as it is. -/
theorem pass (h : s.Past past) {u : NameUse} (hbound : u.bound? = none)
    (hright : u.finding? past = none) : s.Past (past ++ [u]) := by
  refine ⟨?_, fun x => ?_⟩
  · rw [h.diagnostics_eq, findings_concat, hright, Option.toList_none, List.append_nil]
  · rw [h.lookup_eq, List.filterMap_append, List.filterMap_cons_none hbound, List.filterMap_nil,
      List.append_nil]

/-- A use that binds nothing and is wrong is reported. -/
theorem report (h : s.Past past) {u : NameUse} {d : Diagnostic} (hbound : u.bound? = none)
    (hwrong : u.finding? past = some d) : (s.report d).Past (past ++ [u]) := by
  refine ⟨?_, fun x => ?_⟩
  · rw [findings_concat, hwrong, ← h.diagnostics_eq]
    rfl
  · rw [List.filterMap_append, List.filterMap_cons_none hbound, List.filterMap_nil,
      List.append_nil]
    exact h.lookup_eq x

/-- A binder is noted, or reported. -/
theorem note (h : s.Past past) (name : Syntax.Name) :
    (s.note name).Past (past ++ [.binder name]) := by
  have hbinders : (past ++ [NameUse.binder name]).filterMap NameUse.bound? =
      past.filterMap NameUse.bound? ++ [name] := by rw [List.filterMap_append]; rfl
  have hlookup := h.lookup_eq name.name
  unfold Resolver.note
  cases hfirst : firstNamed (past.filterMap NameUse.bound?) name.name with
  | some first =>
    rw [hfirst, Option.map_some] at hlookup
    rw [hlookup]
    refine ⟨?_, fun x => ?_⟩
    · rw [findings_concat, NameUse.finding?, hfirst, ← h.diagnostics_eq]
      rfl
    · rw [hbinders, firstNamed_concat_of_some hfirst]
      exact h.lookup_eq x
  | none =>
    rw [hfirst, Option.map_none] at hlookup
    rw [hlookup]
    refine ⟨?_, fun x => ?_⟩
    · rw [findings_concat, NameUse.finding?, hfirst, ← h.diagnostics_eq]
      exact (List.append_nil _).symm
    · rw [hbinders, firstNamed_concat_of_none hfirst, List.lookup_append]
      by_cases hx : name.name = x
      · simp [← hx, hlookup]
      · simp [hx, h.lookup_eq x, List.lookup_cons, beq_false_of_ne (Ne.symm hx)]

/-- Allocation of a handle adds no finding. -/
theorem bind (h : s.Past past) (name : Syntax.Name) (ty : Ty) (span : Span) :
    (s.bind name ty span).2.Past (past ++ [.binder name]) :=
  ⟨(h.note name).diagnostics_eq, (h.note name).lookup_eq⟩

/-- Parameters are binders, and come into scope. -/
theorem bindParams (ps : List Syntax.Param) (env : Env) {s : Resolver} {past : List NameUse}
    (h : s.Past past) :
    (s.bindParams env ps).2.Past (past ++ paramUses ps) ∧
      (s.bindParams env ps).1.2.map (·.1) = paramScope (env.map (·.1)) ps := by
  induction ps generalizing env s past with
  | nil => exact ⟨by rwa [paramUses, List.map_nil, List.append_nil], rfl⟩
  | cons p ps ih =>
    let bound := s.bind p.name (Ty.ofSyntax p.ty) p.span
    have hbind : bound.2.Past _ := h.bind p.name (Ty.ofSyntax p.ty) p.span
    obtain ⟨hpast, hscope⟩ := ih ((p.name.name, bound.1) :: env) hbind
    rw [List.append_assoc, List.singleton_append] at hpast
    refine ⟨hpast, hscope.trans ?_⟩
    simp [paramScope]

/-- A reference is reported if its name is not in scope. -/
theorem reference (h : s.Past past) (env : Env) (name : Syntax.Name) :
    (s.reference env name).2.Past (past ++ [.reference name (env.map (·.1))]) := by
  unfold Resolver.reference
  split
  · rename_i v hv
    refine h.pass rfl (if_pos ?_)
    by_contra hnot
    rw [lookup_eq_none_iff_not_mem.2 hnot] at hv
    cases hv
  · rename_i hnone
    exact h.report rfl (if_neg (lookup_eq_none_iff_not_mem.1 hnone))

theorem callee (h : s.Past past) (env : Env) (f : Syntax.Callee) :
    (s.callee env f).2.Past (past ++ calleeUses (env.map (·.1)) f) := by
  cases f with
  | op name => rwa [calleeUses, List.append_nil]
  | var name => exact h.reference env name

mutual

/-- **Resolution goes past the uses of names in an expression,** in the order of the text. -/
theorem expr : ∀ (e : Syntax.Expr) (env : Env) {s : Resolver} {past : List NameUse},
    s.Past past → (s.expr env e).2.Past (past ++ exprUses (env.map (·.1)) e)
  | .var name _, env, _, _, h => h.reference env name
  | .number _ _, _, _, _, h | .op _ _, _, _, _, h => by rwa [exprUses, List.append_nil]
  | .call f args _, env, s, past, h => by
    have hargs := exprs args env (h.callee env f)
    rwa [List.append_assoc] at hargs
  | .tuple fields _, env, _, _, h => exprs fields env h
  | .get source _ _, env, _, _, h => expr source env h
  | .cond test thenBlock elseBlock _, env, s, past, h => by
    have helse := block elseBlock env (block thenBlock env (expr test env h))
    rwa [List.append_assoc, List.append_assoc, ← List.append_assoc (exprUses _ _)] at helse
  | .closure params body _, env, s, past, h => by
    obtain ⟨hparams, hscope⟩ := h.bindParams params env
    have hbody := block body (s.bindParams env params).1.2 hparams
    rwa [List.append_assoc, hscope] at hbody

/-- The same for expressions from left to right. -/
theorem exprs : ∀ (es : List Syntax.Expr) (env : Env) {s : Resolver} {past : List NameUse},
    s.Past past → (s.exprs env es).2.Past (past ++ exprsUses (env.map (·.1)) es)
  | [], _, _, _, h => by rwa [exprsUses, List.append_nil]
  | e :: es, env, s, past, h => by
    have hes := exprs es env (expr e env h)
    rwa [List.append_assoc] at hes

/-- The same for a block. -/
theorem block : ∀ (b : Syntax.Block) (env : Env) {s : Resolver} {past : List NameUse},
    s.Past past → (s.block env b).2.Past (past ++ blockUses (env.map (·.1)) b)
  | .result value _, env, _, _, h => expr value env h
  | .bind name ty value span rest, env, s, past, h => by
    let bound := (s.expr env value).2.bind name
      ((ty.map Ty.ofSyntax).getD ((s.expr env value).1.infer (s.expr env value).2.vars)) span
    have hbind : bound.2.Past _ := (expr value env h).bind name _ span
    have hrest := block rest ((name.name, bound.1) :: env) hbind
    rwa [List.append_assoc, List.append_assoc] at hrest

end

/-- A function is its parameters and its body. -/
theorem function (h : s.Past past) (f : Syntax.FunctionDecl) :
    (s.function f).2.Past
      (past ++ (paramUses f.params ++ blockUses (paramScope [] f.params) f.body)) := by
  obtain ⟨hparams, hscope⟩ := h.bindParams f.params []
  have hbody := block f.body (s.bindParams [] f.params).1.2 hparams
  rwa [List.append_assoc, hscope] at hbody

/-- **Resolution goes past the functions of a module,** and enters those with a new name. -/
theorem functions (fs : List Syntax.FunctionDecl) {earlier : List Syntax.Name}
    {seen : List (String × Span)} {s : Resolver} {past : List NameUse} (h : s.Past past)
    (hseen : ∀ x, seen.lookup x = (firstNamed earlier x).map (·.span)) :
    (s.functions seen fs).2.Past (past ++ functionUses earlier fs) := by
  induction fs generalizing earlier seen s past with
  | nil => rwa [functionUses, List.append_nil]
  | cons f fs ih =>
    have hlookup := hseen f.name.name
    rw [functionUses, Resolver.functions]
    cases hfirst : firstNamed earlier f.name.name with
    | some first =>
      have hmem : f.name.name ∈ earlier.map (·.name) := by
        by_contra hnot
        rw [firstNamed_eq_none_iff.2 hnot] at hfirst
        cases hfirst
      have hseen' : ∀ x, seen.lookup x = (firstNamed (earlier ++ [f.name]) x).map (·.span) := by
        intro x
        rw [hseen, firstNamed_concat_of_some hfirst]
      rw [hfirst, Option.map_some] at hlookup
      rw [hlookup, if_pos hmem]
      have hname := h.report (u := .function f.name earlier) rfl
        (by rw [NameUse.finding?, hfirst]; rfl)
      have hrest := ih hname hseen'
      rwa [List.append_assoc] at hrest
    | none =>
      rw [hfirst, Option.map_none] at hlookup
      have hseen' : ∀ x, ((f.name.name, f.name.span) :: seen).lookup x =
          (firstNamed (earlier ++ [f.name]) x).map (·.span) := by
        intro x
        rw [firstNamed_concat_of_none hfirst]
        by_cases hx : f.name.name = x
        · simp [hx]
        · simp [hx, hseen, List.lookup_cons, beq_false_of_ne (Ne.symm hx)]
      rw [hlookup, if_neg (firstNamed_eq_none_iff.1 hfirst)]
      have hname := h.pass (u := .function f.name earlier) rfl
        (by rw [NameUse.finding?, hfirst]; rfl)
      have hrest := ih (hname.function f) hseen'
      rwa [List.append_assoc, List.append_assoc] at hrest

end Past

end Resolver

/-- A name with a span of its own. -/
def nameAt (offset : Nat) (name : String) : Syntax.Name := ⟨name, offset, offset⟩

/-- The variable with this name. -/
def varAt (offset : Nat) (name : String) : Syntax.Expr := .var (nameAt offset name) .nowhere

/-- A `let` that mentions itself, a branch that binds `c`, and `c` again behind it. -/
def strayBody : Syntax.Block :=
  .bind (nameAt 3 "a") none (varAt 4 "a") .nowhere <|
    .bind (nameAt 5 "b") none
      (.cond (varAt 6 "x")
        (.bind (nameAt 7 "c") none (varAt 8 "x") .nowhere (.result (varAt 9 "c") .nowhere))
        (.bind (nameAt 10 "c") none (varAt 11 "x") .nowhere (.result (varAt 12 "c") .nowhere))
        .nowhere) .nowhere <|
      .result (varAt 13 "c") .nowhere

/-- Two functions with this body and the same name. -/
def strayModule : Syntax.Module :=
  let params : List Syntax.Param := [⟨nameAt 1 "x", .named (nameAt 2 "Tensor"), .nowhere⟩]
  ⟨[⟨nameAt 0 "main", params, strayBody, .nowhere⟩,
    ⟨nameAt 14 "main", params, strayBody, .nowhere⟩], .nowhere⟩

example : (ofModule strayModule).2.map (fun d => (d.code, d.span.start)) =
    [(some .undefinedVariable, 4), (some .duplicateBinder, 10), (some .undefinedVariable, 13),
      (some .duplicateFunction, 14)] := by decide

/-! ### What is out of scope -/

/-- What these uses see is in `scope` or is bound among them. -/
def Sees (scope : List String) (us : List NameUse) : Prop :=
  ∀ ⦃name : Syntax.Name⦄ ⦃inner : List String⦄, .reference name inner ∈ us →
    ∀ x ∈ inner, x ∈ scope ∨ ∃ b, NameUse.binder b ∈ us ∧ b.name = x

namespace Sees

variable {scope : List String} {us vs : List NameUse}

theorem append (h : Sees scope us) (h' : Sees scope vs) : Sees scope (us ++ vs) := by
  intro name inner hmem x hx
  rcases List.mem_append.1 hmem with hmem | hmem
  · exact (h hmem x hx).imp_right fun ⟨b, hb, hbx⟩ => ⟨b, List.mem_append_left _ hb, hbx⟩
  · exact (h' hmem x hx).imp_right fun ⟨b, hb, hbx⟩ => ⟨b, List.mem_append_right _ hb, hbx⟩

/-- Binders in front of the uses account for what they bring into scope. -/
theorem binders (names : List Syntax.Name) {wide : List String} (h : Sees wide us)
    (hwide : ∀ x ∈ wide, x ∈ scope ∨ ∃ n ∈ names, n.name = x) :
    Sees scope (names.map .binder ++ us) := by
  intro name inner hmem x hx
  have hmem : NameUse.reference name inner ∈ us := by simpa using hmem
  rcases h hmem x hx with hx | ⟨b, hb, hbx⟩
  · exact (hwide x hx).imp_right fun ⟨n, hn, hnx⟩ =>
      ⟨n, List.mem_append_left _ (List.mem_map_of_mem hn), hnx⟩
  · exact Or.inr ⟨b, List.mem_append_right _ hb, hbx⟩

end Sees

theorem calleeUses_sees (scope : List String) (f : Syntax.Callee) :
    Sees scope (calleeUses scope f) := by
  intro name inner hmem x hx
  cases f with
  | op => cases hmem
  | var n =>
    obtain ⟨rfl, rfl⟩ := NameUse.reference.inj (List.mem_singleton.1 hmem)
    exact Or.inl hx

mutual

/-- **An expression sees what is in scope around it and what it binds itself,** so not the
variable that it is bound to, and nothing that a branch or a closure before it has bound. -/
theorem exprUses_sees : ∀ (scope : List String) (e : Syntax.Expr), Sees scope (exprUses scope e)
  | scope, .var name _ => calleeUses_sees scope (.var name)
  | _, .number _ _ | _, .op _ _ => fun _ _ hmem => nomatch hmem
  | scope, .call f args _ => (calleeUses_sees scope f).append (exprsUses_sees scope args)
  | scope, .tuple fields _ => exprsUses_sees scope fields
  | scope, .get source _ _ => exprUses_sees scope source
  | scope, .cond test thenBlock elseBlock _ =>
    ((exprUses_sees scope test).append (blockUses_sees scope thenBlock)).append
      (blockUses_sees scope elseBlock)
  | scope, .closure params body _ => by
    have hscope : ∀ x ∈ paramScope scope params,
        x ∈ scope ∨ ∃ n ∈ params.map (·.name), n.name = x := fun x hx => by
      rcases List.mem_append.1 hx with hx | hx
      · exact Or.inr (by simpa using hx)
      · exact Or.inl hx
    have hbody := (blockUses_sees (paramScope scope params) body).binders _ hscope
    rwa [List.map_map] at hbody

theorem exprsUses_sees : ∀ (scope : List String) (es : List Syntax.Expr),
    Sees scope (exprsUses scope es)
  | _, [] => fun _ _ hmem => nomatch hmem
  | scope, e :: es => (exprUses_sees scope e).append (exprsUses_sees scope es)

theorem blockUses_sees : ∀ (scope : List String) (b : Syntax.Block),
    Sees scope (blockUses scope b)
  | scope, .result value _ => exprUses_sees scope value
  | scope, .bind name _ value _ rest => by
    refine (exprUses_sees scope value).append ?_
    refine (blockUses_sees (name.name :: scope) rest).binders [name] fun x hx => ?_
    rcases List.mem_cons.1 hx with rfl | hx
    · exact Or.inr ⟨name, List.mem_singleton.2 rfl, rfl⟩
    · exact Or.inl hx

end

/-- A use that is wrong wherever it stands is among the findings. -/
theorem mem_findingsBehind {u : NameUse} {us : List NameUse} {d : Diagnostic} (hu : u ∈ us)
    (hwrong : ∀ past, u.finding? past = some d) (past : List NameUse) :
    d ∈ findingsBehind past us := by
  induction us generalizing past with
  | nil => cases hu
  | cons v us ih =>
    rw [findingsBehind, List.mem_append]
    rcases List.mem_cons.1 hu with rfl | hu
    · rw [hwrong past]
      exact Or.inl (List.mem_singleton.2 rfl)
    · exact Or.inr (ih hu _)

/-- **A name that is neither in scope around an expression nor bound inside it is undefined
there,** also if the expression is the value of a `let` with that name, or if a branch or a
closure before it binds the name. -/
theorem Resolver.Past.undefined_of_not_bound {s : Resolver} {past : List NameUse}
    (h : s.Past past) {env : Env} {e : Syntax.Expr} {name : Syntax.Name} {inner : List String}
    (hname : .reference name inner ∈ exprUses (env.map (·.1)) e)
    (hout : name.name ∉ env.map (·.1))
    (hin : ∀ b, .binder b ∈ exprUses (env.map (·.1)) e → b.name ≠ name.name) :
    Diagnostic.error .undefinedVariable name.span ("undefined variable '%" ++ name.name ++ "'") ∈
      (s.expr env e).2.diagnostics := by
  have hnot : name.name ∉ inner := fun hmem => by
    rcases exprUses_sees _ e hname _ hmem with hscope | ⟨b, hb, heq⟩
    · exact hout hscope
    · exact hin b hb heq
  rw [(h.expr e env).diagnostics_eq, findings, findingsBehind_append, List.mem_append]
  exact Or.inr (mem_findingsBehind hname (fun _ => if_neg hnot) _)

end Program
end TensorLiveness
