/-
# Resolved programs are well-formed

What the passes behind resolution rely on, for any module in which resolution finds no error
(`ofModule_wellFormed`):

- the handles bound in the program, in the order of the text, are the places of its table;
- every variable is in lexical scope where it occurs (`Expr.WellScoped`);
- names are in one-to-one correspondence with handles;
- the program has the outline of the module: the same functions, statements and expressions, with
  names for handles (`Outline`).
-/

import TensorLiveness.Proofs.Program.Spelling

namespace TensorLiveness
namespace Program

open Number

/-! ### Scopes -/

mutual

/-- Every variable that occurs is one of `scope` or is bound around the occurrence. -/
def Expr.WellScoped (scope : List Handle) : Expr → Prop
  | .var v => v ∈ scope
  | .const _ | .op _ => True
  | .call callee args _ => callee.WellScoped scope ∧ Expr.WellScopedAll scope args
  | .tuple fields => Expr.WellScopedAll scope fields
  | .get source _ => source.WellScoped scope
  | .cond test thenBranch elseBranch _ =>
    test.WellScoped scope ∧ thenBranch.WellScoped scope ∧ elseBranch.WellScoped scope
  | .closure params body => body.WellScoped (params ++ scope)
  | .letIn v value body => value.WellScoped scope ∧ body.WellScoped (v :: scope)

/-- The same for every one of the expressions. -/
def Expr.WellScopedAll (scope : List Handle) : List Expr → Prop
  | [] => True
  | e :: es => e.WellScoped scope ∧ Expr.WellScopedAll scope es

end

mutual

/-- **An expression is well-scoped when its free occurrences are in scope.** -/
theorem Expr.wellScoped_iff : ∀ (e : Expr) {scope : List Handle},
    e.WellScoped scope ↔ ∀ u ∈ e.occurrences, u ∈ scope
  | .var v, scope => by simp [WellScoped, occurrences]
  | .const _, _ => by simp [WellScoped, occurrences]
  | .op _, _ => by simp [WellScoped, occurrences]
  | .call callee args _, scope => by
    simp only [WellScoped, occurrences, callee.wellScoped_iff, wellScopedAll_iff args,
      List.mem_append, or_imp, forall_and]
  | .tuple fields, scope => wellScopedAll_iff fields
  | .get source _, scope => source.wellScoped_iff
  | .cond test thenBranch elseBranch _, scope => by
    simp only [WellScoped, occurrences, test.wellScoped_iff, thenBranch.wellScoped_iff,
      elseBranch.wellScoped_iff, List.mem_append, or_imp, forall_and, and_assoc]
  | .closure params body, scope => by
    simp only [WellScoped, occurrences, body.wellScoped_iff, List.mem_filter, List.mem_append,
      decide_eq_true_eq]
    exact forall_congr' fun u => by tauto
  | .letIn v value body, scope => by
    simp only [WellScoped, occurrences, value.wellScoped_iff, body.wellScoped_iff,
      List.mem_filter, List.mem_append, List.mem_cons, decide_eq_true_eq, or_imp, forall_and]
    refine and_congr_right fun _ => forall_congr' fun u => by tauto

theorem Expr.wellScopedAll_iff : ∀ (es : List Expr) {scope : List Handle},
    Expr.WellScopedAll scope es ↔ ∀ u ∈ Expr.occurrencesAll es, u ∈ scope
  | [], _ => by simp [WellScopedAll, occurrencesAll]
  | e :: es, scope => by
    simp only [WellScopedAll, occurrencesAll, e.wellScoped_iff, wellScopedAll_iff es,
      List.mem_append, or_imp, forall_and]

end

/-! ### Outlines -/

/-- An expression without spans and types, with names for variables.  A block is the list of its
statements before its result. -/
inductive Outline
  | var (name : String)
  | number (value : Binary64)
  | op (name : String)
  | call (callee : Outline) (args : List Outline)
  | tuple (fields : List Outline)
  | get (source : Outline) (index : Nat)
  | cond (test thenBlock elseBlock : Outline)
  | closure (params : List String) (body : Outline)
  | block (statements : List (String × Outline)) (result : Outline)

/-- A statement in front of a block or of a result. -/
def Outline.bind (name : String) (value : Outline) : Outline → Outline
  | .block statements result => .block ((name, value) :: statements) result
  | result => .block [(name, value)] result

section Trees

open Syntax (Callee)

/-- The outline of what is called. -/
def calleeOutline : Callee → Outline
  | .op name => .op name.name
  | .var name => .var name.name

mutual

/-- The outline of a tree. -/
def treeOutline : Syntax.Expr → Outline
  | .var name _ => .var name.name
  | .number value _ => .number value
  | .op name _ => .op name.name
  | .call f args _ => .call (calleeOutline f) (treeOutlines args)
  | .tuple fields _ => .tuple (treeOutlines fields)
  | .get source index _ => .get (treeOutline source) index
  | .cond test thenBlock elseBlock _ =>
    .cond (treeOutline test) (blockOutline thenBlock) (blockOutline elseBlock)
  | .closure params body _ => .closure (params.map (·.name.name)) (blockOutline body)

/-- The outlines of trees. -/
def treeOutlines : List Syntax.Expr → List Outline
  | [] => []
  | tree :: trees => treeOutline tree :: treeOutlines trees

/-- The outline of a block. -/
def blockOutline : Syntax.Block → Outline
  | .bind name _ value _ rest => .bind name.name (treeOutline value) (blockOutline rest)
  | .result value _ => treeOutline value

end

end Trees

mutual

/-- The outline of an expression, with `name` for the names of handles. -/
def Expr.outline (name : Handle → String) : Expr → Outline
  | .var v => .var (name v)
  | .const value => .number value
  | .op operator => .op operator
  | .call callee args _ => .call (callee.outline name) (Expr.outlines name args)
  | .tuple fields => .tuple (Expr.outlines name fields)
  | .get source index => .get (source.outline name) index
  | .cond test thenBranch elseBranch _ =>
    .cond (test.outline name) (thenBranch.outline name) (elseBranch.outline name)
  | .closure params body => .closure (params.map name) (body.outline name)
  | .letIn v value body => .bind (name v) (value.outline name) (body.outline name)

/-- The outlines of expressions. -/
def Expr.outlines (name : Handle → String) : List Expr → List Outline
  | [] => []
  | e :: es => e.outline name :: Expr.outlines name es

end

@[simp] theorem Expr.outline_withResultType (name : Handle → String) (ty : Ty) (e : Expr) :
    (e.withResultType ty).outline name = e.outline name := by
  cases e <;> rfl

/-- The name of a handle; none is the empty name. -/
def BinderTable.nameOf (vars : BinderTable) (v : Handle) : String := (vars.name? v).getD ""

theorem Named.nameOf_eq {vars : BinderTable} {name : Syntax.Name} {v : Handle}
    (h : Named vars name v) : vars.nameOf v = name.name := by
  rw [BinderTable.nameOf, h]
  rfl

/-- Lists that correspond one by one agree in what corresponding members agree in. -/
theorem map_eq_of_forall₂ {α β γ : Type} {R : α → β → Prop} {f : β → γ} {g : α → γ}
    (hR : ∀ a b, R a b → f b = g a) {as : List α} {bs : List β} (h : List.Forall₂ R as bs) :
    bs.map f = as.map g := by
  induction h with
  | nil => rfl
  | cons h _ ih => rw [List.map_cons, List.map_cons, hR _ _ h, ih]

theorem map_nameOf_of_declares {vars : BinderTable} {ps : List Syntax.Param} {vs : List Handle}
    (h : List.Forall₂ (Declares vars) ps vs) : vs.map vars.nameOf = ps.map (·.name.name) :=
  map_eq_of_forall₂ (fun _ _ h => h.1.nameOf_eq) h

section

variable {vars : BinderTable}

theorem SpellsCallee.outline_eq {f : Syntax.Callee} {e : Expr} (h : SpellsCallee vars f e) :
    e.outline vars.nameOf = calleeOutline f := by
  cases h with
  | op name => rfl
  | var hv => exact congrArg Outline.var hv.nameOf_eq

mutual

/-- **A tree has the outline of what it spells.** -/
theorem Spells.outline_eq : ∀ {tree : Syntax.Expr} {e : Expr}, Spells vars tree e →
    e.outline vars.nameOf = treeOutline tree
  | .var name _, _, .var _ hv => congrArg Outline.var hv.nameOf_eq
  | .number _ _, _, .number _ _ => rfl
  | .op _ _, _, .op _ _ => rfl
  | .call f args _, _, .call _ hf hargs => by
    rw [Expr.outline, treeOutline, hf.outline_eq, hargs.outlines_eq]
  | .tuple fields _, _, .tuple _ hfields => congrArg Outline.tuple hfields.outlines_eq
  | .get source index _, _, .get _ _ hsource =>
    congrArg (Outline.get · index) hsource.outline_eq
  | .cond test thenBlock elseBlock _, _, .cond _ htest hthen helse => by
    rw [Expr.outline, treeOutline, htest.outline_eq, hthen.outline_eq, helse.outline_eq]
  | .closure params body _, _, .closure _ hparams hbody => by
    rw [Expr.outline, treeOutline, map_nameOf_of_declares hparams, hbody.outline_eq]

theorem SpellsAll.outlines_eq : ∀ {trees : List Syntax.Expr} {es : List Expr},
    SpellsAll vars trees es → Expr.outlines vars.nameOf es = treeOutlines trees
  | [], _, .nil => rfl
  | _ :: _, _, .cons h hs => by
    rw [Expr.outlines, treeOutlines, h.outline_eq, hs.outlines_eq]

theorem SpellsBlock.outline_eq : ∀ {b : Syntax.Block} {e : Expr}, SpellsBlock vars b e →
    e.outline vars.nameOf = blockOutline b
  | .result _ _, _, .result _ h => h.outline_eq
  | .bind _ _ _ _ _, _, .bind _ hv _ _ hvalue hrest => by
    rw [Expr.outline, blockOutline, Expr.outline_withResultType, hv.nameOf_eq, hvalue.outline_eq,
      hrest.outline_eq]

end

end

/-! ### Modules -/

/-- Where no name is repeated, a handle is found by its name. -/
theorem BinderTable.lookup?_of_name? {vars : BinderTable}
    (h : (vars.entries.toList.map (·.name)).Nodup) {v : Handle} {name : String}
    (hv : vars.name? v = some name) : vars.lookup? name = some v := by
  obtain ⟨b, hb, rfl⟩ := Option.map_eq_some_iff.1 hv
  obtain ⟨hlt, rfl⟩ := Array.getElem?_eq_some_iff.1 hb
  rw [lookup?, Array.findIdx?_eq_some_iff_getElem]
  refine ⟨hlt, by simp, fun u hu => ?_⟩
  -- an earlier binder has another name
  have hne := List.pairwise_iff_getElem.1 h u v (by simpa using Nat.lt_trans hu hlt)
    (by simpa using hlt) hu
  simpa using hne

theorem BinderTable.exists_name? {vars : BinderTable} {v : Handle} (h : v < vars.size) :
    ∃ name, vars.name? v = some name :=
  ⟨_, Option.map_eq_some_iff.2 ⟨vars.entries[v], Array.getElem?_eq_getElem h, rfl⟩⟩

/-- The outline of a function that a declaration spells. -/
theorem SpellsFunction.outline_eq {vars : BinderTable} {f : Syntax.FunctionDecl}
    {g : String × Function} (h : SpellsFunction vars f g) :
    (g.1, g.2.params.map vars.nameOf, g.2.body.outline vars.nameOf) =
      (f.name.name, f.params.map (·.name.name), blockOutline f.body) := by
  rw [h.name_eq, map_nameOf_of_declares h.params, h.body.outline_eq]

/-- **Error-free resolution yields a well-formed program.**  The handles bound in it, function by
function in the order of the text, are those of its table, each once; every variable refers to a
binder in lexical scope; a handle is found by its name; and with names for handles the program has
the functions, the statements and the expressions of the module. -/
theorem ofModule_wellFormed {m : Syntax.Module} {p : TensorLiveness.Program}
    {diagnostics : List Diagnostic} (hm : ofModule m = (p, diagnostics))
    (h : anyError diagnostics = false) :
    p.functions.flatMap (fun g => g.2.params ++ g.2.body.binders) = List.range p.vars.size ∧
    (∀ g ∈ p.functions, g.2.body.WellScoped g.2.params) ∧
    (∀ v < p.vars.size, ∃ name, p.vars.name? v = some name ∧ p.vars.lookup? name = some v) ∧
    p.functions.map (fun g =>
        (g.1, g.2.params.map p.vars.nameOf, g.2.body.outline p.vars.nameOf)) =
      m.functions.map fun f => (f.name.name, f.params.map (·.name.name), blockOutline f.body) := by
  have hclean : anyError (ofModule m).2 = false := hm ▸ h
  have hp : (ofModule m).1 = p := congrArg Prod.fst hm
  obtain ⟨hall, _, hnames⟩ := ofModule_spells hclean
  have hresolves := Resolver.functions_resolves m.functions [] .start
  obtain ⟨_, hscoped⟩ := Resolver.functions_spec m.functions [] .start
  rw [hp] at hall hnames
  subst hp
  refine ⟨?_, fun g hg => ?_, fun v hv => ?_, ?_⟩
  · rw [List.range_eq_range']
    exact hresolves.binders_eq
  · exact (Expr.wellScoped_iff _).2 fun u hu => (hscoped g hg).closed hu
  · obtain ⟨name, hname⟩ := BinderTable.exists_name? hv
    exact ⟨name, hname, BinderTable.lookup?_of_name? hnames hname⟩
  · exact map_eq_of_forall₂ (fun _ _ h => h.outline_eq) hall

/-- The tree of `fn @main(%c: Tensor) { let %f = fn(%x: Tensor) { %x }; %f }`. -/
def closureModule : Syntax.Module :=
  ⟨[⟨⟨"main", ⟨3, 8⟩⟩, [⟨⟨"c", ⟨9, 11⟩⟩, .named ⟨"Tensor", ⟨13, 19⟩⟩, ⟨9, 19⟩⟩],
    .bind ⟨"f", ⟨27, 29⟩⟩ none
      (.closure [⟨⟨"x", ⟨35, 37⟩⟩, .named ⟨"Tensor", ⟨39, 45⟩⟩, ⟨35, 45⟩⟩]
        (.result (.var ⟨"x", ⟨49, 51⟩⟩ ⟨49, 51⟩) ⟨47, 53⟩) ⟨32, 53⟩) ⟨23, 54⟩
      (.result (.var ⟨"f", ⟨55, 57⟩⟩ ⟨55, 57⟩) ⟨21, 59⟩), ⟨0, 59⟩⟩], ⟨0, 59⟩⟩

/-- The parameter of the closure is bound before the closure is. -/
theorem ofModule_wellFormed_closure : ∃ p diagnostics,
    ofModule closureModule = (p, diagnostics) ∧ anyError diagnostics = false ∧
      p.vars.size = 3 ∧ p.functions.flatMap (fun g => g.2.params ++ g.2.body.binders) = [0, 1, 2] ∧
      p.functions.map (·.2.body.outline p.vars.nameOf) =
        [.block [("f", .closure ["x"] (.var "x"))] (.var "f")] := by
  have hclean : anyError (ofModule closureModule).2 = false := by rfl
  have hm : ofModule closureModule = ((ofModule closureModule).1, (ofModule closureModule).2) := rfl
  obtain ⟨hhandles, _, _, houtline⟩ := ofModule_wellFormed hm hclean
  refine ⟨_, _, rfl, hclean, by rfl, hhandles, ?_⟩
  exact congrArg (List.map (·.2.2)) houtline

end Program
end TensorLiveness
