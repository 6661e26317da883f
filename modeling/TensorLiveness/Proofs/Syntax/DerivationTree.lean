/-
# Derivation trees

A derivation tree keeps every token of what it derives: the tree of a closure knows its `fn`, its
parentheses, its commas and its braces, each by its place.  It has the lexemes at its leaves, and it
denotes a syntax tree, in which each node spans the leaves below it.

| tree | its lexemes | what it denotes |
| --- | --- | --- |
| `TypeTree` | `TypeTree.lexemes` | `TypeTree.term` |
| `ParamTree` | `ParamTree.lexemes` | `ParamTree.param` |
| `ExprTree` | `ExprTree.lexemes` | `ExprTree.expr` |
| `BlockTree` | `BlockTree.lexemes` | `BlockTree.block` |
| `FunctionTree` | `FunctionTree.lexemes` | `FunctionTree.decl` |

Trees derive just what the rules derive (`derives`, `exists_tree`).  The reader is a function, so a
list of lexemes has at most one prefix that an expression derives in front of what ends it
(`Derives.prefix_unique`), and hence at most one tree (`forest_unique`).
`parse_eq_iff_exists_tree` puts this together: a text is read just if there is a tree, and then
as what the tree denotes.
-/

import TensorLiveness.Proofs.Syntax.Parsing

namespace TensorLiveness
namespace Syntax

open Number Text

/-! ### Trees -/

/-- The rest of a comma-separated list: its items with the places of its commas and of the
parenthesis that closes it. -/
inductive Listed (α : Type)
  | close (paren : Span)
  | last (item : α) (paren : Span)
  | cons (item : α) (comma : Span) (rest : Listed α)

/-- The tree of a type. -/
inductive TypeTree
  | named (name : Name)
  | tuple (paren : Span) (fields : Listed TypeTree)

/-- The tree of a parameter. -/
structure ParamTree where
  name : Name
  colon : Span
  ty : TypeTree

/-- The tree of a type behind a colon, or of nothing. -/
inductive AnnotationTree
  | none
  | some (colon : Span) (ty : TypeTree)

mutual

/-- The tree of an expression. -/
inductive ExprTree
  | var (name : Name)
  | op (name : Name)
  | number (value : Binary64) (place : Span)
  | callVar (name : Name) (paren : Span) (args : Listed ExprTree)
  | callOp (name : Name) (paren : Span) (args : Listed ExprTree)
  | tuple (paren : Span) (fields : Listed ExprTree)
  | get (source : ExprTree) (index : Nat) (place : Span)
  | cond (ifWord paren : Span) (test : ExprTree) (closing : Span) (thenBlock : BlockTree)
    (elseWord : Span) (elseBlock : BlockTree)
  | closure (fnWord paren : Span) (params : Listed ParamTree) (body : BlockTree)

/-- The tree of a block. -/
inductive BlockTree
  | mk (brace : Span) (rest : RestTree)

/-- The tree of what is behind the brace that opens a block. -/
inductive RestTree
  | result (value : ExprTree) (brace : Span)
  | bind (letWord : Span) (name : Name) (written : AnnotationTree) (equals : Span)
    (value : ExprTree) (semicolon : Span) (rest : RestTree)

end

/-- The tree of a function. -/
structure FunctionTree where
  fnWord : Span
  name : Name
  paren : Span
  params : Listed ParamTree
  body : BlockTree

/-! ### The lexemes at the leaves -/

/-- The lexemes of a list, given those of its items. -/
def Listed.lexemes {α : Type} (item : α → List Lexeme) : Listed α → List Lexeme
  | .close paren => [⟨.rightParen, paren⟩]
  | .last x paren => item x ++ [⟨.rightParen, paren⟩]
  | .cons x comma rest => item x ++ ⟨.comma, comma⟩ :: rest.lexemes item

/-- The items of a list. -/
def Listed.items {α : Type} : Listed α → List α
  | .close _ => []
  | .last x _ => [x]
  | .cons x _ rest => x :: rest.items

mutual

/-- The lexemes of a type. -/
def TypeTree.lexemes : TypeTree → List Lexeme
  | .named name => [⟨.identifier name.name, name.span⟩]
  | .tuple paren fields => ⟨.leftParen, paren⟩ :: TypeTree.listLexemes fields

/-- The lexemes of the rest of a list of types. -/
def TypeTree.listLexemes : Listed TypeTree → List Lexeme
  | .close paren => [⟨.rightParen, paren⟩]
  | .last x paren => x.lexemes ++ [⟨.rightParen, paren⟩]
  | .cons x comma rest => x.lexemes ++ ⟨.comma, comma⟩ :: TypeTree.listLexemes rest

end

/-- The lexemes of a parameter. -/
def ParamTree.lexemes (t : ParamTree) : List Lexeme :=
  ⟨.localName t.name.name, t.name.span⟩ :: ⟨.colon, t.colon⟩ :: t.ty.lexemes

/-- The lexemes of an annotation. -/
def AnnotationTree.lexemes : AnnotationTree → List Lexeme
  | .none => []
  | .some colon ty => ⟨.colon, colon⟩ :: ty.lexemes

mutual

/-- The lexemes of an expression. -/
def ExprTree.lexemes : ExprTree → List Lexeme
  | .var name => [⟨.localName name.name, name.span⟩]
  | .op name => [⟨.identifier name.name, name.span⟩]
  | .number value place => [⟨.number value, place⟩]
  | .callVar name paren args =>
    ⟨.localName name.name, name.span⟩ :: ⟨.leftParen, paren⟩ :: ExprTree.listLexemes args
  | .callOp name paren args =>
    ⟨.identifier name.name, name.span⟩ :: ⟨.leftParen, paren⟩ :: ExprTree.listLexemes args
  | .tuple paren fields => ⟨.leftParen, paren⟩ :: ExprTree.listLexemes fields
  | .get source index place => source.lexemes ++ [⟨.index index, place⟩]
  | .cond ifWord paren test closing thenBlock elseWord elseBlock =>
    ⟨.ifWord, ifWord⟩ :: ⟨.leftParen, paren⟩ :: (test.lexemes ++ ⟨.rightParen, closing⟩ ::
      (thenBlock.lexemes ++ ⟨.elseWord, elseWord⟩ :: elseBlock.lexemes))
  | .closure fnWord paren params body =>
    ⟨.fnWord, fnWord⟩ :: ⟨.leftParen, paren⟩ :: (params.lexemes ParamTree.lexemes ++ body.lexemes)

/-- The lexemes of the rest of a list of expressions. -/
def ExprTree.listLexemes : Listed ExprTree → List Lexeme
  | .close paren => [⟨.rightParen, paren⟩]
  | .last x paren => x.lexemes ++ [⟨.rightParen, paren⟩]
  | .cons x comma rest => x.lexemes ++ ⟨.comma, comma⟩ :: ExprTree.listLexemes rest

/-- The lexemes of a block. -/
def BlockTree.lexemes : BlockTree → List Lexeme
  | .mk brace rest => ⟨.leftBrace, brace⟩ :: rest.lexemes

/-- The lexemes of the rest of a block. -/
def RestTree.lexemes : RestTree → List Lexeme
  | .result value brace => value.lexemes ++ [⟨.rightBrace, brace⟩]
  | .bind letWord name written equals value semicolon rest =>
    ⟨.letWord, letWord⟩ :: ⟨.localName name.name, name.span⟩ :: (written.lexemes ++
      ⟨.equals, equals⟩ :: (value.lexemes ++ ⟨.semicolon, semicolon⟩ :: rest.lexemes))

end

/-- The lexemes of a function. -/
def FunctionTree.lexemes (t : FunctionTree) : List Lexeme :=
  ⟨.fnWord, t.fnWord⟩ :: ⟨.globalName t.name.name, t.name.span⟩ :: ⟨.leftParen, t.paren⟩ ::
    (t.params.lexemes ParamTree.lexemes ++ t.body.lexemes)

/-! ### What a tree denotes -/

mutual

/-- The type that a tree denotes. -/
def TypeTree.term : TypeTree → TypeTerm
  | .named name => .named name
  | .tuple paren fields =>
    .tuple (TypeTree.terms fields) (spanOf (TypeTree.tuple paren fields).lexemes)

/-- The types that a list of trees denotes. -/
def TypeTree.terms : Listed TypeTree → List TypeTerm
  | .close _ => []
  | .last x _ => [x.term]
  | .cons x _ rest => x.term :: TypeTree.terms rest

end

/-- The parameter that a tree denotes. -/
def ParamTree.param (t : ParamTree) : Param := ⟨t.name, t.ty.term, spanOf t.lexemes⟩

/-- The annotation that a tree denotes. -/
def AnnotationTree.term? : AnnotationTree → Option TypeTerm
  | .none => Option.none
  | .some _ ty => Option.some ty.term

/-- The span of the lexemes of a statement, from its `let` to its semicolon. -/
def RestTree.statementSpan (letWord : Span) (name : Name) (written : AnnotationTree)
    (equals : Span) (value : ExprTree) (semicolon : Span) : Span :=
  spanOf (⟨.letWord, letWord⟩ :: ⟨.localName name.name, name.span⟩ :: (written.lexemes ++
    ⟨.equals, equals⟩ :: (value.lexemes ++ [⟨.semicolon, semicolon⟩])))

mutual

/-- The expression that a tree denotes. -/
def ExprTree.expr : ExprTree → Expr
  | .var name => .var name (spanOf (ExprTree.var name).lexemes)
  | .op name => .op name (spanOf (ExprTree.op name).lexemes)
  | .number value place => .number value (spanOf (ExprTree.number value place).lexemes)
  | .callVar name paren args =>
    .call (.var name) (ExprTree.exprs args) (spanOf (ExprTree.callVar name paren args).lexemes)
  | .callOp name paren args =>
    .call (.op name) (ExprTree.exprs args) (spanOf (ExprTree.callOp name paren args).lexemes)
  | .tuple paren fields =>
    .tuple (ExprTree.exprs fields) (spanOf (ExprTree.tuple paren fields).lexemes)
  | .get source index place =>
    .get source.expr index (spanOf (ExprTree.get source index place).lexemes)
  | .cond ifWord paren test closing thenBlock elseWord elseBlock =>
    .cond test.expr thenBlock.block elseBlock.block
      (spanOf (ExprTree.cond ifWord paren test closing thenBlock elseWord elseBlock).lexemes)
  | .closure fnWord paren params body =>
    .closure (params.items.map ParamTree.param) body.block
      (spanOf (ExprTree.closure fnWord paren params body).lexemes)

/-- The expressions that a list of trees denotes. -/
def ExprTree.exprs : Listed ExprTree → List Expr
  | .close _ => []
  | .last x _ => [x.expr]
  | .cons x _ rest => x.expr :: ExprTree.exprs rest

/-- The block that a tree denotes. -/
def BlockTree.block : BlockTree → Block
  | .mk brace rest => rest.block brace.start

/-- The rest of a block from byte `start` that a tree denotes. -/
def RestTree.block (start : Nat) : RestTree → Block
  | .result value brace => .result value.expr ⟨start, brace.stop⟩
  | .bind letWord name written equals value semicolon rest =>
    .bind name written.term? value.expr
      (RestTree.statementSpan letWord name written equals value semicolon) (rest.block start)

end

/-- The function that a tree denotes. -/
def FunctionTree.decl (t : FunctionTree) : FunctionDecl :=
  ⟨t.name, t.params.items.map ParamTree.param, t.body.block, spanOf t.lexemes⟩

/-- The lexemes of trees one after the other. -/
def forestLexemes (ts : List FunctionTree) : List Lexeme := ts.flatMap FunctionTree.lexemes

/-- The module that trees denote; an empty one stands at the end of the source, which has
`length` bytes. -/
def forestModule (length : Nat) (ts : List FunctionTree) : Module :=
  ⟨ts.map FunctionTree.decl, if ts = [] then ⟨length, length⟩ else spanOf (forestLexemes ts)⟩

/-! ### A tree is a derivation -/

mutual

theorem TypeTree.derives : ∀ t : TypeTree, DerivesType t.lexemes t.term
  | .named _ => by
    rw [lexemes, term]
    exact .named rfl
  | .tuple _ fields => by
    rw [term, lexemes]
    exact .tuple rfl (list_derives fields)

theorem TypeTree.list_derives : ∀ ts : Listed TypeTree,
    Items DerivesType (listLexemes ts) (terms ts)
  | .close _ => by
    rw [listLexemes, terms]
    exact .close rfl
  | .last x _ => by
    rw [listLexemes, terms]
    exact .last x.derives rfl
  | .cons x _ rest => by
    rw [listLexemes, terms]
    exact .cons x.derives rfl (list_derives rest)

end

theorem ParamTree.derives (t : ParamTree) : DerivesParam t.lexemes t.param :=
  @DerivesParam.mk ⟨.localName t.name.name, t.name.span⟩ ⟨.colon, t.colon⟩ _ _ rfl rfl t.ty.derives

theorem ParamTree.list_derives : ∀ ts : Listed ParamTree,
    Items DerivesParam (ts.lexemes lexemes) (ts.items.map param)
  | .close _ => .close rfl
  | .last x _ => .last x.derives rfl
  | .cons x _ rest => .cons x.derives rfl (list_derives rest)

theorem AnnotationTree.derives : ∀ t : AnnotationTree, DerivesAnnotation t.lexemes t.term?
  | .none => .none
  | .some _ ty => .some rfl ty.derives

mutual

theorem ExprTree.derives : ∀ t : ExprTree, Derives t.lexemes t.expr
  | .var _ => by
    rw [ExprTree.expr, ExprTree.lexemes]
    exact .var rfl
  | .op _ => by
    rw [ExprTree.expr, ExprTree.lexemes]
    exact .op rfl
  | .number _ _ => by
    rw [ExprTree.expr, ExprTree.lexemes]
    exact .number rfl
  | .callVar _ _ args => by
    rw [ExprTree.expr, ExprTree.lexemes]
    exact .callVar rfl rfl (ExprTree.list_derives args)
  | .callOp _ _ args => by
    rw [ExprTree.expr, ExprTree.lexemes]
    exact .callOp rfl rfl (ExprTree.list_derives args)
  | .tuple _ fields => by
    rw [ExprTree.expr, ExprTree.lexemes]
    exact .tuple rfl (ExprTree.list_derives fields)
  | .get source _ _ => by
    rw [ExprTree.expr, ExprTree.lexemes]
    exact .get source.derives rfl
  | .cond _ _ test _ thenBlock _ elseBlock => by
    rw [ExprTree.expr, ExprTree.lexemes]
    exact .cond rfl rfl test.derives rfl thenBlock.derives rfl elseBlock.derives
  | .closure _ _ params body => by
    rw [ExprTree.expr, ExprTree.lexemes]
    exact .closure rfl rfl (ParamTree.list_derives params) body.derives

theorem ExprTree.list_derives : ∀ ts : Listed ExprTree,
    Items Derives (ExprTree.listLexemes ts) (ExprTree.exprs ts)
  | .close _ => by
    rw [ExprTree.listLexemes, ExprTree.exprs]
    exact .close rfl
  | .last x _ => by
    rw [ExprTree.listLexemes, ExprTree.exprs]
    exact .last x.derives rfl
  | .cons x _ rest => by
    rw [ExprTree.listLexemes, ExprTree.exprs]
    exact .cons x.derives rfl (ExprTree.list_derives rest)

theorem BlockTree.derives : ∀ t : BlockTree, DerivesBlock t.lexemes t.block
  | .mk brace rest => by
    rw [BlockTree.lexemes, BlockTree.block]
    exact .mk rfl (rest.derives brace.start)

theorem RestTree.derives (start : Nat) : ∀ t : RestTree, DerivesRest start t.lexemes (t.block start)
  | .result value _ => by
    rw [RestTree.lexemes, RestTree.block]
    exact .result value.derives rfl
  | .bind _ _ written _ value _ rest => by
    rw [RestTree.lexemes, RestTree.block, RestTree.statementSpan]
    exact .bind rfl rfl written.derives rfl value.derives rfl (rest.derives start)

end

theorem FunctionTree.derives (t : FunctionTree) : DerivesFunction t.lexemes t.decl :=
  @DerivesFunction.mk ⟨.fnWord, t.fnWord⟩ ⟨.globalName t.name.name, t.name.span⟩
    ⟨.leftParen, t.paren⟩ _ _ _ _ rfl rfl rfl (ParamTree.list_derives t.params) t.body.derives

/-- **What trees denote is derived by the lexemes at their leaves.** -/
theorem forest_derives : ∀ ts : List FunctionTree,
    DerivesFunctions (forestLexemes ts) (ts.map FunctionTree.decl)
  | [] => .nil
  | t :: ts => .cons t.derives (forest_derives ts)

/-! ### A derivation is a tree -/

/-- The token of a terminal that carries nothing. -/
def Terminal.token? : Terminal → Option Token
  | .fnWord => some .fnWord
  | .letWord => some .letWord
  | .ifWord => some .ifWord
  | .elseWord => some .elseWord
  | .leftParen => some .leftParen
  | .rightParen => some .rightParen
  | .leftBrace => some .leftBrace
  | .rightBrace => some .rightBrace
  | .comma => some .comma
  | .semicolon => some .semicolon
  | .colon => some .colon
  | .equals => some .equals
  | .localName | .globalName | .identifier | .index | .number => none

theorem Lexeme.eq_of_token? {l : Lexeme} {t : Terminal} {token : Token}
    (hl : l.token.terminal = t) (ht : t.token? = some token) : l = ⟨token, l.span⟩ := by
  obtain ⟨token', span⟩ := l
  subst hl
  cases token' <;> cases ht <;> rfl

theorem Lexeme.exists_localName {l : Lexeme} (h : l.token.terminal = .localName) :
    ∃ name : Name, l = ⟨.localName name.name, name.span⟩ := by
  obtain ⟨token, span⟩ := l
  cases token with
  | localName name => exact ⟨⟨name, span⟩, rfl⟩
  | _ => cases h

theorem Lexeme.exists_globalName {l : Lexeme} (h : l.token.terminal = .globalName) :
    ∃ name : Name, l = ⟨.globalName name.name, name.span⟩ := by
  obtain ⟨token, span⟩ := l
  cases token with
  | globalName name => exact ⟨⟨name, span⟩, rfl⟩
  | _ => cases h

theorem Lexeme.exists_identifier {l : Lexeme} (h : l.token.terminal = .identifier) :
    ∃ name : Name, l = ⟨.identifier name.name, name.span⟩ := by
  obtain ⟨token, span⟩ := l
  cases token with
  | identifier name => exact ⟨⟨name, span⟩, rfl⟩
  | _ => cases h

mutual

theorem DerivesType.exists_tree : ∀ {ty : TypeTerm} {ls : List Lexeme}, DerivesType ls ty →
    ∃ t : TypeTree, t.lexemes = ls ∧ t.term = ty
  | .named .., _, .named hl => by
    obtain ⟨name, rfl⟩ := Lexeme.exists_identifier hl
    exact ⟨.named name, rfl, rfl⟩
  | .tuple .., _, .tuple hl hitems => by
    obtain ⟨fields, rfl, rfl⟩ := DerivesType.exists_list hitems
    rw [Lexeme.eq_of_token? hl rfl]
    exact ⟨.tuple _ fields, rfl, rfl⟩

theorem DerivesType.exists_list : ∀ {tys : List TypeTerm} {ls : List Lexeme},
    Items DerivesType ls tys →
    ∃ ts : Listed TypeTree, TypeTree.listLexemes ts = ls ∧ TypeTree.terms ts = tys
  | [], _, .close hl => by
    rw [Lexeme.eq_of_token? hl rfl]
    exact ⟨.close _, rfl, rfl⟩
  | [_], _, .last hx hl => by
    obtain ⟨x, rfl, rfl⟩ := hx.exists_tree
    rw [Lexeme.eq_of_token? hl rfl]
    exact ⟨.last x _, rfl, rfl⟩
  | _ :: _, _, .cons hx hl hrest => by
    obtain ⟨x, rfl, rfl⟩ := hx.exists_tree
    obtain ⟨rest, rfl, rfl⟩ := DerivesType.exists_list hrest
    rw [Lexeme.eq_of_token? hl rfl]
    exact ⟨.cons x _ rest, rfl, rfl⟩

end

theorem DerivesParam.exists_tree {ls : List Lexeme} {p : Param} (h : DerivesParam ls p) :
    ∃ t : ParamTree, t.lexemes = ls ∧ t.param = p := by
  obtain ⟨hname, hcolon, hty⟩ := h
  obtain ⟨name, rfl⟩ := Lexeme.exists_localName hname
  obtain ⟨ty, rfl, rfl⟩ := hty.exists_tree
  rw [Lexeme.eq_of_token? hcolon rfl]
  exact ⟨⟨name, _, ty⟩, rfl, rfl⟩

theorem DerivesParam.exists_list {ls : List Lexeme} {ps : List Param}
    (h : Items DerivesParam ls ps) : ∃ ts : Listed ParamTree,
      ts.lexemes ParamTree.lexemes = ls ∧ ts.items.map ParamTree.param = ps := by
  induction h with
  | close hl =>
    rw [Lexeme.eq_of_token? hl rfl]
    exact ⟨.close _, rfl, rfl⟩
  | last hx hl =>
    obtain ⟨x, rfl, rfl⟩ := hx.exists_tree
    rw [Lexeme.eq_of_token? hl rfl]
    exact ⟨.last x _, rfl, rfl⟩
  | cons hx hl _ ih =>
    obtain ⟨x, rfl, rfl⟩ := hx.exists_tree
    obtain ⟨rest, rfl, rfl⟩ := ih
    rw [Lexeme.eq_of_token? hl rfl]
    exact ⟨.cons x _ rest, rfl, rfl⟩

theorem DerivesAnnotation.exists_tree {ls : List Lexeme} {ty : Option TypeTerm}
    (h : DerivesAnnotation ls ty) : ∃ t : AnnotationTree, t.lexemes = ls ∧ t.term? = ty := by
  cases h with
  | none => exact ⟨.none, rfl, rfl⟩
  | some hcolon hty =>
    obtain ⟨ty, rfl, rfl⟩ := hty.exists_tree
    rw [Lexeme.eq_of_token? hcolon rfl]
    exact ⟨.some _ ty, rfl, rfl⟩

mutual

theorem Derives.exists_tree : ∀ {e : Expr} {ls : List Lexeme}, Derives ls e →
    ∃ t : ExprTree, t.lexemes = ls ∧ t.expr = e
  | .var .., _, .var hl => by
    obtain ⟨name, rfl⟩ := Lexeme.exists_localName hl
    exact ⟨.var name, rfl, rfl⟩
  | .op .., _, .op hl => by
    obtain ⟨name, rfl⟩ := Lexeme.exists_identifier hl
    exact ⟨.op name, rfl, rfl⟩
  | .number value _, _, @Derives.number l _ hl => by
    obtain ⟨token, place⟩ := l
    obtain rfl : token = .number value := hl
    exact ⟨.number value place, rfl, rfl⟩
  | .call .., _, .callVar hl hopen hitems => by
    obtain ⟨name, rfl⟩ := Lexeme.exists_localName hl
    obtain ⟨args, rfl, rfl⟩ := Derives.exists_list hitems
    rw [Lexeme.eq_of_token? hopen rfl]
    exact ⟨.callVar name _ args, rfl, rfl⟩
  | .call .., _, .callOp hl hopen hitems => by
    obtain ⟨name, rfl⟩ := Lexeme.exists_identifier hl
    obtain ⟨args, rfl, rfl⟩ := Derives.exists_list hitems
    rw [Lexeme.eq_of_token? hopen rfl]
    exact ⟨.callOp name _ args, rfl, rfl⟩
  | .tuple .., _, .tuple hl hitems => by
    obtain ⟨fields, rfl, rfl⟩ := Derives.exists_list hitems
    rw [Lexeme.eq_of_token? hl rfl]
    exact ⟨.tuple _ fields, rfl, rfl⟩
  | .get _ i _, _, @Derives.get _ _ l _ hsource hl => by
    obtain ⟨source, rfl, rfl⟩ := hsource.exists_tree
    obtain ⟨token, place⟩ := l
    obtain rfl : token = .index i := hl
    exact ⟨.get source i place, rfl, rfl⟩
  | .cond .., _, .cond hl hopen htest hclose hthen helse hblock => by
    obtain ⟨test, rfl, rfl⟩ := htest.exists_tree
    obtain ⟨thenBlock, rfl, rfl⟩ := hthen.exists_tree
    obtain ⟨elseBlock, rfl, rfl⟩ := hblock.exists_tree
    rw [Lexeme.eq_of_token? hl rfl, Lexeme.eq_of_token? hopen rfl, Lexeme.eq_of_token? hclose rfl,
      Lexeme.eq_of_token? helse rfl]
    exact ⟨.cond _ _ test _ thenBlock _ elseBlock, rfl, rfl⟩
  | .closure .., _, .closure hl hopen hparams hbody => by
    obtain ⟨params, rfl, rfl⟩ := DerivesParam.exists_list hparams
    obtain ⟨body, rfl, rfl⟩ := hbody.exists_tree
    rw [Lexeme.eq_of_token? hl rfl, Lexeme.eq_of_token? hopen rfl]
    exact ⟨.closure _ _ params body, rfl, rfl⟩

theorem Derives.exists_list : ∀ {es : List Expr} {ls : List Lexeme}, Items Derives ls es →
    ∃ ts : Listed ExprTree, ExprTree.listLexemes ts = ls ∧ ExprTree.exprs ts = es
  | [], _, .close hl => by
    rw [Lexeme.eq_of_token? hl rfl]
    exact ⟨.close _, rfl, rfl⟩
  | [_], _, .last hx hl => by
    obtain ⟨x, rfl, rfl⟩ := hx.exists_tree
    rw [Lexeme.eq_of_token? hl rfl]
    exact ⟨.last x _, rfl, rfl⟩
  | _ :: _, _, .cons hx hl hrest => by
    obtain ⟨x, rfl, rfl⟩ := hx.exists_tree
    obtain ⟨rest, rfl, rfl⟩ := Derives.exists_list hrest
    rw [Lexeme.eq_of_token? hl rfl]
    exact ⟨.cons x _ rest, rfl, rfl⟩

theorem DerivesBlock.exists_tree : ∀ {b : Block} {ls : List Lexeme}, DerivesBlock ls b →
    ∃ t : BlockTree, t.lexemes = ls ∧ t.block = b
  | _, _, @DerivesBlock.mk l _ _ hl h => by
    obtain ⟨rest, rfl, rfl⟩ := h.exists_tree
    obtain ⟨token, brace⟩ := l
    obtain rfl : token = .leftBrace := congrArg Lexeme.token (Lexeme.eq_of_token? hl rfl)
    exact ⟨.mk brace rest, rfl, rfl⟩

theorem DerivesRest.exists_tree : ∀ {b : Block} {start : Nat} {ls : List Lexeme},
    DerivesRest start ls b → ∃ t : RestTree, t.lexemes = ls ∧ t.block start = b
  | .result .., _, _, .result hvalue hl => by
    obtain ⟨value, rfl, rfl⟩ := hvalue.exists_tree
    rw [Lexeme.eq_of_token? hl rfl]
    exact ⟨.result value _, rfl, rfl⟩
  | .bind .., _, _, .bind hlet hname hty hequals hvalue hsemicolon hrest => by
    obtain ⟨name, rfl⟩ := Lexeme.exists_localName hname
    obtain ⟨written, rfl, rfl⟩ := hty.exists_tree
    obtain ⟨value, rfl, rfl⟩ := hvalue.exists_tree
    obtain ⟨rest, rfl, rfl⟩ := hrest.exists_tree
    rw [Lexeme.eq_of_token? hlet rfl, Lexeme.eq_of_token? hequals rfl,
      Lexeme.eq_of_token? hsemicolon rfl]
    exact ⟨.bind _ name written _ value _ rest, rfl, rfl⟩

end

theorem DerivesFunction.exists_tree {ls : List Lexeme} {f : FunctionDecl}
    (h : DerivesFunction ls f) : ∃ t : FunctionTree, t.lexemes = ls ∧ t.decl = f := by
  obtain ⟨hl, hname, hopen, hparams, hbody⟩ := h
  obtain ⟨name, rfl⟩ := Lexeme.exists_globalName hname
  obtain ⟨params, rfl, rfl⟩ := DerivesParam.exists_list hparams
  obtain ⟨body, rfl, rfl⟩ := hbody.exists_tree
  rw [Lexeme.eq_of_token? hl rfl, Lexeme.eq_of_token? hopen rfl]
  exact ⟨⟨_, name, _, params, body⟩, rfl, rfl⟩

/-- **What lexemes derive is denoted by trees with these lexemes.** -/
theorem DerivesFunctions.exists_forest {ls : List Lexeme} {fs : List FunctionDecl}
    (h : DerivesFunctions ls fs) :
    ∃ ts : List FunctionTree, forestLexemes ts = ls ∧ ts.map FunctionTree.decl = fs := by
  induction h with
  | nil => exact ⟨[], rfl, rfl⟩
  | cons hf _ ih =>
    obtain ⟨t, rfl, rfl⟩ := hf.exists_tree
    obtain ⟨ts, rfl, rfl⟩ := ih
    exact ⟨t :: ts, rfl, rfl⟩

/-! ### At most one tree -/

section PrefixUnique

variable {ls ls' tail tail' : List Lexeme}

open Cursor

/-- What is accepted in one place is one value with one list of lexemes. -/
theorem Cursor.Accepts.unique {α : Type} {c : Cursor} {m : Except Mismatch (Reading c α)} {x x' : α}
    (h : Accepts m ls x) (h' : Accepts m ls' x') : x = x' ∧ ls = ls' := by
  obtain ⟨c', hlt, hm, hls⟩ := h
  obtain ⟨c'', hlt', hm', hls'⟩ := h'
  cases hm.symm.trans hm'
  exact ⟨rfl, List.append_cancel_right (hls.rest_eq.symm.trans hls'.rest_eq)⟩

/-- **In front of what ends an expression, at most one prefix derives one.** -/
theorem Derives.prefix_unique {e e' : Expr} (h : Derives ls e) (h' : Derives ls' e')
    (hends : Ends tail) (hends' : Ends tail') (heq : ls ++ tail = ls' ++ tail') :
    e = e' ∧ ls = ls' :=
  (expr_accepts ⟨ls ++ tail, [], 0⟩ rfl h hends).unique
    (expr_accepts ⟨ls ++ tail, [], 0⟩ heq h' hends')

theorem DerivesType.prefix_unique {ty ty' : TypeTerm} (h : DerivesType ls ty)
    (h' : DerivesType ls' ty') (heq : ls ++ tail = ls' ++ tail') : ty = ty' ∧ ls = ls' :=
  (typeExpr_accepts ⟨ls ++ tail, [], 0⟩ rfl h).unique (typeExpr_accepts ⟨ls ++ tail, [], 0⟩ heq h')

theorem DerivesParam.prefix_unique {p p' : Param} (h : DerivesParam ls p)
    (h' : DerivesParam ls' p') (heq : ls ++ tail = ls' ++ tail') : p = p' ∧ ls = ls' :=
  (param_accepts ⟨ls ++ tail, [], 0⟩ rfl h).unique (param_accepts ⟨ls ++ tail, [], 0⟩ heq h')

theorem DerivesBlock.prefix_unique {b b' : Block} (h : DerivesBlock ls b)
    (h' : DerivesBlock ls' b') (heq : ls ++ tail = ls' ++ tail') : b = b' ∧ ls = ls' :=
  (block_accepts ⟨ls ++ tail, [], 0⟩ rfl h).unique (block_accepts ⟨ls ++ tail, [], 0⟩ heq h')

/-- Two lists of items that are unique in front of what ends them are the same if they begin the
same text. -/
theorem Listed.eq_of_append {α : Type} {item : α → List Lexeme} {starts : List Terminal}
    (hstarts : ∀ x, StartsIn starts (item x)) (hclose : .rightParen ∉ starts) :
    ∀ (xs xs' : Listed α) {tail tail' : List Lexeme},
      (∀ x ∈ xs.items, ∀ (x' : α) {tail tail' : List Lexeme}, Ends tail → Ends tail' →
        item x ++ tail = item x' ++ tail' → x = x' ∧ tail = tail') →
      xs.lexemes item ++ tail = xs'.lexemes item ++ tail' → xs = xs' ∧ tail = tail' := by
  have hends : ∀ {t : Token} {place : Span} {tail : List Lexeme},
      t = .rightParen ∨ t = .comma → Ends (⟨t, place⟩ :: tail) := by
    rintro t place tail (rfl | rfl)
    · exact .cons (t := .rightParen) rfl (by decide) tail
    · exact .cons (t := .comma) rfl (by decide) tail
  have hitem : ∀ (x : α) (paren : Span) (tail tail' : List Lexeme),
      ⟨.rightParen, paren⟩ :: tail ≠ item x ++ tail' := by
    intro x paren tail tail' heq
    obtain ⟨l, ls, hls, hl⟩ := hstarts x
    rw [hls] at heq
    rw [← (List.cons.inj heq).1] at hl
    exact hclose hl
  intro xs
  induction xs with
  | close paren =>
    intro xs' tail tail' _ h
    cases xs' with
    | close paren' =>
      obtain ⟨hl, htail⟩ := List.cons.inj h
      exact ⟨by rw [(Lexeme.mk.inj hl).2], htail⟩
    | last x' paren' =>
      rw [lexemes, lexemes, List.append_assoc] at h
      exact absurd h (hitem x' paren tail _)
    | cons x' comma' rest' =>
      rw [lexemes, lexemes, List.append_assoc] at h
      exact absurd h (hitem x' paren tail _)
  | last x paren =>
    intro xs' tail tail' hunique h
    rw [lexemes, List.append_assoc] at h
    cases xs' with
    | close paren' =>
      exact absurd h.symm (hitem x paren' tail' _)
    | last x' paren' =>
      rw [lexemes, List.append_assoc] at h
      obtain ⟨rfl, hparen⟩ := hunique x (.head _) x' (hends (.inl rfl)) (hends (.inl rfl)) h
      obtain ⟨hl, htail⟩ := List.cons.inj hparen
      exact ⟨by rw [(Lexeme.mk.inj hl).2], htail⟩
    | cons x' comma' rest' =>
      rw [lexemes, List.append_assoc] at h
      obtain ⟨-, h⟩ := hunique x (.head _) x' (hends (.inl rfl)) (hends (.inr rfl)) h
      cases (Lexeme.mk.inj (List.cons.inj h).1).1
  | cons x comma rest ih =>
    intro xs' tail tail' hunique h
    rw [lexemes, List.append_assoc] at h
    cases xs' with
    | close paren' =>
      exact absurd h.symm (hitem x paren' tail' _)
    | last x' paren' =>
      rw [lexemes, List.append_assoc] at h
      obtain ⟨-, h⟩ := hunique x (.head _) x' (hends (.inr rfl)) (hends (.inl rfl)) h
      cases (Lexeme.mk.inj (List.cons.inj h).1).1
    | cons x' comma' rest' =>
      rw [lexemes, List.append_assoc] at h
      obtain ⟨rfl, hcomma⟩ := hunique x (.head _) x' (hends (.inr rfl)) (hends (.inr rfl)) h
      obtain ⟨hl, hrest⟩ := List.cons.inj hcomma
      obtain ⟨rfl, htail⟩ := ih rest' (fun y hy => hunique y (.tail _ hy)) hrest
      exact ⟨by rw [(Lexeme.mk.inj hl).2], htail⟩

theorem Listed.sizeOf_lt_of_mem {α : Type} [SizeOf α] {x : α} :
    ∀ {xs : Listed α}, x ∈ xs.items → sizeOf x < sizeOf xs
  | .last y paren, h => by
    obtain rfl := List.mem_singleton.1 h
    rw [last.sizeOf_spec]
    omega
  | .cons y comma rest, h => by
    rw [cons.sizeOf_spec]
    rcases List.mem_cons.1 h with rfl | h
    · omega
    · have := sizeOf_lt_of_mem h
      omega

theorem TypeTree.listLexemes_eq : ∀ ts : Listed TypeTree, listLexemes ts = ts.lexemes lexemes
  | .close _ => rfl
  | .last _ _ => rfl
  | .cons x comma rest => by rw [listLexemes, Listed.lexemes, listLexemes_eq rest]

theorem ExprTree.listLexemes_eq : ∀ ts : Listed ExprTree, listLexemes ts = ts.lexemes lexemes
  | .close _ => rfl
  | .last _ _ => rfl
  | .cons x comma rest => by rw [listLexemes, Listed.lexemes, listLexemes_eq rest]

theorem TypeTree.eq_of_append (t t' : TypeTree) {tail tail' : List Lexeme}
    (h : t.lexemes ++ tail = t'.lexemes ++ tail') : t = t' ∧ tail = tail' := by
  obtain ⟨hterm, hlexemes⟩ := t.derives.prefix_unique t'.derives h
  have htail : tail = tail' := List.append_cancel_left (hlexemes ▸ h)
  refine ⟨?_, htail⟩
  cases t with
  | named name =>
    cases t' with
    | named name' => exact congrArg TypeTree.named (TypeTerm.named.inj hterm)
    | tuple _ _ => cases hterm
  | tuple paren fields =>
    cases t' with
    | named _ => cases hterm
    | tuple paren' fields' =>
      obtain ⟨hparen, hfields⟩ := List.cons.inj hlexemes
      rw [listLexemes_eq, listLexemes_eq] at hfields
      obtain ⟨rfl, -⟩ := Listed.eq_of_append (fun x => x.derives.startsIn) (by decide) fields
        fields' (fun x hx x' _ _ _ _ => eq_of_append x x') (congrArg (· ++ []) hfields)
      rw [(Lexeme.mk.inj hparen).2]
termination_by t
decreasing_by
  have := Listed.sizeOf_lt_of_mem hx
  subst t
  simp only [tuple.sizeOf_spec]
  omega

theorem ParamTree.eq_of_append (t t' : ParamTree) {tail tail' : List Lexeme}
    (h : t.lexemes ++ tail = t'.lexemes ++ tail') : t = t' ∧ tail = tail' := by
  obtain ⟨hparam, -⟩ := t.derives.prefix_unique t'.derives h
  obtain ⟨name, colon, ty⟩ := t
  obtain ⟨name', colon', ty'⟩ := t'
  obtain rfl : name = name' := (Param.mk.inj hparam).1
  obtain ⟨hcolon, hty⟩ := List.cons.inj (List.cons.inj h).2
  obtain ⟨rfl, htail⟩ := ty.eq_of_append ty' hty
  obtain rfl : colon = colon' := (Lexeme.mk.inj hcolon).2
  exact ⟨rfl, htail⟩

theorem ParamTree.list_eq_of_append (ts ts' : Listed ParamTree) {tail tail' : List Lexeme}
    (h : ts.lexemes lexemes ++ tail = ts'.lexemes lexemes ++ tail') : ts = ts' ∧ tail = tail' :=
  Listed.eq_of_append (fun x => x.derives.startsIn) (by decide) ts ts'
    (fun x _ x' _ _ _ _ => x.eq_of_append x') h

/-- The annotations of two statements are the same. -/
theorem AnnotationTree.eq_of_append : ∀ (t t' : AnnotationTree) {place place' : Span}
    {tail tail' : List Lexeme},
    t.lexemes ++ ⟨.equals, place⟩ :: tail = t'.lexemes ++ ⟨.equals, place'⟩ :: tail' →
      t = t' ∧ place = place' ∧ tail = tail'
  | .none, .none, _, _, _, _, h => by
    obtain ⟨hequals, htail⟩ := List.cons.inj h
    exact ⟨rfl, (Lexeme.mk.inj hequals).2, htail⟩
  | .none, .some _ _, _, _, _, _, h => by cases (Lexeme.mk.inj (List.cons.inj h).1).1
  | .some _ _, .none, _, _, _, _, h => by cases (Lexeme.mk.inj (List.cons.inj h).1).1
  | .some colon ty, .some colon' ty', _, _, _, _, h => by
    obtain ⟨hcolon, hty⟩ := List.cons.inj h
    obtain ⟨rfl, hrest⟩ := ty.eq_of_append ty' hty
    obtain ⟨hequals, htail⟩ := List.cons.inj hrest
    exact ⟨by rw [(Lexeme.mk.inj hcolon).2], (Lexeme.mk.inj hequals).2, htail⟩

mutual

theorem ExprTree.eq_of_append (t t' : ExprTree) {tail tail' : List Lexeme} (hends : Ends tail)
    (hends' : Ends tail') (h : t.lexemes ++ tail = t'.lexemes ++ tail') :
    t = t' ∧ tail = tail' := by
  obtain ⟨hexpr, hlexemes⟩ := t.derives.prefix_unique t'.derives hends hends' h
  have htail : tail = tail' := List.append_cancel_left (hlexemes ▸ h)
  refine ⟨?_, htail⟩
  cases t with
  | var name =>
    cases t' with
    | var name' => exact congrArg ExprTree.var (Expr.var.inj hexpr).1
    | _ => cases hexpr
  | op name =>
    cases t' with
    | op name' => exact congrArg ExprTree.op (Expr.op.inj hexpr).1
    | _ => cases hexpr
  | number value place =>
    cases t' with
    | number value' place' =>
      obtain rfl := (Expr.number.inj hexpr).1
      rw [(Lexeme.mk.inj (List.cons.inj hlexemes).1).2]
    | _ => cases hexpr
  | callVar name paren args =>
    cases t' with
    | callVar name' paren' args' =>
      obtain rfl := Callee.var.inj (Expr.call.inj hexpr).1
      obtain ⟨hparen, hargs⟩ := List.cons.inj (List.cons.inj hlexemes).2
      rw [ExprTree.list_eq args args' hargs, (Lexeme.mk.inj hparen).2]
    | callOp _ _ _ => cases (Expr.call.inj hexpr).1
    | _ => cases hexpr
  | callOp name paren args =>
    cases t' with
    | callOp name' paren' args' =>
      obtain rfl := Callee.op.inj (Expr.call.inj hexpr).1
      obtain ⟨hparen, hargs⟩ := List.cons.inj (List.cons.inj hlexemes).2
      rw [ExprTree.list_eq args args' hargs, (Lexeme.mk.inj hparen).2]
    | callVar _ _ _ => cases (Expr.call.inj hexpr).1
    | _ => cases hexpr
  | tuple paren fields =>
    cases t' with
    | tuple paren' fields' =>
      obtain ⟨hparen, hfields⟩ := List.cons.inj hlexemes
      rw [ExprTree.list_eq fields fields' hfields, (Lexeme.mk.inj hparen).2]
    | _ => cases hexpr
  | get source index place =>
    cases t' with
    | get source' index' place' =>
      obtain ⟨hsource, hindex⟩ := List.append_inj' hlexemes rfl
      have happend : source.lexemes ++ [] = source'.lexemes ++ [] := congrArg (· ++ []) hsource
      have hends : Ends [] := nofun
      obtain ⟨rfl, -⟩ := source.eq_of_append source' hends hends happend
      obtain ⟨htoken, hplace⟩ := Lexeme.mk.inj (List.cons.inj hindex).1
      rw [Token.index.inj htoken, hplace]
    | _ => cases hexpr
  | cond ifWord paren test closing thenBlock elseWord elseBlock =>
    cases t' with
    | cond ifWord' paren' test' closing' thenBlock' elseWord' elseBlock' =>
      obtain ⟨hif, h₁⟩ := List.cons.inj hlexemes
      obtain ⟨hparen, h₂⟩ := List.cons.inj h₁
      obtain ⟨rfl, h₃⟩ := test.eq_of_append test' (.cons (t := .rightParen) rfl (by decide) _)
        (.cons (t := .rightParen) rfl (by decide) _) h₂
      obtain ⟨hclosing, h₄⟩ := List.cons.inj h₃
      obtain ⟨rfl, h₅⟩ := thenBlock.eq_of_append thenBlock' h₄
      obtain ⟨helse, h₆⟩ := List.cons.inj h₅
      obtain ⟨rfl, -⟩ := elseBlock.eq_of_append elseBlock' (congrArg (· ++ []) h₆)
      rw [(Lexeme.mk.inj hif).2, (Lexeme.mk.inj hparen).2, (Lexeme.mk.inj hclosing).2,
        (Lexeme.mk.inj helse).2]
    | _ => cases hexpr
  | closure fnWord paren params body =>
    cases t' with
    | closure fnWord' paren' params' body' =>
      obtain ⟨hfn, h₁⟩ := List.cons.inj hlexemes
      obtain ⟨hparen, h₂⟩ := List.cons.inj h₁
      obtain ⟨rfl, h₃⟩ := ParamTree.list_eq_of_append params params' h₂
      obtain ⟨rfl, -⟩ := body.eq_of_append body' (congrArg (· ++ []) h₃)
      rw [(Lexeme.mk.inj hfn).2, (Lexeme.mk.inj hparen).2]
    | _ => cases hexpr
termination_by sizeOf t

theorem ExprTree.list_eq (ts ts' : Listed ExprTree)
    (h : ExprTree.listLexemes ts = ExprTree.listLexemes ts') : ts = ts' := by
  rw [ExprTree.listLexemes_eq, ExprTree.listLexemes_eq] at h
  exact (Listed.eq_of_append (fun x => x.derives.startsIn) (by decide) ts ts'
    (fun x hx x' _ _ hends hends' h => x.eq_of_append x' hends hends' h) (congrArg (· ++ []) h)).1
termination_by sizeOf ts
decreasing_by exact Listed.sizeOf_lt_of_mem hx

theorem BlockTree.eq_of_append (t t' : BlockTree) {tail tail' : List Lexeme}
    (h : t.lexemes ++ tail = t'.lexemes ++ tail') : t = t' ∧ tail = tail' := by
  cases t with
  | mk brace rest =>
    obtain ⟨brace', rest'⟩ := t'
    obtain ⟨hbrace, hrest⟩ := List.cons.inj h
    obtain ⟨rfl, htail⟩ := rest.eq_of_append rest' hrest
    exact ⟨by rw [(Lexeme.mk.inj hbrace).2], htail⟩
termination_by sizeOf t

theorem RestTree.eq_of_append (t t' : RestTree) {tail tail' : List Lexeme}
    (h : t.lexemes ++ tail = t'.lexemes ++ tail') : t = t' ∧ tail = tail' := by
  have hlet : ∀ (value : ExprTree) (place : Span) (ls ls' : List Lexeme),
      value.lexemes ++ ls ≠ ⟨.letWord, place⟩ :: ls' := by
    intro value place ls ls' heq
    obtain ⟨l, ls'', hls, hl⟩ := value.derives.startsIn
    rw [hls] at heq
    rw [(List.cons.inj heq).1] at hl
    exact absurd hl (by simp [Token.terminal, exprStarts])
  cases t with
  | result value brace =>
    rw [RestTree.lexemes, List.append_assoc] at h
    cases t' with
    | result value' brace' =>
      rw [RestTree.lexemes, List.append_assoc] at h
      obtain ⟨rfl, hbrace⟩ := value.eq_of_append value' (.cons (t := .rightBrace) rfl (by decide) _)
        (.cons (t := .rightBrace) rfl (by decide) _) h
      obtain ⟨hl, htail⟩ := List.cons.inj hbrace
      exact ⟨by rw [(Lexeme.mk.inj hl).2], htail⟩
    | bind letWord' _ _ _ _ _ _ => exact absurd h (hlet value letWord' _ _)
  | bind letWord name written equals value semicolon rest =>
    cases t' with
    | result value' brace' =>
      rw [RestTree.lexemes.eq_def (.result value' brace'), List.append_assoc] at h
      exact absurd h.symm (hlet value' letWord _ _)
    | bind letWord' name' written' equals' value' semicolon' rest' =>
      rw [RestTree.lexemes, RestTree.lexemes] at h
      simp only [List.cons_append, List.append_assoc] at h
      obtain ⟨hletWord, h₁⟩ := List.cons.inj h
      obtain ⟨hname, h₂⟩ := List.cons.inj h₁
      obtain ⟨rfl, rfl, h₃⟩ := written.eq_of_append written' h₂
      obtain ⟨rfl, h₄⟩ := value.eq_of_append value' (.cons (t := .semicolon) rfl (by decide) _)
        (.cons (t := .semicolon) rfl (by decide) _) h₃
      obtain ⟨hsemicolon, h₅⟩ := List.cons.inj h₄
      obtain ⟨rfl, htail⟩ := rest.eq_of_append rest' h₅
      obtain rfl : name = name' := congrArg Lexeme.ident hname
      exact ⟨by rw [(Lexeme.mk.inj hletWord).2, (Lexeme.mk.inj hsemicolon).2], htail⟩
termination_by sizeOf t

end

theorem FunctionTree.eq_of_append (t t' : FunctionTree) {tail tail' : List Lexeme}
    (h : t.lexemes ++ tail = t'.lexemes ++ tail') : t = t' ∧ tail = tail' := by
  obtain ⟨fnWord, name, paren, params, body⟩ := t
  obtain ⟨fnWord', name', paren', params', body'⟩ := t'
  simp only [lexemes, List.cons_append, List.append_assoc] at h
  obtain ⟨hfn, h₁⟩ := List.cons.inj h
  obtain ⟨hname, h₂⟩ := List.cons.inj h₁
  obtain ⟨hparen, h₃⟩ := List.cons.inj h₂
  obtain ⟨rfl, h₄⟩ := ParamTree.list_eq_of_append params params' h₃
  obtain ⟨rfl, htail⟩ := body.eq_of_append body' h₄
  obtain rfl : name = name' := congrArg Lexeme.ident hname
  exact ⟨by rw [(Lexeme.mk.inj hfn).2, (Lexeme.mk.inj hparen).2], htail⟩

/-- **Trees are known by their lexemes.** -/
theorem forest_unique : ∀ {ts ts' : List FunctionTree},
    forestLexemes ts = forestLexemes ts' → ts = ts'
  | [], [], _ => rfl
  | [], _ :: _, h => by cases h
  | _ :: _, [], h => by cases h
  | t :: ts, t' :: ts', h => by
    have happend : t.lexemes ++ forestLexemes ts = t'.lexemes ++ forestLexemes ts' := h
    obtain ⟨rfl, hrest⟩ := t.eq_of_append t' happend
    rw [forest_unique hrest]

end PrefixUnique

/-! ### Spans -/

/-- An expression spans the leaves of its tree. -/
theorem ExprTree.span_eq (t : ExprTree) : t.expr.span = spanOf t.lexemes := t.derives.span_eq

theorem RestTree.lexemes_ne_nil : ∀ t : RestTree, t.lexemes ≠ []
  | .result _ _ => List.append_ne_nil_of_right_ne_nil _ (List.cons_ne_nil _ _)
  | .bind .. => List.cons_ne_nil _ _

/-- Where lexemes stop does not depend on what is in front of them. -/
theorem stopAfter_of_ne_nil {ls : List Lexeme} (h : ls ≠ []) (reached reached' : Nat) :
    stopAfter reached ls = stopAfter reached' ls := by
  obtain ⟨l, ls, rfl⟩ := List.exists_cons_of_ne_nil h
  rw [stopAfter_cons, stopAfter_cons]

theorem RestTree.span_eq (start : Nat) : ∀ t : RestTree,
    (t.block start).span = ⟨start, stopAfter start t.lexemes⟩
  | .result value brace => by
    rw [block, lexemes, stopAfter_append]
    rfl
  | .bind letWord name written equals value semicolon rest => by
    rw [block, lexemes, Block.span, rest.span_eq start]
    simp only [stopAfter_cons, stopAfter_append]
    rw [stopAfter_of_ne_nil rest.lexemes_ne_nil]

/-- A block spans the leaves of its tree. -/
theorem BlockTree.span_eq : ∀ t : BlockTree, t.block.span = spanOf t.lexemes
  | .mk brace rest => by
    rw [block, lexemes, rest.span_eq, spanOf, stopAfter_of_ne_nil rest.lexemes_ne_nil]

/-! ### Source texts -/

theorem forestLexemes_eq_nil {ts : List FunctionTree} : forestLexemes ts = [] ↔ ts = [] := by
  cases ts with
  | nil => exact iff_of_true rfl rfl
  | cons t ts => exact iff_of_false (List.cons_ne_nil _ _) (List.cons_ne_nil _ _)

/-- Reading the leaves of trees succeeds with what the trees denote. -/
theorem parseLexemes_forest (length : Nat) (ts : List FunctionTree) :
    parseLexemes length (forestLexemes ts) = .ok (forestModule length ts) := by
  have hfs := Cursor.functions_accepts (forest_derives ts) ⟨forestLexemes ts, [], 0⟩ rfl
  rw [parseLexemes, hfs, forestModule]
  cases hls : forestLexemes ts with
  | nil =>
    rw [if_pos (forestLexemes_eq_nil.1 hls)]
    rfl
  | cons l ls =>
    have hne : ts ≠ [] := by
      rintro rfl
      cases hls
    rw [if_neg hne, spanOf, ← stopAfter_cons l.span.stop, stopAfter, List.head?_cons,
      List.getLast?_eq_some_getLast (List.cons_ne_nil l ls)]
    rfl

/-- **A text without lexical errors is a module just if its lexemes are the leaves of trees.**  The
trees are the only ones, and the module is what they denote; expressions and blocks span
the leaves of their trees.  Without trees there is no module, and one error. -/
theorem parse_eq_iff_exists_tree {source : String} (h : lexicalErrors source = []) :
    (∀ m, parse source = (some m, []) ↔ ∃ ts : List FunctionTree,
      forestLexemes ts = lexemes source ∧ forestModule source.utf8ByteSize ts = m) ∧
    (∀ ts ts' : List FunctionTree, forestLexemes ts = lexemes source →
      forestLexemes ts' = lexemes source → ts = ts') ∧
    (∀ t : ExprTree, t.expr.span = spanOf t.lexemes) ∧
    (∀ t : BlockTree, t.block.span = spanOf t.lexemes) ∧
    ((∀ ts : List FunctionTree, forestLexemes ts ≠ lexemes source) →
      ∃ e, parse source = (none, [.mismatch e source.utf8ByteSize])) := by
  have hread : ∀ {ts : List FunctionTree}, forestLexemes ts = lexemes source →
      parse source = (some (forestModule source.utf8ByteSize ts), []) := by
    intro ts hts
    rw [parse, ← hts, parseLexemes_forest, h]
    rfl
  refine ⟨fun m => ⟨fun hm => ?_, ?_⟩, fun ts ts' hts hts' => forest_unique (hts.trans hts'.symm),
    ExprTree.span_eq, BlockTree.span_eq, fun hnone => ?_⟩
  · obtain ⟨ts, hts, -⟩ := (parse_sound hm).2.exists_forest
    exact ⟨ts, hts, Option.some.inj (Prod.mk.inj ((hread hts).symm.trans hm)).1⟩
  · rintro ⟨ts, hts, rfl⟩
    exact hread hts
  · cases hls : parseLexemes source.utf8ByteSize (lexemes source) with
    | error e =>
      refine ⟨e, ?_⟩
      rw [parse, hls, h]
      rfl
    | ok m =>
      have hm : parse source = (some m, []) := by
        rw [parse, hls, h]
        rfl
      obtain ⟨ts, hts, -⟩ := (parse_sound hm).2.exists_forest
      exact absurd hts (hnone ts)

/-- A function with a comma behind its only parameter. -/
def commaSource : String := "fn @f(%p: T,) \x7b %p.0.1 \x7d"

/-- The tree of `commaSource`. -/
def commaTree : FunctionTree :=
  ⟨⟨0, 2⟩, ⟨"f", ⟨3, 5⟩⟩, ⟨5, 6⟩,
    .cons ⟨⟨"p", ⟨6, 8⟩⟩, ⟨8, 9⟩, .named ⟨"T", ⟨10, 11⟩⟩⟩ ⟨11, 12⟩ (.close ⟨12, 13⟩),
    .mk ⟨14, 15⟩ (.result (.get (.get (.var ⟨"p", ⟨16, 18⟩⟩) 0 ⟨18, 20⟩) 1 ⟨20, 22⟩) ⟨23, 24⟩)⟩

/-- A function with a comma and no parameter. -/
def loneCommaSource : String := "fn @f(,) \x7b 1 \x7d"

/-- A comma may stand behind an item, and not without one. -/
theorem parse_comma :
    parse commaSource = (some (forestModule 24 [commaTree]), []) ∧
    (∀ ts, forestLexemes ts = lexemes commaSource → ts = [commaTree]) ∧
    ∃ e, parse loneCommaSource = (none, [.mismatch e 14]) := by
  have hlexical : lexicalErrors commaSource = [] := by decide +kernel
  have htree : forestLexemes [commaTree] = lexemes commaSource := by decide +kernel
  have hsize : commaSource.utf8ByteSize = 24 := by decide +kernel
  obtain ⟨hread, hunique, -⟩ := parse_eq_iff_exists_tree hlexical
  rw [hsize] at hread
  have hlexical' : lexicalErrors loneCommaSource = [] := by decide +kernel
  have hsize' : loneCommaSource.utf8ByteSize = 14 := by decide +kernel
  have hnone : (parse loneCommaSource).2 ≠ [] := by decide +kernel
  obtain ⟨hread', -, -, -, hother⟩ := parse_eq_iff_exists_tree hlexical'
  rw [hsize'] at hother
  refine ⟨(hread _).2 ⟨[commaTree], htree, rfl⟩, ?_, hother ?_⟩
  · intro ts hts
    exact hunique ts [commaTree] hts htree
  · intro ts hts
    rw [(hread' _).2 ⟨ts, hts, rfl⟩] at hnone
    exact hnone rfl

end Syntax
end TensorLiveness
