/-
# Syntax trees

Modules, functions, blocks, expressions and types as they are written, each with its
span.  The trees admit more than the analysis does (calls inside calls, computed
conditions, calls of closures), so that a later check can name what it rejects.

A block is its first statement and the rest of it, down to the result.
-/

import TensorLiveness.Number.Binary64
import TensorLiveness.Text.Span

namespace TensorLiveness
namespace Syntax

open Number Text

/-- A name without its sigil, with the span of both. -/
structure Name where
  name : String
  span : Span
deriving DecidableEq

/-- A type as written. -/
inductive TypeTerm
  | named (name : Name)
  | tuple (fields : List TypeTerm) (span : Span)

/-- A parameter with its type. -/
structure Param where
  name : Name
  ty : TypeTerm
  span : Span

/-- What a call calls. -/
inductive Callee
  | op (name : Name)
  | var (name : Name)
deriving DecidableEq

mutual

/-- An expression. -/
inductive Expr
  | var (name : Name) (span : Span)
  | number (value : Binary64) (span : Span)
  | op (name : Name) (span : Span)
  | call (callee : Callee) (args : List Expr) (span : Span)
  | tuple (fields : List Expr) (span : Span)
  | get (source : Expr) (index : Nat) (span : Span)
  | cond (test : Expr) (thenBlock elseBlock : Block) (span : Span)
  | closure (params : List Param) (body : Block) (span : Span)

/-- The rest of a block: a statement and what follows it, or the result.  The result
carries the span of the whole block. -/
inductive Block
  | bind (name : Name) (ty : Option TypeTerm) (value : Expr) (span : Span) (rest : Block)
  | result (value : Expr) (span : Span)

end

/-- The span of an expression. -/
def Expr.span : Expr → Span
  | .var _ s | .number _ s | .op _ s | .call _ _ s | .tuple _ s | .get _ _ s | .cond _ _ _ s
  | .closure _ _ s => s

/-- The span of a block. -/
def Block.span : Block → Span
  | .bind _ _ _ _ rest => rest.span
  | .result _ s => s

/-- A named function. -/
structure FunctionDecl where
  name : Name
  params : List Param
  body : Block
  span : Span

/-- A whole source text. -/
structure Module where
  functions : List FunctionDecl
  span : Span

end Syntax
end TensorLiveness
