/-
# From lexemes to trees

    module  = function*
    function = `fn` GLOBAL params block
    params  = `(` (LOCAL `:` type),* `)`
    type    = IDENT | `(` type,* `)`
    block   = `{` (`let` LOCAL (`:` type)? `=` expr `;`)* expr `}`
    expr    = primary INDEX*
    primary = LOCAL args? | IDENT args? | NUMBER | args
            | `if` `(` expr `)` block `else` block | `fn` params block
    args    = `(` expr,* `)`

A comma-separated list may be empty and may end in a comma behind an item.  Each node
spans its first lexeme through its last.  Parsing stops at the first lexeme that
fits no rule.
-/

import TensorLiveness.Syntax.Cursor
import TensorLiveness.Syntax.Scanner
import TensorLiveness.Syntax.Tree

namespace TensorLiveness
namespace Syntax

open Text

/-- The name that a lexeme carries. -/
def Lexeme.ident (l : Lexeme) : Name :=
  match l.token with
  | .localName n | .globalName n | .identifier n => ⟨n, l.span⟩
  | _ => ⟨"", l.span⟩

/-- The terminals that begin a type. -/
def typeStarts : List Terminal := [.identifier, .leftParen]

/-- The terminals that begin an expression. -/
def exprStarts : List Terminal :=
  [.localName, .identifier, .number, .leftParen, .ifWord, .fnWord]

namespace Cursor

/-- Read a type. -/
def typeExpr (c : Cursor) : Except Mismatch (Reading c TypeTerm) :=
  match c.advance? with
  | some ⟨l, c₁, h₁⟩ =>
    match l.token.terminal with
    | .identifier => .ok ⟨.named l.ident, c₁, h₁⟩
    | .leftParen => do
      let ⟨fields, c₂, h₂⟩ ← items c.size typeStarts (fun d _ => typeExpr d) c₁ h₁
      .ok ⟨.tuple fields ⟨l.span.start, c₂.reached⟩, c₂, by omega⟩
    | _ => .error (c.miss typeStarts).mismatch
  | none => .error (c.miss typeStarts).mismatch
termination_by c.size

/-- Read a parameter. -/
def param (c : Cursor) : Except Mismatch (Reading c Param) := do
  let ⟨name, c₁, h₁⟩ ← c.expect .localName
  let ⟨_, c₂, h₂⟩ ← c₁.expect .colon
  let ⟨ty, c₃, h₃⟩ ← c₂.typeExpr
  .ok ⟨⟨name.ident, ty, ⟨name.span.start, c₃.reached⟩⟩, c₃, by omega⟩

/-- Read a list of parameters. -/
def params (c : Cursor) : Except Mismatch (Reading c (List Param)) :=
  c.parenthesised [.localName] fun d _ => d.param

/-- What remains at least as small as `c` after reading nothing or something. -/
structure Optional (c : Cursor) (α : Type) where
  value : α
  next : Cursor
  next_le : next.size ≤ c.size

/-- Read the type behind a colon, if there is a colon. -/
def annotation (c : Cursor) : Except Mismatch (Optional c (Option TypeTerm)) :=
  match c.expect .colon with
  | .ok ⟨_, c₁, h₁⟩ => do
    let ⟨ty, c₂, h₂⟩ ← c₁.typeExpr
    .ok ⟨some ty, c₂, Nat.le_of_lt (Nat.lt_trans h₂ h₁)⟩
  | .error _ => .ok ⟨none, c.miss [.colon], Nat.le_refl _⟩

/-- Read the projections behind `e`. -/
def projections (e : Expr) (c : Cursor) : Optional c Expr :=
  match c.advance? with
  | some ⟨⟨.index i, span⟩, c₁, h₁⟩ =>
    let ⟨e', c₂, h₂⟩ := projections (.get e i ⟨e.span.start, span.stop⟩) c₁
    ⟨e', c₂, by omega⟩
  | _ => ⟨e, c.miss [.index], Nat.le_refl _⟩
termination_by c.size

mutual

/-- Read an expression without projections. -/
def primary (c : Cursor) : Except Mismatch (Reading c Expr) :=
  match c.advance? with
  | some ⟨l, c₁, h₁⟩ =>
    match l.token with
    | .localName _ => do
      let ⟨args, c₂, h₂⟩ ← arguments c₁
      let span := ⟨l.span.start, c₂.reached⟩
      .ok ⟨match args with
        | some args => .call (.var l.ident) args span
        | none => .var l.ident span, c₂, by omega⟩
    | .identifier _ => do
      let ⟨args, c₂, h₂⟩ ← arguments c₁
      let span := ⟨l.span.start, c₂.reached⟩
      .ok ⟨match args with
        | some args => .call (.op l.ident) args span
        | none => .op l.ident span, c₂, by omega⟩
    | .number value => .ok ⟨.number value l.span, c₁, h₁⟩
    | .leftParen => do
      let ⟨fields, c₂, h₂⟩ ← items c.size exprStarts (fun d _ => expr d) c₁ h₁
      .ok ⟨.tuple fields ⟨l.span.start, c₂.reached⟩, c₂, by omega⟩
    | .ifWord => do
      let ⟨_, c₂, h₂⟩ ← c₁.expect .leftParen
      let ⟨test, c₃, h₃⟩ ← expr c₂
      let ⟨_, c₄, h₄⟩ ← c₃.expect .rightParen
      let ⟨thenBlock, c₅, h₅⟩ ← block c₄
      let ⟨_, c₆, h₆⟩ ← c₅.expect .elseWord
      let ⟨elseBlock, c₇, h₇⟩ ← block c₆
      .ok ⟨.cond test thenBlock elseBlock ⟨l.span.start, c₇.reached⟩, c₇, by omega⟩
    | .fnWord => do
      let ⟨ps, c₂, h₂⟩ ← c₁.params
      let ⟨body, c₃, h₃⟩ ← block c₂
      .ok ⟨.closure ps body ⟨l.span.start, c₃.reached⟩, c₃, by omega⟩
    | _ => .error (c.miss exprStarts).mismatch
  | none => .error (c.miss exprStarts).mismatch
termination_by (c.size, 0)

/-- Read an argument list, if there is a parenthesis. -/
def arguments (c : Cursor) : Except Mismatch (Optional c (Option (List Expr))) :=
  match c.expect .leftParen with
  | .ok ⟨_, c₁, h₁⟩ => do
    let ⟨args, c₂, h₂⟩ ← items c.size exprStarts (fun d _ => expr d) c₁ h₁
    .ok ⟨some args, c₂, by omega⟩
  | .error _ => .ok ⟨none, c.miss [.leftParen], Nat.le_refl _⟩
termination_by (c.size, 0)

/-- Read an expression. -/
def expr (c : Cursor) : Except Mismatch (Reading c Expr) := do
  let ⟨e, c₁, h₁⟩ ← primary c
  let ⟨e', c₂, h₂⟩ := projections e c₁
  .ok ⟨e', c₂, by omega⟩
termination_by (c.size, 1)

/-- Read the rest of a block that started at byte `start`. -/
def blockRest (start : Nat) (c : Cursor) : Except Mismatch (Reading c Block) :=
  match c.expect .letWord with
  | .ok ⟨l, c₁, h₁⟩ => do
    let ⟨name, c₂, h₂⟩ ← c₁.expect .localName
    let ⟨ty, c₃, h₃⟩ ← c₂.annotation
    let ⟨_, c₄, h₄⟩ ← c₃.expect .equals
    let ⟨value, c₅, h₅⟩ ← expr c₄
    let ⟨_, c₆, h₆⟩ ← c₅.expect .semicolon
    let ⟨rest, c₇, h₇⟩ ← blockRest start c₆
    .ok ⟨.bind name.ident ty value ⟨l.span.start, c₆.reached⟩ rest, c₇, by omega⟩
  | .error _ => do
    let ⟨value, c₁, h₁⟩ ← expr (c.miss [.letWord])
    let ⟨_, c₂, h₂⟩ ← c₁.expect .rightBrace
    .ok ⟨.result value ⟨start, c₂.reached⟩, c₂, by simp at h₁; omega⟩
termination_by (c.size, 2)

/-- Read a block. -/
def block (c : Cursor) : Except Mismatch (Reading c Block) := do
  let ⟨l, c₁, h₁⟩ ← c.expect .leftBrace
  let ⟨b, c₂, h₂⟩ ← blockRest l.span.start c₁
  .ok ⟨b, c₂, by omega⟩
termination_by (c.size, 0)

end

/-- Read functions up to the end of the input. -/
def functions (c : Cursor) : Except Mismatch (List FunctionDecl) :=
  match c.expect .fnWord with
  | .ok ⟨l, c₁, _⟩ => do
    let ⟨name, c₂, _⟩ ← c₁.expect .globalName
    let ⟨ps, c₃, _⟩ ← c₂.params
    let ⟨body, c₄, _⟩ ← c₃.block
    let rest ← functions c₄
    .ok (⟨name.ident, ps, body, ⟨l.span.start, c₄.reached⟩⟩ :: rest)
  | .error m => if c.rest = [] then .ok [] else .error ⟨m.found, m.expected ++ [.endOfInput]⟩
termination_by c.size

end Cursor

/-- The module that a list of lexemes makes up; `length` is the length of the source. -/
def parseLexemes (length : Nat) (ls : List Lexeme) : Except Mismatch Module := do
  let fs ← Cursor.functions ⟨ls, [], 0⟩
  let span := match ls.head?, ls.getLast? with
    | some first, some last => ⟨first.span.start, last.span.stop⟩
    | _, _ => ⟨length, length⟩
  return ⟨fs, span⟩

/-- What keeps a source text from being a module. -/
inductive ParseError
  | lexical (error : LexicalError)
  | mismatch (error : Mismatch) (endOfInput : Nat)
deriving DecidableEq

/-- Where an error is: at the offending text, or behind the last byte. -/
def ParseError.span : ParseError → Span
  | .lexical e => e.span
  | .mismatch e stop => (e.found.map (·.span)).getD ⟨stop, stop⟩

/-- A list of expectations as a phrase. -/
def alternatives : List String → String
  | [] => "something else"
  | [a] => a
  | as => ", ".intercalate as.dropLast ++ ", or " ++ as.getLastD ""

/-- The text of a mismatch. -/
def Mismatch.message (m : Mismatch) : String :=
  let found := match m.found with
    | some l => "'" ++ l.token.display ++ "'"
    | none => "end of input"
  "found " ++ found ++ " expected " ++ alternatives (m.expected.map Expectation.display)

/-- The text of a parse error. -/
def ParseError.message : ParseError → String
  | .lexical e => e.message
  | .mismatch e _ => e.message

/-- The module that a source text is, if its lexemes make one up, and all its errors, the
lexical ones first. -/
def parse (source : String) : Option Module × List ParseError :=
  let lexical := (lexicalErrors source).map .lexical
  match parseLexemes source.utf8ByteSize (lexemes source) with
  | .ok m => (some m, lexical)
  | .error e => (none, lexical ++ [.mismatch e source.utf8ByteSize])

end Syntax
end TensorLiveness
