/-
# Tokens

The vocabulary of the tensor language: keywords, punctuation, three kinds of names,
projection indices and numbers.  A token's terminal is the grammar symbol it
stands for, that is, the token without what it carries.
-/

import TensorLiveness.Number.Shortest
import TensorLiveness.Text.Span

namespace TensorLiveness
namespace Syntax

open Number Text

/-- The terminal symbols of the grammar. -/
inductive Terminal
  | fnWord | letWord | ifWord | elseWord
  | leftParen | rightParen | leftBrace | rightBrace
  | comma | semicolon | colon | equals
  | localName | globalName | identifier
  | index | number
deriving DecidableEq

/-- A token.  Names carry their text without the sigil. -/
inductive Token
  | fnWord | letWord | ifWord | elseWord
  | leftParen | rightParen | leftBrace | rightBrace
  | comma | semicolon | colon | equals
  | localName (name : String)
  | globalName (name : String)
  | identifier (name : String)
  | index (value : Nat)
  | number (value : Binary64)
deriving DecidableEq

/-- The terminal that a token stands for. -/
def Token.terminal : Token → Terminal
  | .fnWord => .fnWord
  | .letWord => .letWord
  | .ifWord => .ifWord
  | .elseWord => .elseWord
  | .leftParen => .leftParen
  | .rightParen => .rightParen
  | .leftBrace => .leftBrace
  | .rightBrace => .rightBrace
  | .comma => .comma
  | .semicolon => .semicolon
  | .colon => .colon
  | .equals => .equals
  | .localName _ => .localName
  | .globalName _ => .globalName
  | .identifier _ => .identifier
  | .index _ => .index
  | .number _ => .number

/-- How a message shows a token: as written, a name by its kind. -/
def Token.display : Token → String
  | .fnWord => "fn"
  | .letWord => "let"
  | .ifWord => "if"
  | .elseWord => "else"
  | .leftParen => "("
  | .rightParen => ")"
  | .leftBrace => "\x7b"
  | .rightBrace => "\x7d"
  | .comma => ","
  | .semicolon => ";"
  | .colon => ":"
  | .equals => "="
  | .localName _ => "<local>"
  | .globalName _ => "<global>"
  | .identifier _ => "<ident>"
  | .index value => "." ++ toString value
  | .number value => value.render

/-- How a message names a terminal that it expected.  Indices and numbers have no one
written form. -/
def Terminal.display : Terminal → String
  | .fnWord => "'fn'"
  | .letWord => "'let'"
  | .ifWord => "'if'"
  | .elseWord => "'else'"
  | .leftParen => "'('"
  | .rightParen => "')'"
  | .leftBrace => "'\x7b'"
  | .rightBrace => "'\x7d'"
  | .comma => "','"
  | .semicolon => "';'"
  | .colon => "':'"
  | .equals => "'='"
  | .localName => "'<local>'"
  | .globalName => "'<global>'"
  | .identifier => "'<ident>'"
  | .index | .number => "something else"

/-- A token with its place in the source. -/
structure Lexeme where
  token : Token
  span : Span
deriving DecidableEq

end Syntax
end TensorLiveness
