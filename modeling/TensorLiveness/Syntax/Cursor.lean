/-
# A place in a list of lexemes

A cursor holds the lexemes still to be read, the symbols that were looked for here in
vain, and the end of the lexeme read last.  A successful step (`Reading`) returns a
value with a cursor that has fewer lexemes left, which is why repetition ends; a
failed one returns the place it failed at and everything that was welcome there.

The grammar needs one lexeme of lookahead, so an attempt that has read a lexeme is
the only one that can succeed, and its failure is the failure of the whole.
-/

import TensorLiveness.Syntax.Token

namespace TensorLiveness
namespace Syntax

open Text

/-- A symbol that would have been welcome. -/
inductive Expectation
  | terminal (symbol : Terminal)
  | endOfInput
deriving DecidableEq

/-- The text of an expectation in a message. -/
def Expectation.display : Expectation → String
  | .terminal t => t.display
  | .endOfInput => "end of input"

/-- A lexeme (or the end of the input) where something else was expected. -/
structure Mismatch where
  found : Option Lexeme
  expected : List Expectation
deriving DecidableEq

/-- A place in a list of lexemes. -/
structure Cursor where
  rest : List Lexeme
  missed : List Expectation
  reached : Nat
deriving DecidableEq

namespace Cursor

/-- The number of lexemes left. -/
def size (c : Cursor) : Nat := c.rest.length

/-- The terminal that comes next. -/
def next? (c : Cursor) : Option Terminal := c.rest.head?.map (·.token.terminal)

/-- The byte at which the next lexeme starts. -/
def start (c : Cursor) : Nat := (c.rest.head?.map (·.span.start)).getD c.reached

/-- The same place after looking for `symbols` in vain. -/
def miss (c : Cursor) (symbols : List Terminal) : Cursor :=
  { c with missed := c.missed ++ symbols.map .terminal }

@[simp] theorem size_miss (c : Cursor) (symbols : List Terminal) :
    (c.miss symbols).size = c.size := rfl

/-- The mismatch at this place: each expectation once, in the order of the attempts. -/
def mismatch (c : Cursor) : Mismatch := ⟨c.rest.head?, c.missed.eraseDups⟩

end Cursor

/-- A value read from `c`, and the smaller cursor behind it. -/
structure Reading (c : Cursor) (α : Type) where
  value : α
  next : Cursor
  next_lt : next.size < c.size

namespace Cursor

/-- Read the next lexeme, whatever it is. -/
def advance? (c : Cursor) : Option (Reading c Lexeme) :=
  match c with
  | ⟨[], _, _⟩ => none
  | ⟨l :: rest, _, _⟩ => some ⟨l, ⟨rest, [], l.span.stop⟩, by simp [size]⟩

/-- Read a lexeme of the terminal `t`. -/
def expect (c : Cursor) (t : Terminal) : Except Mismatch (Reading c Lexeme) :=
  match c.advance? with
  | some r => if r.value.token.terminal = t then .ok r else .error (c.miss [t]).mismatch
  | none => .error (c.miss [t]).mismatch

/-- Read the rest of a comma-separated list and the parenthesis that closes it: items
that begin with one of `starts`, the last with or without a comma behind it. -/
def items {α : Type} (bound : Nat) (starts : List Terminal)
    (item : (d : Cursor) → d.size < bound → Except Mismatch (Reading d α))
    (c : Cursor) (hc : c.size < bound) : Except Mismatch (Reading c (List α)) :=
  if c.next?.any (· ∈ starts) then do
    let ⟨x, c₁, h₁⟩ ← item c hc
    match c₁.expect .comma with
    | .ok ⟨_, c₂, h₂⟩ =>
      let ⟨xs, c₃, h₃⟩ ← items bound starts item c₂ (by omega)
      .ok ⟨x :: xs, c₃, by omega⟩
    | .error _ =>
      let ⟨_, c₂, h₂⟩ ← (c₁.miss [.comma]).expect .rightParen
      .ok ⟨[x], c₂, by simp at h₂; omega⟩
  else do
    let ⟨_, c₁, h₁⟩ ← (c.miss starts).expect .rightParen
    .ok ⟨[], c₁, h₁⟩
termination_by c.size

/-- Read a parenthesised, comma-separated list of items. -/
def parenthesised {α : Type} (c : Cursor) (starts : List Terminal)
    (item : (d : Cursor) → d.size < c.size → Except Mismatch (Reading d α)) :
    Except Mismatch (Reading c (List α)) := do
  let ⟨_, c₁, h₁⟩ ← c.expect .leftParen
  let ⟨xs, c₂, h₂⟩ ← items c.size starts item c₁ h₁
  .ok ⟨xs, c₂, by omega⟩

end Cursor

end Syntax
end TensorLiveness
