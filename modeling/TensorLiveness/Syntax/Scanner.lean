/-
# From characters to lexemes

At each position the longest piece that is blank or a token is taken.  Where there
is none, one character is an error, and scanning goes on behind it.  The pieces
taken make up the whole source, in order.

| piece | form |
| --- | --- |
| blank | spaces, tabs and line ends; `#` to the end of the line |
| local, global name | `%` or `@`, then a word |
| identifier, keyword | words joined by dots; `fn`, `let`, `if`, `else` alone |
| index | `.` and digits, below `2^64` |
| number | `-`? digits, (`.` digits)?, (`e` sign? digits)? |

A word is an ASCII letter or underscore and then letters, digits and underscores.
A keyword with a dot behind it is an identifier.
-/

import TensorLiveness.Syntax.Token
import TensorLiveness.Text.Quoted

namespace TensorLiveness
namespace Syntax

open Number Text

/-- The characters between tokens. -/
def isBlank (c : Char) : Bool :=
  c = ' ' || c = '\t' || c = '\r' || c = '\n'

/-- The first character of a word. -/
def isWordStart (c : Char) : Bool :=
  c.isAlpha || c = '_'

/-- The characters of a word. -/
def isWordChar (c : Char) : Bool :=
  c.isAlphanum || c = '_'

/-- The length of the word that `cs` starts with, zero if it starts with none. -/
def wordLength : List Char → Nat
  | [] => 0
  | c :: cs => if isWordStart c then 1 + (cs.takeWhile isWordChar).length else 0

/-- The length of the dots with words behind them that `cs` starts with. -/
def dottedLength : List Char → Nat
  | '.' :: cs =>
    if wordLength cs = 0 then 0
    else 1 + wordLength cs + dottedLength (cs.drop (wordLength cs))
  | _ => 0
termination_by cs => cs.length
decreasing_by simp only [List.length_cons, List.length_drop]; omega

/-- The length of the digits that `cs` starts with. -/
def digitsLength (cs : List Char) : Nat :=
  (cs.takeWhile Char.isDigit).length

/-- The length of a point and digits, zero if the point has no digit behind it. -/
def fractionLength : List Char → Nat
  | '.' :: cs => if digitsLength cs = 0 then 0 else 1 + digitsLength cs
  | _ => 0

/-- The length of an exponent part, zero if it has no digit. -/
def exponentLength : List Char → Nat
  | c :: cs =>
    if c = 'e' ∨ c = 'E' then
      let sign := match cs with
        | '+' :: _ | '-' :: _ => 1
        | _ => 0
      if digitsLength (cs.drop sign) = 0 then 0 else 1 + sign + digitsLength (cs.drop sign)
    else 0
  | [] => 0

/-- The length of the unsigned number that `cs` starts with. -/
def unsignedLength (cs : List Char) : Nat :=
  let whole := digitsLength cs
  if whole = 0 then 0
  else
    let fraction := fractionLength (cs.drop whole)
    whole + fraction + exponentLength (cs.drop (whole + fraction))

/-- What a piece of the source is. -/
inductive Piece
  | blank
  | token (token : Token)
  | unknown
deriving DecidableEq

/-- The token that an undotted or dotted name is; `dot` tells whether a dot follows. -/
def nameToken (text : List Char) (dot : Bool) : Token :=
  if dot then .identifier (String.ofList text)
  else if text = ['f', 'n'] then .fnWord
  else if text = ['l', 'e', 't'] then .letWord
  else if text = ['i', 'f'] then .ifWord
  else if text = ['e', 'l', 's', 'e'] then .elseWord
  else .identifier (String.ofList text)

/-- The number that `text` reads as. -/
def numberPiece (text : List Char) : Piece :=
  match Binary64.read? text with
  | some value => .token (.number value)
  | none => .unknown

/-- The piece at the start of `c :: cs`, with the number of characters it takes from
`cs`. -/
def firstPiece (c : Char) (cs : List Char) : Nat × Piece :=
  match c with
  | '(' => (0, .token .leftParen)
  | ')' => (0, .token .rightParen)
  | '\x7b' => (0, .token .leftBrace)
  | '\x7d' => (0, .token .rightBrace)
  | ',' => (0, .token .comma)
  | ';' => (0, .token .semicolon)
  | ':' => (0, .token .colon)
  | '=' => (0, .token .equals)
  | '#' => ((cs.takeWhile (· ≠ '\n')).length, .blank)
  | '%' =>
    let n := wordLength cs
    if n = 0 then (0, .unknown) else (n, .token (.localName (String.ofList (cs.take n))))
  | '@' =>
    let n := wordLength cs
    if n = 0 then (0, .unknown) else (n, .token (.globalName (String.ofList (cs.take n))))
  | '.' =>
    let n := digitsLength cs
    if n = 0 then (0, .unknown)
    else
      let value := digitsValue (cs.take n)
      (n, if value < UInt64.size then .token (.index value) else .unknown)
  | '-' =>
    let n := unsignedLength cs
    if n = 0 then (0, .unknown) else (n, numberPiece ('-' :: cs.take n))
  | _ =>
    if isBlank c then ((cs.takeWhile isBlank).length, .blank)
    else if isWordStart c then
      let n := (cs.takeWhile isWordChar).length
      let m := n + dottedLength (cs.drop n)
      (m, .token (nameToken (c :: cs.take m) ((cs.drop m).head? = some '.')))
    else if c.isDigit then
      let n := unsignedLength (c :: cs) - 1
      (n, numberPiece (c :: cs.take n))
    else (0, .unknown)

/-- A piece with its text and its place. -/
structure Scanned where
  piece : Piece
  text : List Char
  span : Span
deriving DecidableEq

/-- The pieces of `cs`, which starts at byte `start` of the source. -/
def scanFrom (start : Nat) : List Char → List Scanned
  | [] => []
  | c :: cs =>
    let (n, piece) := firstPiece c cs
    let text := c :: cs.take n
    let stop := start + byteLength text
    ⟨piece, text, ⟨start, stop⟩⟩ :: scanFrom stop (cs.drop n)
termination_by cs => cs.length
decreasing_by simp only [List.length_cons, List.length_drop]; omega

/-- **Scanning loses nothing.**  The texts of the pieces make up the source. -/
theorem flatMap_text_scanFrom (start : Nat) (cs : List Char) :
    (scanFrom start cs).flatMap Scanned.text = cs := by
  fun_induction scanFrom start cs with
  | case1 => rfl
  | case2 start c cs n piece h text stop ih =>
    rw [List.flatMap_cons, ih]
    exact congrArg (c :: ·) (List.take_append_drop n cs)

/-- The pieces of a source text. -/
def scan (source : String) : List Scanned :=
  scanFrom 0 source.toList

/-- A part of the source that is no token. -/
structure LexicalError where
  span : Span
  message : String
deriving DecidableEq

/-- The lexeme that a piece is, if it is a token. -/
def Scanned.lexeme? (s : Scanned) : Option Lexeme :=
  match s.piece with
  | .token t => some ⟨t, s.span⟩
  | _ => none

/-- The error that a piece is, if it is neither blank nor a token. -/
def Scanned.error? (s : Scanned) : Option LexicalError :=
  match s.piece with
  | .unknown => some ⟨s.span, "unexpected character: " ++ quoted s.text⟩
  | _ => none

/-- The lexemes of a source text. -/
def lexemes (source : String) : List Lexeme :=
  (scan source).filterMap Scanned.lexeme?

/-- The lexical errors of a source text. -/
def lexicalErrors (source : String) : List LexicalError :=
  (scan source).filterMap Scanned.error?

end Syntax
end TensorLiveness
