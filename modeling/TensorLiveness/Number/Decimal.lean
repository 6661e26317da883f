/-
# Decimal notation, read

A decimal is a natural coefficient times a power of ten.  `Decimal.read?` takes the
plain notation: digits with an optional point and an optional exponent.
`Binary64.read?` adds a sign and the words `inf`, `infinity` and `nan`, and rounds to
the nearest double-precision number.
-/

import TensorLiveness.Number.Binary64

namespace TensorLiveness
namespace Number

/-- The number `coefficient · 10^exponent`. -/
structure Decimal where
  coefficient : Nat
  exponent : Int
deriving DecidableEq

/-- The value of a string of decimal digits. -/
def digitsValue (cs : List Char) : Nat :=
  cs.foldl (fun n c => 10 * n + (c.toNat - '0'.toNat)) 0

namespace Decimal

/-- The number as a ratio of natural numbers. -/
def ratio (d : Decimal) : Nat × Nat :=
  if 0 ≤ d.exponent then (d.coefficient * Nat.pow 10 d.exponent.toNat, 1)
  else (d.coefficient, Nat.pow 10 (-d.exponent).toNat)

/-- An exponent part, or nothing at all. -/
def readExponent? : List Char → Option Int
  | [] => some 0
  | c :: cs =>
    if c = 'e' ∨ c = 'E' then
      let (negative, ds) := match cs with
        | '-' :: ds => (true, ds)
        | '+' :: ds => (false, ds)
        | ds => (false, ds)
      if ds ≠ [] ∧ ds.all Char.isDigit then
        some (if negative then -(digitsValue ds : Int) else digitsValue ds)
      else none
    else none

/-- Digits, optionally with a point among or beside them, and an optional exponent. -/
def read? (cs : List Char) : Option Decimal :=
  let whole := cs.takeWhile Char.isDigit
  let rest := cs.dropWhile Char.isDigit
  let (fraction, tail) := match rest with
    | '.' :: more => (more.takeWhile Char.isDigit, more.dropWhile Char.isDigit)
    | _ => ([], rest)
  if whole ++ fraction = [] then none
  else (readExponent? tail).map fun e =>
    ⟨digitsValue (whole ++ fraction), e - fraction.length⟩

/-- The nearest magnitude.  A number with its leading digit beyond the 2000th place on
either side of the point is out of range without any arithmetic. -/
def magnitude? (d : Decimal) : Option Magnitude :=
  let leading : Int := (Nat.toDigits 10 d.coefficient).length + d.exponent
  if d.coefficient = 0 ∨ leading < -2000 then some .zero
  else if 2000 < leading then none
  else Magnitude.nearest? d.ratio.1 d.ratio.2

end Decimal

namespace Binary64

/-- The nearest double-precision number, infinite beyond the largest finite one. -/
def ofDecimal (negative : Bool) (d : Decimal) : Binary64 :=
  match d.magnitude? with
  | some m => .finite negative m
  | none => .infinite negative

/-- A number as it may be written: an optional sign, then a decimal or one of the words
`inf`, `infinity` and `nan` in any case. -/
def read? (cs : List Char) : Option Binary64 :=
  let (negative, body) := match cs with
    | '-' :: body => (true, body)
    | '+' :: body => (false, body)
    | body => (false, body)
  let word := body.map Char.toLower
  if word = ['i', 'n', 'f'] ∨ word = ['i', 'n', 'f', 'i', 'n', 'i', 't', 'y'] then
    some (.infinite negative)
  else if word = ['n', 'a', 'n'] then some .nan
  else (Decimal.read? body).map (ofDecimal negative)

end Binary64

end Number
end TensorLiveness
