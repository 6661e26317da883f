/-
# Decimal notation, written

A finite number is written with the fewest significant digits that read back to it;
among those, the nearest to the number; of two equally near, the larger.  The
notation is always positional, with no point after a whole number.
-/

import TensorLiveness.Number.Decimal

namespace TensorLiveness
namespace Number

/-- The number of zeros at the end of the digits of `n`. -/
def trailingZeros (n : Nat) : Nat :=
  ((Nat.toDigits 10 n).reverse.takeWhile (· = '0')).length

/-- The number `coefficient · 10^exponent` with no zero at the end of its coefficient. -/
def Decimal.trimmed (coefficient : Nat) (exponent : Int) : Decimal :=
  if coefficient = 0 then ⟨0, exponent⟩
  else
    let zeros := trailingZeros coefficient
    ⟨coefficient / Nat.pow 10 zeros, exponent + zeros⟩

namespace Magnitude

/-- The number of digits before the point of `num / den`; of a number below one, minus
the number of zeros that follow the point. -/
def leadingPlace (num den : Nat) : Int :=
  if den ≤ num then (Nat.toDigits 10 (num / den)).length
  else 1 - ((Nat.toDigits 10 ((den - 1) / num)).length : Int)

/-- The multiple of `10^place` to write for `x`: of the two beside `x`, the nearer one
that reads back. -/
def onGrid? (x : Magnitude) (place : Int) : Option Decimal :=
  let (num, den) := x.ratio
  let (num, den) :=
    if 0 ≤ place then (num, den * Nat.pow 10 place.toNat)
    else (num * Nat.pow 10 (-place).toNat, den)
  let below := Decimal.trimmed (num / den) place
  let above := Decimal.trimmed (num / den + 1) place
  if below.magnitude? = some x then
    if above.magnitude? = some x ∧ den ≤ 2 * (num % den) then some above else some below
  else if above.magnitude? = some x then some above
  else none

/-- The number in full. -/
def exactDecimal (x : Magnitude) : Decimal :=
  if 1074 ≤ x.shift then ⟨x.mantissa * Nat.pow 2 (x.shift - 1074), 0⟩
  else ⟨x.mantissa * Nat.pow 5 (1074 - x.shift), -((1074 - x.shift : Nat) : Int)⟩

/-- The decimal to write for `x`: the coarsest grid with a point that reads back. -/
def shortest (x : Magnitude) : Decimal :=
  let place := leadingPlace x.ratio.1 x.ratio.2
  ((List.range 17).findSome? fun (n : Nat) => x.onGrid? (place - (n + 1))).getD x.exactDecimal

end Magnitude

/-- Positional notation. -/
def Decimal.positional (d : Decimal) : List Char :=
  let digits := Nat.toDigits 10 d.coefficient
  if 0 ≤ d.exponent then digits ++ List.replicate d.exponent.toNat '0'
  else
    let places := (-d.exponent).toNat
    if places < digits.length then
      digits.take (digits.length - places) ++ '.' :: digits.drop (digits.length - places)
    else '0' :: '.' :: List.replicate (places - digits.length) '0' ++ digits

/-- The written form of a number. -/
def Binary64.render : Binary64 → String
  | .nan => "NaN"
  | .infinite negative => if negative then "-inf" else "inf"
  | .finite negative x =>
    let body := if x = .zero then ['0'] else x.shortest.positional
    String.ofList (if negative then '-' :: body else body)

/-- Zeros at either end of the digits are left out, a sign is kept, and no exponent is
ever written. -/
example :
    ([['1', '.', '5', '0'], ['-', '0', '.', '0'], ['1', 'e', '2', '1'], ['2', 'e', '-', '7'],
        ['9', '0', '0', '7', '1', '9', '9', '2', '5', '4', '7', '4', '0', '9', '9', '3']].map
      fun cs => (Binary64.read? cs).map Binary64.render) =
    [some "1.5", some "-0", some "1000000000000000000000", some "0.0000002",
      some "9007199254740992"] := by
  decide +kernel

/-- Two decimals of seventeen digits are equally near to `2^-25`; the larger is written. -/
example :
    (Magnitude.nearest? 1 (Nat.pow 2 25)).map (fun x => Binary64.render (.finite false x)) =
      some "0.000000029802322387695313" := by
  decide +kernel

/-- Beyond the largest finite number is infinity. -/
example : (Binary64.read? ['-', '1', 'e', '3', '0', '9']).map Binary64.render = some "-inf" := by
  decide +kernel

end Number
end TensorLiveness
