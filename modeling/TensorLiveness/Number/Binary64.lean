/-
# Binary64 numbers

The double-precision format, exactly: a finite number is `± m · 2^e · 2^-1074` with
`m < 2^53`, and the pair `(m, e)` is the canonical one, so two finite numbers of
one sign are equal only if their fields are.

`Magnitude.nearest?` rounds a ratio of natural numbers to the nearest magnitude,
ties to the even one.
-/

namespace TensorLiveness
namespace Number

/-- The magnitude `mantissa · 2^shift · 2^-1074` of a finite number: subnormal or of
53 bits, and within range. -/
structure Magnitude where
  mantissa : Nat
  shift : Nat
  mantissa_lt : mantissa < Nat.pow 2 53
  shift_le : shift ≤ 2045
  normal : shift = 0 ∨ Nat.pow 2 52 ≤ mantissa
deriving DecidableEq

/-- A double-precision number. -/
inductive Binary64
  | finite (negative : Bool) (magnitude : Magnitude)
  | infinite (negative : Bool)
  | nan
deriving DecidableEq

namespace Magnitude

/-- The magnitude zero. -/
def zero : Magnitude := ⟨0, 0, by decide, by decide, .inl rfl⟩

/-- The magnitude with these fields, if they are canonical and in range. -/
def ofParts? (mantissa shift : Nat) : Option Magnitude :=
  if h : mantissa < Nat.pow 2 53 ∧ shift ≤ 2045 ∧ (shift = 0 ∨ Nat.pow 2 52 ≤ mantissa) then
    some ⟨mantissa, shift, h.1, h.2.1, h.2.2⟩
  else none

/-- `num / den` rounded to the nearest natural number, a half to the even one. -/
def halfEven (num den : Nat) : Nat :=
  let q := num / den
  let r := num % den
  if 2 * r < den then q else if den < 2 * r then q + 1 else q + q % 2

/-- The magnitude nearest to `num / den`, ties to the even mantissa; `none` if that is
beyond the largest finite one. -/
def nearest? (num den : Nat) : Option Magnitude :=
  let scaled := num * Nat.pow 2 1074
  let shift := (scaled / den).log2 - 52
  let m := halfEven scaled (den * Nat.pow 2 shift)
  if m = Nat.pow 2 53 then ofParts? (Nat.pow 2 52) (shift + 1) else ofParts? m shift

/-- The magnitude as a ratio of natural numbers. -/
def ratio (x : Magnitude) : Nat × Nat :=
  if 1074 ≤ x.shift then (x.mantissa * Nat.pow 2 (x.shift - 1074), 1)
  else (x.mantissa, Nat.pow 2 (1074 - x.shift))

end Magnitude

/-- Positive zero. -/
def Binary64.zero : Binary64 := .finite false .zero

end Number
end TensorLiveness
