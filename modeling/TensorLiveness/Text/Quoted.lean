/-
# Quoted text

How a piece of the source is shown inside a message: between double quotes, with
the usual escapes for quotes, backslashes, tabs and line ends, and by code point
whatever would be invisible or would attach to the character before it.
-/

import TensorLiveness.Text.DefaultIgnorable
import TensorLiveness.Text.GraphemeExtend
import TensorLiveness.Text.Unprintable

namespace TensorLiveness
namespace Text

/-- Whether `n` lies in one of the closed ranges. -/
def inRanges (ranges : List (Nat × Nat)) (n : Nat) : Bool :=
  ranges.any fun r => r.1 ≤ n && n ≤ r.2

/-- The halfwidth sound marks of Katakana.  They extend a grapheme, but they are letters
with a width of their own. -/
def halfwidthSoundMarkRanges : List (Nat × Nat) := [(0xFF9E, 0xFF9F)]

/-- Whether a character would attach to the one before it. -/
def attaches (c : Char) : Bool :=
  inRanges graphemeExtendRanges c.toNat && !inRanges halfwidthSoundMarkRanges c.toNat

/-- A character is shown as itself if it has a printed form of its own. -/
def isShown (c : Char) : Bool :=
  !attaches c && !inRanges unprintableRanges c.toNat && !inRanges defaultIgnorableRanges c.toNat

/-- One character of a quotation. -/
def quotedChar (c : Char) : List Char :=
  match c with
  | '"' => ['\\', '"']
  | '\\' => ['\\', '\\']
  | '\t' => ['\\', 't']
  | '\r' => ['\\', 'r']
  | '\n' => ['\\', 'n']
  | '\x00' => ['\\', '0']
  | _ =>
    if isShown c then [c]
    else ['\\', 'u', '\x7b'] ++ Nat.toDigits 16 c.toNat ++ ['\x7d']

/-- `cs` between double quotes. -/
def quoted (cs : List Char) : String :=
  String.ofList (['"'] ++ cs.flatMap quotedChar ++ ['"'])

/-- A quote gets a backslash, a control character its number, a letter stands as it is. -/
example : quoted ['a', '"', '\x7f', 'é'] = "\"a\\\"\\u\x7b7f\x7dé\"" := by
  decide +kernel

/-- A filler of the Hangul script is written by number, a halfwidth sound mark is not. -/
example : quoted ['\u3164', '\uff9e'] = "\"\\u\x7b3164\x7d\uff9e\"" := by
  decide +kernel

end Text
end TensorLiveness
