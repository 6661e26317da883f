/-
# JSON documents

Documents with ordered fields and natural numbers, written in two ways: compactly, or
with every item and field on a line of its own.
-/

namespace TensorLiveness
namespace Report

/-- A document. -/
inductive Json
  | null
  | number (n : Nat)
  | text (s : String)
  | list (items : List Json)
  | object (fields : List (String × Json))

namespace Json

/-- A text or nothing. -/
def textOrNull : Option String → Json
  | some s => .text s
  | none => .null

/-- A list of texts. -/
def texts (ss : List String) : Json := .list (ss.map .text)

/-- Hexadecimal digits, four of them. -/
def hex4 (n : Nat) : List Char :=
  [Nat.digitChar (n / 4096 % 16), Nat.digitChar (n / 256 % 16), Nat.digitChar (n / 16 % 16),
    Nat.digitChar (n % 16)]

/-- One character of a text.  Only quotes, backslashes and control characters are
escaped. -/
def escapedChar (c : Char) : List Char :=
  match c with
  | '"' => ['\\', '"']
  | '\\' => ['\\', '\\']
  | '\x08' => ['\\', 'b']
  | '\t' => ['\\', 't']
  | '\n' => ['\\', 'n']
  | '\x0c' => ['\\', 'f']
  | '\r' => ['\\', 'r']
  | _ => if c.toNat < 0x20 then ['\\', 'u'] ++ hex4 c.toNat else [c]

/-- A text between quotes. -/
def escaped (s : String) : String :=
  String.ofList (['"'] ++ s.toList.flatMap escapedChar ++ ['"'])

mutual

/-- A document without any space. -/
def compact : Json → String
  | .null => "null"
  | .number n => toString n
  | .text s => escaped s
  | .list items => "[" ++ ",".intercalate (compactItems items) ++ "]"
  | .object fields => "\x7b" ++ ",".intercalate (compactFields fields) ++ "\x7d"

/-- The items of a list. -/
def compactItems : List Json → List String
  | [] => []
  | j :: js => j.compact :: compactItems js

/-- The fields of an object. -/
def compactFields : List (String × Json) → List String
  | [] => []
  | (name, j) :: fields => (escaped name ++ ":" ++ j.compact) :: compactFields fields

end

/-- Entries between brackets, each on a line of its own. -/
def bracketed (depth : Nat) (left right : String) (entries : List String) : String :=
  let line (n : Nat) : String := "\n" ++ String.ofList (List.replicate (2 * n) ' ')
  match entries with
  | [] => left ++ right
  | _ =>
    left ++ line (depth + 1) ++ ("," ++ line (depth + 1)).intercalate entries ++ line depth ++
      right

mutual

/-- A document with its parts on indented lines. -/
def pretty (depth : Nat) : Json → String
  | .null => "null"
  | .number n => toString n
  | .text s => escaped s
  | .list items => bracketed depth "[" "]" (prettyItems (depth + 1) items)
  | .object fields => bracketed depth "\x7b" "\x7d" (prettyFields (depth + 1) fields)

/-- The items of a list. -/
def prettyItems (depth : Nat) : List Json → List String
  | [] => []
  | j :: js => j.pretty depth :: prettyItems depth js

/-- The fields of an object. -/
def prettyFields (depth : Nat) : List (String × Json) → List String
  | [] => []
  | (name, j) :: fields => (escaped name ++ ": " ++ j.pretty depth) :: prettyFields depth fields

end

end Json

end Report
end TensorLiveness
