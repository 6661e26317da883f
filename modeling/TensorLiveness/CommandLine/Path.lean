/-
# Paths

A path goes part by part from one directory to the next, and its last part names the file.
A step to `..` goes up and one to `.` stays.  Of the directories around a run only
those above it are known.
-/

import TensorLiveness.CommandLine.FileError
import TensorLiveness.Text.Span

namespace TensorLiveness
namespace CommandLine

open Text

/-- A place that holds files: the directory of the run, the one so many steps above it, or
the topmost one. -/
inductive Place
  | here
  | above (steps : Nat)
  | top
deriving DecidableEq

/-- The place that holds a place.  The topmost one holds itself. -/
def Place.parent : Place → Place
  | .here => .above 1
  | .above steps => .above (steps + 1)
  | .top => .top

/-- A file by its place and its name. -/
structure Location where
  place : Place
  name : String
deriving DecidableEq

/-- A path, taken apart: where it starts, its parts, and whether a slash ends it. -/
structure Path where
  start : Place
  parts : List String
  slashed : Bool
deriving DecidableEq

/-- The parts of a path of which `part` has been read.  Between two slashes in a row there
is none. -/
def partsFrom (part : List Char) : List Char → List String
  | [] => if part = [] then [] else [String.ofList part]
  | '/' :: cs => (if part = [] then [] else [String.ofList part]) ++ partsFrom [] cs
  | c :: cs => partsFrom (part ++ [c]) cs

/-- Take a path apart.  It has at most 4095 bytes, and at least one. -/
def Path.read (text : String) : Except FileError Path :=
  let cs := text.toList
  if cs = [] then .error .notFound
  else if 4095 < byteLength cs then .error .nameTooLong
  else .ok ⟨if cs.head? = some '/' then .top else .here, partsFrom [] cs,
    cs.getLast? = some '/'⟩

/-- A name has at most 255 bytes. -/
def checkName (name : String) : Except FileError Unit :=
  if 255 < byteLength name.toList then .error .nameTooLong else .ok ()

/-- Slashes in a row count as one. -/
example : partsFrom [] ".//a/../b/".toList = [".", "a", "..", "b"] := by decide +kernel

end CommandLine
end TensorLiveness
