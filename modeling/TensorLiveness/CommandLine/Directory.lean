/-
# A run among files

A run reads its source from a directory and may leave its text there.  The directory is a
value, so a run in it is a function.
-/

import TensorLiveness.CommandLine.Path
import TensorLiveness.CommandLine.Response

namespace TensorLiveness
namespace CommandLine

/-- The text that bytes encode. -/
def decodeText (bytes : ByteArray) : Except FileError String :=
  match String.fromUTF8? bytes with
  | some s => .ok s
  | none => .error .notUtf8

/-- The files around a run.  There are no directories but those above it. -/
structure Directory where
  files : List (Location × ByteArray)

namespace Directory

/-- The directory without files. -/
def empty : Directory := ⟨[]⟩

/-- The directory with one file in it. -/
def ofFile (name : String) (bytes : ByteArray) : Directory := ⟨[(⟨.here, name⟩, bytes)]⟩

/-- The directory that a part of a path leads to. -/
def enter (d : Directory) (place : Place) (part : String) : Except FileError Place :=
  if part = "." then .ok place
  else if part = ".." then .ok place.parent
  else do
    checkName part
    match d.files.lookup ⟨place, part⟩ with
    | some _ => .error .notADirectory
    | none => .error .notFound

/-- The file that a path names, and whether it has to be a directory. -/
def locate (d : Directory) (text : String) : Except FileError (Location × Bool) := do
  let path ← Path.read text
  let place ← path.parts.dropLast.foldlM d.enter path.start
  match path.parts.getLast? with
  | none | some "." | some ".." => .error .isDirectory
  | some name => .ok (⟨place, name⟩, path.slashed)

/-- The bytes of a file. -/
def read (d : Directory) (path : String) : Except FileError ByteArray := do
  let (file, slashed) ← d.locate path
  checkName file.name
  match d.files.lookup file with
  | some bytes => if slashed then .error .notADirectory else .ok bytes
  | none => .error .notFound

/-- The directory with a file written anew.  A slash behind the name asks for a directory,
whatever is there. -/
def write (d : Directory) (path text : String) : Except FileError Directory := do
  let (file, slashed) ← d.locate path
  if slashed then .error .isDirectory
  else do
    checkName file.name
    .ok ⟨(file, text.toUTF8) :: d.files.filter (·.1 ≠ file)⟩

/-- A file leads nowhere, even back to itself. -/
example : (ofFile "a" .empty).enter .here "a" = .error .notADirectory := by cbv

end Directory

/-- A finished run: its exit code, what it wrote to the two streams, and the files. -/
structure Finished where
  exitCode : Nat
  output : String
  messages : List String
  directory : Directory

/-- Run in a directory. -/
def runIn (d : Directory) (inv : Invocation) : Finished :=
  let r := respond inv (d.read inv.source >>= decodeText)
  match r.text, inv.output with
  | none, _ => ⟨r.exitCode, "", r.messages, d⟩
  | some text, none => ⟨r.exitCode, text, r.messages, d⟩
  | some text, some path =>
    match d.write path text with
    | .ok d => ⟨r.exitCode, "", r.messages, d⟩
    | .error e =>
      let r := r.afterWriteError path e
      ⟨r.exitCode, "", r.messages, d⟩

end CommandLine
end TensorLiveness
