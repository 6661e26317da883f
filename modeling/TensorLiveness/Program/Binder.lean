/-
# Handles and binders

A handle is a number that stands for a binder of the program or, from the size of the
program on, for something an analysis made up.  The table lists the binders of a
program in the order of their allocation, so a binder's handle is its place there.
-/

import TensorLiveness.Program.Ty
import TensorLiveness.Text.Span

namespace TensorLiveness
namespace Program

open Text

/-- The number of a binder or of a made-up identity. -/
abbrev Handle := Nat

/-- A handle without a name. -/
def Handle.display (h : Handle) : String := "v" ++ toString h

/-- The 32-bit word by which other programs know a handle: its low 32 bits. -/
def Handle.word (h : Handle) : Nat := h % Nat.pow 2 32

/-- A source of handles, each the one after the last. -/
structure HandleSupply where
  next : Handle
deriving DecidableEq

/-- A supply that goes on after `count` handles. -/
def HandleSupply.startingAt (count : Nat) : HandleSupply := ⟨count⟩

/-- The next handle. -/
def HandleSupply.alloc (s : HandleSupply) : Handle × HandleSupply := (s.next, ⟨s.next + 1⟩)

/-- Below `2^32` a handle is its own word. -/
theorem Handle.word_of_lt {h : Handle} (lt : h < Nat.pow 2 32) : Handle.word h = h :=
  Nat.mod_eq_of_lt lt

/-- What is recorded of a binder. -/
structure Binder where
  name : String
  ty : Ty
  span : Span

/-- The binders of a program by handle. -/
structure BinderTable where
  entries : Array Binder

namespace BinderTable

/-- The table without binders. -/
def empty : BinderTable := ⟨#[]⟩

/-- The number of binders. -/
def size (t : BinderTable) : Nat := t.entries.size

/-- The table with one binder more, and its handle. -/
def fresh (t : BinderTable) (binder : Binder) : Handle × BinderTable :=
  (t.size, ⟨t.entries.push binder⟩)

/-- The name of a binder. -/
def name? (t : BinderTable) (h : Handle) : Option String := t.entries[h]?.map (·.name)

/-- The type of a binder. -/
def ty? (t : BinderTable) (h : Handle) : Option Ty := t.entries[h]?.map (·.ty)

/-- The span of a binder. -/
def span? (t : BinderTable) (h : Handle) : Option Span := t.entries[h]?.map (·.span)

/-- The first binder of this name. -/
def lookup? (t : BinderTable) (name : String) : Option Handle :=
  t.entries.findIdx? fun binder => binder.name = name

/-- A binder as it is written; a number if there is no such binder. -/
def display (t : BinderTable) (h : Handle) : String :=
  match t.name? h with
  | some name => "%" ++ name
  | none => Handle.display h

end BinderTable

end Program
end TensorLiveness
