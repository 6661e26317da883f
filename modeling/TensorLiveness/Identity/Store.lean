/-
# Identity sets

Which buffers a handle stands for.  A buffer has an identity: a minted handle whose set
is just itself (a leaf).  Other handles have the sets of what they alias, hold or
unite.  A handle that stands for a tuple also has a record of its fields, where a
field without a buffer is untracked.

| operation | set of the handle it mints |
| --- | --- |
| `freshLeaf` | itself |
| `freshEmpty` | empty |
| `freshSet` | the given set |
| `freshUnion` | the union of the given handles' sets |
| `freshDifference` | the set of the first handle without that of the second |
| `freshValue` | one leaf for each buffer of a type |

Minted handles follow the handles of the program, each the one after the last.  An
operation that meets an unbound handle fails before it mints anything.
-/

import Std.Data.ExtTreeMap
import Std.Data.ExtTreeSet
import TensorLiveness.Identity.Fault

namespace TensorLiveness
namespace Identity

open Program

/-- A set of handles: of identities, or of program points. -/
abbrev HandleSet := Std.ExtTreeSet Handle

/-- The fields of a tuple; `none` for a field without a buffer. -/
abbrev Fields := List (Option Handle)

/-- Which buffers the handles stand for.  The handles below `firstMinted` belong to the
program. -/
structure Store where
  firstMinted : Handle
  supply : HandleSupply
  hints : Std.ExtTreeMap Handle String
  sets : Std.ExtTreeMap Handle HandleSet
  records : Std.ExtTreeMap Handle Fields

namespace Store

/-- The store in which none of the `programSize` handles of a program is bound. -/
def empty (programSize : Nat) : Store := ⟨programSize, .startingAt programSize, ∅, ∅, ∅⟩

/-- Whether a handle is none of the program's. -/
def isMinted (s : Store) (v : Handle) : Bool := s.firstMinted ≤ v

/-- Whether a handle has a set. -/
def binds (s : Store) (v : Handle) : Bool := s.sets.contains v

/-- The set of a handle. -/
def identities (s : Store) (v : Handle) : Except Fault HandleSet :=
  match s.sets[v]? with
  | some set => .ok set
  | none => .error (.unbound v)

/-- The fields of a tuple. -/
def fields? (s : Store) (v : Handle) : Option Fields := s.records[v]?

/-- Record the fields of a tuple. -/
def recordFields (s : Store) (v : Handle) (fields : Fields) : Store :=
  { s with records := s.records.insert v fields }

/-- Mint a handle with the set that `set` makes of it. -/
def mint (s : Store) (hint : String) (set : Handle → HandleSet) : Handle × Store :=
  let (v, supply) := s.supply.alloc
  (v, { s with
    supply := supply
    hints := s.hints.insert v hint
    sets := s.sets.insert v (set v) })

/-- Mint a leaf. -/
def freshLeaf (s : Store) (hint : String) : Handle × Store := s.mint hint fun v => {v}

/-- Mint a handle that stands for no buffer. -/
def freshEmpty (s : Store) (hint : String) : Handle × Store := s.mint hint fun _ => ∅

/-- Mint a handle with a set of its own. -/
def freshSet (s : Store) (hint : String) (set : HandleSet) : Handle × Store :=
  s.mint hint fun _ => set

/-- The union of the sets of tracked fields; the first unbound one is a fault. -/
def union (s : Store) : Fields → Except Fault HandleSet
  | [] => .ok ∅
  | none :: rest => s.union rest
  | some v :: rest => do
    let set ← s.identities v
    let others ← s.union rest
    .ok (set ∪ others)

/-- Mint the union of tracked fields. -/
def freshUnion (s : Store) (fields : Fields) : Except Fault (Handle × Store) := do
  let set ← s.union fields
  .ok (s.freshSet "merge" set)

/-- Mint the union of handles. -/
def freshUnionOf (s : Store) (vs : List Handle) : Except Fault (Handle × Store) :=
  s.freshUnion (vs.map some)

/-- Mint what `a` stands for and `b` does not. -/
def freshDifference (s : Store) (a b : Handle) : Except Fault (Handle × Store) := do
  let removed ← s.identities b
  let set ← s.identities a
  .ok (s.freshSet "remove" (set \ removed))

/-- Let `v` stand for what `d` stands for, as a tuple too, unless `v` is bound already. -/
def bindLike (s : Store) (v d : Handle) : Except Fault Store :=
  if s.binds v then .ok s
  else do
    let set ← s.identities d
    let records := match s.records[d]? with
      | some fields => s.records.insert v fields
      | none => s.records
    .ok { s with sets := s.sets.insert v set, records := records }

/-- The union of the sets of handles that are bound. -/
def unionOfBound (s : Store) (vs : List Handle) : HandleSet :=
  vs.foldr (fun v set => (s.sets[v]?).getD ∅ ∪ set) ∅

mutual

/-- Mint what a value of type `ty` stands for: a leaf for a buffer, nothing for a function,
and for a tuple its fields and their union.  Fields are named after their place. -/
def freshValue (s : Store) (hint : String) : Ty → Handle × Store
  | .tensor | .other _ => s.freshLeaf hint
  | .func => s.freshEmpty hint
  | .tuple fields =>
    let (vs, s) := freshValues s hint 0 fields
    let (v, s) := s.freshSet "merge" (s.unionOfBound vs)
    (v, s.recordFields v (vs.map some))

/-- Mint the fields of a tuple from the field number `i` on. -/
def freshValues (s : Store) (hint : String) (i : Nat) : List Ty → List Handle × Store
  | [] => ([], s)
  | ty :: tys =>
    let (v, s) := freshValue s (hint ++ "." ++ toString i) ty
    let (vs, s) := freshValues s hint (i + 1) tys
    (v :: vs, s)

end

/-- Whether a handle stands for itself alone. -/
def isLeaf (s : Store) (v : Handle) : Bool := s.sets[v]? = some {v}

/-- Every bound handle with its set, in increasing order. -/
def entries (s : Store) : List (Handle × HandleSet) := s.sets.toList

/-- The leaves, in increasing order. -/
def leaves (s : Store) : List Handle :=
  (s.entries.filter fun e => e.2 = {e.1}).map (·.1)

/-- A handle as text: `%x` for a binder, `$hint` for a leaf, `~hint#n` for any other minted
handle. -/
def nameOf (s : Store) (vars : BinderTable) (v : Handle) : String :=
  if s.isMinted v then
    match s.hints[v]? with
    | some hint => if s.isLeaf v then "$" ++ hint else "~" ++ hint ++ "#" ++ toString v
    | none => Handle.display v
  else vars.display v

end Store

end Identity
end TensorLiveness
