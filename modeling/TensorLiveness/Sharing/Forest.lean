/-
# Disjoint sets

A partition of keys into classes, kept as a forest: each key has a parent, and the key
that is its own parent represents its class.  Looking a key up hangs every key on the
way directly below the root.  Of two roots that are joined, the one of lower rank
goes below the other; of two of equal rank, the second below the first.
-/

import Std.Data.ExtTreeMap

namespace TensorLiveness
namespace Sharing

/-- A forest over ordered keys. -/
structure Forest (κ : Type) [Ord κ] where
  parent : Std.ExtTreeMap κ κ
  rank : Std.ExtTreeMap κ Nat

namespace Forest

variable {κ : Type} [Ord κ]

/-- The forest without keys. -/
def empty : Forest κ := ⟨∅, ∅⟩

/-- The number of keys. -/
def size (f : Forest κ) : Nat := f.parent.size

variable [Std.TransOrd κ]

/-- Whether `k` is a key. -/
def contains (f : Forest κ) (k : κ) : Bool := f.parent.contains k

/-- Add `k` as a class of its own, unless it is a key already. -/
def insert (f : Forest κ) (k : κ) : Forest κ :=
  ⟨f.parent.insertIfNew k k, f.rank.insertIfNew k 0⟩

variable [DecidableEq κ]

/-- The key at which a walk of at most `steps` steps towards the root ends. -/
def climb (f : Forest κ) : Nat → κ → κ
  | 0, k => k
  | steps + 1, k =>
    match f.parent[k]? with
    | some p => if p = k then k else f.climb steps p
    | none => k

/-- The root above `k`.  No walk takes more steps than there are keys. -/
def root? (f : Forest κ) (k : κ) : Option κ :=
  if f.contains k then some (f.climb f.size k) else none

/-- Hang the keys from `k` up to `root` directly below `root`. -/
def compress (f : Forest κ) (root : κ) : Nat → κ → Forest κ
  | 0, _ => f
  | steps + 1, k =>
    if k = root then f
    else match f.parent[k]? with
      | some p => compress { f with parent := f.parent.insert k root } root steps p
      | none => f

/-- The root above `k`, with the way to it shortened. -/
def find (f : Forest κ) (k : κ) : Option κ × Forest κ :=
  match f.root? k with
  | some root => (some root, f.compress root f.size k)
  | none => (none, f)

/-- Put one root below another. -/
def link (f : Forest κ) (root child : κ) : Forest κ :=
  { f with parent := f.parent.insert child root }

/-- Join the classes of `a` and `b`.  The answer is the root of the joined class. -/
def union (f : Forest κ) (a b : κ) : Option κ × Forest κ :=
  match f.find a with
  | (none, f) => (none, f)
  | (some ra, f) =>
    match f.find b with
    | (none, f) => (none, f)
    | (some rb, f) =>
      if ra = rb then (some ra, f)
      else
        let rankA := (f.rank[ra]?).getD 0
        let rankB := (f.rank[rb]?).getD 0
        if rankA < rankB then (some rb, f.link rb ra)
        else if rankA = rankB then
          (some ra, { f.link ra rb with rank := f.rank.insert ra (rankA + 1) })
        else (some ra, f.link ra rb)

/-- Every key with the root above it, in increasing order. -/
def roots (f : Forest κ) : List (κ × κ) :=
  f.parent.keys.filterMap fun k => (f.root? k).map (k, ·)

/-- The classes, each in increasing order, by their smallest members. -/
def classes (f : Forest κ) : List (List κ) :=
  (f.roots.map (·.2)).eraseDups.map fun root =>
    (f.roots.filter (·.2 = root)).map (·.1)

end Forest

end Sharing
end TensorLiveness
