/-
# Value trees

What a handle stands for as one thing: a set of buffers, or a tuple of slots.  The store keeps it
in two tables, the flattened sets and the records of field handles; `Mirrors s x v` says that both
of them show the tree `x` at the handle `v`.

| statement | about |
| --- | --- |
| `Mirrors.unique` | a handle shows one tree only |
| `Mirrors.extends` | the tree stays the same as the store grows |
| `Mirrors.congr` | handles with one set and one record show one tree |
| `freshValue_makes` | what is minted for a type shows a tree of the type, each place a new leaf |

`Made ty x es` is the tree `x` made for the type `ty` out of the leaves `es`, from left to right.
-/

import TensorLiveness.Proofs.Identity.Store

namespace TensorLiveness
namespace Identity

open Program

/-- What a handle stands for.  A slot without a value is untracked. -/
inductive ValueTree
  | buffers (set : HandleSet)
  | tuple (slots : List (Option ValueTree))

namespace ValueTree

/-- The value without buffers. -/
def empty : ValueTree := .buffers ∅

mutual

/-- All buffers of a value. -/
def leaves : ValueTree → HandleSet
  | .buffers set => set
  | .tuple slots => leavesAll slots

/-- All buffers of the slots of a tuple. -/
def leavesAll : List (Option ValueTree) → HandleSet
  | [] => ∅
  | none :: slots => leavesAll slots
  | some x :: slots => x.leaves ∪ leavesAll slots

end

mutual

/-- The value `x` is made for the type `ty` out of the leaves `es`: one for each place of the type
that is a buffer. -/
inductive Made : Ty → ValueTree → List Handle → Prop
  | tensor (e : Handle) : Made .tensor (.buffers {e}) [e]
  | other (name : String) (e : Handle) : Made (.other name) (.buffers {e}) [e]
  | func : Made .func empty []
  | tuple {tys : List Ty} {slots : List (Option ValueTree)} {es : List Handle} :
    MadeAll tys slots es → Made (.tuple tys) (.tuple slots) es

/-- The same for the fields of a tuple. -/
inductive MadeAll : List Ty → List (Option ValueTree) → List Handle → Prop
  | nil : MadeAll [] [] []
  | cons {ty : Ty} {tys : List Ty} {x : ValueTree} {slots : List (Option ValueTree)}
    {es es' : List Handle} : Made ty x es → MadeAll tys slots es' →
    MadeAll (ty :: tys) (some x :: slots) (es ++ es')

end

mutual

/-- A value that is made has its leaves for buffers. -/
theorem Made.mem_leaves {ty : Ty} {x : ValueTree} {es : List Handle} (h : Made ty x es)
    {e : Handle} : e ∈ x.leaves ↔ e ∈ es := by
  cases h with
  | tensor d => rw [leaves, mem_singleton, List.mem_singleton]
  | other name d => rw [leaves, mem_singleton, List.mem_singleton]
  | func => exact iff_of_false Std.ExtTreeSet.not_mem_empty List.not_mem_nil
  | tuple h =>
    rw [leaves]
    exact h.mem_leavesAll

/-- The same for the fields of a tuple. -/
theorem MadeAll.mem_leavesAll {tys : List Ty} {slots : List (Option ValueTree)} {es : List Handle}
    (h : MadeAll tys slots es) {e : Handle} : e ∈ leavesAll slots ↔ e ∈ es := by
  cases h with
  | nil => exact iff_of_false Std.ExtTreeSet.not_mem_empty List.not_mem_nil
  | cons h h' =>
    rw [leavesAll, Std.ExtTreeSet.mem_union_iff, List.mem_append, h.mem_leaves, h'.mem_leavesAll]

end

end ValueTree

namespace Store

open ValueTree

mutual

/-- The store shows the value `x` at the handle `v`: the set of `v` holds the buffers of `x`, and
`v` has a record just when `x` is a tuple, whose fields show the slots. -/
inductive Mirrors (s : Store) : ValueTree → Handle → Prop
  | buffers {v : Handle} : v ∈ s.sets → s.records[v]? = none → Mirrors s (.buffers (s.setOf v)) v
  | tuple {v : Handle} {slots : List (Option ValueTree)} {fields : Fields} :
    s.setOf v = leavesAll slots → s.records[v]? = some fields → MirrorsAll s slots fields →
    Mirrors s (.tuple slots) v

/-- The fields of a tuple show its slots; untracked slots have no field. -/
inductive MirrorsAll (s : Store) : List (Option ValueTree) → Fields → Prop
  | nil : MirrorsAll s [] []
  | untracked {slots : List (Option ValueTree)} {fields : Fields} : MirrorsAll s slots fields →
    MirrorsAll s (none :: slots) (none :: fields)
  | tracked {x : ValueTree} {u : Handle} {slots : List (Option ValueTree)} {fields : Fields} :
    Mirrors s x u → MirrorsAll s slots fields → MirrorsAll s (some x :: slots) (some u :: fields)

end

section Mirrors

variable {s : Store} {x y : ValueTree} {v u e : Handle} {slots : List (Option ValueTree)}
  {fields : Fields}

/-- A handle that shows a value is bound. -/
theorem Mirrors.mem (hs : s.Sound) (h : Mirrors s x v) : v ∈ s.sets := by
  cases h with
  | buffers hv _ => exact hv
  | tuple _ hrecord _ => exact hs.recorded hrecord

/-- **The set of a handle holds the buffers of its value.** -/
theorem Mirrors.setOf_eq (h : Mirrors s x v) : s.setOf v = x.leaves := by
  cases h with
  | buffers _ _ => rw [ValueTree.leaves]
  | tuple hset _ _ => rw [ValueTree.leaves, hset]

/-- A handle with the set and the record of another shows the same value. -/
theorem Mirrors.congr (h : Mirrors s x u) (hv : v ∈ s.sets) (hset : s.setOf v = s.setOf u)
    (hrecord : s.records[v]? = s.records[u]?) : Mirrors s x v := by
  cases h with
  | buffers _ hnone => exact hset ▸ .buffers hv (hrecord.trans hnone)
  | tuple hleaves hfields hall => exact .tuple (hset.trans hleaves) (hrecord.trans hfields) hall

/-- A handle that shows a set has no record. -/
theorem Mirrors.record_eq_none {set : HandleSet} (h : Mirrors s (.buffers set) v) :
    s.records[v]? = none := by
  generalize hx : ValueTree.buffers set = x at h
  cases h with
  | buffers _ hnone => exact hnone
  | tuple _ _ _ => cases hx

/-- A handle with a record shows a tuple. -/
theorem Mirrors.exists_slots (h : Mirrors s x v) (hfields : s.records[v]? = some fields) :
    ∃ slots, x = .tuple slots ∧ MirrorsAll s slots fields := by
  cases h with
  | buffers _ hnone => cases hnone.symm.trans hfields
  | tuple _ hfields' hall =>
    obtain rfl := Option.some.inj (hfields.symm.trans hfields')
    exact ⟨_, rfl, hall⟩

mutual

/-- **A handle shows one value only.** -/
theorem Mirrors.unique {x y : ValueTree} {v : Handle} (h : Mirrors s x v) (h' : Mirrors s y v) :
    x = y := by
  cases h with
  | buffers _ hnone =>
    cases h' with
    | buffers _ _ => rfl
    | tuple _ hsome _ => cases hnone.symm.trans hsome
  | tuple _ hfields hall =>
    obtain ⟨slots, rfl, hall'⟩ := h'.exists_slots hfields
    rw [hall.unique hall']

/-- The fields of a tuple show its slots only. -/
theorem MirrorsAll.unique {slots slots' : List (Option ValueTree)} {fields : Fields}
    (h : MirrorsAll s slots fields) (h' : MirrorsAll s slots' fields) : slots = slots' := by
  cases h with
  | nil =>
    cases h'
    rfl
  | untracked h =>
    cases h' with
    | untracked h' => rw [h.unique h']
  | tracked hx h =>
    cases h' with
    | tracked hx' h' => rw [hx.unique hx', h.unique h']

end

/-- What the fields of a tuple stand for are the buffers of its slots. -/
theorem MirrorsAll.mem_leavesAll (h : MirrorsAll s slots fields) :
    e ∈ leavesAll slots ↔ ∃ u, some u ∈ fields ∧ e ∈ s.setOf u := by
  induction fields generalizing slots with
  | nil =>
    cases h
    exact iff_of_false Std.ExtTreeSet.not_mem_empty fun ⟨_, hu, _⟩ => nomatch hu
  | cons field fields ih =>
    cases h with
    | untracked h =>
      rw [leavesAll, ih h]
      simp
    | tracked hx h =>
      rw [leavesAll, Std.ExtTreeSet.mem_union_iff, ih h, ← hx.setOf_eq]
      simp

/-- A tracked field shows the value of its slot. -/
theorem MirrorsAll.tracked_at (h : MirrorsAll s slots fields) {i : Nat}
    (hi : fields[i]? = some (some u)) : ∃ x, slots[i]? = some (some x) ∧ Mirrors s x u := by
  induction i generalizing slots fields with
  | zero =>
    cases h with
    | nil => cases hi
    | untracked h => cases hi
    | tracked hx h =>
      obtain rfl := Option.some.inj (Option.some.inj hi)
      exact ⟨_, rfl, hx⟩
  | succ i ih =>
    cases h with
    | nil => cases hi
    | untracked h => exact ih h hi
    | tracked _ h => exact ih h hi

/-- An untracked field has no value in its slot. -/
theorem MirrorsAll.untracked_at (h : MirrorsAll s slots fields) {i : Nat}
    (hi : fields[i]? = some none) : slots[i]? = some none := by
  induction i generalizing slots fields with
  | zero =>
    cases h with
    | nil => cases hi
    | untracked h => rfl
    | tracked _ h => cases hi
  | succ i ih =>
    cases h with
    | nil => cases hi
    | untracked h => exact ih h hi
    | tracked _ h => exact ih h hi

/-- Fields that show values show the slots of a tuple. -/
theorem mirrorsAll_of_forall {value : Handle → ValueTree} :
    (∀ u, some u ∈ fields → Mirrors s (value u) u) →
      MirrorsAll s (fields.map (Option.map value)) fields := by
  intro h
  induction fields with
  | nil => exact .nil
  | cons field fields ih =>
    have hrest := ih fun u hu => h u (List.mem_cons_of_mem _ hu)
    cases field with
    | none => exact .untracked hrest
    | some u => exact .tracked (h u List.mem_cons_self) hrest

end Mirrors

section Growth

variable {s t : Store} {vs : List Handle}

mutual

/-- **A value stays the same as the store grows.** -/
theorem Mirrors.extends {x : ValueTree} {v : Handle} (h : Mirrors s x v) (hs : s.Sound)
    (hext : Extends vs s t) : Mirrors t x v := by
  cases h with
  | buffers hv hnone =>
    rw [← hext.setOf_eq hv]
    exact .buffers (hext.mem hv) ((hext.records hv).trans hnone)
  | tuple hset hfields hall =>
    have hv := hs.recorded hfields
    exact .tuple ((hext.setOf_eq hv).trans hset) ((hext.records hv).trans hfields)
      (hall.extends hs hext)

/-- The same for the slots of a tuple. -/
theorem MirrorsAll.extends {slots : List (Option ValueTree)} {fields : Fields}
    (h : MirrorsAll s slots fields) (hs : s.Sound) (hext : Extends vs s t) :
    MirrorsAll t slots fields := by
  cases h with
  | nil => exact .nil
  | untracked h => exact .untracked (h.extends hs hext)
  | tracked hx h => exact .tracked (hx.extends hs hext) (h.extends hs hext)

end

end Growth

/-! ### Values of a type -/

/-- The handles `es` ascend and were minted on the way from `s` to `t`. -/
structure MintedBetween (s t : Store) (es : List Handle) : Prop where
  ascending : es.Pairwise (· < ·)
  next_le {e : Handle} : e ∈ es → s.supply.next ≤ e
  lt_next {e : Handle} : e ∈ es → e < t.supply.next

namespace MintedBetween

variable {s t r : Store} {es es' : List Handle}

theorem nil (s t : Store) : MintedBetween s t [] :=
  ⟨.nil, fun h => absurd h List.not_mem_nil, fun h => absurd h List.not_mem_nil⟩

theorem single {e : Handle} (hle : s.supply.next ≤ e) (hlt : e < t.supply.next) :
    MintedBetween s t [e] :=
  ⟨List.pairwise_singleton _ _, fun h => List.mem_singleton.1 h ▸ hle,
    fun h => List.mem_singleton.1 h ▸ hlt⟩

theorem append (h : MintedBetween s t es) (h' : MintedBetween t r es')
    (hst : s.supply.next ≤ t.supply.next) (htr : t.supply.next ≤ r.supply.next) :
    MintedBetween s r (es ++ es') := by
  refine ⟨List.pairwise_append.2 ⟨h.ascending, h'.ascending, fun d hd e he => ?_⟩,
    fun he => ?_, fun he => ?_⟩
  · exact Nat.lt_of_lt_of_le (h.lt_next hd) (h'.next_le he)
  · exact (List.mem_append.1 he).elim h.next_le fun he => Nat.le_trans hst (h'.next_le he)
  · exact (List.mem_append.1 he).elim (fun he => Nat.lt_of_lt_of_le (h.lt_next he) htr) h'.lt_next

theorem mono (h : MintedBetween s t es) (htr : t.supply.next ≤ r.supply.next) :
    MintedBetween s r es :=
  ⟨h.ascending, h.next_le, fun he => Nat.lt_of_lt_of_le (h.lt_next he) htr⟩

end MintedBetween

/-- A minted leaf is a value of its own. -/
theorem Mints.mirrors {s t : Store} {v : Handle} {set : HandleSet} (h : Mints s t v set) :
    Mirrors t (.buffers set) v := h.setOf_eq ▸ .buffers h.mem h.record

theorem Mints.mintedBetween {s t : Store} {v : Handle} {set : HandleSet} (h : Mints s t v set) :
    MintedBetween s t [v] := .single h.next_le (h.grows.sound.lt_next h.mem)

/-- **A handle for what fields stand for, recorded as a tuple of them,** shows their values as a
tuple. -/
theorem mirrors_recordFields {s t : Store} {vs : List Handle} (hs : s.Sound)
    (hext : Extends vs s t) {v : Handle} (hv : v ∉ s.sets) (hmem : v ∈ t.sets)
    {slots : List (Option ValueTree)} {fields : Fields}
    (hset : ∀ e, e ∈ t.setOf v ↔ ∃ u, some u ∈ fields ∧ e ∈ s.setOf u)
    (hbound : ∀ u, some u ∈ fields → u ∈ s.sets) (hall : MirrorsAll s slots fields) :
    Mirrors (t.recordFields v fields) (.tuple slots) v := by
  obtain ⟨hext', hrecord⟩ := recordFields_spec hext hv hmem fields fun u hu => by
    refine ⟨hext.mem (hbound u hu), fun e he => (hset e).2 ⟨u, hu, ?_⟩⟩
    rwa [hext.setOf_eq (hbound u hu)] at he
  refine .tuple ?_ hrecord (hall.extends hs hext')
  have hsame : (t.recordFields v fields).setOf v = t.setOf v := rfl
  rw [hsame]
  ext e
  rw [hset, hall.mem_leavesAll]

mutual

/-- **What is minted for a type is a value made for it.** -/
theorem freshValue_makes : ∀ (ty : Ty) {s : Store} (hint : String), s.Sound → ∃ x es,
    Made ty x es ∧ MintedBetween s (s.freshValue hint ty).2 es ∧
      Mirrors (s.freshValue hint ty).2 x (s.freshValue hint ty).1
  | .tensor, s, hint, hs => by
    have hmint := mints_freshLeaf hs hint
    rw [freshValue]
    exact ⟨_, _, .tensor _, hmint.mintedBetween, hmint.mirrors⟩
  | .other name, s, hint, hs => by
    have hmint := mints_freshLeaf hs hint
    rw [freshValue]
    exact ⟨_, _, .other name _, hmint.mintedBetween, hmint.mirrors⟩
  | .func, s, hint, hs => by
    have hmint := mints_freshEmpty hs hint
    rw [freshValue]
    exact ⟨_, _, .func, .nil _ _, hmint.mirrors⟩
  | .tuple tys, s, hint, hs => by
    obtain ⟨hgrow, hfields⟩ := freshValues_spec tys hint 0 hs
    obtain ⟨slots, es, hmade, hminted, hall⟩ := freshValues_makes tys hint 0 hs
    rcases hvalues : s.freshValues hint 0 tys with ⟨vs, t⟩
    rw [hvalues] at hgrow hfields hminted hall
    simp only [freshValue, hvalues]
    have hmint := mints_freshSet hgrow.sound "merge" (t.unionOfBound vs) fun e he => by
      obtain ⟨u, _, he⟩ := mem_unionOfBound.1 he
      exact hgrow.sound.leaf he
    have hsome : ∀ u, some u ∈ vs.map some ↔ u ∈ vs := fun u => by simp
    have hnew : (t.freshSet "merge" (t.unionOfBound vs)).1 ∉ t.sets := fun hmem =>
      Nat.not_lt.2 hmint.next_le (hgrow.sound.lt_next hmem)
    refine ⟨.tuple slots, es, .tuple hmade, hminted.mono hmint.grows.next_le,
      mirrors_recordFields hgrow.sound hmint.grows hnew hmint.mem (fun e => ?_) (fun u hu => ?_)
        hall⟩
    · rw [hmint.setOf_eq]
      simp only [mem_unionOfBound, hsome]
    · exact (hfields u ((hsome u).1 hu)).1

/-- The same for the fields of a tuple. -/
theorem freshValues_makes : ∀ (tys : List Ty) {s : Store} (hint : String) (i : Nat), s.Sound →
    ∃ slots es, MadeAll tys slots es ∧ MintedBetween s (s.freshValues hint i tys).2 es ∧
      MirrorsAll (s.freshValues hint i tys).2 slots ((s.freshValues hint i tys).1.map some)
  | [], s, _, _, _ => ⟨[], [], .nil, .nil _ _, .nil⟩
  | ty :: tys, s, hint, i, hs => by
    obtain ⟨hgrow, _⟩ := freshValue_spec ty (hint ++ "." ++ toString i) hs
    obtain ⟨hgrow', _⟩ := freshValues_spec tys hint (i + 1) hgrow.sound
    obtain ⟨x, es, hmade, hminted, hx⟩ := freshValue_makes ty (hint ++ "." ++ toString i) hs
    obtain ⟨slots, es', hmade', hminted', hall⟩ := freshValues_makes tys hint (i + 1) hgrow.sound
    rw [freshValues]
    exact ⟨some x :: slots, es ++ es', .cons hmade hmade',
      hminted.append hminted' hgrow.next_le hgrow'.next_le,
      .tracked (hx.extends hgrow.sound hgrow') hall⟩

end

end Store

end Identity
end TensorLiveness
