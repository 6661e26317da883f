/-
# Stores under other handles

`Store.Renumbers ρ s t` says that the store `t` has for the handle `ρ v` what `s` has for `v`, and
that the next handles of the two correspond.  Every operation keeps this up, and it fails in `s`
exactly if it fails in `t` (`Lockstep`).

| operation | lemma |
| --- | --- |
| `mint`, `freshEmpty`, `freshSet` | `Renumbers.mint` |
| `freshUnion`, `freshUnionOf` | `Renumbers.freshUnion`, `Renumbers.freshUnionOf` |
| `freshValue` | `Renumbers.freshValue` |
| `bindLike` | `Renumbers.bindLike` |
| `recordFields` | `Renumbers.recordFields` |

Handles of `t` that are no `ρ v` may be bound as well, but they stand for nothing.  What hints the
minted handles have makes no difference.
-/

import Mathlib.Data.List.Basic
import Mathlib.Order.Basic
import TensorLiveness.Proofs.Identity.Store

namespace TensorLiveness
namespace Identity

open Program

variable {ρ : Handle → Handle}

/-! ### Two computations at a time -/

section Lockstep

variable {α α' β β' : Type}

/-- Both computations come to values that `P` relates, or to faults that `F` relates. -/
inductive Lockstep (F : Fault → Fault → Prop) (P : α → α' → Prop) :
    Except Fault α → Except Fault α' → Prop
  | ok {a : α} {a' : α'} : P a a' → Lockstep F P (.ok a) (.ok a')
  | error {e e' : Fault} : F e e' → Lockstep F P (.error e) (.error e')

variable {F : Fault → Fault → Prop} {P : α → α' → Prop} {Q : β → β' → Prop}
  {x : Except Fault α} {x' : Except Fault α'}

/-- **Two computations in a row** go in step if each does. -/
theorem Lockstep.bind {f : α → Except Fault β} {f' : α' → Except Fault β'}
    (h : Lockstep F P x x') (hf : ∀ a a', P a a' → Lockstep F Q (f a) (f' a')) :
    Lockstep F Q (x >>= f) (x' >>= f') := by
  cases h with
  | ok ha => exact hf _ _ ha
  | error he => exact .error he

theorem Lockstep.mono {F' : Fault → Fault → Prop} {P' : α → α' → Prop} (h : Lockstep F P x x')
    (hF : ∀ e e', F e e' → F' e e') (hP : ∀ a a', P a a' → P' a a') : Lockstep F' P' x x' := by
  cases h with
  | ok ha => exact .ok (hP _ _ ha)
  | error he => exact .error (hF _ _ he)

/-- Two walks over one list go in step if their steps do. -/
theorem Lockstep.foldlM {γ : Type} {f : α → γ → Except Fault α} {f' : α' → γ → Except Fault α'}
    (hf : ∀ a a' c, P a a' → Lockstep F P (f a c) (f' a' c)) : ∀ (l : List γ) {a : α} {a' : α'},
      P a a' → Lockstep F P (l.foldlM f a) (l.foldlM f' a')
  | [], _, _, h => .ok h
  | c :: l, _, _, h => by
    rw [List.foldlM_cons, List.foldlM_cons]
    exact (hf _ _ c h).bind fun _ _ h₁ => Lockstep.foldlM hf l h₁

theorem Lockstep.exists_ok (h : Lockstep F P x x') {a : α} (hx : x = .ok a) :
    ∃ a', x' = .ok a' ∧ P a a' := by
  subst hx
  cases h with
  | ok ha => exact ⟨_, rfl, ha⟩

end Lockstep

/-- The fault with `ρ v` in the place of each handle `v`. -/
def Fault.renumber (ρ : Handle → Handle) : Fault → Fault
  | .unsupportedParam name ty => .unsupportedParam name ty
  | .untypedParam v => .untypedParam (ρ v)
  | .unbound v => .unbound (ρ v)
  | .notATuple v => .notATuple (ρ v)
  | .noSuchField v index arity => .noSuchField (ρ v) index arity
  | .shapeMismatch out input => .shapeMismatch (ρ out) (ρ input)
  | .unsupportedForm v kind => .unsupportedForm (ρ v) kind
  | .unnamedResult => .unnamedResult
  | .pointWithoutLiveSet v => .pointWithoutLiveSet (ρ v)
  | .unknownIdentity v => .unknownIdentity (ρ v)

/-- The same fault, up to the name of a parameter. -/
def Fault.Alike (R : String → String → Prop) : Fault → Fault → Prop
  | .unsupportedParam name ty, e => ∃ name', R name name' ∧ e = .unsupportedParam name' ty
  | e, e' => e' = e

/-- The same fault under other numbers, up to the name of a parameter. -/
def Fault.Follows (R : String → String → Prop) (ρ : Handle → Handle) (e e' : Fault) : Prop :=
  (e.renumber ρ).Alike R e'

@[simp] theorem Fault.renumber_id (e : Fault) : e.renumber id = e := by
  cases e <;> rfl

/-! ### Sets -/

/-- The set with `ρ v` in the place of each member `v`. -/
def renumberSet (ρ : Handle → Handle) (a : HandleSet) : HandleSet :=
  Std.ExtTreeSet.ofList (a.toList.map ρ)

theorem mem_renumberSet {a : HandleSet} {v : Handle} :
    v ∈ renumberSet ρ a ↔ ∃ u ∈ a, ρ u = v := by
  rw [renumberSet, Std.ExtTreeSet.mem_ofList, List.contains_iff_mem, List.mem_map]
  simp only [Std.ExtTreeSet.mem_toList]

theorem mem_renumberSet_of_injective (hρ : Function.Injective ρ) {a : HandleSet} {v : Handle} :
    ρ v ∈ renumberSet ρ a ↔ v ∈ a := by
  rw [mem_renumberSet]
  exact ⟨fun ⟨_, hu, heq⟩ => hρ heq ▸ hu, fun hv => ⟨v, hv, rfl⟩⟩

@[simp] theorem renumberSet_id (a : HandleSet) : renumberSet id a = a :=
  Std.ExtTreeSet.ext_mem fun v => by simp [mem_renumberSet]

@[simp] theorem renumberSet_empty (ρ : Handle → Handle) : renumberSet ρ ∅ = ∅ :=
  Std.ExtTreeSet.ext_mem fun v => by simp [mem_renumberSet]

@[simp] theorem renumberSet_singleton (ρ : Handle → Handle) (v : Handle) :
    renumberSet ρ {v} = {ρ v} := by
  refine Std.ExtTreeSet.ext_mem fun u => ?_
  simp only [mem_renumberSet, mem_singleton, exists_eq_left]
  exact eq_comm

theorem renumberSet_union (ρ : Handle → Handle) (a b : HandleSet) :
    renumberSet ρ (a ∪ b) = renumberSet ρ a ∪ renumberSet ρ b := by
  refine Std.ExtTreeSet.ext_mem fun v => ?_
  simp only [mem_renumberSet, Std.ExtTreeSet.mem_union_iff, or_and_right, exists_or]

namespace Store

/-- The second store has for `ρ v` what the first has for `v`, and nothing besides. -/
structure Renumbers (ρ : Handle → Handle) (s t : Store) : Prop where
  next (i : Nat) : ρ (s.supply.next + i) = t.supply.next + i
  minted (v : Handle) : t.firstMinted ≤ ρ v ↔ s.firstMinted ≤ v
  sets (v : Handle) : t.sets[ρ v]? = s.sets[v]?.map (renumberSet ρ)
  records (v : Handle) : t.records[ρ v]? = s.records[v]?.map (List.map (Option.map ρ))
  size : t.records.size = s.records.size
  silent {v : Handle} : (∀ u, ρ u ≠ v) → t.setOf v = ∅

/-- Both have minted the same handle under other numbers. -/
def MintsAlike (ρ : Handle → Handle) (m m' : Handle × Store) : Prop :=
  m'.1 = ρ m.1 ∧ Renumbers ρ m.2 m'.2

/-- An empty store has nothing to renumber. -/
theorem renumbers_empty {n n' : Nat} (hnext : ∀ i, ρ (n + i) = n' + i)
    (hminted : ∀ v, n' ≤ ρ v ↔ n ≤ v) : Renumbers ρ (.empty n) (.empty n') := by
  refine ⟨hnext, hminted, fun v => ?_, fun v => ?_, rfl, fun _ => ?_⟩
  · simp [empty]
  · simp [empty]
  · simp [setOf, empty]

/-- Entries that correspond still do with one more on either side. -/
theorem getElem?_insert_renumber (hρ : Function.Injective ρ) {β : Type} {f : β → β}
    {m m' : Std.ExtTreeMap Handle β} (h : ∀ v : Handle, m'[ρ v]? = m[v]?.map f) (k : Handle)
    (b : β) (v : Handle) : (m'.insert (ρ k) (f b))[ρ v]? = (m.insert k b)[v]?.map f := by
  rw [Std.ExtTreeMap.getElem?_insert, Std.ExtTreeMap.getElem?_insert]
  simp only [Std.LawfulEqOrd.compare_eq_iff_eq, hρ.eq_iff]
  split
  · rfl
  · exact h v

theorem mem_renumber {β : Type} {f : β → β} {m m' : Std.ExtTreeMap Handle β}
    (h : ∀ v : Handle, m'[ρ v]? = m[v]?.map f) (v : Handle) : ρ v ∈ m' ↔ v ∈ m := by
  rw [Std.ExtTreeMap.mem_iff_isSome_getElem?, h, Option.isSome_map,
    Std.ExtTreeMap.mem_iff_isSome_getElem?]

theorem size_insert_renumber {β : Type} {f : β → β} {m m' : Std.ExtTreeMap Handle β}
    (h : ∀ v : Handle, m'[ρ v]? = m[v]?.map f) (hsize : m'.size = m.size) (k : Handle)
    (b b' : β) : (m'.insert (ρ k) b').size = (m.insert k b).size := by
  have hcontains : m'.contains (ρ k) = m.contains k :=
    Bool.eq_iff_iff.2 (by simpa only [Std.ExtTreeMap.mem_iff_contains] using mem_renumber h k)
  rw [Std.ExtTreeMap.size_insert, Std.ExtTreeMap.size_insert, hcontains, hsize]

namespace Renumbers

variable {R : String → String → Prop} {s t : Store} (hρ : Function.Injective ρ)

theorem mem_sets_iff (h : Renumbers ρ s t) (v : Handle) : ρ v ∈ t.sets ↔ v ∈ s.sets :=
  mem_renumber h.sets v

theorem setOf_eq (h : Renumbers ρ s t) (v : Handle) :
    t.setOf (ρ v) = renumberSet ρ (s.setOf v) := by
  rw [setOf, setOf, h.sets]
  cases s.sets[v]? with
  | some set => rfl
  | none => exact (renumberSet_empty ρ).symm

theorem identities (h : Renumbers ρ s t) (v : Handle) : Lockstep (Fault.Follows R ρ)
    (fun a a' => a' = renumberSet ρ a) (s.identities v) (t.identities (ρ v)) := by
  unfold Store.identities
  rw [h.sets]
  cases s.sets[v]? with
  | some set => exact .ok rfl
  | none => exact .error rfl

theorem union (h : Renumbers ρ s t) : ∀ fields : Fields, Lockstep (Fault.Follows R ρ)
    (fun a a' => a' = renumberSet ρ a) (s.union fields) (t.union (fields.map (Option.map ρ)))
  | [] => .ok (renumberSet_empty ρ).symm
  | none :: rest => h.union rest
  | some v :: rest => by
    refine (h.identities v).bind fun a _ ha => ?_
    refine (h.union rest).bind fun b _ hb => ?_
    rw [ha, hb]
    exact .ok (renumberSet_union ρ a b).symm

theorem unionOfBound (h : Renumbers ρ s t) (vs : List Handle) :
    t.unionOfBound (vs.map ρ) = renumberSet ρ (s.unionOfBound vs) := by
  refine Std.ExtTreeSet.ext_mem fun e => ?_
  rw [mem_unionOfBound, mem_renumberSet]
  simp only [mem_unionOfBound, List.mem_map]
  constructor
  · rintro ⟨_, ⟨v, hv, rfl⟩, he⟩
    rw [h.setOf_eq, mem_renumberSet] at he
    obtain ⟨u, hu, rfl⟩ := he
    exact ⟨u, ⟨v, hv, hu⟩, rfl⟩
  · rintro ⟨u, ⟨v, hv, hu⟩, rfl⟩
    exact ⟨ρ v, ⟨v, hv, rfl⟩, by rw [h.setOf_eq, mem_renumberSet]; exact ⟨u, hu, rfl⟩⟩

/-- What is bound besides `ρ v` stays as it is. -/
theorem silent_insert (h : Renumbers ρ s t) (k : Handle) (set : HandleSet) {v : Handle}
    (hv : ∀ u, ρ u ≠ v) : ((t.sets.insert (ρ k) set)[v]?).getD ∅ = ∅ := by
  rw [Std.ExtTreeMap.getElem?_insert]
  simp only [Std.LawfulEqOrd.compare_eq_iff_eq, if_neg (hv k)]
  exact h.silent hv

include hρ

/-- **Minting keeps in step.** -/
theorem mint (h : Renumbers ρ s t) (hint hint' : String) {set set' : Handle → HandleSet}
    (hset : set' (ρ s.supply.next) = renumberSet ρ (set s.supply.next)) :
    MintsAlike ρ (s.mint hint set) (t.mint hint' set') := by
  have hnext : t.supply.next = ρ s.supply.next := (h.next 0).symm
  refine ⟨hnext, fun i => ?_, h.minted, fun v => ?_, h.records, h.size, fun hv => ?_⟩
  · change ρ (s.supply.next + 1 + i) = t.supply.next + 1 + i
    rw [Nat.add_assoc, Nat.add_assoc]
    exact h.next (1 + i)
  · change (t.sets.insert t.supply.next (set' t.supply.next))[ρ v]? = _
    rw [hnext, hset]
    exact getElem?_insert_renumber hρ h.sets _ _ v
  · change ((t.sets.insert t.supply.next (set' t.supply.next))[_]?).getD ∅ = ∅
    rw [hnext]
    exact h.silent_insert _ _ hv

theorem freshLeaf (h : Renumbers ρ s t) (hint hint' : String) :
    MintsAlike ρ (s.freshLeaf hint) (t.freshLeaf hint') :=
  h.mint hρ hint hint' (renumberSet_singleton ρ _).symm

theorem freshEmpty (h : Renumbers ρ s t) (hint hint' : String) :
    MintsAlike ρ (s.freshEmpty hint) (t.freshEmpty hint') :=
  h.mint hρ hint hint' (renumberSet_empty ρ).symm

theorem freshSet (h : Renumbers ρ s t) (hint hint' : String) (set : HandleSet) :
    MintsAlike ρ (s.freshSet hint set) (t.freshSet hint' (renumberSet ρ set)) :=
  h.mint hρ hint hint' rfl

theorem freshUnion (h : Renumbers ρ s t) (fields : Fields) :
    Lockstep (Fault.Follows R ρ) (MintsAlike ρ) (s.freshUnion fields)
      (t.freshUnion (fields.map (Option.map ρ))) := by
  refine (h.union fields).bind fun set _ hset => ?_
  rw [hset]
  exact .ok (h.freshSet hρ _ _ set)

theorem freshUnionOf (h : Renumbers ρ s t) (vs : List Handle) :
    Lockstep (Fault.Follows R ρ) (MintsAlike ρ) (s.freshUnionOf vs)
      (t.freshUnionOf (vs.map ρ)) := by
  have hmap : (vs.map ρ).map some = (vs.map some).map (Option.map ρ) := by
    rw [List.map_map, List.map_map]
    rfl
  rw [Store.freshUnionOf, Store.freshUnionOf, hmap]
  exact h.freshUnion hρ _

theorem recordFields (h : Renumbers ρ s t) (v : Handle) (fields : Fields) :
    Renumbers ρ (s.recordFields v fields)
      (t.recordFields (ρ v) (fields.map (Option.map ρ))) :=
  ⟨h.next, h.minted, h.sets, getElem?_insert_renumber hρ h.records v fields,
    size_insert_renumber h.records h.size v _ _, h.silent⟩

/-- **Binding keeps in step.** -/
theorem bindLike (h : Renumbers ρ s t) (v d : Handle) :
    Lockstep (Fault.Follows R ρ) (Renumbers ρ) (s.bindLike v d) (t.bindLike (ρ v) (ρ d)) := by
  have hbinds : t.binds (ρ v) = s.binds v :=
    Bool.eq_iff_iff.2 (by
      simpa only [binds, Std.ExtTreeMap.mem_iff_contains] using h.mem_sets_iff v)
  rw [Store.bindLike, Store.bindLike, hbinds]
  split
  · exact .ok h
  refine (h.identities d).bind fun set _ hset => ?_
  subst hset
  have hsets := getElem?_insert_renumber hρ h.sets v set
  have hsilent : ∀ {w : Handle}, (∀ u, ρ u ≠ w) →
      ((t.sets.insert (ρ v) (renumberSet ρ set))[w]?).getD ∅ = ∅ :=
    fun hw => h.silent_insert v _ hw
  refine .ok ?_
  rw [h.records d]
  cases s.records[d]? with
  | none => exact ⟨h.next, h.minted, hsets, h.records, h.size, hsilent⟩
  | some fields =>
    exact ⟨h.next, h.minted, hsets, getElem?_insert_renumber hρ h.records v fields,
      size_insert_renumber h.records h.size v _ _, hsilent⟩

end Renumbers

mutual

/-- **The buffers of a value are minted in step.** -/
theorem Renumbers.freshValue (hρ : Function.Injective ρ) : ∀ (ty : Ty) {s t : Store}
    (hint hint' : String), Renumbers ρ s t →
      MintsAlike ρ (s.freshValue hint ty) (t.freshValue hint' ty)
  | .tensor, _, _, hint, hint', h | .other _, _, _, hint, hint', h => h.freshLeaf hρ hint hint'
  | .func, _, _, hint, hint', h => h.freshEmpty hρ hint hint'
  | .tuple tys, s, t, hint, hint', h => by
    obtain ⟨hvs, h₁⟩ := Renumbers.freshValues hρ tys hint hint' 0 h
    have hunion := h₁.unionOfBound (s.freshValues hint 0 tys).1
    obtain ⟨hv, h₂⟩ := h₁.freshSet hρ "merge" "merge"
      ((s.freshValues hint 0 tys).2.unionOfBound (s.freshValues hint 0 tys).1)
    rw [← hunion, ← hvs] at hv h₂
    have hmap : (t.freshValues hint' 0 tys).1.map some =
        ((s.freshValues hint 0 tys).1.map some).map (Option.map ρ) := by
      rw [hvs, List.map_map, List.map_map]
      rfl
    simp only [Store.freshValue]
    refine ⟨hv, ?_⟩
    rw [hv, hmap]
    exact h₂.recordFields hρ _ _

/-- The same for the fields of a tuple. -/
theorem Renumbers.freshValues (hρ : Function.Injective ρ) : ∀ (tys : List Ty) {s t : Store}
    (hint hint' : String) (i : Nat), Renumbers ρ s t →
      (t.freshValues hint' i tys).1 = (s.freshValues hint i tys).1.map ρ ∧
        Renumbers ρ (s.freshValues hint i tys).2 (t.freshValues hint' i tys).2
  | [], _, _, _, _, _, h => ⟨rfl, h⟩
  | ty :: tys, _, _, hint, hint', i, h => by
    obtain ⟨hv, h₁⟩ := Renumbers.freshValue hρ ty (hint ++ "." ++ toString i)
      (hint' ++ "." ++ toString i) h
    obtain ⟨hvs, h₂⟩ := Renumbers.freshValues hρ tys hint hint' (i + 1) h₁
    simp only [Store.freshValues]
    refine ⟨?_, h₂⟩
    rw [hv, hvs, List.map_cons]

end

end Store

end Identity
end TensorLiveness
