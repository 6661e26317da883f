/-
# Labels of buffers

A buffer goes by the hint that it was minted with, and no number comes with it.  So the names are
told apart by the hints alone: `Ty.labels hint ty` lists those of the buffers in a value of type
`ty`, each made of `hint` and the places of the fields on the way to the buffer.

| name | of | told apart by |
| --- | --- | --- |
| `%x` | a binder of the program | the names of the binders |
| `$x.0.1` | a leaf | the labels, `Store.Labelled` |
| `~hint#n` | any other minted handle | the number behind the last `#` |

`Store.Labelled s ls` says that the leaves of `s`, in the order in which they were minted, have the
labels `ls`.  If `ls` has no repetitions, no two handles have one name (`NameForm.unique`).
-/

import Mathlib.Data.List.Nodup
import Mathlib.Data.List.Sort
import TensorLiveness.Proofs.Identity.Numbering
import TensorLiveness.Proofs.Number.Reading
import TensorLiveness.Proofs.Program.Rereading

namespace TensorLiveness

/-! ### Stems -/

section Text

variable {stem a b label : String} {i j : Nat}

/-- A text that goes on with what does not belong to it can be told from the whole. -/
theorem eq_of_append_eq {α : Type} {p : α → Bool} {l l' rest rest' : List α}
    (hl : ∀ x ∈ l, p x = true) (hl' : ∀ x ∈ l', p x = true)
    (hrest : ∀ x ∈ rest.head?, p x = false) (hrest' : ∀ x ∈ rest'.head?, p x = false)
    (h : l ++ rest = l' ++ rest') : l = l' := by
  rw [← Number.takeWhile_append_of_stop hl hrest, h, Number.takeWhile_append_of_stop hl' hrest']

theorem toList_toString (i : Nat) : (toString i).toList = Nat.toDigits 10 i :=
  String.toList_ofList

theorem toDigits_injective (h : Nat.toDigits 10 i = Nat.toDigits 10 j) : i = j := by
  rw [← Number.digitsValue_toDigits i, h, Number.digitsValue_toDigits]

/-- The label is the stem, with nothing behind it or with more behind a dot. -/
def HasStem (stem label : String) : Prop :=
  ∃ rest : List Char, label.toList = stem.toList ++ rest ∧ ∀ c ∈ rest.head?, c = '.'

theorem HasStem.refl (stem : String) : HasStem stem stem :=
  ⟨[], (List.append_nil _).symm, fun _ h => nomatch h⟩

/-- The place of a field comes behind the stem. -/
theorem HasStem.toList_of_field (h : HasStem (stem ++ "." ++ toString i) label) :
    ∃ rest : List Char, label.toList = stem.toList ++ '.' :: (Nat.toDigits 10 i ++ rest) ∧
      ∀ c ∈ rest.head?, c = '.' := by
  obtain ⟨rest, hlabel, hrest⟩ := h
  refine ⟨rest, ?_, hrest⟩
  rw [hlabel, String.toList_append, String.toList_append, toList_toString]
  simp

theorem HasStem.of_field (h : HasStem (stem ++ "." ++ toString i) label) : HasStem stem label := by
  obtain ⟨rest, hlabel, -⟩ := h.toList_of_field
  exact ⟨_, hlabel, fun c hc => (Option.some.inj hc).symm⟩

/-- A label has one stem without a dot only. -/
theorem HasStem.unique (ha : '.' ∉ a.toList) (hb : '.' ∉ b.toList) (h : HasStem a label)
    (h' : HasStem b label) : a = b := by
  obtain ⟨rest, hlabel, hrest⟩ := h
  obtain ⟨rest', hlabel', hrest'⟩ := h'
  have hdotless : ∀ {s : String}, '.' ∉ s.toList → ∀ c ∈ s.toList, (c != '.') = true :=
    fun hs c hc => bne_iff_ne.2 fun heq => hs (heq ▸ hc)
  have hstop : ∀ {cs : List Char}, (∀ c ∈ cs.head?, c = '.') →
      ∀ c ∈ cs.head?, (c != '.') = false := fun hcs c hc => by rw [hcs c hc]; rfl
  exact String.toList_inj.1 (eq_of_append_eq (hdotless ha) (hdotless hb) (hstop hrest)
    (hstop hrest') (hlabel.symm.trans hlabel'))

/-- A label leads to one field only. -/
theorem HasStem.index_unique (h : HasStem (stem ++ "." ++ toString i) label)
    (h' : HasStem (stem ++ "." ++ toString j) label) : i = j := by
  obtain ⟨rest, hlabel, hrest⟩ := h.toList_of_field
  obtain ⟨rest', hlabel', hrest'⟩ := h'.toList_of_field
  have heq := (List.cons.inj (List.append_cancel_left (hlabel.symm.trans hlabel'))).2
  have hstop : ∀ {cs : List Char}, (∀ c ∈ cs.head?, c = '.') →
      ∀ c ∈ cs.head?, c.isDigit = false := fun hcs c hc => by rw [hcs c hc]; rfl
  exact toDigits_injective (eq_of_append_eq Number.isDigit_toDigits Number.isDigit_toDigits
    (hstop hrest) (hstop hrest') heq)

end Text

namespace Program

mutual

/-- The labels of the buffers in a value of a type: the hint itself for a buffer, none for a
function, and for a tuple those of its fields, each with its place behind the hint. -/
def Ty.labels (hint : String) : Ty → List String
  | .tensor | .other _ => [hint]
  | .func => []
  | .tuple tys => Ty.labelsFrom hint 0 tys

/-- The labels of the buffers in the fields of a tuple from the field number `i` on. -/
def Ty.labelsFrom (hint : String) (i : Nat) : List Ty → List String
  | [] => []
  | ty :: tys => ty.labels (hint ++ "." ++ toString i) ++ Ty.labelsFrom hint (i + 1) tys

end

mutual

/-- Labels go on from the hint. -/
theorem Ty.hasStem_of_mem_labels : ∀ (ty : Ty) {hint label : String}, label ∈ ty.labels hint →
    HasStem hint label
  | .tensor, _, _, h | .other _, _, _, h => List.mem_singleton.1 h ▸ .refl _
  | .func, _, _, h => absurd h List.not_mem_nil
  | .tuple tys, _, _, h =>
    have ⟨_, _, hstem⟩ := Ty.hasStem_of_mem_labelsFrom tys h
    hstem.of_field

theorem Ty.hasStem_of_mem_labelsFrom : ∀ (tys : List Ty) {hint label : String} {i : Nat},
    label ∈ Ty.labelsFrom hint i tys → ∃ j, i ≤ j ∧ HasStem (hint ++ "." ++ toString j) label
  | [], _, _, _, h => absurd h List.not_mem_nil
  | ty :: tys, _, _, i, h => by
    rcases List.mem_append.1 h with h | h
    · exact ⟨i, Nat.le_refl i, ty.hasStem_of_mem_labels h⟩
    · obtain ⟨j, hj, hstem⟩ := Ty.hasStem_of_mem_labelsFrom tys h
      exact ⟨j, Nat.le_of_succ_le hj, hstem⟩

end

mutual

/-- **The buffers in a value have labels of their own.** -/
theorem Ty.nodup_labels : ∀ (ty : Ty) (hint : String), (ty.labels hint).Nodup
  | .tensor, _ | .other _, _ => List.nodup_singleton _
  | .func, _ => List.nodup_nil
  | .tuple tys, hint => Ty.nodup_labelsFrom tys hint 0

theorem Ty.nodup_labelsFrom : ∀ (tys : List Ty) (hint : String) (i : Nat),
    (Ty.labelsFrom hint i tys).Nodup
  | [], _, _ => List.nodup_nil
  | ty :: tys, hint, i => by
    rw [Ty.labelsFrom, List.nodup_append']
    refine ⟨ty.nodup_labels _, Ty.nodup_labelsFrom tys hint (i + 1), fun label h h' => ?_⟩
    obtain ⟨j, hj, hstem⟩ := Ty.hasStem_of_mem_labelsFrom tys h'
    exact absurd ((ty.hasStem_of_mem_labels h).index_unique hstem) (Nat.ne_of_lt hj)

end

example : Ty.labels "x" (.tuple [.tuple [.tensor, .tensor], .func, .tensor]) =
    ["x.0.0", "x.0.1", "x.2"] := by decide +kernel

end Program

namespace Identity
namespace Store

open Program

variable {s t : Store} {N : Nat} {ls : List String} {v : Handle}

/-- Minted handles start from `N` and have hints, sets are made of them, and the leaves have the
labels `ls` in the order in which they were minted. -/
structure Labelled (s : Store) (N : Nat) (ls : List String) : Prop where
  firstMinted_eq : s.firstMinted = N
  le_next : N ≤ s.supply.next
  hinted {v : Handle} : N ≤ v → v < s.supply.next → ∃ hint, s.hints[v]? = some hint
  minted {v e : Handle} : e ∈ s.setOf v → N ≤ e ∧ e < s.supply.next
  labels_eq : s.leaves.map (s.hints[·]?) = ls.map some

/-! ### Leaves of a store that grows -/

theorem leaves_eq_of_isLeaf_eq (h : ∀ e, t.isLeaf e = s.isLeaf e) : t.leaves = s.leaves :=
  t.ordered_leaves.eq_of_mem_iff s.ordered_leaves fun e => by rw [mem_leaves, mem_leaves, h]

theorem getElem?_hints_mint (s : Store) (hint : String) (set : Handle → HandleSet) (v : Handle) :
    (s.mint hint set).2.hints[v]? = if s.supply.next = v then some hint else s.hints[v]? := by
  show (s.hints.insert s.supply.next hint)[v]? = _
  simp only [Std.ExtTreeMap.getElem?_insert, Std.LawfulEqOrd.compare_eq_iff_eq]

theorem isLeaf_mint (s : Store) (hint : String) (set : Handle → HandleSet) (e : Handle) :
    (s.mint hint set).2.isLeaf e =
      if s.supply.next = e then decide (set e = {e}) else s.isLeaf e := by
  rw [isLeaf, getElem?_mint]
  split
  · rename_i heq
    simp [heq]
  · rfl

theorem mem_setOf_of_isLeaf (h : s.isLeaf v = true) : v ∈ s.setOf v := by
  rw [setOf_of_getElem? (of_decide_eq_true h)]
  exact mem_singleton.2 rfl

namespace Labelled

/-- No label more. -/
theorem append_nil (h : s.Labelled N ls) : s.Labelled N (ls ++ []) := by rwa [List.append_nil]

theorem minted_of_mem_leaves (h : s.Labelled N ls) (hv : v ∈ s.leaves) :
    N ≤ v ∧ v < s.supply.next := h.minted (mem_setOf_of_isLeaf (mem_leaves.1 hv))

/-- The next handle is no leaf before it is minted. -/
theorem isLeaf_next (h : s.Labelled N ls) : s.isLeaf s.supply.next = false := by
  rw [Bool.eq_false_iff]
  exact fun hleaf => Nat.lt_irrefl _ (h.minted (mem_setOf_of_isLeaf hleaf)).2

theorem hints_mint (h : s.Labelled N ls) (hint : String) (set : Handle → HandleSet) :
    s.leaves.map ((s.mint hint set).2.hints[·]?) = ls.map some := by
  rw [← h.labels_eq]
  refine List.map_congr_left fun v hv => ?_
  rw [getElem?_hints_mint, if_neg (Nat.ne_of_gt (h.minted_of_mem_leaves hv).2)]

theorem hinted_mint (h : s.Labelled N ls) (hint : String) (set : Handle → HandleSet)
    (hle : N ≤ v) (hlt : v < s.supply.next + 1) :
    ∃ hint', (s.mint hint set).2.hints[v]? = some hint' := by
  rw [getElem?_hints_mint]
  split
  · exact ⟨hint, rfl⟩
  · rename_i hne
    exact h.hinted hle (Nat.lt_of_le_of_ne (Nat.le_of_lt_succ hlt) (Ne.symm hne))

theorem minted_mint (h : s.Labelled N ls) (hint : String) {set : Handle → HandleSet} {e : Handle}
    (hset : ∀ e ∈ set s.supply.next, N ≤ e ∧ e < s.supply.next + 1)
    (he : e ∈ (s.mint hint set).2.setOf v) : N ≤ e ∧ e < s.supply.next + 1 := by
  rw [setOf_mint] at he
  split at he
  · exact hset e he
  · exact (h.minted he).imp_right Nat.lt_succ_of_lt

/-- **A leaf has the label that it is minted with.** -/
theorem freshLeaf (h : s.Labelled N ls) (label : String) :
    (s.freshLeaf label).2.Labelled N (ls ++ [label]) := by
  have hle := h.le_next
  have hleaves : (s.freshLeaf label).2.leaves = s.leaves ++ [s.supply.next] := by
    refine (ordered_leaves _).eq_of_mem_iff (List.pairwise_append.2 ⟨s.ordered_leaves,
      List.pairwise_singleton _ _, fun v hv w hw => ?_⟩) fun e => ?_
    · exact List.mem_singleton.1 hw ▸ (h.minted_of_mem_leaves hv).2
    · rw [mem_leaves, Store.freshLeaf, isLeaf_mint, List.mem_append, List.mem_singleton, mem_leaves]
      split
      · rename_i heq
        simp [heq]
      · rename_i hne
        exact (or_iff_left fun heq => hne heq.symm).symm
  refine ⟨h.firstMinted_eq, Nat.le_succ_of_le hle, h.hinted_mint label _,
    h.minted_mint label fun e he => ?_, ?_⟩
  · obtain rfl := mem_singleton.1 he
    exact ⟨hle, Nat.lt_succ_self _⟩
  · rw [hleaves, List.map_append, List.map_append, Store.freshLeaf, h.hints_mint,
      List.map_singleton, getElem?_hints_mint, if_pos rfl, List.map_singleton]

/-- A set of identities that are there makes no leaf. -/
theorem freshSet (h : s.Labelled N ls) (hint : String) {set : HandleSet}
    (hset : ∀ e ∈ set, N ≤ e ∧ e < s.supply.next) :
    (s.freshSet hint set).2.Labelled N ls := by
  have hleaves : (s.freshSet hint set).2.leaves = s.leaves := by
    refine leaves_eq_of_isLeaf_eq fun e => ?_
    rw [Store.freshSet, isLeaf_mint]
    split
    · rename_i heq
      rw [← heq, h.isLeaf_next, decide_eq_false_iff_not]
      intro hself
      exact Nat.lt_irrefl _ (hset _ (hself ▸ mem_singleton.2 rfl)).2
    · rfl
  refine ⟨h.firstMinted_eq, Nat.le_succ_of_le h.le_next, h.hinted_mint hint _,
    h.minted_mint hint fun e he => (hset e he).imp_right Nat.lt_succ_of_lt, ?_⟩
  rw [hleaves, Store.freshSet, h.hints_mint]

theorem freshEmpty (h : s.Labelled N ls) (hint : String) : (s.freshEmpty hint).2.Labelled N ls :=
  h.freshSet hint fun _ he => absurd he Std.ExtTreeSet.not_mem_empty

theorem freshUnion (h : s.Labelled N ls) {fields : Fields} {m : Handle × Store}
    (hm : s.freshUnion fields = .ok m) : m.2.Labelled N ls := by
  obtain ⟨set, hset, hm⟩ := bind_eq_ok.1 hm
  obtain rfl := Except.ok.inj hm
  refine h.freshSet "merge" fun e he => ?_
  obtain ⟨u, -, he⟩ := ((union_spec hset).2 e).1 he
  exact h.minted he

theorem recordFields (h : s.Labelled N ls) (v : Handle) (fields : Fields) :
    (s.recordFields v fields).Labelled N ls :=
  ⟨h.firstMinted_eq, h.le_next, h.hinted, h.minted, h.labels_eq⟩

/-- A handle of the program that is bound is no leaf. -/
theorem bindLike (h : s.Labelled N ls) {d : Handle} (hv : v < N)
    (ht : s.bindLike v d = .ok t) : t.Labelled N ls := by
  unfold Store.bindLike at ht
  split at ht
  · exact Except.ok.inj ht ▸ h
  obtain ⟨set, hset, ht⟩ := bind_eq_ok.1 ht
  obtain ⟨-, rfl⟩ := identities_eq_ok.1 hset
  obtain rfl := Except.ok.inj ht
  have hsets : ∀ u, (s.sets.insert v (s.setOf d))[u]? =
      if v = u then some (s.setOf d) else s.sets[u]? := fun u => by
    simp only [Std.ExtTreeMap.getElem?_insert, Std.LawfulEqOrd.compare_eq_iff_eq]
  have hnot : ∀ {w}, v ∉ s.setOf w := fun hmem => Nat.not_lt.2 (h.minted hmem).1 hv
  refine ⟨h.firstMinted_eq, h.le_next, h.hinted, fun {u e} he => ?_, ?_⟩
  · change e ∈ ((s.sets.insert v (s.setOf d))[u]?).getD ∅ at he
    rw [hsets] at he
    split at he
    · exact h.minted he
    · exact h.minted he
  · rw [← h.labels_eq]
    refine congrArg (List.map (s.hints[·]?)) (leaves_eq_of_isLeaf_eq fun e => ?_)
    change decide ((s.sets.insert v (s.setOf d))[e]? = some {e}) = s.isLeaf e
    rw [hsets]
    split
    · rename_i heq
      have hold : s.isLeaf e = false := Bool.eq_false_iff.2 fun hleaf =>
        hnot (heq ▸ mem_setOf_of_isLeaf hleaf)
      rw [hold, decide_eq_false_iff_not]
      intro hself
      exact hnot (w := d) (heq ▸ Option.some.inj hself ▸ mem_singleton.2 rfl)
    · rfl

end Labelled

mutual

/-- **The buffers in a value have the labels of its type,** in order. -/
theorem Labelled.freshValue : ∀ (ty : Ty) {s : Store} {N : Nat} {ls : List String} (hint : String),
    s.Labelled N ls → (s.freshValue hint ty).2.Labelled N (ls ++ ty.labels hint)
  | .tensor, _, _, _, hint, h | .other _, _, _, _, hint, h => h.freshLeaf hint
  | .func, _, _, _, hint, h => (h.freshEmpty hint).append_nil
  | .tuple tys, _, _, _, hint, h => by
    have hfields := Labelled.freshValues tys hint 0 h
    refine (hfields.freshSet "merge" fun e he => ?_).recordFields _ _
    obtain ⟨u, -, he⟩ := mem_unionOfBound.1 he
    exact hfields.minted he

theorem Labelled.freshValues : ∀ (tys : List Ty) {s : Store} {N : Nat} {ls : List String}
    (hint : String) (i : Nat), s.Labelled N ls →
      (s.freshValues hint i tys).2.Labelled N (ls ++ Ty.labelsFrom hint i tys)
  | [], _, _, _, _, _, h => h.append_nil
  | ty :: tys, _, _, ls, hint, i, h => by
    have hfirst := Labelled.freshValue ty (hint ++ "." ++ toString i) h
    rw [Ty.labelsFrom, ← List.append_assoc]
    exact Labelled.freshValues tys hint (i + 1) hfirst

end

theorem labelled_empty (size : Nat) : (empty size).Labelled size [] := by
  refine ⟨rfl, Nat.le_refl _, fun hle hlt => absurd hlt (Nat.not_lt.2 hle), fun he => ?_, ?_⟩
  · exact absurd (mem_of_mem_setOf he) sets_empty
  · have hleaves : (empty size).leaves = [] := by
      refine List.eq_nil_iff_forall_not_mem.2 fun e he => ?_
      exact sets_empty (mem_of_mem_setOf (mem_setOf_of_isLeaf (mem_leaves.1 he)))
    rw [hleaves, List.map_nil, List.map_nil]

/-! ### Names -/

/-- The name of a handle, by what the handle is. -/
inductive NameForm (vars : BinderTable) (s : Store) (v : Handle) : String → Prop
  | binder {name : String} : vars.name? v = some name → NameForm vars s v ("%" ++ name)
  | leaf {label : String} : v ∈ s.leaves → s.hints[v]? = some label →
    NameForm vars s v ("$" ++ label)
  | made (hint : String) : NameForm vars s v ("~" ++ hint ++ "#" ++ toString v)

/-- **Every handle that was given has a name,** and no raw form. -/
theorem Labelled.nameForm {vars : BinderTable} (h : s.Labelled vars.size ls)
    (hv : v < s.supply.next) : NameForm vars s v (s.nameOf vars v) := by
  rw [nameOf]
  split
  · rename_i hminted
    obtain ⟨hint, hhint⟩ := h.hinted (h.firstMinted_eq ▸ of_decide_eq_true hminted) hv
    simp only [hhint]
    split
    · rename_i hleaf
      exact .leaf (mem_leaves.2 hleaf) hhint
    · exact .made hint
  · rename_i hminted
    rw [isMinted, decide_eq_true_eq, h.firstMinted_eq, Nat.not_le] at hminted
    obtain ⟨name, hname⟩ := BinderTable.exists_name? hminted
    rw [BinderTable.display, hname]
    exact .binder hname

/-- A name is no raw form. -/
theorem NameForm.ne_display {vars : BinderTable} {name : String} (h : NameForm vars s v name)
    (w : Handle) : name ≠ Handle.display w := by
  intro heq
  have hchars := congrArg String.toList heq
  cases h <;> simp [Handle.display] at hchars

/-- The number of a minted handle can be read off its name. -/
theorem eq_of_made_eq {hint hint' : String} {u v : Handle}
    (h : "~" ++ hint ++ "#" ++ toString u = "~" ++ hint' ++ "#" ++ toString v) : u = v := by
  have hchars : ∀ (hint : String) (u : Handle), ("~" ++ hint ++ "#" ++ toString u).toList.reverse =
      (Nat.toDigits 10 u).reverse ++ '#' :: ("~" ++ hint).toList.reverse := fun hint u => by
    rw [String.toList_append, String.toList_append, toList_toString, List.reverse_append,
      List.reverse_append]
    rfl
  have heq := congrArg (fun name : String => name.toList.reverse) h
  rw [hchars, hchars] at heq
  have hdigits : ∀ (u : Handle), ∀ c ∈ (Nat.toDigits 10 u).reverse, c.isDigit = true :=
    fun u c hc => Number.isDigit_toDigits c (List.mem_reverse.1 hc)
  have hstop : ∀ (cs : List Char), ∀ c ∈ ('#' :: cs).head?, c.isDigit = false := fun cs c hc => by
    obtain rfl := Option.some.inj hc
    rfl
  exact toDigits_injective (List.reverse_injective
    (eq_of_append_eq (hdigits u) (hdigits v) (hstop _) (hstop _) heq))

/-- **No two handles have one name,** if no two binders and no two leaves have. -/
theorem NameForm.unique {vars : BinderTable} {u : Handle} {name : String} (h : s.Labelled N ls)
    (hls : ls.Nodup) (hbinders : vars.Distinct)
    (hu : NameForm vars s u name) (hv : NameForm vars s v name) : u = v := by
  -- the first characters tell the three forms apart
  have hhead : ∀ {m n : String}, m = n → m.toList.head? = n.toList.head? := fun h => h ▸ rfl
  generalize hname : name = name' at hv
  cases hu with
  | binder hx =>
    cases hv with
    | binder hy =>
      obtain rfl := (String.append_right_inj _).1 hname
      exact hbinders hx hy
    | leaf => simpa using hhead hname
    | made hint => simpa using hhead hname
  | leaf hmem hx =>
    cases hv with
    | binder => simpa using hhead hname
    | leaf hmem' hy =>
      obtain rfl := (String.append_right_inj _).1 hname
      have hinj : ∀ x ∈ s.leaves, ∀ y ∈ s.leaves, s.hints[x]? = s.hints[y]? → x = y :=
        List.inj_on_of_nodup_map (h.labels_eq ▸ hls.map (Option.some_injective _))
      exact hinj u hmem v hmem' (hx.trans hy.symm)
    | made hint => simpa using hhead hname
  | made hint =>
    cases hv with
    | binder => simpa using hhead hname
    | leaf => simpa using hhead hname
    | made hint' => exact eq_of_made_eq hname

end Store
end Identity
end TensorLiveness
