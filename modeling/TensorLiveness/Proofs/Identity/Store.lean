/-
# Growing stores

A store only ever grows.  `Store.Sound` is what holds of every store that is reached: minted
handles are numbered in order, sets consist of leaves, and records mention bound handles.
`Store.Extends vs s t` says how `t` comes out of `s`: what was bound keeps its set and its
record, `vs` are bound, and all else that is bound is newly minted.

| operation | what it comes to |
| --- | --- |
| `mint` and what is made of it | `Store.Mints` |
| `freshValue` | `Store.Extends`, with a set of leaves that are all new |
| `bindLike` | `Store.Extends`, with the set and the record of another handle |
| `recordFields` | `Store.Extends`, from before the handle was bound |
-/

import TensorLiveness.Identity.Store

namespace TensorLiveness
namespace Identity

open Program

/-- A computation of two steps succeeds when both do. -/
theorem bind_eq_ok {ε α β : Type} {x : Except ε α} {f : α → Except ε β} {b : β} :
    (x >>= f) = .ok b ↔ ∃ a, x = .ok a ∧ f a = .ok b := by
  cases x with
  | error e =>
    constructor
    · intro h
      cases h
    · rintro ⟨_, h, _⟩
      cases h
  | ok a =>
    constructor
    · exact fun h => ⟨a, rfl, h⟩
    · rintro ⟨a', ha, h⟩
      obtain rfl := Except.ok.inj ha
      exact h

theorem mem_singleton {v e : Handle} : e ∈ ({v} : HandleSet) ↔ e = v := by
  rw [Std.ExtTreeSet.singleton_eq_insert, Std.ExtTreeSet.mem_insert,
    Std.LawfulEqOrd.compare_eq_iff_eq, eq_comm]
  exact or_iff_left Std.ExtTreeSet.not_mem_empty

namespace Store

/-- What a handle stands for; nothing, if it is not bound. -/
def setOf (s : Store) (v : Handle) : HandleSet := (s.sets[v]?).getD ∅

/-- A minted handle that stands for itself. -/
structure Leaf (s : Store) (e : Handle) : Prop where
  minted : s.firstMinted ≤ e
  self : s.sets[e]? = some {e}

/-- What holds of every store that is reached from the empty one. -/
structure Sound (s : Store) : Prop where
  firstMinted_le : s.firstMinted ≤ s.supply.next
  lt_next {v : Handle} : v ∈ s.sets → v < s.supply.next
  leaf {v e : Handle} : e ∈ s.setOf v → s.Leaf e
  recorded {v : Handle} {fields : Fields} : s.records[v]? = some fields → v ∈ s.sets
  field_bound {v u : Handle} {fields : Fields} : s.records[v]? = some fields →
    some u ∈ fields → u ∈ s.sets

/-- A tuple stands for all that its fields stand for. -/
def Covers (s : Store) : Prop :=
  ∀ ⦃v u e : Handle⦄ ⦃fields : Fields⦄, s.records[v]? = some fields → some u ∈ fields →
    e ∈ s.setOf u → e ∈ s.setOf v

/-- `t` comes out of `s` by minting handles and by binding `vs`. -/
structure Extends (vs : List Handle) (s t : Store) : Prop where
  firstMinted_eq : t.firstMinted = s.firstMinted
  next_le : s.supply.next ≤ t.supply.next
  sets {v : Handle} : v ∈ s.sets → t.sets[v]? = s.sets[v]?
  records {v : Handle} : v ∈ s.sets → t.records[v]? = s.records[v]?
  bound {v : Handle} : v ∈ vs → v ∈ t.sets
  only {v : Handle} : v ∈ t.sets → v ∈ s.sets ∨ v ∈ vs ∨ s.supply.next ≤ v
  sound : t.Sound
  covers : s.Covers → t.Covers

/-! ### Sets of handles -/

theorem setOf_of_getElem? {s : Store} {v : Handle} {set : HandleSet}
    (h : s.sets[v]? = some set) : s.setOf v = set := by
  rw [setOf, h]
  rfl

theorem getElem?_of_mem {s : Store} {v : Handle} (h : v ∈ s.sets) :
    s.sets[v]? = some (s.setOf v) := by
  obtain ⟨set, hset⟩ := Option.isSome_iff_exists.1 (Std.ExtTreeMap.mem_iff_isSome_getElem?.1 h)
  rw [setOf_of_getElem? hset, hset]

theorem mem_of_getElem? {s : Store} {v : Handle} {set : HandleSet}
    (h : s.sets[v]? = some set) : v ∈ s.sets := by
  rw [Std.ExtTreeMap.mem_iff_isSome_getElem?, h]
  rfl

theorem mem_of_mem_setOf {s : Store} {v e : Handle} (h : e ∈ s.setOf v) : v ∈ s.sets := by
  by_cases hv : v ∈ s.sets
  · exact hv
  · rw [setOf, Std.ExtTreeMap.getElem?_eq_none hv] at h
    exact absurd h Std.ExtTreeSet.not_mem_empty

theorem identities_eq_ok {s : Store} {v : Handle} {set : HandleSet} :
    s.identities v = .ok set ↔ v ∈ s.sets ∧ s.setOf v = set := by
  unfold identities
  constructor
  · intro h
    split at h
    · rename_i set' hset
      obtain rfl := Except.ok.inj h
      exact ⟨mem_of_getElem? hset, setOf_of_getElem? hset⟩
    · cases h
  · rintro ⟨hv, rfl⟩
    rw [getElem?_of_mem hv]

theorem Sound.lt_of_mem_setOf {s : Store} (h : s.Sound) {v e : Handle} (he : e ∈ s.setOf v) :
    e < s.supply.next :=
  h.lt_next (mem_of_getElem? (h.leaf he).self)

/-- **The union of tracked fields holds what any of them stands for.** -/
theorem union_spec {s : Store} : ∀ {fields : Fields} {set : HandleSet},
    s.union fields = .ok set → (∀ u, some u ∈ fields → u ∈ s.sets) ∧
      ∀ e, e ∈ set ↔ ∃ u, some u ∈ fields ∧ e ∈ s.setOf u := by
  intro fields
  induction fields with
  | nil =>
    intro set h
    obtain rfl := Except.ok.inj h
    refine ⟨fun u hu => absurd hu List.not_mem_nil, fun e => ⟨fun he => ?_, ?_⟩⟩
    · exact absurd he Std.ExtTreeSet.not_mem_empty
    · rintro ⟨u, hu, _⟩
      exact absurd hu List.not_mem_nil
  | cons field rest ih =>
    intro set h
    cases field with
    | none =>
      obtain ⟨hbound, hmem⟩ := ih h
      refine ⟨fun u hu => hbound u (by simpa using hu), fun e => (hmem e).trans ?_⟩
      simp
    | some v =>
      rw [union, bind_eq_ok] at h
      obtain ⟨a, ha, h⟩ := h
      obtain ⟨others, hothers, h⟩ := bind_eq_ok.1 h
      obtain rfl := Except.ok.inj h
      obtain ⟨hv, rfl⟩ := identities_eq_ok.1 ha
      obtain ⟨hbound, hmem⟩ := ih hothers
      refine ⟨fun u hu => ?_, fun e => ?_⟩
      · rcases List.mem_cons.1 hu with heq | hu
        · exact Option.some.inj heq ▸ hv
        · exact hbound u hu
      · rw [Std.ExtTreeSet.mem_union_iff, hmem]
        constructor
        · rintro (he | ⟨u, hu, he⟩)
          · exact ⟨v, List.mem_cons_self, he⟩
          · exact ⟨u, List.mem_cons_of_mem _ hu, he⟩
        · rintro ⟨u, hu, he⟩
          rcases List.mem_cons.1 hu with heq | hu
          · exact Or.inl (Option.some.inj heq ▸ he)
          · exact Or.inr ⟨u, hu, he⟩

theorem mem_unionOfBound {s : Store} {vs : List Handle} {e : Handle} :
    e ∈ s.unionOfBound vs ↔ ∃ u ∈ vs, e ∈ s.setOf u := by
  induction vs with
  | nil => simp [unionOfBound]
  | cons v vs ih =>
    rw [show s.unionOfBound (v :: vs) = s.setOf v ∪ s.unionOfBound vs from rfl,
      Std.ExtTreeSet.mem_union_iff, ih]
    simp

/-! ### Entries and leaves -/

theorem mem_entries {s : Store} {v : Handle} {set : HandleSet} :
    (v, set) ∈ s.entries ↔ s.sets[v]? = some set := Std.ExtTreeMap.mem_toList_iff_getElem?_eq_some

/-- Entries come in the order of their handles. -/
theorem ordered_entries (s : Store) : s.entries.Pairwise fun a b => a.1 < b.1 :=
  Std.ExtTreeMap.ordered_keys_toList.imp Std.compare_eq_lt.1

/-- The leaves are the handles that stand for themselves alone. -/
theorem mem_leaves {s : Store} {e : Handle} : e ∈ s.leaves ↔ s.isLeaf e = true := by
  rw [leaves, List.mem_map, isLeaf, decide_eq_true_eq]
  constructor
  · rintro ⟨entry, hmem, rfl⟩
    obtain ⟨hmem, hset⟩ := List.mem_filter.1 hmem
    rw [← of_decide_eq_true hset]
    exact mem_entries.1 hmem
  · intro hset
    exact ⟨(e, {e}), List.mem_filter.2 ⟨mem_entries.2 hset, by simp⟩, rfl⟩

/-- Leaves come in increasing order. -/
theorem ordered_leaves (s : Store) : s.leaves.Pairwise (· < ·) :=
  List.pairwise_map.2 (s.ordered_entries.filter _)

/-! ### Growth -/

theorem Extends.refl {s : Store} (h : s.Sound) : Extends [] s s :=
  ⟨rfl, Nat.le_refl _, fun _ => rfl, fun _ => rfl, fun hv => absurd hv List.not_mem_nil, Or.inl,
    h, id⟩

theorem Extends.mem {vs : List Handle} {s t : Store} (h : Extends vs s t) {v : Handle}
    (hv : v ∈ s.sets) : v ∈ t.sets :=
  mem_of_getElem? ((h.sets hv).trans (getElem?_of_mem hv))

theorem Extends.setOf_eq {vs : List Handle} {s t : Store} (h : Extends vs s t) {v : Handle}
    (hv : v ∈ s.sets) : t.setOf v = s.setOf v := by
  rw [setOf, setOf, h.sets hv]

theorem Extends.leaf {vs : List Handle} {s t : Store} (h : Extends vs s t) {e : Handle}
    (he : s.Leaf e) : t.Leaf e :=
  ⟨h.firstMinted_eq ▸ he.minted, (h.sets (mem_of_getElem? he.self)).trans he.self⟩

/-- What is bound one after the other is bound together. -/
theorem Extends.trans {vs vs' : List Handle} {s t r : Store} (h : Extends vs s t)
    (h' : Extends vs' t r) : Extends (vs ++ vs') s r := by
  refine ⟨h'.firstMinted_eq.trans h.firstMinted_eq, Nat.le_trans h.next_le h'.next_le,
    fun hv => (h'.sets (h.mem hv)).trans (h.sets hv),
    fun hv => (h'.records (h.mem hv)).trans (h.records hv), fun hv => ?_, fun hv => ?_, h'.sound,
    fun hc => h'.covers (h.covers hc)⟩
  · rcases List.mem_append.1 hv with hv | hv
    · exact h'.mem (h.bound hv)
    · exact h'.bound hv
  · rw [List.mem_append]
    rcases h'.only hv with hv | hv | hle
    · rcases h.only hv with hv | hv | hle
      · exact Or.inl hv
      · exact Or.inr (Or.inl (Or.inl hv))
      · exact Or.inr (Or.inr hle)
    · exact Or.inr (Or.inl (Or.inr hv))
    · exact Or.inr (Or.inr (Nat.le_trans h.next_le hle))

theorem sets_empty {size : Nat} {v : Handle} : v ∉ (empty size).sets :=
  Std.ExtTreeMap.not_mem_empty

theorem records_empty {size : Nat} {v : Handle} : (empty size).records[v]? = none :=
  Std.ExtTreeMap.getElem?_empty

theorem sound_empty (size : Nat) : (empty size).Sound := by
  refine ⟨Nat.le_refl _, fun hv => absurd hv sets_empty, fun he => ?_, fun hr => ?_, fun hr => ?_⟩
  · exact absurd (mem_of_mem_setOf he) sets_empty
  · rw [records_empty] at hr
    cases hr
  · rw [records_empty] at hr
    cases hr

theorem covers_empty (size : Nat) : (empty size).Covers := fun v u e fields hr => by
  rw [records_empty] at hr
  cases hr

/-- Growth by minting does not show in the handles that are bound besides. -/
theorem Extends.trans_minting {vs : List Handle} {s t r : Store} (h : Extends [] s t)
    (h' : Extends vs t r) : Extends vs s r := h.trans h'

/-- Handles that are newly minted need no mention. -/
theorem Extends.forget {vs : List Handle} {s t : Store} (h : Extends vs s t)
    (hvs : ∀ v ∈ vs, s.supply.next ≤ v) : Extends [] s t :=
  ⟨h.firstMinted_eq, h.next_le, h.sets, h.records, fun hv => absurd hv List.not_mem_nil,
    fun hv => (h.only hv).imp_right fun h => Or.inr (h.elim (hvs _) id), h.sound, h.covers⟩

/-- A handle of the program is bound by name only. -/
theorem Extends.not_mem {vs : List Handle} {s t : Store} (h : Extends vs s t) (hs : s.Sound)
    {v : Handle} (hv : v ∉ s.sets) (hlt : v < s.firstMinted) (hvs : v ∉ vs) : v ∉ t.sets := by
  intro hmem
  rcases h.only hmem with hmem | hmem | hle
  · exact hv hmem
  · exact hvs hmem
  · exact Nat.not_le.2 hlt (Nat.le_trans hs.firstMinted_le hle)

theorem Sound.record_eq_none {s : Store} (h : s.Sound) {v : Handle} (hv : v ∉ s.sets) :
    s.records[v]? = none := by
  cases hr : s.records[v]? with
  | none => rfl
  | some fields => exact absurd (h.recorded hr) hv

/-- **One handle more:** its set consists of leaves or of the handle alone, and a record that
it gets is one of bound handles that the set covers. -/
theorem insert_spec {s t : Store} (hs : s.Sound) {v : Handle} {set : HandleSet}
    {r : Option Fields} (hv : v ∉ s.sets) (hfirst : t.firstMinted = s.firstMinted)
    (hle : s.supply.next ≤ t.supply.next) (hlt : v < t.supply.next)
    (hinsert : t.sets = s.sets.insert v set)
    (hrecords : ∀ u, t.records[u]? = if v = u then r else s.records[u]?)
    (hset : ∀ e ∈ set, s.Leaf e ∨ e = v ∧ set = {v} ∧ s.firstMinted ≤ v)
    (hfields : ∀ fields, r = some fields → ∀ u, some u ∈ fields →
      u ∈ s.sets ∧ (s.Covers → ∀ e ∈ s.setOf u, e ∈ set)) :
    Extends [v] s t ∧ t.setOf v = set ∧ t.records[v]? = r := by
  have hsets : ∀ u, t.sets[u]? = if v = u then some set else s.sets[u]? := fun u => by
    rw [hinsert, Std.ExtTreeMap.getElem?_insert]
    simp only [Std.LawfulEqOrd.compare_eq_iff_eq]
  have hne : ∀ {u}, u ∈ s.sets → v ≠ u := fun hu heq => hv (heq ▸ hu)
  have hold : ∀ {u}, u ∈ s.sets → t.sets[u]? = s.sets[u]? := fun hu => by
    rw [hsets, if_neg (hne hu)]
  have hnew : t.sets[v]? = some set := by rw [hsets, if_pos rfl]
  have hmem : ∀ {u}, u ∈ s.sets → u ∈ t.sets := fun hu =>
    mem_of_getElem? ((hold hu).trans (getElem?_of_mem hu))
  have hsetOf : ∀ {u}, u ∈ s.sets → t.setOf u = s.setOf u := fun hu => by
    rw [setOf, setOf, hold hu]
  have honly : ∀ {u}, u ∈ t.sets → u ∈ s.sets ∨ u = v := by
    intro u hu
    rw [Std.ExtTreeMap.mem_iff_isSome_getElem?, hsets] at hu
    split at hu
    · rename_i heq
      exact Or.inr heq.symm
    · exact Or.inl (Std.ExtTreeMap.mem_iff_isSome_getElem?.2 hu)
  have hleaf : ∀ {e}, s.Leaf e → t.Leaf e := fun he =>
    ⟨hfirst ▸ he.minted, (hold (mem_of_getElem? he.self)).trans he.self⟩
  refine ⟨⟨hfirst, hle, hold, fun hu => ?_, fun hu => ?_, fun hu => ?_,
    ⟨?_, fun hu => ?_, fun {u e} he => ?_, fun {u fields} hr => ?_, fun {u w fields} hr hw => ?_⟩,
    fun hc u w e fields hr hw he => ?_⟩, setOf_of_getElem? hnew, by rw [hrecords, if_pos rfl]⟩
  · rw [hrecords, if_neg (hne hu)]
  · exact List.mem_singleton.1 hu ▸ mem_of_getElem? hnew
  · exact (honly hu).imp_right fun heq => Or.inl (List.mem_singleton.2 heq)
  · rw [hfirst]
    exact Nat.le_trans hs.firstMinted_le hle
  · rcases honly hu with hu | rfl
    · exact Nat.lt_of_lt_of_le (hs.lt_next hu) hle
    · exact hlt
  · rcases honly (mem_of_mem_setOf he) with hu | rfl
    · exact hleaf (hs.leaf (hsetOf hu ▸ he))
    · rw [setOf_of_getElem? hnew] at he
      rcases hset e he with he | ⟨rfl, heq, hminted⟩
      · exact hleaf he
      · exact ⟨hfirst ▸ hminted, by rw [hnew, heq]⟩
  · rw [hrecords] at hr
    split at hr
    · rename_i heq
      exact heq ▸ mem_of_getElem? hnew
    · exact hmem (hs.recorded hr)
  · rw [hrecords] at hr
    split at hr
    · exact hmem (hfields fields hr w hw).1
    · exact hmem (hs.field_bound hr hw)
  · rw [hrecords] at hr
    split at hr
    · rename_i heq
      obtain ⟨hbound, hsub⟩ := hfields fields hr w hw
      rw [hsetOf hbound] at he
      rw [← heq, setOf_of_getElem? hnew]
      exact hsub hc e he
    · rw [hsetOf (hs.field_bound hr hw)] at he
      rw [hsetOf (hs.recorded hr)]
      exact hc hr hw he

/-! ### Minting -/

/-- `t` comes out of `s` by minting `v` for the set `set`. -/
structure Mints (s t : Store) (v : Handle) (set : HandleSet) : Prop where
  grows : Extends [] s t
  next_le : s.supply.next ≤ v
  mem : v ∈ t.sets
  setOf_eq : t.setOf v = set
  record : t.records[v]? = none

/-- **A set of leaves, or of the minted handle alone, may be minted.** -/
theorem mints_mint {s : Store} (hs : s.Sound) (hint : String) (set : Handle → HandleSet)
    (hset : ∀ e ∈ set s.supply.next,
      s.Leaf e ∨ e = s.supply.next ∧ set s.supply.next = {s.supply.next}) :
    Mints s (s.mint hint set).2 (s.mint hint set).1 (set s.supply.next) := by
  have hnot : s.supply.next ∉ s.sets := fun hmem => Nat.lt_irrefl _ (hs.lt_next hmem)
  have hnone := hs.record_eq_none hnot
  obtain ⟨hext, hsetOf, hrecord⟩ := insert_spec hs (t := (s.mint hint set).2) hnot rfl
    (Nat.le_succ _) (Nat.lt_succ_self _) rfl (r := none) (fun u => by
      show s.records[u]? = _
      split
      · rename_i heq
        rw [← heq, hnone]
      · rfl)
    (fun e he => (hset e he).imp_right fun h => ⟨h.1, h.2, hs.firstMinted_le⟩)
    fun fields hr => nomatch hr
  exact ⟨hext.forget fun v hv => Nat.le_of_eq (List.mem_singleton.1 hv).symm, Nat.le_refl _,
    hext.bound List.mem_cons_self, hsetOf, hrecord⟩

theorem mints_freshLeaf {s : Store} (hs : s.Sound) (hint : String) :
    Mints s (s.freshLeaf hint).2 (s.freshLeaf hint).1 {(s.freshLeaf hint).1} :=
  mints_mint hs hint (fun v => {v}) fun e he => by
    exact Or.inr ⟨mem_singleton.1 he, rfl⟩

theorem mints_freshEmpty {s : Store} (hs : s.Sound) (hint : String) :
    Mints s (s.freshEmpty hint).2 (s.freshEmpty hint).1 ∅ :=
  mints_mint hs hint (fun _ => ∅) fun _ he => absurd he Std.ExtTreeSet.not_mem_empty

theorem mints_freshSet {s : Store} (hs : s.Sound) (hint : String) (set : HandleSet)
    (hset : ∀ e ∈ set, s.Leaf e) : Mints s (s.freshSet hint set).2 (s.freshSet hint set).1 set :=
  mints_mint hs hint (fun _ => set) fun e he => Or.inl (hset e he)

theorem mints_freshUnion {s t : Store} (hs : s.Sound) {fields : Fields} {v : Handle}
    (h : s.freshUnion fields = .ok (v, t)) : ∃ set, Mints s t v set ∧
      (∀ u, some u ∈ fields → u ∈ s.sets) ∧
        ∀ e, e ∈ set ↔ ∃ u, some u ∈ fields ∧ e ∈ s.setOf u := by
  rw [freshUnion, bind_eq_ok] at h
  obtain ⟨set, hset, h⟩ := h
  obtain ⟨hbound, hmem⟩ := union_spec hset
  have hmint := mints_freshSet hs "merge" set fun e he => by
    obtain ⟨u, _, he⟩ := (hmem e).1 he
    exact hs.leaf he
  rw [Except.ok.inj h] at hmint
  exact ⟨set, hmint, hbound, hmem⟩

theorem mints_freshUnionOf {s t : Store} (hs : s.Sound) {vs : List Handle} {v : Handle}
    (h : s.freshUnionOf vs = .ok (v, t)) : ∃ set, Mints s t v set ∧ (∀ u ∈ vs, u ∈ s.sets) ∧
      ∀ e, e ∈ set ↔ ∃ u ∈ vs, e ∈ s.setOf u := by
  obtain ⟨set, hmint, hbound, hmem⟩ := mints_freshUnion hs h
  have hsome : ∀ u, some u ∈ vs.map some ↔ u ∈ vs := fun u => by simp
  exact ⟨set, hmint, fun u hu => hbound u ((hsome u).2 hu), fun e => by simp only [hmem, hsome]⟩

theorem mints_freshDifference {s t : Store} (hs : s.Sound) {a b v : Handle}
    (h : s.freshDifference a b = .ok (v, t)) :
    Mints s t v (s.setOf a \ s.setOf b) ∧ a ∈ s.sets ∧ b ∈ s.sets := by
  rw [freshDifference, bind_eq_ok] at h
  obtain ⟨removed, hremoved, h⟩ := h
  obtain ⟨set, hset, h⟩ := bind_eq_ok.1 h
  obtain ⟨hb, rfl⟩ := identities_eq_ok.1 hremoved
  obtain ⟨ha, rfl⟩ := identities_eq_ok.1 hset
  have hmint := mints_freshSet hs "remove" (s.setOf a \ s.setOf b) fun e he =>
    hs.leaf (Std.ExtTreeSet.mem_diff_iff.1 he).1
  rw [Except.ok.inj h] at hmint
  exact ⟨hmint, ha, hb⟩

/-! ### Binding and recording -/

/-- **A handle bound like another has its set and its record.** -/
theorem bindLike_spec {s t : Store} (hs : s.Sound) {v d : Handle} (hv : v ∉ s.sets)
    (hlt : v < s.supply.next) (h : s.bindLike v d = .ok t) : d ∈ s.sets ∧ Extends [v] s t ∧
      t.setOf v = s.setOf d ∧ t.records[v]? = s.records[d]? := by
  have hunbound : s.binds v = false := by
    rw [binds, ← Bool.not_eq_true, ← Std.ExtTreeMap.mem_iff_contains]
    exact hv
  rw [bindLike, hunbound, if_neg Bool.false_ne_true, bind_eq_ok] at h
  obtain ⟨set, hset, h⟩ := h
  obtain ⟨hd, rfl⟩ := identities_eq_ok.1 hset
  obtain rfl := Except.ok.inj h
  refine ⟨hd, insert_spec hs hv rfl (Nat.le_refl _) hlt rfl (fun u => ?_)
    (fun e he => Or.inl (hs.leaf he)) fun fields hr u hu => ?_⟩
  · have hnone := hs.record_eq_none hv
    dsimp only
    split
    · rename_i fields hr
      rw [Std.ExtTreeMap.getElem?_insert, hr]
      simp only [Std.LawfulEqOrd.compare_eq_iff_eq]
    · rename_i hr
      split
      · rename_i heq
        rw [← heq, hnone, hr]
      · rfl
  · exact ⟨hs.field_bound hr hu, fun hc e he => hc hr hu he⟩

/-- **A record may be made of a handle that was not bound before,** if the handle stands for
what the fields stand for. -/
theorem recordFields_spec {vs : List Handle} {s t : Store} (h : Extends vs s t) {v : Handle}
    (hv : v ∉ s.sets) (hmem : v ∈ t.sets) (fields : Fields)
    (hfields : ∀ u, some u ∈ fields → u ∈ t.sets ∧ ∀ e ∈ t.setOf u, e ∈ t.setOf v) :
    Extends vs s (t.recordFields v fields) ∧
      (t.recordFields v fields).records[v]? = some fields := by
  have hrecords : ∀ u, (t.recordFields v fields).records[u]? =
      if v = u then some fields else t.records[u]? := fun u => by
    simp only [recordFields, Std.ExtTreeMap.getElem?_insert, Std.LawfulEqOrd.compare_eq_iff_eq]
  have hsound := h.sound
  refine ⟨⟨h.firstMinted_eq, h.next_le, h.sets, fun {u} hu => ?_, h.bound, h.only,
    ⟨hsound.firstMinted_le, hsound.lt_next, fun he => ⟨(hsound.leaf he).1, (hsound.leaf he).2⟩,
    fun {u fs} hr => ?_,
    fun {u w fs} hr hw => ?_⟩, fun hc u w e fs hr hw he => ?_⟩, by rw [hrecords, if_pos rfl]⟩
  · rw [hrecords, if_neg fun heq : v = u => hv (heq ▸ hu)]
    exact h.records hu
  · rw [hrecords] at hr
    split at hr
    · rename_i heq
      exact heq ▸ hmem
    · exact hsound.recorded hr
  · rw [hrecords] at hr
    split at hr
    · exact (hfields w (Option.some.inj hr ▸ hw)).1
    · exact hsound.field_bound hr hw
  · rw [hrecords] at hr
    split at hr
    · rename_i heq
      exact heq ▸ (hfields w (Option.some.inj hr ▸ hw)).2 e he
    · exact h.covers hc hr hw he

/-! ### Values of a type -/

mutual

/-- **A value of a type stands for new buffers only.** -/
theorem freshValue_spec : ∀ (ty : Ty) {s : Store} (hint : String), s.Sound →
    Extends [] s (s.freshValue hint ty).2 ∧
      (s.freshValue hint ty).1 ∈ (s.freshValue hint ty).2.sets ∧
      s.supply.next ≤ (s.freshValue hint ty).1 ∧
      ∀ e ∈ (s.freshValue hint ty).2.setOf (s.freshValue hint ty).1, s.supply.next ≤ e
  | .tensor, s, hint, hs | .other _, s, hint, hs => by
    have hmint := mints_freshLeaf hs hint
    rw [freshValue]
    refine ⟨hmint.grows, hmint.mem, hmint.next_le, fun e he => ?_⟩
    rw [hmint.setOf_eq, mem_singleton] at he
    exact he ▸ hmint.next_le
  | .func, s, hint, hs => by
    have hmint := mints_freshEmpty hs hint
    rw [freshValue]
    refine ⟨hmint.grows, hmint.mem, hmint.next_le, fun e he => ?_⟩
    rw [hmint.setOf_eq] at he
    exact absurd he Std.ExtTreeSet.not_mem_empty
  | .tuple tys, s, hint, hs => by
    obtain ⟨hgrow, hfields⟩ := freshValues_spec tys hint 0 hs
    rcases hvalues : s.freshValues hint 0 tys with ⟨vs, t⟩
    rw [hvalues] at hgrow hfields
    simp only [freshValue, hvalues]
    have hmint := mints_freshSet hgrow.sound "merge" (t.unionOfBound vs) fun e he => by
      obtain ⟨u, _, he⟩ := mem_unionOfBound.1 he
      exact hgrow.sound.leaf he
    have hle := Nat.le_trans hgrow.next_le hmint.next_le
    obtain ⟨hext, _⟩ := recordFields_spec (hgrow.trans_minting hmint.grows)
      (fun hmem => Nat.not_lt.2 hle (hs.lt_next hmem)) hmint.mem (vs.map some)
      fun u hu => by
        have hu : u ∈ vs := by simpa using hu
        refine ⟨hmint.grows.mem (hfields u hu).1, fun e he => ?_⟩
        rw [hmint.grows.setOf_eq (hfields u hu).1] at he
        rw [hmint.setOf_eq, mem_unionOfBound]
        exact ⟨u, hu, he⟩
    refine ⟨hext, hmint.mem, hle, fun e he => ?_⟩
    have he' : e ∈ t.unionOfBound vs := hmint.setOf_eq ▸ he
    obtain ⟨u, hu, he'⟩ := mem_unionOfBound.1 he'
    exact (hfields u hu).2 e he'

/-- The same for the fields of a tuple. -/
theorem freshValues_spec : ∀ (tys : List Ty) {s : Store} (hint : String) (i : Nat), s.Sound →
    Extends [] s (s.freshValues hint i tys).2 ∧ ∀ v ∈ (s.freshValues hint i tys).1,
      v ∈ (s.freshValues hint i tys).2.sets ∧
        ∀ e ∈ (s.freshValues hint i tys).2.setOf v, s.supply.next ≤ e
  | [], s, _, _, hs => ⟨.refl hs, fun _ hv => absurd hv List.not_mem_nil⟩
  | ty :: tys, s, hint, i, hs => by
    obtain ⟨hgrow, hmem, _, hnew⟩ := freshValue_spec ty (hint ++ "." ++ toString i) hs
    obtain ⟨hgrow', hrest⟩ := freshValues_spec tys hint (i + 1) hgrow.sound
    rw [freshValues]
    refine ⟨hgrow.trans_minting hgrow', fun v hv => ?_⟩
    rcases List.mem_cons.1 hv with rfl | hv
    · refine ⟨hgrow'.mem hmem, fun e he => hnew e ?_⟩
      rwa [hgrow'.setOf_eq hmem] at he
    · obtain ⟨hv', hnew'⟩ := hrest v hv
      exact ⟨hv', fun e he => Nat.le_trans hgrow.next_le (hnew' e he)⟩

end

/-! ### Entries of tuples -/

/-- The handle of a field, if the field is tracked. -/
def fieldAt? (s : Store) (v : Handle) (index : Nat) : Option Handle :=
  ((s.records[v]?).bind (·[index]?)).join

/-- The entry that a path of tuple indices leads to through tracked fields. -/
def entryAt? (s : Store) : List Nat → Handle → Option Handle
  | [], v => some v
  | index :: path, v => (s.fieldAt? v index).bind (s.entryAt? path)

section Entries

variable {s : Store} {v w : Handle}

theorem fieldAt?_eq_some_iff {index : Nat} : s.fieldAt? v index = some w ↔
    ∃ fields, s.records[v]? = some fields ∧ fields[index]? = some (some w) := by
  simp [fieldAt?, Option.join_eq_some_iff, Option.bind_eq_some_iff]

theorem entryAt?_cons_eq_some_iff {index : Nat} {path : List Nat} :
    s.entryAt? (index :: path) v = some w ↔
      ∃ u, s.fieldAt? v index = some u ∧ s.entryAt? path u = some w := by
  rw [entryAt?, Option.bind_eq_some_iff]

/-- **A tuple stands for all that its entries stand for.** -/
theorem mem_setOf_of_entryAt (hc : s.Covers) {x : Handle} : ∀ {path : List Nat} {v : Handle},
    s.entryAt? path v = some w → x ∈ s.setOf w → x ∈ s.setOf v := by
  intro path
  induction path with
  | nil =>
    intro v h hx
    rwa [Option.some.inj h]
  | cons index path ih =>
    intro v h hx
    obtain ⟨u, hu, h⟩ := entryAt?_cons_eq_some_iff.1 h
    obtain ⟨fields, hfields, hindex⟩ := fieldAt?_eq_some_iff.1 hu
    exact hc hfields (List.mem_of_getElem? hindex) (ih h hx)

/-- Handles with one record have the same entries below them. -/
theorem fieldAt?_congr {u : Handle} (h : s.records[v]? = s.records[u]?) (index : Nat) :
    s.fieldAt? v index = s.fieldAt? u index := by
  rw [fieldAt?, fieldAt?, h]

/-- The entries of a bound handle are bound, and stay the same in a store that has grown. -/
theorem entryAt?_extends {vs : List Handle} {t : Store} (hs : s.Sound) (h : Extends vs s t) :
    ∀ (path : List Nat) {v : Handle}, v ∈ s.sets → t.entryAt? path v = s.entryAt? path v ∧
      ∀ w, s.entryAt? path v = some w → w ∈ s.sets := by
  intro path
  induction path with
  | nil =>
    intro v hv
    refine ⟨rfl, fun w hw => ?_⟩
    rwa [← Option.some.inj hw]
  | cons index path ih =>
    intro v hv
    have hfield : t.fieldAt? v index = s.fieldAt? v index := by
      rw [fieldAt?, fieldAt?, h.records hv]
    rw [entryAt?, entryAt?, hfield]
    cases hu : s.fieldAt? v index with
    | none => exact ⟨rfl, fun w hw => nomatch hw⟩
    | some u =>
      obtain ⟨fields, hfields, hindex⟩ := fieldAt?_eq_some_iff.1 hu
      exact ih (hs.field_bound hfields (List.mem_of_getElem? hindex))

end Entries

end Store

end Identity
end TensorLiveness
