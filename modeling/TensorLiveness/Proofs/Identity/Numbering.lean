/-
# Numbers of minted handles

Numbers are given in order and never again, and what is bound stays bound.  `Store.Later s t` says
so of a store `t` that comes out of `s`, and no more: it asks nothing of the handles and sets that
an operation is given, so it is there for programs that no resolution has gone through as well.

| operation | what it comes to |
| --- | --- |
| `mint` and what is made of it, `freshValue` | `Store.MintsOnly` |
| `recordFields` | `Store.MintsOnly`, with nothing minted |
| `bindLike` | `Store.Later` |
-/

import TensorLiveness.Proofs.Identity.Faults

namespace TensorLiveness
namespace Identity
namespace Store

open Program

/-- The numbers that `t` gives come behind those that `s` gives, and `t` binds more. -/
structure Later (s t : Store) : Prop where
  firstMinted_eq : t.firstMinted = s.firstMinted
  next_le : s.supply.next ≤ t.supply.next
  mem {v : Handle} : v ∈ s.sets → v ∈ t.sets
  sets {v : Handle} : v < s.supply.next → v ∈ s.sets → t.sets[v]? = s.sets[v]?
  minted {v : Handle} : s.supply.next ≤ v → v < t.supply.next → v ∈ t.sets

/-- All that `t` binds besides is newly minted. -/
structure MintsOnly (s t : Store) : Prop extends Later s t where
  only {v : Handle} : v ∈ t.sets → v ∈ s.sets ∨ s.supply.next ≤ v ∧ v < t.supply.next

variable {s t r : Store} {v : Handle}

theorem Later.refl (s : Store) : Later s s :=
  ⟨rfl, Nat.le_refl _, id, fun _ _ => rfl, fun hle hlt => absurd hlt (Nat.not_lt.2 hle)⟩

theorem Later.trans (h : Later s t) (h' : Later t r) : Later s r := by
  refine ⟨h'.firstMinted_eq.trans h.firstMinted_eq, Nat.le_trans h.next_le h'.next_le,
    fun hv => h'.mem (h.mem hv), fun hlt hv => ?_, fun {v} hle hlt => ?_⟩
  · rw [h'.sets (Nat.lt_of_lt_of_le hlt h.next_le) (h.mem hv), h.sets hlt hv]
  · rcases Nat.lt_or_ge v t.supply.next with hlt' | hle'
    · exact h'.mem (h.minted hle hlt')
    · exact h'.minted hle' hlt

theorem MintsOnly.refl (s : Store) : MintsOnly s s := ⟨.refl s, Or.inl⟩

theorem MintsOnly.trans (h : MintsOnly s t) (h' : MintsOnly t r) : MintsOnly s r := by
  refine ⟨h.toLater.trans h'.toLater, fun hv => ?_⟩
  rcases h'.only hv with hv | ⟨hle, hlt⟩
  · exact (h.only hv).imp_right fun hnew => ⟨hnew.1, Nat.lt_of_lt_of_le hnew.2 h'.next_le⟩
  · exact Or.inr ⟨Nat.le_trans h.next_le hle, hlt⟩

/-- A handle without a number from the supply has the set that it had. -/
theorem MintsOnly.getElem?_eq (h : MintsOnly s t) (hlt : v < s.supply.next) :
    t.sets[v]? = s.sets[v]? := by
  by_cases hv : v ∈ s.sets
  · exact h.sets hlt hv
  · have hv' : v ∉ t.sets := fun hmem =>
      (h.only hmem).elim hv fun hnew => Nat.not_lt.2 hnew.1 hlt
    rw [Std.ExtTreeMap.getElem?_eq_none hv, Std.ExtTreeMap.getElem?_eq_none hv']

/-! ### One handle -/

theorem getElem?_mint (s : Store) (hint : String) (set : Handle → HandleSet) (v : Handle) :
    (s.mint hint set).2.sets[v]? =
      if s.supply.next = v then some (set s.supply.next) else s.sets[v]? := by
  show (s.sets.insert s.supply.next (set s.supply.next))[v]? = _
  simp only [Std.ExtTreeMap.getElem?_insert, Std.LawfulEqOrd.compare_eq_iff_eq]

theorem setOf_mint (s : Store) (hint : String) (set : Handle → HandleSet) (v : Handle) :
    (s.mint hint set).2.setOf v = if s.supply.next = v then set s.supply.next else s.setOf v := by
  rw [setOf, getElem?_mint]
  split <;> rfl

theorem mem_mint (s : Store) (hint : String) (set : Handle → HandleSet) :
    (s.mint hint set).1 ∈ (s.mint hint set).2.sets := Std.ExtTreeMap.mem_insert_self

theorem mintsOnly_mint (s : Store) (hint : String) (set : Handle → HandleSet) :
    MintsOnly s (s.mint hint set).2 := by
  refine ⟨⟨rfl, Nat.le_succ _, fun hv => Std.ExtTreeMap.mem_insert.2 (Or.inr hv), fun hlt _ => ?_,
    fun hle hlt => ?_⟩, fun {v} hv => ?_⟩
  · rw [getElem?_mint, if_neg (Nat.ne_of_gt hlt)]
  · obtain rfl := Nat.le_antisymm hle (Nat.le_of_lt_succ hlt)
    exact mem_mint s hint set
  · rcases Std.ExtTreeMap.mem_insert.1 hv with heq | hv
    · obtain rfl := Std.LawfulEqOrd.compare_eq_iff_eq.1 heq
      exact Or.inr ⟨Nat.le_refl _, Nat.lt_succ_self _⟩
    · exact Or.inl hv

theorem mintsOnly_recordFields (s : Store) (v : Handle) (fields : Fields) :
    MintsOnly s (s.recordFields v fields) := by
  have h := Later.refl s
  exact ⟨⟨rfl, Nat.le_refl _, id, h.sets, h.minted⟩, Or.inl⟩

/-! ### Operations that may fail -/

/-- The fault is about a handle that is not bound. -/
def Lacks (s : Store) (fault : Fault) : Prop := ∃ v, v ∉ s.sets ∧ fault = .unbound v

theorem identities_lacks (s : Store) (v : Handle) :
    Ends (s.identities v) (fun _ => True) s.Lacks :=
  (identities_ends s v).mono (fun _ _ => trivial) fun _ h => ⟨v, h⟩

theorem freshUnion_mints (s : Store) (fields : Fields) : Ends (s.freshUnion fields)
    (fun m => ∃ set, m = s.mint "merge" fun _ => set) s.Lacks := by
  refine ((union_ends s fields).mono (fun _ h => h) fun e he => ?_).bind fun set _ => ⟨set, rfl⟩
  obtain ⟨v, -, h⟩ := he
  exact ⟨v, h⟩

theorem freshDifference_mints (s : Store) (a b : Handle) : Ends (s.freshDifference a b)
    (fun m => ∃ set, m = s.mint "remove" fun _ => set) s.Lacks :=
  (identities_lacks s b).bind fun removed _ => (identities_lacks s a).bind fun set _ =>
    ⟨set \ removed, rfl⟩

/-- What `bindLike` changes: a handle that was not bound gets a set, and there may be a record. -/
theorem bindLike_binds (s : Store) (v d : Handle) : Ends (s.bindLike v d)
    (fun t => t = s ∨ v ∉ s.sets ∧
      ∃ set records, t = { s with sets := s.sets.insert v set, records := records }) s.Lacks := by
  rw [bindLike]
  split
  · exact Or.inl rfl
  · rename_i hv
    refine (identities_lacks s d).bind fun set _ => Or.inr ⟨fun hmem => hv ?_, set, _, rfl⟩
    exact Std.ExtTreeMap.mem_iff_contains.1 hmem

theorem later_insert (hv : v ∉ s.sets) (set : HandleSet) (records : Std.ExtTreeMap Handle Fields) :
    Later s { s with sets := s.sets.insert v set, records := records } := by
  refine ⟨rfl, Nat.le_refl _, fun hu => Std.ExtTreeMap.mem_insert.2 (Or.inr hu), fun _ hu => ?_,
    fun hle hlt => absurd hlt (Nat.not_lt.2 hle)⟩
  rw [Std.ExtTreeMap.getElem?_insert, if_neg]
  rw [Std.LawfulEqOrd.compare_eq_iff_eq]
  exact fun heq => hv (heq ▸ hu)

theorem freshUnion_later (s : Store) (fields : Fields) :
    Ends (s.freshUnion fields) (fun m => Later s m.2) fun _ => True := by
  refine (freshUnion_mints s fields).mono (fun m hm => ?_) fun _ _ => trivial
  obtain ⟨set, rfl⟩ := hm
  exact (mintsOnly_mint s "merge" fun _ => set).toLater

theorem bindLike_later (s : Store) (v d : Handle) :
    Ends (s.bindLike v d) (Later s) fun _ => True := by
  refine (bindLike_binds s v d).mono (fun t ht => ?_) fun _ _ => trivial
  rcases ht with rfl | ⟨hv, set, records, rfl⟩
  · exact .refl t
  · exact later_insert hv set records

/-! ### Values -/

mutual

/-- A value of a type takes one number for each buffer, function and tuple in it. -/
theorem mintsOnly_freshValue : ∀ (ty : Ty) (s : Store) (hint : String),
    MintsOnly s (s.freshValue hint ty).2
  | .tensor, s, hint | .other _, s, hint => mintsOnly_mint s hint fun v => {v}
  | .func, s, hint => mintsOnly_mint s hint fun _ => ∅
  | .tuple tys, s, hint => by
    have hfields := mintsOnly_freshValues tys s hint 0
    rw [freshValue]
    exact (hfields.trans (mintsOnly_mint _ "merge" fun _ => _)).trans (mintsOnly_recordFields _ _ _)

/-- The same for the fields of a tuple. -/
theorem mintsOnly_freshValues : ∀ (tys : List Ty) (s : Store) (hint : String) (i : Nat),
    MintsOnly s (s.freshValues hint i tys).2
  | [], s, _, _ => .refl s
  | ty :: tys, s, hint, i => by
    rw [freshValues]
    exact (mintsOnly_freshValue ty s _).trans (mintsOnly_freshValues tys _ hint (i + 1))

end

/-- **A value takes numbers up to its own,** which is the last. -/
theorem freshValue_last (ty : Ty) (s : Store) (hint : String) :
    s.supply.next ≤ (s.freshValue hint ty).1 ∧
      (s.freshValue hint ty).2.supply.next = (s.freshValue hint ty).1 + 1 := by
  cases ty with
  | tensor => exact ⟨Nat.le_refl _, rfl⟩
  | func => exact ⟨Nat.le_refl _, rfl⟩
  | other name => exact ⟨Nat.le_refl _, rfl⟩
  | tuple tys =>
    rw [freshValue]
    exact ⟨(mintsOnly_freshValues tys s hint 0).next_le, rfl⟩

/-- A value is bound. -/
theorem mem_freshValue (ty : Ty) (s : Store) (hint : String) :
    (s.freshValue hint ty).1 ∈ (s.freshValue hint ty).2.sets := by
  obtain ⟨hle, hnext⟩ := freshValue_last ty s hint
  exact (mintsOnly_freshValue ty s hint).minted hle (hnext ▸ Nat.lt_succ_self _)

/-- The fields of a value are bound. -/
theorem mem_freshValues : ∀ (tys : List Ty) (s : Store) (hint : String) (i : Nat),
    ∀ v ∈ (s.freshValues hint i tys).1, v ∈ (s.freshValues hint i tys).2.sets := by
  intro tys
  induction tys with
  | nil => exact fun _ _ _ _ hv => absurd hv List.not_mem_nil
  | cons ty tys ih =>
    intro s hint i v hv
    rw [freshValues] at hv ⊢
    rcases List.mem_cons.1 hv with rfl | hv
    · exact (mintsOnly_freshValues tys _ hint (i + 1)).mem (mem_freshValue ty s _)
    · exact ih _ hint (i + 1) v hv

end Store
end Identity
end TensorLiveness
