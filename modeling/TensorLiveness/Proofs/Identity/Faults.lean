/-
# How a computation ends

`Ends x P E` says at once what a computation achieves and what it can fail for: it comes to a
value that `P` holds of, or to a fault that `E` holds of.  `Ends.bind` puts computations
together, so one induction over a pass tells both.

| operation on a store | fails for |
| --- | --- |
| `identities` | the handle, if it is not bound |
| `freshUnion`, `freshUnionOf` | a field that is not bound |
| `freshDifference` | either handle, if it is not bound |
| `bindLike` | the handle to be like, if it is not bound |

Binders of a program need not be unique for this.  `Store.Keeps` is what is left of growth then:
what is bound stays bound, and sets still consist of leaves.
-/

import TensorLiveness.Proofs.Identity.Store

namespace TensorLiveness
namespace Identity

open Program

/-- A fault that lies with the types of a program: a parameter that is neither a buffer nor a
tuple of buffers, or a projection or a conditional that does not fit the tuples it is about. -/
inductive Fault.OfTypes : Fault → Prop
  | unsupportedParam (name ty : String) : OfTypes (.unsupportedParam name ty)
  | notATuple (v : Handle) : OfTypes (.notATuple v)
  | noSuchField (v : Handle) (index arity : Nat) : OfTypes (.noSuchField v index arity)
  | shapeMismatch (out input : Handle) : OfTypes (.shapeMismatch out input)

/-- A fault that the form check is there to rule out. -/
inductive Fault.OfForm : Fault → Prop
  | unsupportedForm (v : Handle) (kind : String) : OfForm (.unsupportedForm v kind)
  | unnamedResult : OfForm .unnamedResult
  | pointWithoutLiveSet (v : Handle) : OfForm (.pointWithoutLiveSet v)
  | unknownIdentity (v : Handle) : OfForm (.unknownIdentity v)

theorem Fault.OfForm.not_ofTypes {fault : Fault} (h : fault.OfForm) : ¬ fault.OfTypes := by
  intro htypes
  cases h <;> cases htypes

/-! ### Two ways to end -/

section Ends

variable {α β : Type} {P Q : α → Prop} {R : β → Prop} {E E' : Fault → Prop} {x : Except Fault α}

/-- A computation comes to a value that `P` holds of, or to a fault that `E` holds of. -/
def Ends (x : Except Fault α) (P : α → Prop) (E : Fault → Prop) : Prop :=
  match x with
  | .ok a => P a
  | .error e => E e

/-- Any computation comes to a value or to a fault. -/
theorem Ends.any (x : Except Fault α) : Ends x (fun _ => True) fun _ => True := by
  cases x <;> trivial

theorem Ends.of_ok {a : α} (h : Ends x P E) (hx : x = .ok a) : P a := by
  subst hx
  exact h

theorem Ends.of_error {e : Fault} (h : Ends x P E) (hx : x = .error e) : E e := by
  subst hx
  exact h

/-- A computation that fails for nothing succeeds. -/
theorem Ends.exists_ok (h : Ends x P E) (hE : ∀ e, ¬ E e) : ∃ a, x = .ok a ∧ P a := by
  cases x with
  | ok a => exact ⟨a, rfl, h⟩
  | error e => exact absurd h (hE e)

theorem Ends.mono (h : Ends x P E) (hP : ∀ a, P a → Q a) (hE : ∀ e, E e → E' e) :
    Ends x Q E' := by
  cases x with
  | ok a => exact hP a h
  | error e => exact hE e h

/-- What is known of a success may be added to what is known of the failures. -/
theorem Ends.with_ok (h : Ends x P E) (hP : ∀ a, x = .ok a → P a → Q a) : Ends x Q E := by
  cases x with
  | ok a => exact hP a rfl h
  | error e => exact h

/-- **Two computations in a row** fail for what either fails for. -/
theorem Ends.bind {f : α → Except Fault β} (h : Ends x P E) (hf : ∀ a, P a → Ends (f a) R E) :
    Ends (x >>= f) R E := by
  cases x with
  | ok a => exact hf a h
  | error e => exact h

theorem Ends.map {f : α → β} (h : Ends x P E) (hf : ∀ a, P a → R (f a)) :
    Ends (x.map f) R E := by
  cases x with
  | ok a => exact hf a h
  | error e => exact h

end Ends

namespace Store

/-- How a store grows while the binders of a program may be repeated. -/
structure Keeps (s t : Store) : Prop where
  firstMinted_eq : t.firstMinted = s.firstMinted
  mem {v : Handle} : v ∈ s.sets → v ∈ t.sets
  sound : t.Sound

theorem Keeps.refl {s : Store} (h : s.Sound) : Keeps s s := ⟨rfl, id, h⟩

theorem Keeps.trans {s t r : Store} (h : Keeps s t) (h' : Keeps t r) : Keeps s r :=
  ⟨h'.firstMinted_eq.trans h.firstMinted_eq, fun hv => h'.mem (h.mem hv), h'.sound⟩

theorem Extends.keeps {vs : List Handle} {s t : Store} (h : Extends vs s t) : Keeps s t :=
  ⟨h.firstMinted_eq, h.mem, h.sound⟩

/-- A record of bound handles may be made of a bound handle. -/
theorem keeps_recordFields {s : Store} (hs : s.Sound) {v : Handle} (hv : v ∈ s.sets)
    {fields : Fields} (hfields : ∀ u, some u ∈ fields → u ∈ s.sets) :
    Keeps s (s.recordFields v fields) := by
  have hrecords : ∀ u, (s.recordFields v fields).records[u]? =
      if v = u then some fields else s.records[u]? := fun u => by
    simp only [recordFields, Std.ExtTreeMap.getElem?_insert, Std.LawfulEqOrd.compare_eq_iff_eq]
  refine ⟨rfl, id, ⟨hs.firstMinted_le, hs.lt_next, fun he => ⟨(hs.leaf he).1, (hs.leaf he).2⟩,
    fun {u fs} hr => ?_, fun {u w fs} hr hw => ?_⟩⟩
  · rw [hrecords] at hr
    split at hr
    · rename_i heq
      exact heq ▸ hv
    · exact hs.recorded hr
  · rw [hrecords] at hr
    split at hr
    · exact hfields w (Option.some.inj hr ▸ hw)
    · exact hs.field_bound hr hw

/-! ### Operations -/

section Operations

variable {s : Store} {v d : Handle}

theorem identities_ends (s : Store) (v : Handle) : Ends (s.identities v)
    (fun set => v ∈ s.sets ∧ s.setOf v = set) fun e => v ∉ s.sets ∧ e = .unbound v := by
  by_cases hv : v ∈ s.sets
  · have hok : s.identities v = .ok (s.setOf v) := identities_eq_ok.2 ⟨hv, rfl⟩
    rw [hok]
    exact ⟨hv, rfl⟩
  · have herror : s.identities v = .error (.unbound v) := by
      rw [identities, Std.ExtTreeMap.getElem?_eq_none hv]
    rw [herror]
    exact ⟨hv, rfl⟩

/-- A union fails for an unbound field. -/
theorem union_ends (s : Store) : ∀ fields : Fields, Ends (s.union fields) (fun _ => True)
    fun e => ∃ u, some u ∈ fields ∧ u ∉ s.sets ∧ e = .unbound u := by
  intro fields
  induction fields with
  | nil => exact trivial
  | cons field rest ih =>
    have hrest : Ends (s.union rest) (fun _ => True)
        fun e => ∃ u, some u ∈ field :: rest ∧ u ∉ s.sets ∧ e = .unbound u := by
      refine ih.mono (fun _ h => h) fun e he => ?_
      obtain ⟨u, hu, h⟩ := he
      exact ⟨u, List.mem_cons_of_mem _ hu, h⟩
    cases field with
    | none => exact hrest
    | some u =>
      refine ((identities_ends s u).mono (fun _ h => h) fun e he => ?_).bind fun set _ =>
        hrest.bind fun _ _ => trivial
      exact ⟨u, List.mem_cons_self, he⟩

/-- What minting a union comes to. -/
theorem freshUnion_ends (hs : s.Sound) (fields : Fields) : Ends (s.freshUnion fields)
    (fun m => Extends [] s m.2 ∧ m.1 ∈ m.2.sets ∧ ∀ u, some u ∈ fields → u ∈ s.sets)
    fun e => ∃ u, some u ∈ fields ∧ u ∉ s.sets ∧ e = .unbound u := by
  have h : Ends (s.freshUnion fields) (fun _ => True)
      fun e => ∃ u, some u ∈ fields ∧ u ∉ s.sets ∧ e = .unbound u :=
    (union_ends s fields).bind fun _ _ => trivial
  refine h.with_ok fun m hm _ => ?_
  obtain ⟨set, hmint, hbound, _⟩ := mints_freshUnion hs hm
  exact ⟨hmint.grows, hmint.mem, hbound⟩

theorem freshUnionOf_ends (hs : s.Sound) (vs : List Handle) : Ends (s.freshUnionOf vs)
    (fun m => Extends [] s m.2 ∧ m.1 ∈ m.2.sets)
    fun e => ∃ u ∈ vs, u ∉ s.sets ∧ e = .unbound u := by
  refine (freshUnion_ends hs (vs.map some)).mono (fun m h => ⟨h.1, h.2.1⟩) fun e he => ?_
  obtain ⟨u, hu, h⟩ := he
  exact ⟨u, by simpa using hu, h⟩

/-- A difference fails for either side. -/
theorem freshDifference_ends (hs : s.Sound) (a b : Handle) : Ends (s.freshDifference a b)
    (fun m => Extends [] s m.2 ∧ m.1 ∈ m.2.sets)
    fun e => (a ∉ s.sets ∧ e = .unbound a) ∨ b ∉ s.sets ∧ e = .unbound b := by
  have h : Ends (s.freshDifference a b) (fun _ => True)
      fun e => (a ∉ s.sets ∧ e = .unbound a) ∨ b ∉ s.sets ∧ e = .unbound b := by
    rw [freshDifference]
    refine ((identities_ends s b).mono (fun _ h => h) fun _ => Or.inr).bind fun _ _ => ?_
    exact ((identities_ends s a).mono (fun _ h => h) fun _ => Or.inl).bind fun _ _ => trivial
  refine h.with_ok fun m hm _ => ?_
  obtain ⟨hmint, _⟩ := mints_freshDifference hs hm
  exact ⟨hmint.grows, hmint.mem⟩

/-- A binder takes after another handle, unless it is bound already. -/
theorem bindLike_ends (hs : s.Sound) (hlt : v < s.firstMinted) : Ends (s.bindLike v d)
    (fun t => Keeps s t ∧ v ∈ t.sets) fun e => d ∉ s.sets ∧ e = .unbound d := by
  by_cases hv : v ∈ s.sets
  · have hsame : s.bindLike v d = .ok s := by
      rw [bindLike, binds, if_pos (Std.ExtTreeMap.mem_iff_contains.1 hv)]
    rw [hsame]
    exact ⟨.refl hs, hv⟩
  · have h : Ends (s.bindLike v d) (fun _ => True) fun e => d ∉ s.sets ∧ e = .unbound d := by
      rw [bindLike, binds, if_neg fun h => hv (Std.ExtTreeMap.mem_iff_contains.2 h)]
      exact ((identities_ends s d).mono (fun _ _ => trivial) fun _ h => h).bind fun _ _ => trivial
    refine h.with_ok fun t ht _ => ?_
    have hnext := Nat.lt_of_lt_of_le hlt hs.firstMinted_le
    obtain ⟨_, hext, _⟩ := bindLike_spec hs hv hnext ht
    exact ⟨hext.keeps, hext.bound List.mem_cons_self⟩

end Operations

end Store

end Identity
end TensorLiveness
