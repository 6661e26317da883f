/-
# What binding can fail for

Parameters fail for their types.  A flat sequence gives propagation one reason more: a variable
that occurs free in it and is not bound (`FailsFor`).  Binders may be repeated and references may
dangle; all that is asked is that the binders have a place in the table, so that nothing minted is
mistaken for one of them.

| lemma | what is bound |
| --- | --- |
| `bindParameters_ends` | the parameters |
| `propagateSimple_ends` | a binder of a value without inner bindings |
| `bindCond_ends` | the binder of a conditional |
| `propagate_ends` | every binder of a sequence |

Each says what is achieved as well: what has been bound stays bound, sets consist of leaves, and
demands are made of bound handles, or of the dangling result of a branch (`Answered`).
-/

import TensorLiveness.Proofs.Analysis.Run
import TensorLiveness.Proofs.Identity.Faults
import TensorLiveness.Proofs.Program.Typing

namespace TensorLiveness
namespace Analysis

open Identity Program Store

variable {vars : BinderTable}

/-! ### Dangling references -/

/-- The variable `u` occurs free in `e` and is not bound. -/
def Dangling (s : Store) (e : Expr) (u : Handle) : Prop := u ∈ e.occurrences ∧ u ∉ s.sets

namespace Dangling

variable {s t : Store} {v u : Handle} {value body : Expr}

theorem of_keeps (hk : Keeps s t) {e : Expr} (h : Dangling t e u) : Dangling s e u :=
  ⟨h.1, fun hu => h.2 (hk.mem hu)⟩

theorem letIn_value (h : Dangling s value u) : Dangling s (.letIn v value body) u :=
  ⟨List.mem_append_left _ h.1, h.2⟩

/-- What dangles behind a binding is not its variable. -/
theorem letIn_body (hk : Keeps s t) (hv : v ∈ t.sets) (h : Dangling t body u) :
    Dangling s (.letIn v value body) u := by
  have hne : u ≠ v := by
    rintro rfl
    exact h.2 hv
  refine ⟨List.mem_append_right _ ?_, fun hu => h.2 (hk.mem hu)⟩
  exact List.mem_filter.2 ⟨h.1, decide_eq_true hne⟩

theorem branch {inner : Scope} {taken : Expr} (hbranch : BranchOf v value inner taken)
    (h : Dangling s taken u) : Dangling s value u := ⟨hbranch.occurrences h.1, h.2⟩

end Dangling

/-- The fault of a dangling reference of `e`. -/
def Dangles (s : Store) (e : Expr) (fault : Fault) : Prop :=
  ∃ u, Dangling s e u ∧ fault = .unbound u

theorem Dangles.mono {s t : Store} {e e' : Expr} {fault : Fault} (h : Dangles t e' fault)
    (hdangling : ∀ u, Dangling t e' u → Dangling s e u) : Dangles s e fault := by
  obtain ⟨u, hu, rfl⟩ := h
  exact ⟨u, hdangling u hu, rfl⟩

/-- The faults that propagation can end with on `e`. -/
def FailsFor (s : Store) (e : Expr) (fault : Fault) : Prop := fault.OfTypes ∨ Dangles s e fault

theorem FailsFor.mono {s t : Store} {e e' : Expr} {fault : Fault} (h : FailsFor t e' fault)
    (hdangling : ∀ u, Dangling t e' u → Dangling s e u) : FailsFor s e fault :=
  h.imp_right fun h => h.mono hdangling

/-! ### Demands -/

/-- A demand is made of bound handles, or of the dangling result of a branch. -/
def Answered (s t : Store) (e : Expr) (d : Demand) : Prop :=
  d.out ∈ t.sets ∧ (d.input ∈ t.sets ∨ Dangling s e d.input)

theorem Answered.keeps {s t t' : Store} {e : Expr} {d : Demand} (h : Answered s t e d)
    (hk : Keeps t t') : Answered s t' e d := ⟨hk.mem h.1, h.2.imp_left hk.mem⟩

theorem fieldDemands_ends {f : Handle → Handle → Except Fault (List Demand)}
    {P : Demand → Prop} {E : Fault → Prop} : ∀ {outs inputs : Fields},
      (∀ o i, some o ∈ outs → some i ∈ inputs → Ends (f o i) (fun ds => ∀ d ∈ ds, P d) E) →
        Ends (fieldDemands f outs inputs) (fun ds => ∀ d ∈ ds, P d) E
  | [], inputs, _ => by
    have hnil : fieldDemands f [] inputs = .ok [] := by cases inputs <;> rfl
    rw [hnil]
    exact fun d hd => absurd hd List.not_mem_nil
  | out :: outs, [], _ => by
    have hnil : fieldDemands f (out :: outs) [] = .ok [] := by cases out <;> rfl
    rw [hnil]
    exact fun d hd => absurd hd List.not_mem_nil
  | out :: outs, input :: inputs, h => by
    have hrest : Ends (fieldDemands f outs inputs) (fun ds => ∀ d ∈ ds, P d) E :=
      fieldDemands_ends fun o i ho hi =>
        h o i (List.mem_cons_of_mem _ ho) (List.mem_cons_of_mem _ hi)
    cases out with
    | none => exact hrest
    | some o =>
      cases input with
      | none => exact hrest
      | some i =>
        refine (h o i List.mem_cons_self List.mem_cons_self).bind fun first hfirst => ?_
        refine hrest.bind fun rest hrest => ?_
        exact fun d hd => (List.mem_append.1 hd).elim (hfirst d) (hrest d)

/-- Demands are made of bound handles below a bound one, unless the two do not fit. -/
theorem demandsWithin_ends {s : Store} (hs : s.Sound) (site : Handle) : ∀ (depth : Nat)
    {out input : Handle}, out ∈ s.sets → Ends (demandsWithin s site depth out input)
      (fun ds => ∀ d ∈ ds, d.out ∈ s.sets ∧ (d.input ∈ s.sets ∨ d.input = input))
      Fault.OfTypes := by
  intro depth
  induction depth with
  | zero =>
    intro out input hout
    rw [demandsWithin]
    split
    · intro d hd
      obtain rfl := List.mem_singleton.1 hd
      exact ⟨hout, Or.inr rfl⟩
    · split <;> exact .shapeMismatch out input
    · exact .shapeMismatch out input
  | succ depth ih =>
    intro out input hout
    rw [demandsWithin]
    split
    · intro d hd
      obtain rfl := List.mem_singleton.1 hd
      exact ⟨hout, Or.inr rfl⟩
    · rename_i outs inputs houts hinputs
      split
      · refine fieldDemands_ends fun o i ho hi => ?_
        have hi' : i ∈ s.sets := hs.field_bound hinputs hi
        refine (ih (hs.field_bound houts ho)).mono (fun ds hds d hd => ?_) fun _ h => h
        obtain ⟨hbound, hinput⟩ := hds d hd
        refine ⟨hbound, Or.inl (hinput.elim id ?_)⟩
        rintro rfl
        exact hi'
      · exact .shapeMismatch out input
    · exact .shapeMismatch out input

/-! ### Propagation -/

section Propagation

variable {p p₁ q : Propagation} {v r : Handle} {e value body : Expr}

/-- What a binding comes to. -/
structure SettlesBinding (p : Propagation) (v : Handle) (value : Expr) (q : Propagation) :
    Prop where
  keeps : Keeps p.store q.store
  bound {u : Handle} : u ∈ value.branchBindings.map (·.1) ++ [v] → u ∈ q.store.sets
  demands {d : Demand} : d ∈ q.pending → d ∈ p.pending ∨ Answered p.store q.store value d

/-- What a sequence comes to. -/
structure Settles (p : Propagation) (e : Expr) (r : Handle) (q : Propagation) : Prop where
  result_eq : e.result = .var r
  keeps : Keeps p.store q.store
  bound {u : Handle} : u ∈ e.allBindings.map (·.1) → u ∈ q.store.sets
  demands {d : Demand} : d ∈ q.pending → d ∈ p.pending ∨ Answered p.store q.store e d

/-- A binding before a sequence. -/
theorem SettlesBinding.settles (h : SettlesBinding p v value p₁) (hbody : Settles p₁ body r q) :
    Settles p (.letIn v value body) r q := by
  have hv : v ∈ p₁.store.sets := h.bound (List.mem_append_right _ List.mem_cons_self)
  refine ⟨hbody.result_eq, h.keeps.trans hbody.keeps, fun {u} hu => ?_, fun {d} hd => ?_⟩
  · rw [Expr.allBindings, List.map_append, List.map_cons, ← List.singleton_append,
      ← List.append_assoc, List.mem_append] at hu
    exact hu.elim (fun hu => hbody.keeps.mem (h.bound hu)) hbody.bound
  · rcases hbody.demands hd with hd | ⟨hout, hinput⟩
    · rcases h.demands hd with hd | hd
      · exact Or.inl hd
      · have hd := hd.keeps hbody.keeps
        exact Or.inr ⟨hd.1, hd.2.imp_right Dangling.letIn_value⟩
    · exact Or.inr ⟨hout, hinput.imp_right (Dangling.letIn_body h.keeps hv)⟩

/-- The same store with demands added. -/
theorem settlesBinding_simple (hsimple : value.Simple) (hk : Keeps p.store q.store)
    (hv : v ∈ q.store.sets) (hpending : q.pending = p.pending) : SettlesBinding p v value q := by
  refine ⟨hk, fun {u} hu => ?_, fun {d} hd => Or.inl (hpending ▸ hd)⟩
  rw [hsimple.branchBindings_eq] at hu
  exact List.mem_singleton.1 hu ▸ hv

theorem mem_occurrencesAll_of_mem_map {fields : List Expr} {u : Handle}
    (h : some u ∈ fields.map Expr.var?) : u ∈ Expr.occurrencesAll fields := by
  refine Expr.mem_occurrencesAll_of_var? ?_
  rw [List.mem_filterMap]
  simpa using h

/-- Binding to what was minted never fails. -/
theorem bindMinted_ends {m : Handle × Store} (hgrow : Store.Extends [] p.store m.2)
    (hm : m.1 ∈ m.2.sets) (hlt : v < p.store.firstMinted) : Ends (p.bindMinted v m)
      (fun q => Keeps p.store q.store ∧ v ∈ q.store.sets ∧ q.pending = p.pending)
      fun _ => False := by
  have hlt' : v < m.2.firstMinted := hgrow.firstMinted_eq ▸ hlt
  refine ((bindLike_ends (d := m.1) hgrow.sound hlt').mono (fun t h => h) fun e he => he.1 hm).bind
    fun t ht => ?_
  exact ⟨hgrow.keeps.trans ht.1, ht.2, rfl⟩

theorem bindEmpty_ends (hs : p.store.Sound) (hlt : v < p.store.firstMinted) :
    Ends (p.bindEmpty vars v)
      (fun q => Keeps p.store q.store ∧ v ∈ q.store.sets ∧ q.pending = p.pending)
      fun _ => False := by
  have hmint := mints_freshEmpty hs (hintOf vars v)
  exact bindMinted_ends hmint.grows hmint.mem hlt

/-- What the binding of a simple value can fail for. -/
inductive SimpleFault (s : Store) : Expr → Fault → Prop
  | unbound {value : Expr} {u : Handle} : Dangling s value u → SimpleFault s value (.unbound u)
  | notATuple {u index : Handle} : s.records[u]? = none →
    SimpleFault s (.get (.var u) index) (.notATuple u)
  | noSuchField {u index : Handle} {fields : Fields} : s.records[u]? = some fields →
    fields[index]? = none →
    SimpleFault s (.get (.var u) index) (.noSuchField u index fields.length)

theorem SimpleFault.failsFor {s : Store} {fault : Fault} (h : SimpleFault s value fault) :
    FailsFor s value fault := by
  cases h with
  | unbound h => exact Or.inr ⟨_, h, rfl⟩
  | notATuple _ => exact Or.inl (.notATuple _)
  | noSuchField _ _ => exact Or.inl (.noSuchField _ _ _)

/-- **The binding of a simple value.** -/
theorem propagateSimple_ends (hsimple : value.Simple) (hs : p.store.Sound)
    (hlt : v < p.store.firstMinted) : Ends (propagateBinding vars p v value)
      (fun q => Keeps p.store q.store ∧ v ∈ q.store.sets ∧ q.pending = p.pending)
      (SimpleFault p.store value) := by
  have hnever : ∀ {fault : Fault}, False → SimpleFault p.store value fault := False.elim
  cases hsimple with
  | var u =>
    refine ((bindLike_ends (d := u) hs hlt).mono (fun t h => h) fun e he => ?_).bind
      fun t ht => ⟨ht.1, ht.2, rfl⟩
    obtain ⟨hu, rfl⟩ := he
    exact .unbound ⟨List.mem_cons_self, hu⟩
  | const value => exact (bindEmpty_ends hs hlt).mono (fun _ h => h) fun _ => hnever
  | op name => exact (bindEmpty_ends hs hlt).mono (fun _ h => h) fun _ => hnever
  | call name ty _ =>
    rw [propagateBinding, Expr.isOp, if_pos rfl]
    obtain ⟨hgrow, hmem, _⟩ := freshValue_spec ty (hintOf vars v) hs
    exact (bindMinted_ends hgrow hmem hlt).mono (fun _ h => h) fun _ => hnever
  | @tuple fields hatoms =>
    rw [propagateBinding, if_pos (List.all_eq_true.2 hatoms), Propagation.bindTuple]
    refine ((freshUnion_ends hs _).mono (fun m h => h) fun e he => ?_).bind fun m hm => ?_
    · obtain ⟨u, hu, hnot, rfl⟩ := he
      exact .unbound ⟨mem_occurrencesAll_of_mem_map hu, hnot⟩
    · obtain ⟨hgrow, hmem, hfields⟩ := hm
      refine ((bindMinted_ends hgrow hmem hlt).mono (fun _ h => h) fun _ => hnever).bind
        fun q hq => ?_
      obtain ⟨hk, hv, hpending⟩ := hq
      have hrecord := keeps_recordFields hk.sound hv fun u hu => hk.mem (hfields u hu)
      exact ⟨hk.trans hrecord, hrecord.mem hv, hpending⟩
  | get u index =>
    rw [propagateBinding]
    simp only [Expr.var?, Propagation.bindField]
    split
    · rename_i hnone
      exact .notATuple hnone
    · rename_i fields hfields
      split
      · rename_i hindex
        exact .noSuchField hfields hindex
      · rename_i w hindex
        have hw := hs.field_bound hfields (List.mem_of_getElem? hindex)
        exact ((bindLike_ends (d := w) hs hlt).mono (fun t h => h) fun e he =>
          absurd hw he.1).bind fun t ht => ⟨ht.1, ht.2, rfl⟩
      · exact (bindEmpty_ends hs hlt).mono (fun _ h => h) fun _ => hnever
  | closure params body =>
    refine ((freshUnionOf_ends hs _).mono (fun m h => h) fun e he => ?_).bind fun m hm => ?_
    · obtain ⟨u, hu, hnot, rfl⟩ := he
      exact .unbound ⟨Expr.occurrences_of_freeVarsUnder hu, hnot⟩
    · exact (bindMinted_ends hm.1 hm.2 hlt).mono (fun _ h => h) fun _ => hnever

/-- **The binding of a conditional** fails only if the branches do not fit its type. -/
theorem bindCond_ends {a b : Handle} {ty : Ty} (hs : p.store.Sound)
    (hlt : v < p.store.firstMinted) : Ends (p.bindCond vars v a b ty)
      (fun q => Keeps p.store q.store ∧ v ∈ q.store.sets ∧ ∀ d ∈ q.pending, d ∈ p.pending ∨
        d.out ∈ q.store.sets ∧ (d.input ∈ q.store.sets ∨ d.input = a ∨ d.input = b))
      Fault.OfTypes := by
  rw [Propagation.bindCond]
  obtain ⟨hgrow, hmem, _⟩ := freshValue_spec ty (hintOf vars v) hs
  generalize p.store.freshValue (hintOf vars v) ty = value at hgrow hmem
  obtain ⟨out, s⟩ := value
  dsimp only at hgrow hmem
  refine (demandsWithin_ends hgrow.sound v _ hmem).bind fun first hfirst => ?_
  refine (demandsWithin_ends hgrow.sound v _ hmem).bind fun second hsecond => ?_
  have hlt' : v < s.firstMinted := hgrow.firstMinted_eq ▸ hlt
  refine ((bindLike_ends (d := out) hgrow.sound hlt').mono (fun t h => h) fun e he =>
    absurd hmem he.1).bind fun t ht => ?_
  refine ⟨hgrow.keeps.trans ht.1, ht.2, fun d hd => ?_⟩
  have hanswered : ∀ {input : Handle}, d.out ∈ s.sets ∧ (d.input ∈ s.sets ∨ d.input = input) →
      d.out ∈ t.sets ∧ (d.input ∈ t.sets ∨ d.input = input) := fun h =>
    ⟨ht.1.mem h.1, h.2.imp_left ht.1.mem⟩
  rcases List.mem_append.1 hd with hd | hd
  · rcases List.mem_append.1 hd with hd | hd
    · exact Or.inl hd
    · obtain ⟨hout, hinput⟩ := hanswered (hfirst d hd)
      exact Or.inr ⟨hout, hinput.imp_right Or.inl⟩
  · obtain ⟨hout, hinput⟩ := hanswered (hsecond d hd)
    exact Or.inr ⟨hout, hinput.imp_right Or.inr⟩

/-- The result of a sequence is bound behind it, or dangles. -/
theorem Settles.result_bound (he : e.Flat) (h : Settles p e r q) :
    r ∈ q.store.sets ∨ Dangling p.store e r := by
  obtain ⟨r', hr', hmem⟩ := he.exists_result
  obtain rfl := Expr.var.inj (h.result_eq.symm.trans hr')
  by_cases hr : r ∈ q.store.sets
  · exact Or.inl hr
  · refine Or.inr ⟨hmem.resolve_right fun hb => hr (h.bound hb), fun hb => hr (h.keeps.mem hb)⟩

/-- A conditional behind its branches. -/
theorem settlesBinding_cond {p₂ : Propagation} {a b : Handle} {test thenBranch elseBranch : Expr}
    {ty : Ty} (hthen : thenBranch.Flat) (helse : elseBranch.Flat)
    (hfirst : Settles p thenBranch a p₁) (hsecond : Settles p₁ elseBranch b p₂)
    (hk : Keeps p₂.store q.store) (hv : v ∈ q.store.sets)
    (hdemands : ∀ d ∈ q.pending, d ∈ p₂.pending ∨
      d.out ∈ q.store.sets ∧ (d.input ∈ q.store.sets ∨ d.input = a ∨ d.input = b)) :
    SettlesBinding p v (.cond test thenBranch elseBranch ty) q := by
  have hthenOf := BranchOf.thenBranch (v := v) test thenBranch elseBranch ty
  have helseOf := BranchOf.elseBranch (v := v) test thenBranch elseBranch ty
  have hkeeps := hsecond.keeps.trans hk
  -- what dangles in the second branch dangles before the first
  have hearlier : ∀ {u}, Dangling p₁.store elseBranch u →
      Dangling p.store (.cond test thenBranch elseBranch ty) u := fun h =>
    (h.of_keeps hfirst.keeps).branch helseOf
  refine ⟨hfirst.keeps.trans hkeeps, fun {u} hu => ?_, fun {d} hd => ?_⟩
  · rw [Expr.branchBindings, List.map_append, List.mem_append, List.mem_append,
      List.mem_singleton] at hu
    rcases hu with (hu | hu) | rfl
    · exact hkeeps.mem (hfirst.bound hu)
    · exact hk.mem (hsecond.bound hu)
    · exact hv
  · rcases hdemands d hd with hd | ⟨hout, hinput | rfl | rfl⟩
    · rcases hsecond.demands hd with hd | hd
      · refine (hfirst.demands hd).imp_right fun h => ?_
        have h := h.keeps hkeeps
        exact ⟨h.1, h.2.imp_right (Dangling.branch hthenOf)⟩
      · have h := hd.keeps hk
        exact Or.inr ⟨h.1, h.2.imp_right hearlier⟩
    · exact Or.inr ⟨hout, Or.inl hinput⟩
    · refine Or.inr ⟨hout, (hfirst.result_bound hthen).imp (fun h => ?_) (Dangling.branch hthenOf)⟩
      exact hkeeps.mem h
    · exact Or.inr ⟨hout, (hsecond.result_bound helse).imp (fun h => hk.mem h) hearlier⟩

/-- **Propagation fails for types or for a dangling reference,** and binds every variable of a
sequence. -/
theorem propagate_ends (he : e.Flat) : ∀ {p : Propagation}, p.store.Sound →
    (∀ v ∈ e.allBindings.map (·.1), v < p.store.firstMinted) →
      Ends (propagate vars p e) (fun a => Settles p e a.1 a.2) (FailsFor p.store e) := by
  induction he with
  | result r =>
    intro p hs _
    exact ⟨rfl, .refl hs, fun hu => absurd hu List.not_mem_nil, Or.inl⟩
  | @bind v value body hsimple hbody ih =>
    intro p hs hlt
    rw [hsimple.allBindings_letIn, List.map_cons] at hlt
    have hvalue : Ends (propagateBinding vars p v value)
        (fun q => Keeps p.store q.store ∧ v ∈ q.store.sets ∧ q.pending = p.pending)
        (SimpleFault p.store value) := propagateSimple_ends hsimple hs (hlt v List.mem_cons_self)
    refine (hvalue.mono (fun _ h => h) fun fault h => ?_).bind fun p₁ h₁ => ?_
    · exact h.failsFor.mono fun u hu => hu.letIn_value
    · obtain ⟨hk, hv, hpending⟩ := h₁
      refine (ih hk.sound fun u hu => ?_).mono (fun a ha => ?_) fun fault h => ?_
      · rw [hk.firstMinted_eq]
        exact hlt u (List.mem_cons_of_mem _ hu)
      · exact (settlesBinding_simple hsimple hk hv hpending).settles ha
      · exact h.mono fun u hu => hu.letIn_body hk hv
  | @cond v c thenBranch elseBranch body ty hthen helse hbody iht ihe ihb =>
    intro p hs hlt
    have hthenOf := BranchOf.thenBranch (v := v) (.var c) thenBranch elseBranch ty
    have helseOf := BranchOf.elseBranch (v := v) (.var c) thenBranch elseBranch ty
    rw [Expr.allBindings_cond, List.map_append, List.map_append, List.map_cons] at hlt
    have hlt' : ∀ {t : Store}, Keeps p.store t → ∀ u, u ∈ thenBranch.allBindings.map (·.1) ∨
        u ∈ elseBranch.allBindings.map (·.1) ∨ u = v ∨ u ∈ body.allBindings.map (·.1) →
          u < t.firstMinted := fun hk u hu => by
      rw [hk.firstMinted_eq]
      exact hlt u (by simpa [or_assoc] using hu)
    have hvalue : Ends (propagateBinding vars p v (.cond (.var c) thenBranch elseBranch ty))
        (SettlesBinding p v (.cond (.var c) thenBranch elseBranch ty))
        (FailsFor p.store (.cond (.var c) thenBranch elseBranch ty)) := by
      refine ((iht hs fun u hu => hlt' (.refl hs) u (Or.inl hu)).mono (fun _ h => h) fun fault h =>
        h.mono fun u hu => hu.branch hthenOf).bind fun a ha => ?_
      refine ((ihe ha.keeps.sound fun u hu => hlt' ha.keeps u (Or.inr (Or.inl hu))).mono
        (fun _ h => h) fun fault h => h.mono fun u hu =>
          (hu.of_keeps ha.keeps).branch helseOf).bind fun b hb => ?_
      have hk := ha.keeps.trans hb.keeps
      refine (bindCond_ends hk.sound (hlt' hk v (Or.inr (Or.inr (Or.inl rfl))))).mono
        (fun q hq => ?_) fun fault h => Or.inl h
      exact settlesBinding_cond hthen helse ha hb hq.1 hq.2.1 hq.2.2
    refine (hvalue.mono (fun _ h => h) fun fault h => ?_).bind fun p₁ h₁ => ?_
    · exact h.mono fun u hu => hu.letIn_value
    · have hv : v ∈ p₁.store.sets := h₁.bound (List.mem_append_right _ List.mem_cons_self)
      refine (ihb h₁.keeps.sound fun u hu => ?_).mono (fun a ha => h₁.settles ha) fun fault h => ?_
      · exact hlt' h₁.keeps u (Or.inr (Or.inr (Or.inr hu)))
      · exact h.mono fun u hu => hu.letIn_body h₁.keeps hv

end Propagation

/-! ### Parameters -/

section Parameters

variable {s : Store}

theorem leavesForFields_ends {name : String} {whole : Ty} : ∀ (tys : List Ty) {s : Store}
    {i : Nat}, s.Sound → Ends (leavesForFields name whole s i tys)
      (fun m => Store.Extends [] s m.2 ∧ ∀ v ∈ m.1, v ∈ m.2.sets)
      fun e => e.OfTypes ∧ ∃ ty ∈ tys, ty ≠ .tensor := by
  intro tys
  induction tys with
  | nil => exact fun hs => ⟨.refl hs, fun v hv => absurd hv List.not_mem_nil⟩
  | cons ty tys ih =>
    intro s i hs
    have hends : Ends (leavesForFields name whole s i (ty :: tys)) (fun _ => True)
        fun e => e.OfTypes ∧ ∃ t ∈ ty :: tys, t ≠ .tensor := by
      cases ty with
      | tensor =>
        have hmint := mints_freshLeaf hs (name ++ "." ++ toString i)
        refine ((ih hmint.grows.sound).mono (fun _ h => h) fun e he => ⟨he.1, ?_⟩).bind
          fun _ _ => trivial
        obtain ⟨t, ht, hne⟩ := he.2
        exact ⟨t, List.mem_cons_of_mem _ ht, hne⟩
      | _ => exact ⟨.unsupportedParam name whole.display, _, List.mem_cons_self, nofun⟩
    exact hends.with_ok fun m hm _ => leavesForFields_spec (ty :: tys) hs hm

theorem exists_ty?_of_lt {v : Handle} (h : v < vars.size) : ∃ ty, vars.ty? v = some ty := by
  have hsize : v < vars.entries.size := h
  exact ⟨_, congrArg (Option.map Binder.ty) (Array.getElem?_eq_getElem hsize)⟩

/-- **A parameter of the table** is bound unless its type is none for a parameter. -/
theorem bindParameter_ends {v : Handle} (hs : s.Sound) (hsize : v < vars.size)
    (hlt : v < s.firstMinted) : Ends (bindParameter vars s v) (fun t => Keeps s t ∧ v ∈ t.sets)
      fun e => e.OfTypes ∧ ∃ ty, vars.ty? v = some ty ∧ ¬ ty.OfBuffers := by
  obtain ⟨ty, hty⟩ := exists_ty?_of_lt hsize
  rw [bindParameter]
  simp only [hty]
  cases ty with
  | tensor =>
    have hmint := mints_freshLeaf hs ((vars.name? v).getD "param")
    refine (bindLike_ends hmint.grows.sound (hmint.grows.firstMinted_eq ▸ hlt)).mono
      (fun t ht => ⟨hmint.grows.keeps.trans ht.1, ht.2⟩) fun e he => absurd hmint.mem he.1
  | tuple tys =>
    have hnot : (∃ ty ∈ tys, ty ≠ .tensor) → ¬ (Ty.tuple tys).OfBuffers := by
      rintro ⟨ty, hmem, hne⟩ hbuffers
      cases hbuffers with
      | tuple hall => exact hne (hall ty hmem)
    refine ((leavesForFields_ends tys hs).mono (fun _ h => h)
      fun e he => ⟨he.1, _, rfl, hnot he.2⟩).bind fun a ha => ?_
    obtain ⟨hext, hmem⟩ := ha
    refine ((freshUnionOf_ends hext.sound a.1).mono (fun _ h => h) fun e he => ?_).bind
      fun b hb => ?_
    · obtain ⟨u, hu, hnot, _⟩ := he
      exact absurd (hmem u hu) hnot
    · have hext' := hext.trans_minting hb.1
      refine ((bindLike_ends hb.1.sound (hext'.firstMinted_eq ▸ hlt)).mono (fun _ h => h)
        fun e he => absurd hb.2 he.1).bind fun t ht => ?_
      have hfields : ∀ u, some u ∈ a.1.map some → u ∈ t.sets := fun u hu =>
        ht.1.mem (hb.1.mem (hmem u (by simpa using hu)))
      have hrecord := keeps_recordFields ht.1.sound ht.2 hfields
      exact ⟨(hext'.keeps.trans ht.1).trans hrecord, hrecord.mem ht.2⟩
  | _ => exact ⟨.unsupportedParam _ _, _, rfl, nofun⟩

/-- **The parameters are bound** unless one has a type that is none for a parameter. -/
theorem bindParameters_ends : ∀ (params : List Handle) {s : Store}, s.Sound →
    (∀ v ∈ params, v < vars.size ∧ v < s.firstMinted) → Ends (bindParameters vars s params)
      (fun t => Keeps s t ∧ ∀ v ∈ params, v ∈ t.sets)
      fun e => e.OfTypes ∧ ∃ v ∈ params, ∃ ty, vars.ty? v = some ty ∧ ¬ ty.OfBuffers := by
  intro params
  induction params with
  | nil => exact fun hs _ => ⟨.refl hs, fun v hv => absurd hv List.not_mem_nil⟩
  | cons v params ih =>
    intro s hs hlt
    obtain ⟨hsize, hfirst⟩ := hlt v List.mem_cons_self
    rw [bindParameters, List.foldlM_cons]
    refine ((bindParameter_ends hs hsize hfirst).mono (fun _ h => h)
      fun e he => ⟨he.1, v, List.mem_cons_self, he.2⟩).bind fun t ht => ?_
    refine (ih ht.1.sound fun u hu => ?_).mono (fun r hr => ⟨ht.1.trans hr.1, fun u hu => ?_⟩)
      fun e he => ⟨he.1, he.2.imp fun u hu => ⟨List.mem_cons_of_mem _ hu.1, hu.2⟩⟩
    · rw [ht.1.firstMinted_eq]
      exact hlt u (List.mem_cons_of_mem _ hu)
    · exact (List.mem_cons.1 hu).elim (fun h => h ▸ hr.1.mem ht.2) (hr.2 u)

end Parameters

end Analysis
end TensorLiveness
