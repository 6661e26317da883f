/-
# What an analysis can fail for

A function whose binders have a place in the table is analysed, or fails for its types or for a
stray reference: a variable that occurs free in it and is no parameter (`analyze_fails`).  The
faults that the form check is there to rule out are none of these (`form_check_suffices`), and a
program that could be read has no stray references (`faults_lie_with_types`).

| pass | what holds after it |
| --- | --- |
| identities | `Settled`: binders are bound, demands are made of bound handles |
| liveness | `LiveLeaves`: live sets consist of leaves |
| sharing | every leaf is in the forest |

Types matter to the first of the passes alone, so once the identities are found the others
succeed (`exists_ok_of_identities`).
-/

import Mathlib
import TensorLiveness.Proofs.Analysis.Faults.LivePoints

namespace TensorLiveness
namespace Analysis

open Identity Program Sharing Store

variable {vars : BinderTable} {f : Function}

/-! ### Passes -/

/-- The variable `u` occurs free in a function and is no parameter of it. -/
def Stray (f : Function) (u : Handle) : Prop := u ∈ f.body.occurrences ∧ u ∉ f.params

/-- What holds of a run once the binders have been bound. -/
structure Settled (f : Function) (r : Run) : Prop where
  status_ne : r.status ≠ .unsupportedForm
  sound : r.store.Sound
  params {v : Handle} : v ∈ f.params → v ∈ r.store.sets
  bound {v : Handle} : v ∈ f.body.allBindings.map (·.1) → v ∈ r.store.sets
  pending {d : Demand} : d ∈ r.pending →
    d.out ∈ r.store.sets ∧ (d.input ∈ r.store.sets ∨ Stray f d.input)

/-- Live sets consist of leaves. -/
def LiveLeaves (r : Run) : Prop :=
  ∀ (point : Handle) (set : HandleSet), r.live[point]? = some set →
    ∀ e ∈ set, r.store.isLeaf e = true

theorem Settled.stray {r : Run} (h : Settled f r) {u : Handle}
    (hu : Dangling r.store f.body u) : Stray f u := ⟨hu.1, fun hmem => hu.2 (h.params hmem)⟩

/-- The live sets of a run whose binders have been bound. -/
theorem liveness_ends {r : Run} (hflat : f.body.Flat) (h : Settled f r) :
    Ends (Run.step vars f r .liveness) (fun r' => Settled f r' ∧ LiveLeaves r')
      fun e => ∃ u, Stray f u ∧ e = .unbound u := by
  rw [Run.step, if_neg h.status_ne]
  have hends : Ends (r.withLiveness f) (fun r' => Settled f r' ∧ LiveLeaves r')
      fun e => ∃ u, Stray f u ∧ e = .unbound u := by
    refine ((livePoints_ends h.sound hflat fun u hu => h.bound hu).mono (fun _ h => h)
      fun e he => ?_).bind fun m hm => ?_
    · obtain ⟨u, hu, rfl⟩ := he
      exact ⟨u, h.stray hu, rfl⟩
    · obtain ⟨hext, hsound⟩ := hm
      have hlive : ∀ (point : Handle) (set : HandleSet), m.live[point]? = some set →
          ∀ e ∈ set, m.store.isLeaf e = true := fun point set hset e he =>
        decide_eq_true (hsound.leaf hset he).2
      refine ⟨⟨h.status_ne, hext.sound, fun hv => hext.mem (h.params hv),
        fun hv => hext.mem (h.bound hv), fun hd => ?_⟩, hlive⟩
      exact ⟨hext.mem (h.pending hd).1, (h.pending hd).2.imp_left hext.mem⟩
  exact hends.bind fun r' hr' => ⟨⟨hr'.1.status_ne, hr'.1.sound, hr'.1.params, hr'.1.bound,
    hr'.1.pending⟩, hr'.2⟩

/-- The validation of a run whose binders have been bound. -/
theorem sharing_ends {r : Run} (h : Settled f r) (hlive : LiveLeaves r) :
    Ends (Run.step vars f r .sharing) (fun r' => r'.store.Sound ∧ LiveLeaves r' ∧
        ∀ e, r'.store.isLeaf e = true → r'.forest.contains e = true)
      fun e => ∃ u, Stray f u ∧ e = .unbound u := by
  rw [Run.step, if_neg h.status_ne]
  refine Ends.bind (P := fun r' : Run => r'.store.Sound ∧ LiveLeaves r' ∧
    ∀ e, r'.store.isLeaf e = true → r'.forest.contains e = true) ?_ fun r' hr' => hr'
  have hleaves := leavesOnly_of_sound h.sound
  refine ((validate_ends hleaves r.live r.pending).mono (fun _ h => h) fun e he => ?_).bind
    fun w hw => ⟨h.sound, hlive, fun e he => hw.contains he⟩
  obtain ⟨d, hd, ⟨hout, _⟩ | ⟨hinput, rfl⟩⟩ := he
  · exact absurd (h.pending hd).1 hout
  · exact ⟨d.input, (h.pending hd).2.resolve_left hinput, rfl⟩

section Accepted

variable (hform : formErrors vars f = []) (hlt : ∀ v ∈ f.params ++ f.body.binders, v < vars.size)

include hform hlt

theorem upTo_parameters_ends : Ends (Run.upTo vars f .parameters)
    (fun r => r.status = .valid ∧ r.pending = [] ∧ Keeps (.empty vars.size) r.store ∧
      ∀ v ∈ f.params, v ∈ r.store.sets) Fault.OfTypes := by
  rw [Run.upTo_eq_bind (p := .form) rfl, Run.upTo_form hform]
  have hends : Ends (({ Run.start vars with passes := [.form] } : Run).withParameters vars f)
      (fun r => r.status = .valid ∧ r.pending = [] ∧ Keeps (.empty vars.size) r.store ∧
        ∀ v ∈ f.params, v ∈ r.store.sets) Fault.OfTypes := by
    refine ((bindParameters_ends f.params (sound_empty vars.size) fun v hv => ?_).mono
      (fun _ h => h) fun _ h => h.1).bind fun s hs => ⟨rfl, rfl, hs⟩
    have hv := hlt v (List.mem_append_left _ hv)
    exact ⟨hv, hv⟩
  exact hends.bind fun r hr => hr

/-- **Up to the identities** a function that has the form fails for its types or for a stray
reference. -/
theorem upTo_identities_ends : Ends (Run.upTo vars f .identities) (Settled f)
    fun e => e.OfTypes ∨ ∃ u, Stray f u ∧ e = .unbound u := by
  have hflat := flat_of_formErrors_eq_nil hform
  rw [Run.upTo_eq_bind (p := .parameters) rfl]
  refine ((upTo_parameters_ends hform hlt).mono (fun _ h => h) fun _ => Or.inl).bind
    fun r hr => ?_
  obtain ⟨hstatus, hpending, hkeeps, hparams⟩ := hr
  have hne : r.status ≠ .unsupportedForm := by
    rw [hstatus]
    exact fun h => nomatch h
  rw [Run.step, if_neg hne]
  have hstray : ∀ {u}, Dangling r.store f.body u → Stray f u := fun hu =>
    ⟨hu.1, fun hmem => hu.2 (hparams _ hmem)⟩
  have hends : Ends (r.withIdentities vars f) (Settled f)
      fun e => e.OfTypes ∨ ∃ u, Stray f u ∧ e = .unbound u := by
    refine ((propagate_ends (p := ⟨r.store, r.pending⟩) hflat hkeeps.sound fun v hv => ?_).mono
      (fun _ h => h) fun e he => ?_).bind fun a ha => ?_
    · rw [hkeeps.firstMinted_eq]
      exact hlt v (List.mem_append_right _ (hflat.map_fst_allBindings_sublist.subset hv))
    · refine he.imp_right fun h => ?_
      obtain ⟨u, hu, rfl⟩ := h
      exact ⟨u, hstray hu, rfl⟩
    · refine ⟨hne, ha.keeps.sound, fun hv => ha.keeps.mem (hparams _ hv), ha.bound,
        fun hd => ?_⟩
      rcases ha.demands hd with hd | hd
      · rw [show r.pending = [] from hpending] at hd
        exact absurd hd List.not_mem_nil
      · exact ⟨hd.1, hd.2.imp_right hstray⟩
  exact hends.bind fun r' hr' => ⟨hr'.status_ne, hr'.sound, hr'.params, hr'.bound, hr'.pending⟩

theorem upTo_liveness_ends : Ends (Run.upTo vars f .liveness)
    (fun r => Settled f r ∧ LiveLeaves r)
    fun e => e.OfTypes ∨ ∃ u, Stray f u ∧ e = .unbound u := by
  rw [Run.upTo_eq_bind (p := .identities) rfl]
  exact (upTo_identities_ends hform hlt).bind fun r hr =>
    (liveness_ends (flat_of_formErrors_eq_nil hform) hr).mono (fun _ h => h) fun _ => Or.inr

theorem upTo_sharing_ends : Ends (Run.upTo vars f .sharing)
    (fun r => r.store.Sound ∧ LiveLeaves r ∧
      ∀ e, r.store.isLeaf e = true → r.forest.contains e = true)
    fun e => e.OfTypes ∨ ∃ u, Stray f u ∧ e = .unbound u := by
  rw [Run.upTo_eq_bind (p := .liveness) rfl]
  exact (upTo_liveness_ends hform hlt).bind fun r hr =>
    (sharing_ends hr.1 hr.2).mono (fun _ h => h) fun _ => Or.inr

end Accepted

theorem analyze_eq_error {terminal : Pass} {fault : Fault} :
    analyze vars f terminal = .error fault ↔ Run.upTo vars f terminal = .error fault := by
  rw [show analyze vars f terminal =
    Run.upTo vars f terminal >>= fun r => .ok (r.outcome vars terminal) from rfl]
  cases Run.upTo vars f terminal with
  | ok r => exact iff_of_false (fun h => nomatch h) fun h => nomatch h
  | error e => exact ⟨fun h => congrArg Except.error (Except.error.inj h),
      fun h => congrArg Except.error (Except.error.inj h)⟩

/-- **What an analysis can fail for:** the types of the function, or a stray reference. -/
theorem analyze_fails (hlt : ∀ v ∈ f.params ++ f.body.binders, v < vars.size) {terminal : Pass}
    {fault : Fault} (h : analyze vars f terminal = .error fault) :
    fault.OfTypes ∨ ∃ u, Stray f u ∧ fault = .unbound u := by
  rw [analyze_eq_error] at h
  by_cases hform : formErrors vars f = []
  · cases terminal with
    | form =>
      rw [Run.upTo_form hform] at h
      cases h
    | parameters => exact Or.inl ((upTo_parameters_ends hform hlt).of_error h)
    | identities => exact (upTo_identities_ends hform hlt).of_error h
    | liveness => exact (upTo_liveness_ends hform hlt).of_error h
    | sharing => exact (upTo_sharing_ends hform hlt).of_error h
  · rw [Run.upTo_rejected hform] at h
    cases h

/-- **Once the identities are found nothing fails** in a function without stray references. -/
theorem exists_ok_of_identities (hlt : ∀ v ∈ f.params ++ f.body.binders, v < vars.size)
    (hclosed : ∀ u, ¬ Stray f u) {o : Outcome} (h : analyze vars f .identities = .ok o)
    (terminal : Pass) : ∃ o, analyze vars f terminal = .ok o := by
  suffices hrun : ∃ r, Run.upTo vars f terminal = .ok r by
    obtain ⟨r, hr⟩ := hrun
    exact ⟨_, analyze_eq_ok.2 ⟨r, hr, rfl⟩⟩
  obtain ⟨r, hr, _⟩ := analyze_eq_ok.1 h
  by_cases hform : formErrors vars f = []
  · have hnone : ∀ e : Fault, ¬ ∃ u, Stray f u ∧ e = .unbound u := fun e he => by
      obtain ⟨u, hu, _⟩ := he
      exact hclosed u hu
    obtain ⟨r₁, hr₁, hsettled₁, hlive⟩ : ∃ r₁, Run.step vars f r .liveness = .ok r₁ ∧
        Settled f r₁ ∧ LiveLeaves r₁ :=
      (liveness_ends (flat_of_formErrors_eq_nil hform)
        ((upTo_identities_ends hform hlt).of_ok hr)).exists_ok hnone
    obtain ⟨r₂, hr₂, _⟩ : ∃ r₂, Run.step vars f r₁ .sharing = .ok r₂ ∧ _ :=
      (sharing_ends hsettled₁ hlive).exists_ok hnone
    have hliveness : Run.upTo vars f .liveness = .ok r₁ := by
      rw [Run.upTo_eq_bind (p := .identities) rfl, hr]
      exact hr₁
    have hsharing : Run.upTo vars f .sharing = .ok r₂ := by
      rw [Run.upTo_eq_bind (p := .liveness) rfl, hliveness]
      exact hr₂
    cases terminal with
    | form => exact ⟨_, Run.upTo_form hform⟩
    | parameters =>
      obtain ⟨s, _, _, hs, _, _⟩ := (Run.upTo_identities_eq_ok hform).1 hr
      exact ⟨_, (Run.upTo_parameters_eq_ok hform).2 ⟨s, hs, rfl⟩⟩
    | identities => exact ⟨r, hr⟩
    | liveness => exact ⟨r₁, hliveness⟩
    | sharing => exact ⟨r₂, hsharing⟩
  · exact ⟨_, Run.upTo_rejected hform terminal⟩

/-! ### The form check -/

/-- The identity `e` is in the set of a handle, or live at a point. -/
def Run.Holds (r : Run) (e : Handle) : Prop :=
  (∃ (v : Handle) (set : HandleSet), r.store.sets[v]? = some set ∧ e ∈ set) ∨
    ∃ (point : Handle) (set : HandleSet), r.live[point]? = some set ∧ e ∈ set

theorem isLeaf_of_holds {r : Run} (hs : r.store.Sound) (hlive : LiveLeaves r) {e : Handle}
    (he : r.Holds e) : r.store.isLeaf e = true := by
  rcases he with ⟨v, set, hset, he⟩ | ⟨point, set, hset, he⟩
  · exact decide_eq_true (hs.leaf (setOf_of_getElem? hset ▸ he)).2
  · exact hlive point set hset e he

/-- Sets consist of leaves after every pass. -/
theorem sound_of_upTo (hlt : ∀ v ∈ f.params ++ f.body.binders, v < vars.size) {terminal : Pass}
    {r : Run} (hr : Run.upTo vars f terminal = .ok r) : r.store.Sound ∧ LiveLeaves r := by
  have hempty : ∀ {r : Run}, r.live = ∅ → LiveLeaves r := by
    intro r hr point set hset
    rw [hr] at hset
    simp at hset
  by_cases hform : formErrors vars f = []
  · cases terminal with
    | form =>
      rw [Run.upTo_form hform] at hr
      obtain rfl := Except.ok.inj hr
      exact ⟨sound_empty vars.size, hempty rfl⟩
    | parameters =>
      refine ⟨((upTo_parameters_ends hform hlt).of_ok hr).2.2.1.sound, hempty ?_⟩
      obtain ⟨_, _, rfl⟩ := (Run.upTo_parameters_eq_ok hform).1 hr
      rfl
    | identities =>
      refine ⟨((upTo_identities_ends hform hlt).of_ok hr).sound, hempty ?_⟩
      obtain ⟨_, _, _, _, _, rfl⟩ := (Run.upTo_identities_eq_ok hform).1 hr
      rfl
    | liveness =>
      obtain ⟨hsettled, hlive⟩ := (upTo_liveness_ends hform hlt).of_ok hr
      exact ⟨hsettled.sound, hlive⟩
    | sharing =>
      obtain ⟨hsound, hlive, _⟩ := (upTo_sharing_ends hform hlt).of_ok hr
      exact ⟨hsound, hlive⟩
  · rw [Run.upTo_rejected hform] at hr
    obtain rfl := Except.ok.inj hr
    exact ⟨sound_empty vars.size, hempty rfl⟩

/-- **The form check suffices for the passes.**  Whatever the binders and references of a function
are, no pass meets a form that it cannot deal with, asks for a live set that is not there, or for
an identity outside the forest.  Sets consist of leaves at all times; validation has put them in
the forest before it takes the first demand, and they are there when it is done. -/
theorem form_check_suffices {vars : BinderTable} {f : Function}
    (hlt : ∀ v ∈ f.params ++ f.body.binders, v < vars.size) :
    (∀ terminal fault, analyze vars f terminal = .error fault → ¬ fault.OfForm) ∧
    ∀ terminal r, Run.upTo vars f terminal = .ok r → ∀ e, r.Holds e →
      r.store.isLeaf e = true ∧ (Validation.start r.store r.live).forest.contains e = true ∧
        (terminal = .sharing → r.forest.contains e = true) := by
  refine ⟨fun terminal fault h hfault => ?_, fun terminal r hr e he => ?_⟩
  · rcases analyze_fails hlt h with htypes | ⟨u, _, rfl⟩
    · exact hfault.not_ofTypes htypes
    · cases hfault
  · obtain ⟨hsound, hlive⟩ := sound_of_upTo hlt hr
    have hleaf := isLeaf_of_holds hsound hlive he
    refine ⟨hleaf, (complete_start r.store r.live).contains hleaf, ?_⟩
    rintro rfl
    by_cases hform : formErrors vars f = []
    · exact ((upTo_sharing_ends hform hlt).of_ok hr).2.2 e hleaf
    · rw [Run.upTo_rejected hform] at hr
      obtain rfl := Except.ok.inj hr
      obtain ⟨v, set, hset, _⟩ | ⟨point, set, hset, _⟩ := he
      · exact absurd (mem_of_getElem? hset) sets_empty
      · simp [Run.start] at hset

/-- A function that binds one variable in a branch, behind it, and once more. -/
def reboundFunction : Function :=
  ⟨[0], .letIn 1 (.cond (.var 0)
    (.letIn 1 (.call (.op "neg") [.var 0] .tensor) (.var 1)) (.var 0) .tensor)
    (.letIn 1 (.tuple [.var 1, .var 0]) (.var 1))⟩

/-- A closure over a variable that nothing binds. -/
def strayFunction : Function := ⟨[0], .letIn 1 (.closure [] (.var 3)) (.var 1)⟩

/-- The function with repeated binders is analysed, and the one with a stray reference fails for
the reference. -/
theorem form_check_suffices_rebound : ∃ r,
    Run.upTo sharedVars reboundFunction .sharing = .ok r ∧ r.Holds 5 ∧
    r.store.isLeaf 5 = true ∧ r.forest.contains 5 = true ∧
    analyze sharedVars strayFunction .sharing = .error (.unbound 3) ∧
    ¬ Fault.OfForm (.unbound 3) := by
  have hrun : ((Run.upTo sharedVars reboundFunction .sharing).toOption.any fun r =>
      r.store.sets[1]? = some {5}) = true := by decide +kernel
  obtain ⟨r, hr, htest⟩ := exists_ok_of_any hrun
  have hset : r.store.sets[1]? = some {5} := of_decide_eq_true htest
  have hstray : analyze sharedVars strayFunction .sharing = .error (.unbound 3) := by
    cbv
  have hholds : r.Holds 5 := Or.inl ⟨1, {5}, hset, mem_singleton.2 rfl⟩
  obtain ⟨hleaf, _, hforest⟩ :=
    (form_check_suffices (by decide +kernel)).2 .sharing r hr 5 hholds
  exact ⟨r, hr, hholds, hleaf, hforest rfl, hstray,
    (form_check_suffices (by decide +kernel)).1 .sharing (.unbound 3) hstray⟩

/-! ### Programs that could be read -/

theorem not_stray {size : Nat} (h : f.Scoped size) (u : Handle) : ¬ Stray f u :=
  fun hu => hu.2 (h.closed hu.1)

/-- **The fault lies with the types.**  The analysis of a function of a program that could be read
gives a result, or the function has a parameter of another type than it may have, or a projection
or a conditional does not fit the tuples it is about.  Once the identities have been found, the
live sets and the classes are found as well. -/
theorem faults_lie_with_types {source entry : String} {program : Program}
    {warnings : List Diagnostic} {f : Function}
    (hread : readProgram source = .ok (program, warnings))
    (hentry : program.function? entry = some f) :
    (∀ terminal fault, analyze program.vars f terminal = .error fault → fault.OfTypes) ∧
    ((∃ o, analyze program.vars f .identities = .ok o) →
      (∃ o, analyze program.vars f .liveness = .ok o) ∧
        ∃ o, analyze program.vars f .sharing = .ok o) := by
  have hscoped := readProgram_scoped hread hentry
  refine ⟨fun terminal fault h => ?_, fun h => ?_⟩
  · refine (analyze_fails (fun v => hscoped.lt_size) h).resolve_right ?_
    rintro ⟨u, hu, _⟩
    exact not_stray hscoped u hu
  · obtain ⟨o, ho⟩ := h
    have hlater := exists_ok_of_identities (fun v => hscoped.lt_size) (not_stray hscoped) ho
    exact ⟨hlater .liveness, hlater .sharing⟩

/-- A program in which tuples come out of a conditional and go into others. -/
def nestedSource : String :=
  "fn @main(%c: Tensor, %p: (Tensor, Tensor)) \x7b " ++
    "let %f = fn(%y: Tensor) \x7b %c \x7d; " ++
    "let %z = if (%c) \x7b let %a = neg(%c); let %u = (%a, %c); %u \x7d else \x7b %p \x7d; " ++
    "let %w = (%z, 0); let %d = %w; let %q = %d.0; let %r = %q.1; %r \x7d"

/-- The function of `nestedSource`. -/
def nestedFunction : Function :=
  ⟨[0, 1], .letIn 3 (.closure [2] (.var 0)) <|
    .letIn 6 (.cond (.var 0)
      (.letIn 4 (.call (.op "neg") [.var 0] .tensor) <|
        .letIn 5 (.tuple [.var 4, .var 0]) (.var 5))
      (.var 1) (.tuple [.tensor, .tensor])) <|
    .letIn 7 (.tuple [.var 6, .const .zero]) <| .letIn 8 (.var 7) <| .letIn 9 (.get (.var 8) 0) <|
    .letIn 10 (.get (.var 9) 1) (.var 10)⟩

/-- What `nestedSource` says. -/
def nestedProgram : Program :=
  ⟨⟨#[⟨"c", .tensor, ⟨9, 19⟩⟩, ⟨"p", .tuple [.tensor, .tensor], ⟨21, 41⟩⟩,
    ⟨"y", .tensor, ⟨57, 67⟩⟩, ⟨"f", .func, ⟨45, 76⟩⟩, ⟨"a", .tensor, ⟨96, 113⟩⟩,
    ⟨"u", .tuple [.tensor, .tensor], ⟨114, 132⟩⟩, ⟨"z", .tuple [.tensor, .tensor], ⟨77, 150⟩⟩,
    ⟨"w", .tuple [.tuple [.tensor, .tensor], .tensor], ⟨151, 168⟩⟩,
    ⟨"d", .tuple [.tuple [.tensor, .tensor], .tensor], ⟨169, 181⟩⟩,
    ⟨"q", .tuple [.tensor, .tensor], ⟨182, 196⟩⟩, ⟨"r", .tensor, ⟨197, 211⟩⟩]⟩,
    [("main", nestedFunction)]⟩

set_option maxRecDepth 4000 in
theorem readProgram_nestedSource : readProgram nestedSource = .ok (nestedProgram, []) := by
  cbv

/-- A program that takes the first field of a buffer. -/
def fieldlessSource : String := "fn @main(%x: Tensor) \x7b let %y = %x.0; %y \x7d"

/-- The function of `fieldlessSource`. -/
def fieldlessFunction : Function := ⟨[0], .letIn 1 (.get (.var 0) 0) (.var 1)⟩

/-- What `fieldlessSource` says. -/
def fieldlessProgram : Program :=
  ⟨⟨#[⟨"x", .tensor, ⟨9, 19⟩⟩, ⟨"y", .tensor, ⟨23, 37⟩⟩]⟩, [("main", fieldlessFunction)]⟩

set_option maxRecDepth 2000 in
theorem readProgram_fieldlessSource :
    readProgram fieldlessSource = .ok (fieldlessProgram, []) := by
  cbv

/-- One program is analysed to the end, and the other fails for its types. -/
theorem faults_lie_with_types_nested :
    (∃ o, analyze nestedProgram.vars nestedFunction .identities = .ok o) ∧
    (∃ o, analyze nestedProgram.vars nestedFunction .sharing = .ok o) ∧
    analyze fieldlessProgram.vars fieldlessFunction .sharing = .error (.notATuple 0) ∧
    Fault.OfTypes (.notATuple 0) := by
  have hrun : ((analyze nestedProgram.vars nestedFunction .identities).toOption.any fun o =>
      o.status = .incomplete) = true := by decide +kernel
  obtain ⟨o, ho, _⟩ := exists_ok_of_any hrun
  have hfault : analyze fieldlessProgram.vars fieldlessFunction .sharing =
      .error (.notATuple 0) := by
    cbv
  have hnested : nestedProgram.function? "main" = some nestedFunction := rfl
  have hfieldless : fieldlessProgram.function? "main" = some fieldlessFunction := rfl
  refine ⟨⟨o, ho⟩, ?_, hfault, ?_⟩
  · exact ((faults_lie_with_types readProgram_nestedSource hnested).2 ⟨o, ho⟩).2
  · exact (faults_lie_with_types readProgram_fieldlessSource hfieldless).1 .sharing _ hfault

end Analysis
end TensorLiveness
