/-
# What the passes hand on

`Run.upTo` is the run behind an analysis, and each pass adds what it makes to the run of the
passes before it.  A function with findings in its form stays where the form check left it
(`upTo_rejected`); for any other the run is told pass by pass:

| run | made of |
| --- | --- |
| `upTo_identities_eq_ok` | parameters and propagation |
| `upTo_liveness_eq_ok` | that, and the live sets |
| `upTo_sharing_eq_ok` | that, and the demands |

For a resolved function `Passed` collects what the passes up to the live sets guarantee: what
every variable stands for, and the equations of the live sets.
-/

import TensorLiveness.Analysis.Outcome
import TensorLiveness.Proofs.Analysis.Form
import TensorLiveness.Proofs.Analysis.LivePoints
import TensorLiveness.Proofs.Analysis.Propagation
import TensorLiveness.Proofs.Program.Resolution
import TensorLiveness.Proofs.Sharing.Roots

namespace TensorLiveness
namespace Analysis

open Identity Program Sharing Store

variable {vars : BinderTable} {f : Function}

/-- The run up to the pass `terminal`. -/
def Run.upTo (vars : BinderTable) (f : Function) (terminal : Pass) : Except Fault Run :=
  terminal.required.foldlM (Run.step vars f) (Run.start vars)

theorem analyze_eq_ok {terminal : Pass} {o : Outcome} : analyze vars f terminal = .ok o ↔
    ∃ r, Run.upTo vars f terminal = .ok r ∧ r.outcome vars terminal = o := by
  rw [analyze, bind_eq_ok]
  exact exists_congr fun r => and_congr_right fun _ => ⟨Except.ok.inj, congrArg Except.ok⟩

/-- A test that is passed by what a computation comes to tells that it succeeds. -/
theorem exists_ok_of_any {ε α : Type} {x : Except ε α} {test : α → Bool}
    (h : x.toOption.any test = true) : ∃ a, x = .ok a ∧ test a = true := by
  cases x with
  | error e => cases h
  | ok a => exact ⟨a, rfl, h⟩

namespace Run

/-! ### Single passes -/

theorem foldlM_rejected {r : Run} (h : r.status = .unsupportedForm) : ∀ passes : List Pass,
    passes.foldlM (step vars f) r = .ok r := by
  intro passes
  induction passes with
  | nil => rfl
  | cons pass passes ih =>
    rw [List.foldlM_cons, step, if_pos h]
    exact ih

/-- **Findings in the form end the run.** -/
theorem upTo_rejected (h : formErrors vars f ≠ []) (terminal : Pass) :
    upTo vars f terminal = .ok { start vars with
      diagnostics := formErrors vars f, status := .unsupportedForm, passes := [.form] } := by
  have hform : step vars f (start vars) .form = .ok { start vars with
      diagnostics := formErrors vars f, status := .unsupportedForm, passes := [.form] } := by
    rw [step, if_neg (fun hs => nomatch hs)]
    simp only [withForm, anyError_formErrors.2 h, if_true]
    rfl
  have hrequired : ∃ passes, terminal.required = .form :: passes := by
    cases terminal <;> exact ⟨_, rfl⟩
  obtain ⟨passes, hpasses⟩ := hrequired
  rw [upTo, hpasses, List.foldlM_cons, hform]
  exact foldlM_rejected rfl passes

/-- A pass runs behind the passes before it. -/
theorem upTo_eq_bind {p q : Pass} (hq : q.required = p.required ++ [q]) :
    upTo vars f q = upTo vars f p >>= fun r => step vars f r q := by
  rw [upTo, hq, List.foldlM_append]
  refine congrArg (upTo vars f p >>= ·) (funext fun r => ?_)
  rw [List.foldlM_cons]
  exact bind_pure _

section Accepted

variable (h : formErrors vars f = [])

include h

theorem upTo_form : upTo vars f .form = .ok { start vars with passes := [.form] } := by
  have hform : step vars f (start vars) .form = .ok { start vars with passes := [.form] } := by
    rw [step, if_neg (fun hs => nomatch hs)]
    simp only [withForm, h]
    rfl
  rw [upTo, show Pass.required .form = [.form] from rfl, List.foldlM_cons, hform]
  rfl

theorem upTo_parameters_eq_ok {r : Run} : upTo vars f .parameters = .ok r ↔
    ∃ s, bindParameters vars (.empty vars.size) f.params = .ok s ∧
      r = { start vars with store := s, passes := Pass.required .parameters } := by
  rw [upTo_eq_bind (p := .form) rfl, upTo_form h, bind_eq_ok]
  constructor
  · rintro ⟨r₀, hr₀, hr⟩
    obtain rfl := Except.ok.inj hr₀
    obtain ⟨r₁, hr₁, hr⟩ := bind_eq_ok.1 hr
    obtain ⟨s, hs, hr₁⟩ := bind_eq_ok.1 hr₁
    obtain rfl := Except.ok.inj hr₁
    exact ⟨s, hs, (Except.ok.inj hr).symm⟩
  · rintro ⟨s, hs, rfl⟩
    exact ⟨_, rfl, bind_eq_ok.2 ⟨_, bind_eq_ok.2 ⟨s, hs, rfl⟩, rfl⟩⟩

theorem upTo_identities_eq_ok {r : Run} : upTo vars f .identities = .ok r ↔
    ∃ s v p, bindParameters vars (.empty vars.size) f.params = .ok s ∧
      propagate vars ⟨s, []⟩ f.body = .ok (v, p) ∧
      r = { start vars with
        store := p.store, pending := p.pending, passes := Pass.required .identities } := by
  rw [upTo_eq_bind (p := .parameters) rfl, bind_eq_ok]
  constructor
  · rintro ⟨r₀, hr₀, hr⟩
    obtain ⟨s, hs, rfl⟩ := (upTo_parameters_eq_ok h).1 hr₀
    obtain ⟨r₁, hr₁, hr⟩ := bind_eq_ok.1 hr
    obtain ⟨⟨v, p⟩, hp, hr₁⟩ := bind_eq_ok.1 hr₁
    obtain rfl := Except.ok.inj hr₁
    exact ⟨s, v, p, hs, hp, (Except.ok.inj hr).symm⟩
  · rintro ⟨s, v, p, hs, hp, rfl⟩
    exact ⟨_, (upTo_parameters_eq_ok h).2 ⟨s, hs, rfl⟩,
      bind_eq_ok.2 ⟨_, bind_eq_ok.2 ⟨(v, p), hp, rfl⟩, rfl⟩⟩

theorem upTo_liveness_eq_ok {r : Run} : upTo vars f .liveness = .ok r ↔
    ∃ s v p m, bindParameters vars (.empty vars.size) f.params = .ok s ∧
      propagate vars ⟨s, []⟩ f.body = .ok (v, p) ∧ livePoints p.store f.body = .ok m ∧
      r = { start vars with
        store := m.store, pending := p.pending, live := m.live, exits := m.exits
        passes := Pass.required .liveness } := by
  rw [upTo_eq_bind (p := .identities) rfl, bind_eq_ok]
  constructor
  · rintro ⟨r₀, hr₀, hr⟩
    obtain ⟨s, v, p, hs, hp, rfl⟩ := (upTo_identities_eq_ok h).1 hr₀
    obtain ⟨r₁, hr₁, hr⟩ := bind_eq_ok.1 hr
    obtain ⟨m, hm, hr₁⟩ := bind_eq_ok.1 hr₁
    obtain rfl := Except.ok.inj hr₁
    exact ⟨s, v, p, m, hs, hp, hm, (Except.ok.inj hr).symm⟩
  · rintro ⟨s, v, p, m, hs, hp, hm, rfl⟩
    exact ⟨_, (upTo_identities_eq_ok h).2 ⟨s, v, p, hs, hp, rfl⟩,
      bind_eq_ok.2 ⟨_, bind_eq_ok.2 ⟨m, hm, rfl⟩, rfl⟩⟩

theorem upTo_sharing_eq_ok {r : Run} : upTo vars f .sharing = .ok r ↔
    ∃ s v p m w, bindParameters vars (.empty vars.size) f.params = .ok s ∧
      propagate vars ⟨s, []⟩ f.body = .ok (v, p) ∧ livePoints p.store f.body = .ok m ∧
      validate vars m.store m.live p.pending = .ok w ∧
      r = ⟨m.store, p.pending, m.live, m.exits, w.forest, w.conflicts, w.diagnostics,
        if w.conflicts.isEmpty then .valid else .aliasingConflict, Pass.required .sharing⟩ := by
  rw [upTo_eq_bind (p := .liveness) rfl, bind_eq_ok]
  constructor
  · rintro ⟨r₀, hr₀, hr⟩
    obtain ⟨s, v, p, m, hs, hp, hm, rfl⟩ := (upTo_liveness_eq_ok h).1 hr₀
    obtain ⟨r₁, hr₁, hr⟩ := bind_eq_ok.1 hr
    obtain ⟨w, hw, hr₁⟩ := bind_eq_ok.1 hr₁
    obtain rfl := Except.ok.inj hr₁
    exact ⟨s, v, p, m, w, hs, hp, hm, hw, (Except.ok.inj hr).symm⟩
  · rintro ⟨s, v, p, m, w, hs, hp, hm, hw, rfl⟩
    exact ⟨_, (upTo_liveness_eq_ok h).2 ⟨s, v, p, m, hs, hp, hm, rfl⟩,
      bind_eq_ok.2 ⟨_, bind_eq_ok.2 ⟨w, hw, rfl⟩, rfl⟩⟩

/-- A run notes the passes that it was asked for. -/
theorem passes_eq {terminal : Pass} {r : Run} (hr : upTo vars f terminal = .ok r) :
    r.passes = terminal.required := by
  cases terminal with
  | form =>
    rw [upTo_form h] at hr
    rw [← Except.ok.inj hr]
    rfl
  | parameters =>
    obtain ⟨_, _, rfl⟩ := (upTo_parameters_eq_ok h).1 hr
    rfl
  | identities =>
    obtain ⟨_, _, _, _, _, rfl⟩ := (upTo_identities_eq_ok h).1 hr
    rfl
  | liveness =>
    obtain ⟨_, _, _, _, _, _, _, rfl⟩ := (upTo_liveness_eq_ok h).1 hr
    rfl
  | sharing =>
    obtain ⟨_, _, _, _, _, _, _, _, _, rfl⟩ := (upTo_sharing_eq_ok h).1 hr
    rfl

/-- No verdict is given before the demands are checked. -/
theorem status_of_upTo {terminal : Pass} {r : Run} (hne : terminal ≠ .sharing)
    (hr : upTo vars f terminal = .ok r) : r.status = .valid := by
  cases terminal with
  | form =>
    rw [upTo_form h] at hr
    rw [← Except.ok.inj hr]
    rfl
  | parameters =>
    obtain ⟨_, _, rfl⟩ := (upTo_parameters_eq_ok h).1 hr
    rfl
  | identities =>
    obtain ⟨_, _, _, _, _, rfl⟩ := (upTo_identities_eq_ok h).1 hr
    rfl
  | liveness =>
    obtain ⟨_, _, _, _, _, _, _, rfl⟩ := (upTo_liveness_eq_ok h).1 hr
    rfl
  | sharing => exact absurd rfl hne

end Accepted

/-! ### What a result publishes -/

/-- The identities of a binder of the program are those that the store has for it. -/
theorem identitiesOf?_outcome {r : Run} {terminal : Pass} {v : Handle}
    (hv : v < r.store.firstMinted) :
    (r.outcome vars terminal).liveness.identitiesOf? v = r.store.sets[v]? := by
  have hdistinct : r.identities.Pairwise fun x y => x.1 ≠ y.1 := by
    refine List.Pairwise.sublist List.filter_sublist ?_
    refine Std.ExtTreeMap.distinct_keys_toList.imp fun {x y} hxy heq => hxy ?_
    exact Std.LawfulEqOrd.compare_eq_iff_eq.2 heq
  refine Option.ext fun set => ?_
  rw [show (r.outcome vars terminal).liveness.identitiesOf? v = r.identities.lookup v from rfl,
    Forest.lookup_eq_some_iff_mem hdistinct, identities, List.mem_filter, entries,
    Std.ExtTreeMap.mem_toList_iff_getElem?_eq_some]
  refine and_iff_left ?_
  simp [isMinted, hv]

end Run

/-- A verdict on anything but the form is given on a function that has the form. -/
theorem formErrors_eq_nil {terminal : Pass} {o : Outcome} (h : analyze vars f terminal = .ok o)
    (hstatus : o.status ≠ .unsupportedForm) : formErrors vars f = [] := by
  obtain ⟨r, hr, rfl⟩ := analyze_eq_ok.1 h
  by_contra hform
  rw [Run.upTo_rejected hform] at hr
  obtain rfl := Except.ok.inj hr
  refine hstatus ?_
  simp [Run.outcome]

/-- The result `o` comes from the validation `w` of the demands of the run `r`. -/
structure Validated (vars : BinderTable) (f : Function) (o : Outcome) (r : Run)
    (w : Validation) : Prop where
  run : Run.upTo vars f .liveness = .ok r
  validation : validate vars r.store r.live r.pending = .ok w
  pending_eq : o.pending = r.pending
  live_eq : o.liveness.live = r.live
  roots_eq : o.liveness.roots = w.forest.roots
  classes_eq : o.liveness.classes = w.forest.classes
  conflicts_eq : o.conflicts = w.conflicts
  diagnostics_eq : o.diagnostics = w.diagnostics
  status_eq : o.status = if w.conflicts.isEmpty then .valid else .aliasingConflict
  site_cond {d : Demand} : d ∈ o.pending →
    ∃ value, (d.site, value) ∈ f.body.allBindings ∧ value.isCond = true

/-- **A full analysis validates the demands,** unless the form is found wanting. -/
theorem exists_validated {o : Outcome} (hform : formErrors vars f = [])
    (h : analyze vars f .sharing = .ok o) : ∃ r w, Validated vars f o r w := by
  obtain ⟨r, hr, rfl⟩ := analyze_eq_ok.1 h
  obtain ⟨s, v, p, m, w, hs, hp, hm, hw, rfl⟩ := (Run.upTo_sharing_eq_ok hform).1 hr
  refine ⟨_, w, (Run.upTo_liveness_eq_ok hform).2 ⟨s, v, p, m, hs, hp, hm, rfl⟩, hw, rfl, rfl,
    rfl, rfl, rfl, rfl, if_neg fun hs => hs.2 rfl, fun {d} hd => ?_⟩
  rcases pending_of_propagate (flat_of_formErrors_eq_nil hform) hp d hd with hd | hd
  · exact absurd hd List.not_mem_nil
  · exact hd

/-! ### Resolved functions -/

/-- What the passes up to the live sets guarantee of a resolved function in the form that they
are made for: `p` is what propagation came to, `m` the live sets. -/
structure Passed (vars : BinderTable) (f : Function) (p : Propagation) (m : LivePoints) : Prop where
  resolved : f.Scoped vars.size
  flat : f.body.Flat
  grows : Store.Extends (f.params ++ f.body.allBindings.map (·.1)) (.empty vars.size) p.store
  denotes {v : Handle} {value : Expr} : (v, value) ∈ f.body.allBindings → Denotes p v value
  minted : Store.Extends [] p.store m.store
  sound : m.Sound
  solved : ∀ entry ∈ liveEntries p.store.setOf .body ∅ f.body, m.Solved entry.1 entry.2
  covers {point : Handle} {set : HandleSet} : m.live[point]? = some set →
    LivePoints.Covers (liveEntries p.store.setOf .body ∅ f.body) point set

/-- Once the parameters are bound, the body of a resolved function can be gone through. -/
theorem ready_of_bindParameters {s : Store} (hscoped : f.Scoped vars.size)
    (hparams : bindParameters vars (.empty vars.size) f.params = .ok s) :
    Store.Extends f.params (.empty vars.size) s ∧ Ready s f.body := by
  obtain ⟨hsorted, _, hcross⟩ := List.pairwise_append.1 hscoped.sorted
  have hstart := bindParameters_spec (sound_empty vars.size) (hsorted.imp Nat.ne_of_lt)
    (fun v hv => ⟨sets_empty, hscoped.lt_size (List.mem_append_left _ hv)⟩) hparams
  refine ⟨hstart, hstart.sound, hscoped.ascending, fun hu => hstart.bound (hscoped.closed hu),
    fun {w} hw => ?_, fun {u w} hw hu => ?_⟩
  · rw [hstart.firstMinted_eq]
    exact hscoped.lt_size (List.mem_append_right _ hw)
  · rcases hstart.only hu with hu | hu | hle
    · exact absurd hu sets_empty
    · exact Or.inl (hcross u hu w hw)
    · exact Or.inr (hstart.firstMinted_eq ▸ hle)

/-- **A resolved function that the passes accept is understood by them.** -/
theorem passed_of_ok {s : Store} {p : Propagation} {m : LivePoints} {r : Handle}
    (hscoped : f.Scoped vars.size) (hform : formErrors vars f = [])
    (hparams : bindParameters vars (.empty vars.size) f.params = .ok s)
    (hpropagate : propagate vars ⟨s, []⟩ f.body = .ok (r, p))
    (hlive : livePoints p.store f.body = .ok m) : Passed vars f p m := by
  have hflat := flat_of_formErrors_eq_nil hform
  obtain ⟨hstart, hready⟩ := ready_of_bindParameters hscoped hparams
  have hprop := propagate_spec hflat hready hpropagate
  have hgrows := hstart.trans hprop.grows
  have hwalk : LivePoints.Walkable p.store f.body := by
    refine ⟨hscoped.ascending, fun hu => hprop.grows.mem (hready.visible hu),
      fun hv => hprop.grows.bound hv, fun {v} hv => ?_⟩
    rw [hgrows.firstMinted_eq]
    exact hscoped.lt_size (List.mem_append_right _ hv)
  obtain ⟨hminted, hsound, hsolved, hcovers⟩ := livePoints_spec hflat hwalk hprop.grows.sound hlive
  exact ⟨hscoped, hflat, hgrows, hprop.denotes, hminted, hsound, hsolved, hcovers _ _⟩

/-- An analysis up to the live sets or further has found the identities on its way: `r` is the run
up to there. -/
theorem exists_passed_from {terminal : Pass} {o : Outcome} (hscoped : f.Scoped vars.size)
    (hform : formErrors vars f = []) (hterminal : terminal = .liveness ∨ terminal = .sharing)
    (h : analyze vars f terminal = .ok o) : ∃ r p m, Run.upTo vars f .identities = .ok r ∧
      r.store = p.store ∧ Passed vars f p m ∧ o.liveness.live = m.live ∧
      o.liveness.exits = m.exits ∧
      ∀ v < vars.size, o.liveness.identitiesOf? v = m.store.sets[v]? := by
  obtain ⟨r, hr, rfl⟩ := analyze_eq_ok.1 h
  have hrun : ∃ s v p m, bindParameters vars (.empty vars.size) f.params = .ok s ∧
      propagate vars ⟨s, []⟩ f.body = .ok (v, p) ∧ livePoints p.store f.body = .ok m ∧
      r.store = m.store ∧ r.live = m.live ∧ r.exits = m.exits := by
    rcases hterminal with rfl | rfl
    · obtain ⟨s, v, p, m, hs, hp, hm, rfl⟩ := (Run.upTo_liveness_eq_ok hform).1 hr
      exact ⟨s, v, p, m, hs, hp, hm, rfl, rfl, rfl⟩
    · obtain ⟨s, v, p, m, w, hs, hp, hm, _, rfl⟩ := (Run.upTo_sharing_eq_ok hform).1 hr
      exact ⟨s, v, p, m, hs, hp, hm, rfl, rfl, rfl⟩
  obtain ⟨s, v, p, m, hs, hp, hm, hstore, hlive, hexits⟩ := hrun
  have hpassed := passed_of_ok hscoped hform hs hp hm
  have hfirst := (Run.upTo_identities_eq_ok hform).2 ⟨s, v, p, hs, hp, rfl⟩
  refine ⟨_, p, m, hfirst, rfl, hpassed, hlive, hexits, fun v hv => ?_⟩
  rw [← hstore]
  refine Run.identitiesOf?_outcome ?_
  rw [hstore, hpassed.minted.firstMinted_eq, hpassed.grows.firstMinted_eq]
  exact hv

/-- An analysis up to the live sets or further has passed them, and publishes what they found. -/
theorem exists_passed {terminal : Pass} {o : Outcome} (hscoped : f.Scoped vars.size)
    (hform : formErrors vars f = []) (hterminal : terminal = .liveness ∨ terminal = .sharing)
    (h : analyze vars f terminal = .ok o) : ∃ p m, Passed vars f p m ∧
      o.liveness.live = m.live ∧ o.liveness.exits = m.exits ∧
      ∀ v < vars.size, o.liveness.identitiesOf? v = m.store.sets[v]? := by
  obtain ⟨_, p, m, -, -, hpassed⟩ := exists_passed_from hscoped hform hterminal h
  exact ⟨p, m, hpassed⟩

end Analysis
end TensorLiveness
