/-
# Names make no difference

Two modules that differ in spans and in the names of their local variables, related one to one,
have the same functions, and each analysis comes to the same result: the same verdict, sets, live
sets, demands, conflicts and classes, handle for handle, or the same fault
(`analysis_of_alike`).  What may differ is what is made of names: hints and messages.

| pass | why names make no difference |
| --- | --- |
| form | a finding is of a kind by the form of an expression (`kinds_exprErrors`) |
| parameters, identities | stores go in step (`bindParameters_renumber`, `propagate_renumber`) |
| liveness | it reads stores and no names (`livePoints_alike`) |
| sharing | only the text of a finding has names in it (`validate_alike`) |

The stores of the two runs correspond by `Store.Renumbers id`: equal but for the hints.
-/

import Mathlib
import TensorLiveness.Proofs.Analysis.Renumbering
import TensorLiveness.Proofs.Analysis.Run

namespace TensorLiveness
namespace Analysis

open Identity Program Sharing

variable {R : String → String → Prop} {vars vars' : BinderTable} {s t : Store}

/-! ### Equal answers -/

section Answers

variable {α β β' γ γ' : Type} {F : Fault → Fault → Prop}

/-- Equal answers, with related states. -/
def SameAnswer (P : β → β' → Prop) (a : α × β) (a' : α × β') : Prop := a'.1 = a.1 ∧ P a.2 a'.2

/-- After equal answers both go on with the same one. -/
theorem Lockstep.bind_answer {P : β → β' → Prop} {Q : γ → γ' → Prop} {x : Except Fault (α × β)}
    {x' : Except Fault (α × β')} {f : α × β → Except Fault γ} {f' : α × β' → Except Fault γ'}
    (h : Lockstep F (SameAnswer P) x x')
    (hf : ∀ a b b', P b b' → Lockstep F Q (f (a, b)) (f' (a, b'))) :
    Lockstep F Q (x >>= f) (x' >>= f') := by
  refine Lockstep.bind h ?_
  rintro ⟨a, b⟩ ⟨_, b'⟩ ⟨rfl, hb⟩
  exact hf _ _ _ hb

/-- After equal values both go on with the same one. -/
theorem Lockstep.bind_same {Q : γ → γ' → Prop} {x x' : Except Fault α} {f : α → Except Fault γ}
    {f' : α → Except Fault γ'} (h : Lockstep F (fun a a' => a' = a) x x')
    (hf : ∀ a, Lockstep F Q (f a) (f' a)) : Lockstep F Q (x >>= f) (x' >>= f') := by
  refine Lockstep.bind h ?_
  rintro a _ rfl
  exact hf _

end Answers

/-! ### Stores that differ in hints -/

theorem same_identities (h : Store.Renumbers id s t) (v : Handle) :
    Lockstep (Fault.Follows R id) (fun a a' => a' = a) (s.identities v) (t.identities v) :=
  (h.identities v).mono (fun _ _ => id) fun a _ ha => by rwa [renumberSet_id] at ha

theorem same_freshUnionOf (h : Store.Renumbers id s t) (vs : List Handle) :
    Lockstep (Fault.Follows R id) (SameAnswer (Store.Renumbers id)) (s.freshUnionOf vs)
      (t.freshUnionOf vs) := by
  have hunion := h.freshUnionOf (R := R) Function.injective_id vs
  rwa [List.map_id] at hunion

theorem same_freshSet (h : Store.Renumbers id s t) (hint hint' : String) (set : HandleSet) :
    SameAnswer (Store.Renumbers id) (s.freshSet hint set) (t.freshSet hint' set) := by
  have hset := h.freshSet Function.injective_id hint hint' set
  rwa [renumberSet_id] at hset

theorem same_freshDifference (h : Store.Renumbers id s t) (a b : Handle) :
    Lockstep (Fault.Follows R id) (SameAnswer (Store.Renumbers id)) (s.freshDifference a b)
      (t.freshDifference a b) := by
  refine Lockstep.bind_same (same_identities h b) fun removed => ?_
  refine Lockstep.bind_same (same_identities h a) fun set => ?_
  exact .ok (same_freshSet h _ _ _)

theorem sets_eq (h : Store.Renumbers id s t) : t.sets = s.sets :=
  Std.ExtTreeMap.ext_getElem? fun v => by
    have hv := h.sets v
    rw [id_eq] at hv
    rw [hv]
    cases s.sets[v]? with
    | none => rfl
    | some set => exact congrArg some (renumberSet_id set)

theorem isMinted_eq (h : Store.Renumbers id s t) (v : Handle) : t.isMinted v = s.isMinted v :=
  decide_eq_decide.2 (h.minted v)

/-! ### Live sets -/

/-- The same live sets and exits, over stores that differ in hints. -/
structure LivePoints.Alike (m m' : LivePoints) : Prop where
  store : Store.Renumbers id m.store m'.store
  live : m'.live = m.live
  exits : m'.exits = m.exits

namespace LivePoints.Alike

variable {m m' : LivePoints}

theorem liveAt (h : Alike m m') (point : Handle) :
    Lockstep (Fault.Follows R id) (fun a a' => a' = a) (m.liveAt point) (m'.liveAt point) := by
  rw [LivePoints.liveAt, LivePoints.liveAt, h.live]
  cases m.live[point]? with
  | some set => exact .ok rfl
  | none => exact .error rfl

theorem withStore (h : Alike m m') (hst : Store.Renumbers id s t) :
    Alike (m.withStore s) (m'.withStore t) := ⟨hst, h.live, h.exits⟩

theorem setLive (h : Alike m m') (point : Handle) (set : HandleSet) :
    Alike (m.setLive point set) (m'.setLive point set) :=
  ⟨h.store, by rw [LivePoints.setLive, LivePoints.setLive, h.live], h.exits⟩

/-- What is used and what remains make up the live set. -/
theorem merge (h : Alike m m') (hst : Store.Renumbers id s t) (uses remaining : Handle) :
    Lockstep (Fault.Follows R id) (SameAnswer Alike)
      (do let (merged, s) ← s.freshUnionOf [uses, remaining]
          .ok (← s.identities merged, m.withStore s))
      (do let (merged, t) ← t.freshUnionOf [uses, remaining]
          .ok (← t.identities merged, m'.withStore t)) := by
  refine Lockstep.bind_answer (same_freshUnionOf hst [uses, remaining]) fun merged s₁ t₁ h₁ => ?_
  exact Lockstep.bind_same (same_identities h₁ merged) fun set => .ok ⟨rfl, h.withStore h₁⟩

theorem liveBefore (h : Alike m m') (uses : Handle) (defined : Option Handle) (next : Handle) :
    Lockstep (Fault.Follows R id) (SameAnswer Alike)
      (m.liveBefore uses defined next) (m'.liveBefore uses defined next) := by
  refine Lockstep.bind_same (same_identities h.store uses) fun _ => ?_
  refine Lockstep.bind_same (h.liveAt next) fun after => ?_
  obtain ⟨hsnapshot, h₁⟩ := same_freshSet h.store "live" "live" after
  simp only [hsnapshot]
  cases defined with
  | none => exact h.merge h₁ uses _
  | some d =>
    exact Lockstep.bind_answer (same_freshDifference h₁ _ d) fun remaining _ _ h₂ =>
      h.merge h₂ uses remaining

theorem record (h : Alike m m') (point uses : Handle) (defined : Option Handle) (next : Handle) :
    Lockstep (Fault.Follows R id) Alike (m.record point uses defined next)
      (m'.record point uses defined next) :=
  Lockstep.bind_answer (h.liveBefore uses defined next) fun set _ _ h₁ =>
    .ok (h₁.setLive point set)

theorem openExit (h : Alike m m') (scope : Scope) (result : Expr) (next : Handle) :
    Lockstep (Fault.Follows R id) (SameAnswer Alike)
      (m.openExit scope result next) (m'.openExit scope result next) := by
  rw [LivePoints.openExit, LivePoints.openExit]
  cases result.var? with
  | none => exact .error rfl
  | some r =>
    obtain ⟨hexit, h₁⟩ := h.store.freshEmpty Function.injective_id (scope.display ++ ".exit")
      (scope.display ++ ".exit")
    rw [id_eq] at hexit
    simp only [hexit]
    refine ((h.withStore h₁).record _ r none next).bind fun m₁ m₁' h₂ => ?_
    exact .ok ⟨rfl, h₂.store, h₂.live, by rw [h₂.exits]⟩

theorem openBranch (h : Alike m m') (v next : Handle) :
    Lockstep (Fault.Follows R id) (SameAnswer Alike) (m.openBranch v next)
      (m'.openBranch v next) := by
  refine Lockstep.bind_same (h.liveAt next) fun after => ?_
  obtain ⟨hsnapshot, h₁⟩ := same_freshSet h.store "live" "live" after
  simp only [hsnapshot]
  refine Lockstep.bind_answer (same_freshDifference h₁ _ v) fun branchNext s₁ t₁ h₂ => ?_
  refine Lockstep.bind_same (same_identities h₂ branchNext) fun set => ?_
  exact .ok ⟨rfl, (h.withStore h₂).setLive branchNext set⟩

theorem argumentVars_self (v : Handle) : ∀ args : List Expr, Lockstep (Fault.Follows R id)
    (fun us us' => us' = us) (LivePoints.argumentVars v args) (LivePoints.argumentVars v args)
  | [] => .ok rfl
  | .var _ :: args => Lockstep.bind_same (argumentVars_self v args) fun _ => .ok rfl
  | .const _ :: args => argumentVars_self v args
  | .op _ :: _ | .call .. :: _ | .tuple _ :: _ | .get .. :: _ | .cond .. :: _ | .closure .. :: _
  | .letIn .. :: _ => .error rfl

theorem recordCall (h : Alike m m') (v : Handle) (args : List Expr) (next : Handle) :
    Lockstep (Fault.Follows R id) Alike (m.recordCall v args next) (m'.recordCall v args next) := by
  refine Lockstep.bind_same (argumentVars_self v args) fun uses => ?_
  refine Lockstep.bind_answer (same_freshUnionOf h.store uses) fun used s₁ t₁ h₁ => ?_
  exact (h.withStore h₁).record v used (some v) next

theorem recordCond (h : Alike m m') (v : Handle) (test thenBranch elseBranch : Expr)
    (next : Handle) : Lockstep (Fault.Follows R id) Alike
      (m.recordCond v test thenBranch elseBranch next)
      (m'.recordCond v test thenBranch elseBranch next) := by
  rw [LivePoints.recordCond, LivePoints.recordCond]
  cases test.var? with
  | none => exact .error rfl
  | some c =>
    refine Lockstep.bind_answer (same_freshUnionOf h.store thenBranch.freeVars)
      fun freeThen s₁ t₁ h₁ => ?_
    refine Lockstep.bind_answer (same_freshUnionOf h₁ elseBranch.freeVars)
      fun freeElse s₂ t₂ h₂ => ?_
    refine Lockstep.bind_answer (same_freshUnionOf h₂ [freeThen, freeElse, c])
      fun used s₃ t₃ h₃ => ?_
    exact (h.withStore h₃).record v used (some v) next

end LivePoints.Alike

mutual

/-- **Live sets do not depend on hints.** -/
theorem walkBack_alike (exit : Handle) : ∀ (e : Expr) {m m' : LivePoints}, m.Alike m' →
    Lockstep (Fault.Follows R id) (SameAnswer LivePoints.Alike)
      (walkBack m exit e) (walkBack m' exit e)
  | .letIn v value body, _, _, h => by
    rw [walkBack, walkBack]
    refine Lockstep.bind_answer (walkBack_alike exit body h) fun next m₁ m₁' h₁ => ?_
    exact (walkBackBinding_alike v next value h₁).bind fun _ _ h₂ => .ok ⟨rfl, h₂⟩
  | .var _, _, _, h | .const _, _, _, h | .op _, _, _, h | .call .., _, _, h | .tuple _, _, _, h
  | .get .., _, _, h | .cond .., _, _, h | .closure .., _, _, h => .ok ⟨rfl, h⟩

/-- The same for the value of a binding. -/
theorem walkBackBinding_alike (v next : Handle) : ∀ (e : Expr) {m m' : LivePoints}, m.Alike m' →
    Lockstep (Fault.Follows R id) LivePoints.Alike (walkBackBinding m v next e)
      (walkBackBinding m' v next e)
  | .var _, _, _, h | .const _, _, _, h | .tuple _, _, _, h | .get .., _, _, h
  | .closure .., _, _, h => h.record v v none next
  | .op _, _, _, h => h.record v next none next
  | .call callee args _, _, _, h => by
    rw [walkBackBinding, walkBackBinding]
    split
    · exact h.recordCall v args next
    · exact .error rfl
  | .cond test thenBranch elseBranch _, _, _, h => by
    rw [walkBackBinding, walkBackBinding]
    refine (h.recordCond v test thenBranch elseBranch next).bind fun m₁ m₁' h₁ => ?_
    refine Lockstep.bind_answer (h₁.openBranch v next) fun thenNext m₂ m₂' h₂ => ?_
    refine Lockstep.bind_answer (h₂.openExit (.thenOf v) thenBranch.result thenNext)
      fun thenExit m₃ m₃' h₃ => ?_
    refine Lockstep.bind_answer (walkBack_alike thenExit thenBranch h₃) fun _ m₄ m₄' h₄ => ?_
    refine Lockstep.bind_answer (h₄.openBranch v next) fun elseNext m₅ m₅' h₅ => ?_
    refine Lockstep.bind_answer (h₅.openExit (.elseOf v) elseBranch.result elseNext)
      fun elseExit m₆ m₆' h₆ => ?_
    exact Lockstep.bind_answer (walkBack_alike elseExit elseBranch h₆) fun _ _ _ h₇ => .ok h₇
  | .letIn .., _, _, _ => .error rfl

end

theorem livePoints_alike (h : Store.Renumbers id s t) (body : Expr) :
    Lockstep (Fault.Follows R id) LivePoints.Alike (livePoints s body) (livePoints t body) := by
  obtain ⟨hseed, h₁⟩ := h.freshEmpty Function.injective_id "exit.seed" "exit.seed"
  rw [id_eq] at hseed
  rw [livePoints, livePoints]
  simp only [hseed]
  have hstart : LivePoints.Alike ⟨(s.freshEmpty "exit.seed").2,
      (∅ : Std.ExtTreeMap Handle HandleSet).insert (s.freshEmpty "exit.seed").1 ∅, []⟩
      ⟨(t.freshEmpty "exit.seed").2,
        (∅ : Std.ExtTreeMap Handle HandleSet).insert (s.freshEmpty "exit.seed").1 ∅, []⟩ :=
    ⟨h₁, rfl, rfl⟩
  refine Lockstep.bind_answer (hstart.openExit .body body.result _) fun exit m m' h₂ => ?_
  exact Lockstep.bind_answer (walkBack_alike exit body h₂) fun _ _ _ h₃ => .ok h₃

/-! ### Demands -/

/-- The same classes and conflicts, with findings of the same kinds. -/
structure Validation.Alike (w w' : Validation) : Prop where
  forest : w'.forest = w.forest
  points : w'.points = w.points
  conflicts : w'.conflicts = w.conflicts
  kinds : w'.diagnostics.map Diagnostic.kind = w.diagnostics.map Diagnostic.kind

theorem leaves_eq (h : Store.Renumbers id s t) : t.leaves = s.leaves := by
  rw [Store.leaves, Store.leaves, Store.entries, Store.entries, sets_eq h]

theorem joinRoots_alike {w w' : Validation} (h : w.Alike w') (demand : Demand)
    (out input : Handle) : Lockstep (Fault.Follows R id) Validation.Alike
      (Validation.joinRoots vars s w demand out input)
      (Validation.joinRoots vars' t w' demand out input) := by
  have hcommon : w'.commonPoints demand.site out input = w.commonPoints demand.site out input := by
    rw [Validation.commonPoints, Validation.commonPoints, h.points]
  rw [Validation.joinRoots, Validation.joinRoots, hcommon]
  cases w.commonPoints demand.site out input with
  | nil =>
    simp only [h.forest, h.points]
    split
    · exact .error rfl
    · exact .ok ⟨rfl, rfl, h.conflicts, h.kinds⟩
  | cons point points =>
    refine .ok ⟨h.forest, h.points, by rw [h.conflicts], ?_⟩
    rw [List.map_append, List.map_append, h.kinds]
    rfl

/-- **A demand is taken alike.** -/
theorem take_alike (hst : Store.Renumbers id s t) (demand : Demand) {w w' : Validation}
    (h : w.Alike w') : Lockstep (Fault.Follows R id) Validation.Alike
      (Validation.take vars s w demand) (Validation.take vars' t w' demand) := by
  refine Lockstep.bind_same (same_identities hst demand.out) fun outs => ?_
  cases smallest? outs with
  | none => exact .ok h
  | some out =>
    refine Lockstep.bind_same (same_identities hst demand.input) fun inputs => ?_
    cases smallest? inputs with
    | none => exact .ok h
    | some input =>
      simp only [h.forest]
      split
      · exact .error rfl
      · split
        · exact .error rfl
        · split
          · exact .ok ⟨rfl, h.points, h.conflicts, h.kinds⟩
          · refine joinRoots_alike ?_ demand _ _
            exact ⟨rfl, h.points, h.conflicts, h.kinds⟩

theorem validate_alike (hst : Store.Renumbers id s t) (live : Std.ExtTreeMap Handle HandleSet)
    (pending : List Demand) : Lockstep (Fault.Follows R id) Validation.Alike
      (validate vars s live pending) (validate vars' t live pending) := by
  refine Lockstep.foldlM (fun _ _ demand h => take_alike hst demand h) pending ?_
  exact ⟨by rw [Validation.start, Validation.start, leaves_eq hst], rfl, rfl, rfl⟩

/-! ### Runs -/

/-- Runs that differ in hints and in the texts of findings. -/
structure Run.Alike (r r' : Run) : Prop where
  store : Store.Renumbers id r.store r'.store
  pending : r'.pending = r.pending
  live : r'.live = r.live
  exits : r'.exits = r.exits
  forest : r'.forest = r.forest
  conflicts : r'.conflicts = r.conflicts
  kinds : r'.diagnostics.map Diagnostic.kind = r.diagnostics.map Diagnostic.kind
  status : r'.status = r.status
  passes : r'.passes = r.passes

theorem kinds_formErrors (f : Function) :
    (formErrors vars' f).map Diagnostic.kind = (formErrors vars f).map Diagnostic.kind := by
  have h := @kinds_exprErrors id vars vars' f.body .sequence none none
  rwa [Expr.renumber_id] at h

theorem demands_renumber_id (ds : List Demand) : ds.map (Demand.renumber id) = ds :=
  List.map_id'' (fun _ => rfl) ds

/-- **A pass goes alike,** whatever the binders are called. -/
theorem step_alike (hvars : BinderTable.Alike R id vars vars') (f : Function) {r r' : Run}
    (h : r.Alike r') (pass : Pass) : Lockstep (Fault.Follows R id) Run.Alike
      (Run.step vars f r pass) (Run.step vars' f r' pass) := by
  have hdone : ∀ {x x' : Except Fault Run}, Lockstep (Fault.Follows R id) Run.Alike x x' →
      Lockstep (Fault.Follows R id) Run.Alike
        (x >>= fun r => .ok { r with passes := r.passes ++ [pass] })
        (x' >>= fun r => .ok { r with passes := r.passes ++ [pass] }) := fun hx =>
    hx.bind fun _ _ h => .ok ⟨h.store, h.pending, h.live, h.exits, h.forest, h.conflicts, h.kinds,
      h.status, by rw [h.passes]⟩
  rw [Run.step, Run.step, h.status]
  split
  · exact .ok h
  cases pass with
  | form =>
    have herrors := @kinds_formErrors vars vars' f
    refine hdone (.ok ⟨h.store, h.pending, h.live, h.exits, h.forest, h.conflicts, ?_, ?_,
      h.passes⟩)
    · rw [Run.withForm, Run.withForm, List.map_append, List.map_append, h.kinds, herrors]
    · rw [Run.withForm, Run.withForm, anyError_of_kinds herrors, h.status]
  | parameters =>
    refine hdone ?_
    have hbind := bindParameters_renumber Function.injective_id hvars f.params h.store
    rw [List.map_id] at hbind
    exact hbind.bind fun _ _ hs => .ok ⟨hs, h.pending, h.live, h.exits, h.forest, h.conflicts,
      h.kinds, h.status, h.passes⟩
  | identities =>
    refine hdone ?_
    have hstart : Propagation.Renumbers id ⟨r.store, r.pending⟩ ⟨r'.store, r'.pending⟩ :=
      ⟨h.store, by rw [demands_renumber_id, h.pending]⟩
    have hpropagate := @propagate_renumber R id vars vars' Function.injective_id f.body _ _ hstart
    rw [Expr.renumber_id] at hpropagate
    refine hpropagate.bind fun a a' ha => .ok ⟨ha.2.store, ?_, h.live, h.exits, h.forest,
      h.conflicts, h.kinds, h.status, h.passes⟩
    exact ha.2.pending.trans (demands_renumber_id _)
  | liveness =>
    exact hdone ((livePoints_alike h.store f.body).bind fun _ _ hm => .ok ⟨hm.store, h.pending,
      hm.live, hm.exits, h.forest, h.conflicts, h.kinds, h.status, h.passes⟩)
  | sharing =>
    refine hdone ?_
    rw [Run.withSharing, Run.withSharing, h.live, h.pending]
    refine (validate_alike h.store r.live r.pending).bind fun w w' hw => .ok ⟨h.store, rfl, rfl,
      h.exits, hw.forest, hw.conflicts, ?_, ?_, h.passes⟩
    · rw [List.map_append, List.map_append, h.kinds, hw.kinds]
    · rw [hw.conflicts, h.status]

theorem upTo_alike (hvars : BinderTable.Alike R id vars vars') (hsize : vars'.size = vars.size)
    (f : Function) (terminal : Pass) : Lockstep (Fault.Follows R id) Run.Alike
      (Run.upTo vars f terminal) (Run.upTo vars' f terminal) := by
  refine Lockstep.foldlM (fun _ _ pass h => step_alike hvars f h pass) terminal.required ?_
  rw [Run.start, Run.start, hsize]
  exact ⟨Store.renumbers_empty (fun _ => rfl) fun _ => Iff.rfl, rfl, rfl, rfl, rfl, rfl, rfl, rfl,
    rfl⟩

/-! ### Results -/

/-- Results that differ in names and in the texts of findings only. -/
structure Outcome.Alike (o o' : Outcome) : Prop where
  status : o'.status = o.status
  identities : o'.liveness.identities = o.liveness.identities
  live : o'.liveness.live = o.liveness.live
  exits : o'.liveness.exits = o.liveness.exits
  pending : o'.pending = o.pending
  conflicts : o'.conflicts = o.conflicts
  classes : o'.liveness.classes = o.liveness.classes
  roots : o'.liveness.roots = o.liveness.roots
  codes : o'.diagnostics.map (·.code) = o.diagnostics.map (·.code)
  passes : o'.passes = o.passes

theorem Run.Alike.outcome {r r' : Run} (h : r.Alike r') (terminal : Pass) :
    Outcome.Alike (r.outcome vars terminal) (r'.outcome vars' terminal) := by
  refine ⟨?_, ?_, h.live, h.exits, h.pending, h.conflicts, ?_, ?_, codes_of_kinds h.kinds,
    h.passes⟩
  · rw [Run.outcome, Run.outcome, h.status]
  · have hminted : (fun e : Handle × HandleSet => !r'.store.isMinted e.1) =
        fun e => !r.store.isMinted e.1 := funext fun e => by rw [isMinted_eq h.store]
    change r'.store.entries.filter _ = r.store.entries.filter _
    rw [hminted, Store.entries, Store.entries, sets_eq h.store]
  · rw [Run.outcome, Run.outcome, h.forest]
  · rw [Run.outcome, Run.outcome, h.forest]

/-- An analysis reads the names of binders for hints and messages only. -/
theorem analyze_alike (hvars : BinderTable.Alike R id vars vars') (hsize : vars'.size = vars.size)
    (f : Function) (terminal : Pass) : Lockstep (Fault.Alike R) Outcome.Alike
      (analyze vars f terminal) (analyze vars' f terminal) := by
  have hrun : Lockstep (Fault.Follows R id) Outcome.Alike (analyze vars f terminal)
      (analyze vars' f terminal) :=
    (upTo_alike hvars hsize f terminal).bind fun _ _ h => .ok (h.outcome terminal)
  refine hrun.mono (fun e e' he => ?_) fun _ _ h => h
  rwa [Fault.Follows, Fault.renumber_id] at he

/-- **The analysis depends on binding structure only.**  For modules that differ in spans and in the
names of their local variables, related one to one, the functions are the same, handle for handle,
and so are the kinds of findings.  Each analysis of a function comes to results that differ in
names and texts only, or to the same fault, up to the name of a parameter. -/
theorem analysis_of_alike {R : String → String → Prop} (hR : Relator.BiUnique R)
    {m m' : Syntax.Module} (h : Syntax.ModuleAlike R m m') :
    (ofModule m').1.functions = (ofModule m).1.functions ∧
    (ofModule m').2.map (·.code) = (ofModule m).2.map (·.code) ∧
    ∀ entry f, (ofModule m).1.function? entry = some f →
      (ofModule m').1.function? entry = some f ∧ ∀ terminal,
        Lockstep (Fault.Alike R) Outcome.Alike (analyze (ofModule m).1.vars f terminal)
          (analyze (ofModule m').1.vars f terminal) := by
  obtain ⟨hfunctions, hvars, hsize, hkinds⟩ := ofModule_alike hR h
  refine ⟨hfunctions, codes_of_kinds hkinds, fun entry f hentry => ⟨?_, fun terminal => ?_⟩⟩
  · rwa [Program.function?, hfunctions]
  · exact analyze_alike hvars hsize f terminal

/-- The module of a text with a function that is analysed and one that is not:
`fn @main(%x: Tensor) { let %y = exp(%x); %y } fn @call(%f: Func) { %f }`. -/
def plainModule : Syntax.Module :=
  ⟨[⟨⟨"main", ⟨3, 8⟩⟩, [⟨⟨"x", ⟨9, 11⟩⟩, .named ⟨"Tensor", ⟨13, 19⟩⟩, ⟨9, 19⟩⟩],
      .bind ⟨"y", ⟨27, 29⟩⟩ none
        (.call (.op ⟨"exp", ⟨32, 35⟩⟩) [.var ⟨"x", ⟨36, 38⟩⟩ ⟨36, 38⟩] ⟨32, 39⟩) ⟨23, 40⟩
        (.result (.var ⟨"y", ⟨41, 43⟩⟩ ⟨41, 43⟩) ⟨21, 45⟩), ⟨0, 45⟩⟩,
    ⟨⟨"call", ⟨49, 54⟩⟩, [⟨⟨"f", ⟨55, 57⟩⟩, .named ⟨"Func", ⟨59, 63⟩⟩, ⟨55, 63⟩⟩],
      .result (.var ⟨"f", ⟨67, 69⟩⟩ ⟨67, 69⟩) ⟨65, 71⟩, ⟨46, 71⟩⟩], ⟨0, 71⟩⟩

/-- The same with the names `x1`, `y1` and `f1`, and the spans that these have. -/
def renamedModule : Syntax.Module :=
  ⟨[⟨⟨"main", ⟨3, 8⟩⟩, [⟨⟨"x1", ⟨9, 12⟩⟩, .named ⟨"Tensor", ⟨14, 20⟩⟩, ⟨9, 20⟩⟩],
      .bind ⟨"y1", ⟨28, 31⟩⟩ none
        (.call (.op ⟨"exp", ⟨34, 37⟩⟩) [.var ⟨"x1", ⟨38, 41⟩⟩ ⟨38, 41⟩] ⟨34, 42⟩) ⟨24, 43⟩
        (.result (.var ⟨"y1", ⟨44, 47⟩⟩ ⟨44, 47⟩) ⟨22, 49⟩), ⟨0, 49⟩⟩,
    ⟨⟨"call", ⟨53, 58⟩⟩, [⟨⟨"f1", ⟨59, 62⟩⟩, .named ⟨"Func", ⟨64, 68⟩⟩, ⟨59, 68⟩⟩],
      .result (.var ⟨"f1", ⟨72, 75⟩⟩ ⟨72, 75⟩) ⟨70, 77⟩, ⟨50, 77⟩⟩], ⟨0, 77⟩⟩

/-- The second name is the first with a digit behind it. -/
def Numbers (a b : String) : Prop := b = a ++ "1"

theorem biUnique_numbers : Relator.BiUnique Numbers :=
  ⟨fun _ _ _ h h' => (String.append_left_inj "1").1 (h.symm.trans h'),
    fun _ _ _ h h' => h.trans h'.symm⟩

theorem moduleAlike_renamedModule : Syntax.ModuleAlike Numbers plainModule renamedModule := by
  refine .cons ⟨rfl, .cons ⟨rfl, rfl⟩ .nil, ?_⟩ (.cons ⟨rfl, .cons ⟨rfl, rfl⟩ .nil, ?_⟩ .nil)
  · refine .bind _ _ rfl rfl ?_ (.result _ _ (.var _ _ rfl))
    exact .call _ _ (.op rfl) (.cons (.var _ _ rfl) .nil)
  · exact .result _ _ (.var _ _ rfl)

/-- One function of the two modules has the same result, and the other the same fault but for the
name of its parameter. -/
theorem analysis_of_renamedModule : ∃ f g o o',
    Syntax.ModuleAlike Numbers plainModule renamedModule ∧
    (ofModule plainModule).1.function? "main" = some f ∧
    (ofModule plainModule).1.function? "call" = some g ∧
    analyze (ofModule plainModule).1.vars f .sharing = .ok o ∧ o.status = .valid ∧
    analyze (ofModule renamedModule).1.vars f .sharing = .ok o' ∧ Outcome.Alike o o' ∧
    analyze (ofModule plainModule).1.vars g .sharing = .error (.unsupportedParam "f" "Func") ∧
    ∃ name, Numbers "f" name ∧ analyze (ofModule renamedModule).1.vars g .sharing =
      .error (.unsupportedParam name "Func") := by
  have halike := analysis_of_alike biUnique_numbers moduleAlike_renamedModule
  have hrun : ((analyze (ofModule plainModule).1.vars
      ⟨[0], .letIn 1 (.call (.op "exp") [.var 0] .tensor) (.var 1)⟩ .sharing).toOption.any fun o =>
        o.status = .valid) = true := by decide +kernel
  obtain ⟨o, ho, hvalid⟩ := exists_ok_of_any hrun
  have hfault : analyze (ofModule plainModule).1.vars ⟨[2], .var 2⟩ .sharing =
      .error (.unsupportedParam "f" "Func") := by
    cbv
  have hmain : (ofModule plainModule).1.function? "main" =
      some ⟨[0], .letIn 1 (.call (.op "exp") [.var 0] .tensor) (.var 1)⟩ := by
    cbv
  have hcall : (ofModule plainModule).1.function? "call" = some ⟨[2], .var 2⟩ := by
    cbv
  obtain ⟨o', ho', hsame⟩ := ((halike.2.2 _ _ hmain).2 .sharing).exists_ok ho
  have hother := (halike.2.2 _ _ hcall).2 .sharing
  rw [hfault] at hother
  refine ⟨_, _, o, o', moduleAlike_renamedModule, hmain, hcall, ho, of_decide_eq_true hvalid, ho',
    hsame, hfault, ?_⟩
  generalize analyze (ofModule renamedModule).1.vars ⟨[2], .var 2⟩ .sharing = x at hother ⊢
  cases hother with
  | error he =>
    obtain ⟨name, hname, rfl⟩ := he
    exact ⟨name, hname, rfl⟩

end Analysis
end TensorLiveness
