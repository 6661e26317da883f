/-
# Exit codes

The texts that the program can be asked for take passes of different number, so a run for one of
them tells what a run for another would come to only as far as the passes behind the shorter one
change nothing.  With the text written to the output stream:

| what the source comes to | `ir` | `identities` | the others |
| --- | --- | --- | --- |
| no program, or no such function | 1 | 1 | 1 |
| rejected by the form check | 0 | 1 | 1 |
| a fault | 0 | 2 | 2 |
| a conflict | 0 | 0 | 1 |
| valid | 0 | 0 | 0 |

A fault belongs to the passes that find the identities: once these are found, the passes behind them
fail for nothing in a program that could be read (`analyze_error_iff`).
-/

import TensorLiveness.CommandLine.Directory
import TensorLiveness.Proofs.Analysis.Faults.Run
import TensorLiveness.Proofs.Analysis.Refusal

namespace TensorLiveness
namespace CommandLine

open Analysis Identity Program

variable {d : Directory} {path source entry : String}

/-! ### From the source to the exit code -/

/-- A run that writes to the output stream. -/
def emitting (d : Directory) (path entry : String) (emit : Emit) : Finished :=
  runIn d ⟨path, entry, emit, none⟩

theorem emitting_eq (hsource : (d.read path >>= decodeText) = .ok source) (entry : String)
    (emit : Emit) : (emitting d path entry emit).exitCode =
        (respondToSource ⟨path, entry, emit, none⟩ source).exitCode ∧
      (emitting d path entry emit).output =
        (respondToSource ⟨path, entry, emit, none⟩ source).text.getD "" := by
  unfold emitting runIn
  simp only [hsource, respond]
  cases (respondToSource ⟨path, entry, emit, none⟩ source).text <;> exact ⟨rfl, rfl⟩

/-- A source that is turned down leaves nothing to write. -/
theorem emitting_of_rejection (hsource : (d.read path >>= decodeText) = .ok source)
    {emit : Emit} {r : Rejection} (h : check source ⟨entry, emit.terminal⟩ = .error r) :
    (emitting d path entry emit).exitCode = (rejectionResponse r).exitCode ∧
      (emitting d path entry emit).output = "" := by
  obtain ⟨hcode, houtput⟩ := emitting_eq hsource entry emit
  have hrespond : respondToSource ⟨path, entry, emit, none⟩ source = rejectionResponse r := by
    unfold respondToSource
    rw [h]
  have htext : (rejectionResponse r).text = none := by
    unfold rejectionResponse
    split <;> rfl
  rw [hcode, houtput, hrespond, htext]
  exact ⟨rfl, rfl⟩

theorem check_of_read {program : Program} {warnings : List Diagnostic}
    (hread : readProgram source = .ok (program, warnings)) (entry : String) (terminal : Pass) :
    check source ⟨entry, terminal⟩ =
      match program.function? entry with
      | none => .error (.names [missingEntry source entry program])
      | some f =>
        match analyze program.vars f terminal with
        | .error e => .error (.fault e)
        | .ok outcome => .ok ⟨program, entry, f, outcome, warnings⟩ := by
  unfold check
  rw [hread]
  rfl

/-- Reading fails for the syntax or for names. -/
theorem exitCode_of_readProgram_error {r : Rejection} (h : readProgram source = .error r) :
    (rejectionResponse r).exitCode = 1 := by
  unfold readProgram at h
  split at h
  · dsimp only at h
    split at h
    · rw [← Except.error.inj h]
      rfl
    · cases h
  · rename_i errors _ _
    rw [← Except.error.inj h]
    cases errors <;> rfl

/-- **Without a function to check** the exit code is 1, whatever the text that is asked for. -/
theorem emitting_of_no_function (hsource : (d.read path >>= decodeText) = .ok source)
    (h : ¬ ∃ program warnings f, readProgram source = .ok (program, warnings) ∧
      program.function? entry = some f) (emit : Emit) :
    (emitting d path entry emit).exitCode = 1 ∧ (emitting d path entry emit).output = "" := by
  suffices hrejected : ∃ r, check source ⟨entry, emit.terminal⟩ = .error r ∧
      (rejectionResponse r).exitCode = 1 by
    obtain ⟨r, hr, hcode⟩ := hrejected
    rw [← hcode]
    exact emitting_of_rejection hsource hr
  cases hread : readProgram source with
  | error r =>
    refine ⟨r, ?_, exitCode_of_readProgram_error hread⟩
    unfold check
    rw [hread]
    rfl
  | ok p =>
    obtain ⟨program, warnings⟩ := p
    have hnone : program.function? entry = none :=
      Option.eq_none_iff_forall_ne_some.2 fun f hf => h ⟨program, warnings, f, hread, hf⟩
    refine ⟨.names [missingEntry source entry program], ?_, rfl⟩
    rw [check_of_read hread, hnone]

section Checked

variable {program : Program} {warnings : List Diagnostic} {f : Function}
  (hsource : (d.read path >>= decodeText) = .ok source)
  (hread : readProgram source = .ok (program, warnings))
  (hentry : program.function? entry = some f)

include hsource hread hentry

theorem emitting_of_error (emit : Emit) {fault : Fault}
    (h : analyze program.vars f emit.terminal = .error fault) :
    (emitting d path entry emit).exitCode = 2 ∧ (emitting d path entry emit).output = "" := by
  have hcheck : check source ⟨entry, emit.terminal⟩ = .error (.fault fault) := by
    rw [check_of_read hread, hentry]
    dsimp only
    rw [h]
  exact emitting_of_rejection hsource hcheck

theorem emitting_of_ok (emit : Emit) {o : Outcome}
    (h : analyze program.vars f emit.terminal = .ok o) :
    (emitting d path entry emit).exitCode = exitCode emit o.status := by
  have hcheck : check source ⟨entry, emit.terminal⟩ = .ok ⟨program, entry, f, o, warnings⟩ := by
    rw [check_of_read hread, hentry]
    dsimp only
    rw [h]
  rw [(emitting_eq hsource entry emit).1]
  unfold respondToSource
  rw [hcheck]

end Checked

/-! ### Verdicts -/

section Verdict

variable {vars : BinderTable} {f : Function} {o : Outcome}

/-- A function without the form is analysed no further, which is no fault. -/
theorem exists_ok_of_rejected {terminal : Pass} (h : anyError (formErrors vars f) = true) :
    ∃ o, analyze vars f terminal = .ok o :=
  ⟨_, analyze_eq_ok.2 ⟨_, Run.upTo_rejected (anyError_formErrors.1 h) terminal, rfl⟩⟩

theorem exists_ok_form (vars : BinderTable) (f : Function) : ∃ o, analyze vars f .form = .ok o := by
  by_cases hform : formErrors vars f = []
  · exact ⟨_, analyze_eq_ok.2 ⟨_, Run.upTo_form hform, rfl⟩⟩
  · exact exists_ok_of_rejected (anyError_formErrors.2 hform)

/-- The verdict before the demands are checked is on the form alone. -/
theorem status_of_identities (h : analyze vars f .identities = .ok o) :
    o.status = if anyError (formErrors vars f) then .unsupportedForm else .incomplete := by
  obtain ⟨r, hr, rfl⟩ := analyze_eq_ok.1 h
  by_cases hform : formErrors vars f = []
  · have hstatus := Run.status_of_upTo hform (by decide) hr
    simp [Run.outcome, hstatus, hform, anyError]
  · rw [Run.upTo_rejected hform] at hr
    rw [← Except.ok.inj hr]
    simp [Run.outcome, anyError_formErrors.2 hform]

/-- The verdict of a full analysis is a verdict. -/
theorem status_ne_incomplete (h : analyze vars f .sharing = .ok o) : o.status ≠ .incomplete := by
  obtain ⟨r, hr, rfl⟩ := analyze_eq_ok.1 h
  by_cases hform : formErrors vars f = []
  · obtain ⟨s, v, p, m, w, -, -, -, -, rfl⟩ := (Run.upTo_sharing_eq_ok hform).1 hr
    have hverdict : (if w.conflicts.isEmpty then Status.valid else .aliasingConflict) ≠
        .incomplete := by
      split <;> exact nofun
    exact (if_neg fun h => h.2 rfl).trans_ne hverdict
  · rw [Run.upTo_rejected hform] at hr
    rw [← Except.ok.inj hr]
    simp [Run.outcome]

/-- **The analysis of a resolved function fails as a whole** exactly if the identities cannot be
found. -/
theorem analyze_error_iff (hscoped : f.Scoped vars.size) :
    (∃ e, analyze vars f .sharing = .error e) ↔ ∃ e, analyze vars f .identities = .error e := by
  constructor
  · rintro ⟨e, he⟩
    cases h : analyze vars f .identities with
    | error e' => exact ⟨e', rfl⟩
    | ok o =>
      obtain ⟨o', ho'⟩ := exists_ok_of_identities (fun v => hscoped.lt_size) (not_stray hscoped) h
        .sharing
      rw [ho'] at he
      cases he
  · rintro ⟨e, he⟩
    have hrun := analyze_eq_error.1 he
    refine ⟨e, analyze_eq_error.2 ?_⟩
    rw [Run.upTo_eq_bind (p := .liveness) rfl, Run.upTo_eq_bind (p := .identities) rfl, hrun]
    rfl

end Verdict

/-! ### All texts -/

/-- How the exit codes of runs for the different texts of a function go together. -/
structure ExitCodes (vars : BinderTable) (f : Function) (run : Emit → Finished) : Prop where
  ir : (run .ir).exitCode = 0
  json : (run .json).exitCode = (run .liveness).exitCode
  buildInfo : (run .buildInfo).exitCode = (run .liveness).exitCode
  valid : (run .liveness).exitCode = 0 ↔ ∃ o, analyze vars f .sharing = .ok o ∧ o.status = .valid
  fault : (run .liveness).exitCode = 2 ↔ ∃ e, analyze vars f .sharing = .error e
  otherwise : (run .liveness).exitCode ≠ 0 → (run .liveness).exitCode ≠ 2 →
    (run .liveness).exitCode = 1
  output {emit : Emit} : (run emit).exitCode = 2 → (run emit).output = ""
  identities_fault : (run .identities).exitCode = 2 ↔ (run .liveness).exitCode = 2
  identities_form : (run .identities).exitCode = 1 ↔ anyError (formErrors vars f) = true
  identities_otherwise : (run .identities).exitCode ≠ 2 → (run .identities).exitCode ≠ 1 →
    (run .identities).exitCode = 0
  identities_conflict {o : Outcome} : analyze vars f .sharing = .ok o →
    o.status = .aliasingConflict → (run .identities).exitCode = 0

/-- The code that a full analysis ends in. -/
def verdictCode : Except Fault Outcome → Nat
  | .ok o => if o.status = .valid then 0 else 1
  | .error _ => 2

theorem verdictCode_eq_zero {x : Except Fault Outcome} :
    verdictCode x = 0 ↔ ∃ o, x = .ok o ∧ o.status = .valid := by
  cases x with
  | ok o => simp [verdictCode]
  | error e => simp [verdictCode]

theorem verdictCode_eq_two {x : Except Fault Outcome} : verdictCode x = 2 ↔ ∃ e, x = .error e := by
  cases x with
  | ok o =>
    rw [verdictCode]
    split <;> simp
  | error e => simp [verdictCode]

theorem verdictCode_le_two (x : Except Fault Outcome) : verdictCode x ≤ 2 := by
  cases x with
  | ok o =>
    rw [verdictCode]
    split <;> omega
  | error e => simp [verdictCode]

/-- The code that an analysis up to the identities ends in. -/
def identitiesCode (rejected : Bool) : Except Fault Outcome → Nat
  | .ok _ => if rejected then 1 else 0
  | .error _ => 2

theorem identitiesCode_eq_two {rejected : Bool} {x : Except Fault Outcome} :
    identitiesCode rejected x = 2 ↔ ∃ e, x = .error e := by
  cases x with
  | ok o => cases rejected <;> simp [identitiesCode]
  | error e => simp [identitiesCode]

theorem identitiesCode_eq_one {rejected : Bool} {x : Except Fault Outcome} :
    identitiesCode rejected x = 1 ↔ rejected = true ∧ ∃ o, x = .ok o := by
  cases x with
  | ok o => cases rejected <;> simp [identitiesCode]
  | error e => simp [identitiesCode]

theorem identitiesCode_le_two (rejected : Bool) (x : Except Fault Outcome) :
    identitiesCode rejected x ≤ 2 := by
  cases x with
  | ok o => cases rejected <;> simp [identitiesCode]
  | error e => simp [identitiesCode]

/-- A text that takes the whole analysis ends in the code of the verdict. -/
theorem exitCode_of_verdict {emit : Emit} {status : Status} (hemit : emit.terminal = .sharing)
    (hne : status ≠ .incomplete) : exitCode emit status = if status = .valid then 0 else 1 := by
  cases emit with
  | liveness | json | buildInfo => cases status <;> first | rfl | exact absurd rfl hne
  | identities | ir => cases hemit

section Agree

variable {program : Program} {warnings : List Diagnostic} {f : Function}
  (hsource : (d.read path >>= decodeText) = .ok source)
  (hread : readProgram source = .ok (program, warnings))
  (hentry : program.function? entry = some f)

include hsource hread hentry

theorem emitting_full {emit : Emit} (hemit : emit.terminal = .sharing) :
    (emitting d path entry emit).exitCode = verdictCode (analyze program.vars f .sharing) := by
  rw [← hemit]
  cases h : analyze program.vars f emit.terminal with
  | error fault => exact (emitting_of_error hsource hread hentry emit h).1
  | ok o =>
    rw [emitting_of_ok hsource hread hentry emit h]
    rw [hemit] at h
    exact exitCode_of_verdict hemit (status_ne_incomplete h)

theorem emitting_identities : (emitting d path entry .identities).exitCode =
    identitiesCode (anyError (formErrors program.vars f)) (analyze program.vars f .identities) := by
  cases h : analyze program.vars f .identities with
  | error fault => exact (emitting_of_error hsource hread hentry .identities h).1
  | ok o =>
    rw [emitting_of_ok hsource hread hentry .identities h, status_of_identities h]
    cases anyError (formErrors program.vars f) <;> rfl

theorem output_of_exitCode {emit : Emit} (h : (emitting d path entry emit).exitCode = 2) :
    (emitting d path entry emit).output = "" := by
  cases hanalyze : analyze program.vars f emit.terminal with
  | error fault => exact (emitting_of_error hsource hread hentry emit hanalyze).2
  | ok o =>
    rw [emitting_of_ok hsource hread hentry emit hanalyze] at h
    cases emit <;> cases hstatus : o.status <;> rw [hstatus] at h <;> cases h

/-- **The exit codes of runs on a function** that is there. -/
theorem exitCodes_of_function : ExitCodes program.vars f (emitting d path entry) := by
  obtain ⟨o, ho⟩ := exists_ok_form program.vars f
  have hliveness := emitting_full hsource hread hentry (rfl : Emit.liveness.terminal = .sharing)
  have hjson := emitting_full hsource hread hentry (rfl : Emit.json.terminal = .sharing)
  have hbuildInfo := emitting_full hsource hread hentry (rfl : Emit.buildInfo.terminal = .sharing)
  have hle := verdictCode_le_two (analyze program.vars f .sharing)
  have hidentities := emitting_identities hsource hread hentry
  have hle' := identitiesCode_le_two (anyError (formErrors program.vars f))
    (analyze program.vars f .identities)
  have htwo : (emitting d path entry .identities).exitCode = 2 ↔
      ∃ e, analyze program.vars f .sharing = .error e := by
    rw [hidentities, identitiesCode_eq_two, analyze_error_iff (readProgram_scoped hread hentry)]
  have hone : (emitting d path entry .identities).exitCode = 1 ↔
      anyError (formErrors program.vars f) = true := by
    rw [hidentities, identitiesCode_eq_one]
    exact and_iff_left_of_imp exists_ok_of_rejected
  rw [← hliveness] at hle
  rw [← hidentities] at hle'
  refine ⟨emitting_of_ok hsource hread hentry .ir ho, hjson.trans hliveness.symm,
    hbuildInfo.trans hliveness.symm, hliveness ▸ verdictCode_eq_zero,
    hliveness ▸ verdictCode_eq_two, by omega, output_of_exitCode hsource hread hentry,
    htwo.trans (hliveness ▸ verdictCode_eq_two.symm), hone, by omega, fun {o'} ho' hstatus => ?_⟩
  have hform := formErrors_eq_nil ho' (by rw [hstatus]; decide)
  have hnot : ¬ anyError (formErrors program.vars f) = true := by
    rw [hform]
    decide
  have hno : ¬ ∃ e, analyze program.vars f .sharing = .error e := by
    rintro ⟨e, he⟩
    rw [ho'] at he
    cases he
  rw [← hone] at hnot
  rw [← htwo] at hno
  omega

end Agree

/-- **The exit codes agree.**  Let the source file hold a text.  If it is no program, or one without
the function that was asked for, every run ends in 1 and writes nothing.  Otherwise the text of the
function itself is always written, all texts that take the whole analysis end in one code, which
tells its verdict, and the one that takes the identities alone ends as they do, but for a conflict,
which it cannot see. -/
theorem exitCodes_agree (hsource : (d.read path >>= decodeText) = .ok source) (entry : String) :
    ((¬ ∃ program warnings f, readProgram source = .ok (program, warnings) ∧
        program.function? entry = some f) → ∀ emit, (emitting d path entry emit).exitCode = 1 ∧
          (emitting d path entry emit).output = "") ∧
    ∀ program warnings f, readProgram source = .ok (program, warnings) →
      program.function? entry = some f → ExitCodes program.vars f (emitting d path entry) := by
  refine ⟨emitting_of_no_function hsource, fun program warnings f hread hentry => ?_⟩
  exact exitCodes_of_function hsource hread hentry

/-- A file of a text reads as the text. -/
theorem read_ofFile (s : String) :
    ((Directory.ofFile "a" s.toUTF8).read "a" >>= decodeText) = .ok s := by
  have hfile : (Directory.ofFile "a" s.toUTF8).read "a" = .ok s.toUTF8 := by rfl
  have htext : decodeText s.toUTF8 = .ok s := by
    simp only [decodeText, String.fromUTF8?, String.toUTF8_eq_toByteArray, dif_pos s.isValidUTF8]
    rfl
  rw [hfile]
  exact htext

/-- Runs on a file with `rejoinedSource`: the conflict shows in the document and not in the
identities, and there is no function `@f`. -/
theorem exitCodes_agree_rejoined :
    let d := Directory.ofFile "a" rejoinedSource.toUTF8
    (emitting d "a" "main" .json).exitCode = 1 ∧ (emitting d "a" "main" .identities).exitCode = 0 ∧
      (emitting d "a" "f" .ir).exitCode = 1 ∧ (emitting d "a" "f" .ir).output = "" := by
  intro d
  have hsource : (d.read "a" >>= decodeText) = .ok rejoinedSource := read_ofFile rejoinedSource
  have hrun : ((analyze rejoinedProgram.vars rejoinedFunction .sharing).toOption.any fun o =>
      o.status = .aliasingConflict) = true := by decide +kernel
  obtain ⟨o, ho, htest⟩ := exists_ok_of_any hrun
  have hstatus : o.status = .aliasingConflict := of_decide_eq_true htest
  have hmain := (exitCodes_agree hsource "main").2 rejoinedProgram [] rejoinedFunction
    readProgram_rejoinedSource rfl
  refine ⟨hmain.json.trans (hmain.otherwise (fun hzero => ?_) fun htwo => ?_),
    hmain.identities_conflict ho hstatus, (exitCodes_agree hsource "f").1 ?_ .ir⟩
  · obtain ⟨o', ho', hvalid⟩ := hmain.valid.1 hzero
    obtain rfl := Except.ok.inj (ho.symm.trans ho')
    rw [hstatus] at hvalid
    cases hvalid
  · obtain ⟨e, he⟩ := hmain.fault.1 htwo
    rw [ho] at he
    cases he
  · rintro ⟨program, warnings, f, hread, hf⟩
    have hprogram : rejoinedProgram = program :=
      (Prod.mk.inj (Except.ok.inj (readProgram_rejoinedSource.symm.trans hread))).1
    have hnone : rejoinedProgram.function? "f" = none := by decide +kernel
    rw [← hprogram, hnone] at hf
    cases hf

end CommandLine
end TensorLiveness
