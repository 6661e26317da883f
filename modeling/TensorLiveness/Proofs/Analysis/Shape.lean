/-
# Programs whose types fit are analysed

When every binder has the type of its value (`ShapeConsistent`), every variable that is bound has
the tuple structure of its type, and then nothing can fail.

| lemma | about |
| --- | --- |
| `shaped_of_made` | what is minted for a type has its structure |
| `exists_demandsWithin_ok` | two tuples of one structure fit, if followed deep enough |
| `depth_le_size` | they are: a type nests no deeper than a store with a value of it has records |
| `not_simpleFault` | the binding of a value that has a type does not fail |
| `shaped_of_denotes` | and gives its variable the structure of the type |
| `exists_propagate_ok` | sequences, by induction |

`analysed_of_shapeConsistent` says it of an analysed function: there is a result after every pass,
and every parameter and every binder has a record just when its type is a tuple.
-/

import TensorLiveness.Proofs.Analysis.Evaluation

namespace TensorLiveness
namespace Program

mutual

/-- How deep tuples are nested in a type. -/
def Ty.depth : Ty → Nat
  | .tuple tys => Ty.depthAll tys + 1
  | _ => 0

/-- How deep tuples are nested in any of some types. -/
def Ty.depthAll : List Ty → Nat
  | [] => 0
  | ty :: tys => max ty.depth (Ty.depthAll tys)

end

theorem Ty.depth_le_of_getElem? {tys : List Ty} {i : Nat} {ty : Ty} (h : tys[i]? = some ty) :
    ty.depth ≤ Ty.depthAll tys := by
  induction tys generalizing i with
  | nil => cases h
  | cons t tys ih =>
    cases i with
    | zero =>
      obtain rfl := Option.some.inj h
      exact Nat.le_max_left _ _
    | succ i => exact Nat.le_trans (ih h) (Nat.le_max_right _ _)

end Program

namespace Analysis

open Identity Program Store ValueTree

/-- In the store `s` the handle `v` has the structure of the type: a record just when the type is
a tuple, with a field for each component, and so on for every field that is tracked.  Fields that
are not tracked are of type `Tensor`. -/
inductive Shaped (s : Store) : Ty → Handle → Prop
  | plain {ty : Ty} {v : Handle} : (∀ tys, ty ≠ .tuple tys) → s.records[v]? = none →
    Shaped s ty v
  | tuple {tys : List Ty} {v : Handle} {fields : Fields} : s.records[v]? = some fields →
    fields.length = tys.length →
    (∀ (i : Nat) ty, fields[i]? = some none → tys[i]? = some ty → ty = .tensor) →
    (∀ (i : Nat) u ty, fields[i]? = some (some u) → tys[i]? = some ty → Shaped s ty u) →
    Shaped s (.tuple tys) v

section Shaped

variable {s t : Store} {ty : Ty} {v u : Handle} {vs : List Handle}

/-- A handle with the record of another has the structure of the other. -/
theorem Shaped.congr (h : Shaped s ty u) (hrecord : s.records[v]? = s.records[u]?) :
    Shaped s ty v := by
  cases h with
  | plain hty hnone => exact .plain hty (hrecord.trans hnone)
  | tuple hfields hlength huntracked htracked =>
    exact .tuple (hrecord.trans hfields) hlength huntracked htracked

/-- The structure stays the same as the store grows. -/
theorem Shaped.extends (h : Shaped s ty v) (hs : s.Sound) (hext : Extends vs s t)
    (hv : v ∈ s.sets) : Shaped t ty v := by
  induction h with
  | plain hty hnone => exact .plain hty ((hext.records hv).trans hnone)
  | tuple hfields hlength huntracked _ ih =>
    refine .tuple ((hext.records hv).trans hfields) hlength huntracked fun i u ty hu hty => ?_
    exact ih i u ty hu hty (hs.field_bound hfields (List.mem_of_getElem? hu))

/-- The record of a tuple. -/
theorem Shaped.exists_fields {tys : List Ty} (h : Shaped s (.tuple tys) v) :
    ∃ fields, s.records[v]? = some fields ∧ fields.length = tys.length ∧
      (∀ (i : Nat) ty, fields[i]? = some none → tys[i]? = some ty → ty = .tensor) ∧
      ∀ (i : Nat) u ty, fields[i]? = some (some u) → tys[i]? = some ty → Shaped s ty u := by
  cases h with
  | plain hty _ => exact absurd rfl (hty tys)
  | tuple hfields hlength huntracked htracked =>
    exact ⟨_, hfields, hlength, huntracked, htracked⟩

mutual

/-- **What is made for a type has its structure.** -/
theorem shaped_of_made {ty : Ty} {x : ValueTree} {es : List Handle} {v : Handle} (h : Made ty x es)
    (hx : Mirrors s x v) : Shaped s ty v := by
  cases h with
  | tensor e => exact .plain (fun _ => nofun) hx.record_eq_none
  | other name e => exact .plain (fun _ => nofun) hx.record_eq_none
  | func => exact .plain (fun _ => nofun) (Mirrors.record_eq_none hx)
  | tuple h =>
    cases hx with
    | tuple _ hfields hall =>
      obtain ⟨hlength, hshaped⟩ := shaped_of_madeAll h hall
      refine .tuple hfields hlength (fun i ty hnone hty => ?_) fun i u ty hu hty => ?_
      · obtain ⟨u, hu, _⟩ := hshaped i ty hty
        cases hnone.symm.trans hu
      · obtain ⟨w, hw, hshaped⟩ := hshaped i ty hty
        obtain rfl := Option.some.inj (Option.some.inj (hu.symm.trans hw))
        exact hshaped

/-- Every component of a tuple that is made has a field of its structure. -/
theorem shaped_of_madeAll {tys : List Ty} {slots : List (Option ValueTree)} {es : List Handle}
    {fields : Fields} (h : MadeAll tys slots es) (hall : MirrorsAll s slots fields) :
    fields.length = tys.length ∧ ∀ (i : Nat) ty, tys[i]? = some ty →
      ∃ u, fields[i]? = some (some u) ∧ Shaped s ty u := by
  cases h with
  | nil =>
    cases hall
    exact ⟨rfl, fun i ty hty => nomatch hty⟩
  | cons hmade hrest =>
    cases hall with
    | tracked hx hall =>
      obtain ⟨hlength, hshaped⟩ := shaped_of_madeAll hrest hall
      refine ⟨congrArg (· + 1) hlength, fun i ty hty => ?_⟩
      cases i with
      | zero =>
        obtain rfl := Option.some.inj hty
        exact ⟨_, rfl, shaped_of_made hmade hx⟩
      | succ i => exact hshaped i ty hty

end

theorem MadeAt.shaped (h : MadeAt s ty v) : Shaped s ty v := by
  obtain ⟨x, es, hmade, _, hx⟩ := h
  exact shaped_of_made hmade hx

end Shaped

/-! ### Demands between tuples of one structure -/

theorem exists_fieldDemands_ok {f : Handle → Handle → Except Fault (List Demand)} :
    ∀ {outs inputs : Fields}, (∀ (i : Nat) o d, outs[i]? = some (some o) →
      inputs[i]? = some (some d) → ∃ ds, f o d = .ok ds) → ∃ ds, fieldDemands f outs inputs = .ok ds
  | [], inputs, _ => ⟨[], by cases inputs <;> rfl⟩
  | out :: outs, [], _ => ⟨[], by cases out <;> rfl⟩
  | out :: outs, input :: inputs, h => by
    obtain ⟨rest, hrest⟩ : ∃ ds, fieldDemands f outs inputs = .ok ds :=
      exists_fieldDemands_ok fun i o d ho hd => h (i + 1) o d ho hd
    cases out with
    | none => exact ⟨rest, hrest⟩
    | some o =>
      cases input with
      | none => exact ⟨rest, hrest⟩
      | some d =>
        obtain ⟨first, hfirst⟩ := h 0 o d rfl rfl
        exact ⟨first ++ rest, bind_eq_ok.2 ⟨first, hfirst, bind_eq_ok.2 ⟨rest, hrest, rfl⟩⟩⟩

/-- **Two handles of one structure fit.** -/
theorem exists_demandsWithin_ok {s : Store} (site : Handle) {ty : Ty} {out : Handle}
    (hout : Shaped s ty out) : ∀ {depth : Nat} {input : Handle}, Shaped s ty input →
      ty.depth ≤ depth → ∃ ds, demandsWithin s site depth out input = .ok ds := by
  induction hout with
  | @plain ty out hty hnone =>
    intro depth input hinput _
    cases hinput with
    | plain _ hnone' =>
      refine ⟨[⟨out, input, site⟩], ?_⟩
      cases depth <;> rw [demandsWithin, fields?, fields?, hnone, hnone']
    | tuple _ _ _ _ => exact absurd rfl (hty _)
  | @tuple tys out outs houts hlength _ _ ih =>
    intro depth input hinput hdepth
    obtain ⟨inputs, hinputs, hlength', _, htracked⟩ := hinput.exists_fields
    obtain ⟨depth, rfl⟩ : ∃ d, depth = d + 1 := Nat.exists_eq_add_one.2 (Nat.lt_of_lt_of_le
      (Nat.succ_pos _) hdepth)
    have hdepth : Ty.depthAll tys ≤ depth := Nat.le_of_succ_le_succ hdepth
    rw [demandsWithin, fields?, fields?, houts, hinputs]
    simp only [hlength.trans hlength'.symm, if_true]
    refine exists_fieldDemands_ok fun i o d ho hd => ?_
    have hlt : i < tys.length := hlength ▸ (List.getElem?_eq_some_iff.1 ho).1
    have hty : tys[i]? = some tys[i] := List.getElem?_eq_getElem hlt
    exact ih i o _ ho hty (htracked i d _ hd hty)
      (Nat.le_trans (Ty.depth_le_of_getElem? hty) hdepth)

/-- A record more for a handle without one. -/
theorem size_recordFields {s : Store} {v : Handle} (h : s.records[v]? = none) (fields : Fields) :
    (s.recordFields v fields).records.size = s.records.size + 1 := by
  have hnot : ¬ s.records.contains v = true := fun hmem => by
    rw [Std.ExtTreeMap.contains_eq_isSome_getElem?, h] at hmem
    cases hmem
  exact Std.ExtTreeMap.size_insert.trans (if_neg hnot)

mutual

/-- **A type nests no deeper than a store that holds a value of it has records.** -/
theorem depth_le_size : ∀ (ty : Ty) {s : Store} (hint : String), s.Sound →
    s.records.size ≤ (s.freshValue hint ty).2.records.size ∧
      ty.depth ≤ (s.freshValue hint ty).2.records.size
  | .tensor, s, hint, _ | .func, s, hint, _ | .other _, s, hint, _ => by
    rw [freshValue]
    exact ⟨Nat.le_refl _, Nat.zero_le _⟩
  | .tuple tys, s, hint, hs => by
    obtain ⟨hgrow, _⟩ := freshValues_spec tys hint 0 hs
    obtain ⟨hle, hdepth⟩ := depthAll_le_size tys hint 0 hs
    rcases hvalues : s.freshValues hint 0 tys with ⟨vs, t⟩
    rw [hvalues] at hgrow hle hdepth
    simp only [freshValue, hvalues]
    have hmint := mints_freshSet hgrow.sound "merge" (t.unionOfBound vs) fun e he => by
      obtain ⟨u, _, he⟩ := mem_unionOfBound.1 he
      exact hgrow.sound.leaf he
    have hsame : (t.freshSet "merge" (t.unionOfBound vs)).2.records = t.records := rfl
    rw [size_recordFields hmint.record, hsame, Ty.depth]
    exact ⟨Nat.le_succ_of_le hle, Nat.succ_le_succ hdepth⟩

/-- The same for the fields of a tuple. -/
theorem depthAll_le_size : ∀ (tys : List Ty) {s : Store} (hint : String) (i : Nat), s.Sound →
    s.records.size ≤ (s.freshValues hint i tys).2.records.size ∧
      Ty.depthAll tys ≤ (s.freshValues hint i tys).2.records.size
  | [], s, _, _, _ => ⟨Nat.le_refl _, Nat.zero_le _⟩
  | ty :: tys, s, hint, i, hs => by
    obtain ⟨hgrow, _⟩ := freshValue_spec ty (hint ++ "." ++ toString i) hs
    obtain ⟨hle, hdepth⟩ := depth_le_size ty (hint ++ "." ++ toString i) hs
    obtain ⟨hle', hdepth'⟩ := depthAll_le_size tys hint (i + 1) hgrow.sound
    rw [freshValues, Ty.depthAll]
    exact ⟨Nat.le_trans hle hle', Nat.max_le.2 ⟨Nat.le_trans hdepth hle', hdepth'⟩⟩

end

/-! ### Bindings -/

variable {vars : BinderTable}

/-- Every bound handle that the table has a type for has its structure. -/
def Shapes (vars : BinderTable) (s : Store) : Prop :=
  ∀ v ∈ s.sets, ∀ ty, vars.ty? v = some ty → Shaped s ty v

/-- The variable `v` has the type of its value `x`, and the type that the value carries, if any. -/
def Fits (vars : BinderTable) (v : Handle) (x : Expr) : Prop :=
  ∃ ty, vars.ty? v = some ty ∧ HasType vars x ty ∧ ∀ declared, x.resultType? = some declared →
    declared = ty

theorem shapes_empty : Shapes vars (.empty vars.size) := fun _ hv => absurd hv sets_empty

/-- Structures are kept when variables are bound to values of their types: what is minted besides
is not in the table. -/
theorem Shapes.extends {s t : Store} {vs : List Handle} (h : Shapes vars s) (hs : s.Sound)
    (hsize : s.firstMinted = vars.size) (hext : Extends vs s t)
    (hvs : ∀ v ∈ vs, ∀ ty, vars.ty? v = some ty → Shaped t ty v) : Shapes vars t := by
  intro v hv ty hty
  rcases hext.only hv with hv | hv | hle
  · exact (h v hv ty hty).extends hs hext hv
  · exact hvs v hv ty hty
  · -- a minted handle is behind the table
    have hminted : vars.size ≤ v := hsize ▸ Nat.le_trans hs.firstMinted_le hle
    obtain ⟨binder, hbinder, _⟩ := Option.map_eq_some_iff.1 hty
    exact absurd (Array.getElem?_eq_some_iff.1 hbinder).1 (Nat.not_lt.2 hminted)

section Bindings

variable {p q : Propagation} {v : Handle} {x : Expr} {ty : Ty}

/-- **The binding of a value that has a type does not fail.** -/
theorem not_simpleFault {s : Store} (hvisible : ∀ u ∈ x.occurrences, u ∈ s.sets)
    (hshapes : Shapes vars s) (hty : HasType vars x ty) (fault : Fault) :
    ¬ SimpleFault s x fault := by
  intro h
  cases h with
  | unbound h => exact h.2 (hvisible _ h.1)
  | notATuple hnone =>
    cases hty with
    | get hu hindex =>
      obtain ⟨fields, hfields, _⟩ := (hshapes _ (hvisible _ List.mem_cons_self) _ hu).exists_fields
      cases hnone.symm.trans hfields
  | noSuchField hfields hnone =>
    cases hty with
    | get hu hindex =>
      obtain ⟨fields, hfields', hlength, _⟩ :=
        (hshapes _ (hvisible _ List.mem_cons_self) _ hu).exists_fields
      obtain rfl := Option.some.inj (hfields.symm.trans hfields')
      rw [List.getElem?_eq_none_iff, hlength] at hnone
      exact absurd (List.getElem?_eq_some_iff.1 hindex).1 (Nat.not_lt.2 hnone)

/-- A tuple of variables and constants has the structure of the tuple of their types. -/
theorem shaped_of_fields {s : Store} {fields : List Expr} {tys : List Ty}
    (hrecord : s.records[v]? = some (fields.map Expr.var?))
    (htypes : fields.map (Expr.fieldType? vars) = tys.map some)
    (hshapes : ∀ u, some u ∈ fields.map Expr.var? → ∀ ty, vars.ty? u = some ty → Shaped s ty u) :
    Shaped s (.tuple tys) v := by
  have hlength : fields.length = tys.length := by
    simpa using congrArg List.length htypes
  have hfield : ∀ {i : Nat} {o : Option Handle} {ty : Ty}, (fields.map Expr.var?)[i]? = some o →
      tys[i]? = some ty → ∃ field : Expr, field.var? = o ∧ field.fieldType? vars = some ty := by
    intro i o ty ho hty
    rw [List.getElem?_map] at ho
    obtain ⟨field, hfield, rfl⟩ := Option.map_eq_some_iff.1 ho
    have heq := congrArg (·[i]?) htypes
    simp only [List.getElem?_map, hfield, hty, Option.map_some] at heq
    exact ⟨field, rfl, Option.some.inj heq⟩
  refine .tuple hrecord (by rw [List.length_map, hlength]) (fun i ty hnone hty => ?_)
    fun i u ty hu hty => ?_
  · obtain ⟨field, hvar, htype⟩ := hfield hnone hty
    cases field with
    | var u => cases hvar
    | const c => exact (Option.some.inj htype).symm
    | _ => cases htype
  · obtain ⟨field, hvar, htype⟩ := hfield hu hty
    cases field with
    | var w =>
      obtain rfl := Option.some.inj hvar
      exact hshapes w (List.mem_of_getElem? hu) ty htype
    | _ => cases hvar

/-- **What a value of a type is bound to has the structure of the type,** if the variables in the
value have the structures of theirs. -/
theorem shaped_of_denotes (h : Denotes p v x) (hty : HasType vars x ty)
    (hmade : x.isMade = true → Shaped p.store ty v)
    (hshapes : ∀ u ∈ x.occurrences, ∀ ty, vars.ty? u = some ty → Shaped p.store ty u) :
    Shaped p.store ty v := by
  cases h with
  | var _ _ hrecord =>
    cases hty with
    | var hu => exact (hshapes _ List.mem_cons_self _ hu).congr hrecord
  | const c _ hrecord =>
    cases hty with
    | const _ => exact .plain (fun _ => nofun) hrecord
  | op name _ hrecord =>
    cases hty with
    | op _ => exact .plain (fun _ => nofun) hrecord
  | closure _ _ hrecord =>
    cases hty with
    | closure _ _ => exact .plain (fun _ => nofun) hrecord
  | call _ => exact hmade rfl
  | tuple _ _ hrecord =>
    cases hty with
    | tuple htypes =>
      exact shaped_of_fields hrecord htypes fun u hu ty htype =>
        hshapes u (mem_occurrencesAll_of_mem_map hu) ty htype
  | field hfields hindex _ hrecord =>
    cases hty with
    | get hu hcomponent =>
      obtain ⟨fields, hfields', _, _, htracked⟩ :=
        (hshapes _ List.mem_cons_self _ hu).exists_fields
      obtain rfl := Option.some.inj (hfields.symm.trans hfields')
      exact (htracked _ _ _ hindex hcomponent).congr hrecord
  | untracked hfields hindex _ hrecord =>
    cases hty with
    | get hu hcomponent =>
      obtain ⟨fields, hfields', _, huntracked, _⟩ :=
        (hshapes _ List.mem_cons_self _ hu).exists_fields
      obtain rfl := Option.some.inj (hfields.symm.trans hfields')
      obtain rfl := huntracked _ _ hindex hcomponent
      exact .plain (fun _ => nofun) hrecord
  | cond _ _ _ _ _ => exact hmade rfl

/-- **Branches that result in one type fit a result of the type.** -/
theorem exists_bindCond_ok {a b : Handle} (hs : p.store.Sound) (hlt : v < p.store.firstMinted)
    (ha : a ∈ p.store.sets) (hb : b ∈ p.store.sets) (hta : Shaped p.store ty a)
    (htb : Shaped p.store ty b) : ∃ q, p.bindCond vars v a b ty = .ok q := by
  obtain ⟨hgrow, hmem, _⟩ := freshValue_spec ty (hintOf vars v) hs
  obtain ⟨x, es, hmade, _, hx⟩ := freshValue_makes ty (hintOf vars v) hs
  obtain ⟨_, hdepth⟩ := depth_le_size ty (hintOf vars v) hs
  rw [Propagation.bindCond]
  generalize p.store.freshValue (hintOf vars v) ty = value at hgrow hmem hx hdepth
  obtain ⟨out, s⟩ := value
  have hout : Shaped s ty out := shaped_of_made hmade hx
  -- the store with the result in it has records enough to follow both branches to the end
  have hdepth' : ty.depth ≤ recordDepth s := Nat.le_trans hdepth (Nat.le_mul_self _)
  obtain ⟨first, hfirst⟩ := exists_demandsWithin_ok v hout (hta.extends hs hgrow ha) hdepth'
  obtain ⟨second, hsecond⟩ := exists_demandsWithin_ok v hout (htb.extends hs hgrow hb) hdepth'
  obtain ⟨t, ht, _⟩ := (bindLike_ends (d := out) hgrow.sound (hgrow.firstMinted_eq ▸ hlt)).exists_ok
    fun e he => he.1 hmem
  exact ⟨_, bind_eq_ok.2 ⟨first, hfirst, bind_eq_ok.2 ⟨second, hsecond,
    bind_eq_ok.2 ⟨t, ht, rfl⟩⟩⟩⟩

/-- The binding of a simple value that fits its variable. -/
theorem exists_propagateSimple_ok (hsimple : x.Simple) (hs : p.store.Sound)
    (hsize : p.store.firstMinted = vars.size) (hv : v ∉ p.store.sets)
    (hlt : v < p.store.firstMinted) (hvisible : ∀ u ∈ x.occurrences, u ∈ p.store.sets)
    (hshapes : Shapes vars p.store) (hfits : Fits vars v x) :
    ∃ q, propagateBinding vars p v x = .ok q ∧ Extends [v] p.store q.store ∧
      Shapes vars q.store := by
  obtain ⟨ty, hv_ty, hty, hdeclared⟩ := hfits
  obtain ⟨q, hq, _⟩ := (propagateSimple_ends hsimple hs hlt).exists_ok
    (not_simpleFault hvisible hshapes hty)
  obtain ⟨hext, hdenotes⟩ := propagateSimple_spec hsimple hs hv hlt hq
  refine ⟨q, hq, hext, hshapes.extends hs hsize hext fun u hu ty' hty' => ?_⟩
  obtain rfl := List.mem_singleton.1 hu
  obtain rfl := Option.some.inj (hv_ty.symm.trans hty')
  refine shaped_of_denotes hdenotes hty (fun hmade => ?_) fun w hw ty htype => ?_
  · cases hsimple with
    | call name declared _ =>
      obtain rfl := hdeclared declared rfl
      exact (bindCall_makes hs hv hlt hq).shaped
    | _ => cases hmade
  · exact (hshapes w (hvisible w hw) ty htype).extends hs hext (hvisible w hw)

/-- A conditional that fits its variable, behind its branches. -/
theorem exists_cond_ok {p₁ p₂ : Propagation} {a b : Handle}
    {test thenBranch elseBranch body : Expr}
    (hready : Ready p.store (.letIn v (.cond test thenBranch elseBranch ty) body))
    (hthen : ∀ u ∈ thenBranch.allBindings.map (·.1), u ∈ thenBranch.binders)
    (helse : ∀ u ∈ elseBranch.allBindings.map (·.1), u ∈ elseBranch.binders)
    (hsize : p.store.firstMinted = vars.size) (hfirst : Propagates p p₁ thenBranch a)
    (hsecond : Propagates p₁ p₂ elseBranch b) (hshapes : Shapes vars p₂.store)
    (hfits : Fits vars v (.cond test thenBranch elseBranch ty)) :
    ∃ q, p₂.bindCond vars v a b ty = .ok q ∧ Shapes vars q.store := by
  have hboth := hfirst.grows.trans hsecond.grows
  obtain ⟨hv, hlt⟩ := hready.behind_branches hboth fun u hu => List.mem_append.2
    ((List.mem_append.1 hu).imp (hthen u) (helse u))
  obtain ⟨ty', hv_ty, htype, hdeclared⟩ := hfits
  -- the result is minted for the type that the conditional carries, which is that of its variable
  obtain rfl := hdeclared ty rfl
  have ha := hsecond.grows.mem hfirst.result_mem
  have hb := hsecond.result_mem
  obtain ⟨hta, htb⟩ : Shaped p₂.store ty a ∧ Shaped p₂.store ty b := by
    cases htype with
    | cond hra hta hrb htb =>
      obtain rfl := Expr.var.inj (hfirst.result_eq.symm.trans hra)
      obtain rfl := Expr.var.inj (hsecond.result_eq.symm.trans hrb)
      exact ⟨hshapes _ ha ty hta, hshapes _ hb ty htb⟩
  obtain ⟨q, hq⟩ : ∃ q, p₂.bindCond vars v a b ty = .ok q :=
    exists_bindCond_ok hboth.sound hlt ha hb hta htb
  obtain ⟨hext, _⟩ := bindCond_spec hboth.sound hv hlt ha hb hq
  refine ⟨q, hq, hshapes.extends hboth.sound (hboth.firstMinted_eq.trans hsize) hext
    fun u hu ty' hty => ?_⟩
  obtain rfl := List.mem_singleton.1 hu
  obtain rfl := Option.some.inj (hv_ty.symm.trans hty)
  exact (bindCond_makes hboth.sound hv hlt hq).shaped

/-- **A sequence whose variables have the types of their values does not fail,** and its variables
have the structures of their types. -/
theorem exists_propagate_ok {e : Expr} (he : e.Flat) : ∀ {p : Propagation}, Ready p.store e →
    p.store.firstMinted = vars.size → Shapes vars p.store →
      (∀ v x, (v, x) ∈ e.allBindings → Fits vars v x) →
        ∃ r q, propagate vars p e = .ok (r, q) ∧ Shapes vars q.store := by
  induction he with
  | result r => exact fun {p} _ _ hshapes _ => ⟨r, p, rfl, hshapes⟩
  | @bind v x body hsimple hbody ih =>
    intro p hready hsize hshapes hfits
    rw [hsimple.allBindings_letIn] at hfits
    obtain ⟨p₁, h₁, hext, hshapes₁⟩ := exists_propagateSimple_ok hsimple hready.sound hsize
      (hready.not_mem Ready.binder_mem) (hready.lt_firstMinted Ready.binder_mem)
      (fun u hu => hready.visible (List.mem_append_left _ hu)) hshapes
      (hfits v x List.mem_cons_self)
    have hbody' := hready.body_part hext (fun u hu => Nat.le_of_eq (List.mem_singleton.1 hu))
      List.mem_cons_self
    obtain ⟨r, q, hq, hshapes'⟩ := ih hbody' (hext.firstMinted_eq.trans hsize) hshapes₁
      fun w y hb => hfits w y (List.mem_cons_of_mem _ hb)
    exact ⟨r, q, bind_eq_ok.2 ⟨p₁, h₁, hq⟩, hshapes'⟩
  | @cond v c thenBranch elseBranch body ty hthen helse hbody iht ihe ihb =>
    intro p hready hsize hshapes hfits
    rw [Expr.allBindings_cond] at hfits
    have hthens := fun u hu => hthen.map_fst_allBindings_sublist.subset (a := u) hu
    have helses := fun u hu => helse.map_fst_allBindings_sublist.subset (a := u) hu
    obtain ⟨a, p₁, h₁, hshapes₁⟩ := iht hready.then_part hsize hshapes fun w y hb =>
      hfits w y (List.mem_append_left _ (List.mem_append_left _ hb))
    have hfirst := propagate_spec hthen hready.then_part h₁
    have helse' := hready.else_part hfirst.grows hthens
    obtain ⟨b, p₂, h₂, hshapes₂⟩ := ihe helse' (hfirst.grows.firstMinted_eq.trans hsize) hshapes₁
      fun w y hb => hfits w y (List.mem_append_left _ (List.mem_append_right _ hb))
    have hsecond := propagate_spec helse helse' h₂
    obtain ⟨p₃, h₃, hshapes₃⟩ := exists_cond_ok hready hthens helses hsize hfirst hsecond
      hshapes₂ (hfits v _ (List.mem_append_right _ List.mem_cons_self))
    have hbind := binds_cond hready hthens helses hfirst hsecond h₃
    have hbody' := hready.body_part hbind.grows (fun u hu => hbind.le_of_mem hu)
      (List.mem_append_right _ List.mem_cons_self)
    obtain ⟨r, q, hq, hshapes'⟩ := ihb hbody' (hbind.grows.firstMinted_eq.trans hsize) hshapes₃
      fun w y hb => hfits w y (List.mem_append_right _ (List.mem_cons_of_mem _ hb))
    refine ⟨r, q, bind_eq_ok.2 ⟨p₃, bind_eq_ok.2 ⟨(a, p₁), h₁, ?_⟩, hq⟩, hshapes'⟩
    exact bind_eq_ok.2 ⟨(b, p₂), h₂, h₃⟩

end Bindings

/-! ### Functions -/

/-- The types of a function fit: parameters are buffers or tuples of buffers, and every variable
bound outside closures has the type of its value. -/
structure ShapeConsistent (vars : BinderTable) (f : Function) : Prop where
  params {v : Handle} : v ∈ f.params → ∃ ty, vars.ty? v = some ty ∧ ty.OfBuffers
  bindings {v : Handle} {x : Expr} : (v, x) ∈ f.body.allBindings →
    ∃ ty, vars.ty? v = some ty ∧ HasType vars x ty

/-- The parameters of such a function have the structures of their types. -/
theorem exists_bindParameters_ok {f : Function} (hscoped : f.Scoped vars.size)
    (h : ShapeConsistent vars f) : ∃ s, bindParameters vars (.empty vars.size) f.params = .ok s ∧
      Shapes vars s := by
  have hlt : ∀ v ∈ f.params, v < vars.size := fun v hv =>
    hscoped.lt_size (List.mem_append_left _ hv)
  obtain ⟨s, hs, _⟩ := (bindParameters_ends f.params (sound_empty vars.size) fun v hv =>
    ⟨hlt v hv, hlt v hv⟩).exists_ok fun e he => by
      obtain ⟨_, v, hv, ty, hty, hnot⟩ := he
      obtain ⟨ty', hty', hbuffers⟩ := h.params hv
      obtain rfl := Option.some.inj (hty.symm.trans hty')
      exact hnot hbuffers
  obtain ⟨hext, _⟩ := ready_of_bindParameters hscoped hs
  refine ⟨s, hs, shapes_empty.extends (sound_empty vars.size) rfl hext fun v hv ty hty => ?_⟩
  obtain ⟨hsorted, _, _⟩ := List.pairwise_append.1 hscoped.sorted
  obtain ⟨⟨ty', hty', hmade⟩, _⟩ := bindParameters_makes (sound_empty vars.size) hsorted
    (fun u hu => ⟨sets_empty, hlt u hu⟩) hs v hv
  obtain rfl := Option.some.inj (hty.symm.trans hty')
  exact hmade.shaped

/-- **A program whose types fit is analysed.**  Every pass comes to a result, and once the
identities are found, every parameter and every variable bound outside closures has a record just
when its type is a tuple, of as many fields as the type has, and so on for the fields that are
tracked. -/
theorem analysed_of_shapeConsistent {source entry : String} {program : Program}
    {warnings : List Diagnostic} {f : Function}
    (hread : readProgram source = .ok (program, warnings))
    (hentry : program.function? entry = some f) (hform : formErrors program.vars f = [])
    (h : ShapeConsistent program.vars f) :
    (∀ terminal, ∃ o, analyze program.vars f terminal = .ok o) ∧
    ∃ r, Run.upTo program.vars f .identities = .ok r ∧
      ∀ v ∈ f.params ++ f.body.allBindings.map (·.1), ∃ ty, program.vars.ty? v = some ty ∧
        Shaped r.store ty v := by
  have hscoped := readProgram_scoped hread hentry
  obtain ⟨s, hs, hshapes⟩ := exists_bindParameters_ok hscoped h
  obtain ⟨hext, hready⟩ := ready_of_bindParameters hscoped hs
  have hfits : ∀ v x, (v, x) ∈ f.body.allBindings → Fits program.vars v x := fun v x hb => by
    obtain ⟨ty, hty, htype⟩ := h.bindings hb
    refine ⟨ty, hty, htype, fun declared hdeclared => ?_⟩
    have htable := ty?_of_resultType? hread hentry hb hdeclared
    exact Option.some.inj (htable.symm.trans hty)
  obtain ⟨result, p, hp, hshapes'⟩ := exists_propagate_ok (p := ⟨s, []⟩)
    (flat_of_formErrors_eq_nil hform) hready hext.firstMinted_eq hshapes hfits
  have hrun := (Run.upTo_identities_eq_ok hform).2 ⟨s, result, p, hs, hp, rfl⟩
  refine ⟨?_, _, hrun, fun v hv => ?_⟩
  · exact exists_ok_of_identities (fun v => hscoped.lt_size) (not_stray hscoped)
      (analyze_eq_ok.2 ⟨_, hrun, rfl⟩)
  · have hprop := propagate_spec (flat_of_formErrors_eq_nil hform) hready hp
    have hmem : v ∈ p.store.sets := (hext.trans hprop.grows).bound hv
    have htype : ∃ ty, program.vars.ty? v = some ty := by
      rcases List.mem_append.1 hv with hv | hv
      · obtain ⟨ty, hty, _⟩ := h.params hv
        exact ⟨ty, hty⟩
      · obtain ⟨⟨w, x⟩, hb, rfl⟩ := List.mem_map.1 hv
        obtain ⟨ty, hty, _⟩ := h.bindings hb
        exact ⟨ty, hty⟩
    obtain ⟨ty, hty⟩ := htype
    exact ⟨ty, hty, hshapes' v hmem ty hty⟩

theorem shapeConsistent_nestedFunction : ShapeConsistent nestedProgram.vars nestedFunction := by
  refine ⟨fun {v} hv => ?_, fun {v x} hb => ?_⟩
  · simp only [nestedFunction, List.mem_cons, List.not_mem_nil, or_false] at hv
    rcases hv with rfl | rfl
    · exact ⟨_, rfl, .tensor⟩
    · exact ⟨_, rfl, .tuple (by simp)⟩
  · simp only [nestedFunction, Expr.allBindings, Expr.branchBindings, List.nil_append,
      List.cons_append, List.append_nil, List.mem_cons, Prod.mk.injEq, List.not_mem_nil,
      or_false] at hb
    rcases hb with ⟨rfl, rfl⟩ | ⟨rfl, rfl⟩ | ⟨rfl, rfl⟩ | ⟨rfl, rfl⟩ | ⟨rfl, rfl⟩ | ⟨rfl, rfl⟩ |
      ⟨rfl, rfl⟩ | ⟨rfl, rfl⟩
    · exact ⟨_, rfl, .closure _ _⟩
    · exact ⟨_, rfl, .call _ _ _ _⟩
    · exact ⟨_, rfl, .tuple rfl⟩
    · exact ⟨_, rfl, .cond rfl rfl rfl rfl⟩
    · exact ⟨_, rfl, .tuple rfl⟩
    · exact ⟨_, rfl, .var rfl⟩
    · exact ⟨_, rfl, .get rfl rfl⟩
    · exact ⟨_, rfl, .get rfl rfl⟩

/-- The tuple that the program builds of the conditional's result has the structure of its type,
two tuples deep. -/
theorem analysed_of_shapeConsistent_nested :
    readProgram nestedSource = .ok (nestedProgram, []) ∧
    formErrors nestedProgram.vars nestedFunction = [] ∧
    (∀ terminal, ∃ o, analyze nestedProgram.vars nestedFunction terminal = .ok o) ∧
    ∃ r, Run.upTo nestedProgram.vars nestedFunction .identities = .ok r ∧
      Shaped r.store (.tuple [.tuple [.tensor, .tensor], .tensor]) 7 := by
  have hentry : nestedProgram.function? "main" = some nestedFunction := rfl
  have hform : formErrors nestedProgram.vars nestedFunction = [] := by decide +kernel
  obtain ⟨hok, r, hr, hshaped⟩ := analysed_of_shapeConsistent readProgram_nestedSource hentry hform
    shapeConsistent_nestedFunction
  obtain ⟨ty, hty, hshaped⟩ := hshaped 7 (by decide)
  obtain rfl := Option.some.inj hty
  exact ⟨readProgram_nestedSource, hform, hok, r, hr, hshaped⟩

end Analysis
end TensorLiveness
