/-
# Matching the results of branches

The result of a branch is matched against the result of its conditional, record by record.  A
variable that is bound already can be given a record, so there are records that hold themselves.
What is minted for the type of a conditional has none of these, so the matching ends, however deep
the other side goes.

`Matches s site out input n r` says what a matching comes to, and in how many calls, without a bound
on depth.  `Facing s out input path o i` says where a path of tuple indices leads on both sides.

| lemma | about a matching |
| --- | --- |
| `Matches.unique` | it comes to one thing, in one number of calls |
| `exists_matches` | against a value of a type it ends, in as many calls as the type has nodes |
| `Matches.accounts` | it lists the paths to two entries, or fails for the first misfit |

`MatchedExactly` is all of this for the bounded matching of propagation, and
`matchedExactly_of_shaped` says that the bound is out of reach.
-/

import TensorLiveness.Proofs.Analysis.Shape

namespace TensorLiveness
namespace Program

mutual

/-- The number of nodes of a type. -/
def Ty.nodes : Ty → Nat
  | .tuple tys => Ty.nodesAll tys + 1
  | _ => 1

/-- The number of nodes of some types. -/
def Ty.nodesAll : List Ty → Nat
  | [] => 0
  | ty :: tys => ty.nodes + Ty.nodesAll tys

end

theorem Ty.nodes_pos : ∀ ty : Ty, 1 ≤ ty.nodes
  | .tuple _ => Nat.succ_pos _
  | .tensor | .func | .other _ => Nat.le_refl 1

end Program

namespace Analysis

open Identity Program Store

variable {s : Store} {site out input o i : Handle} {outs inputs : Fields} {path : List Nat}

/-! ### Matching without a bound -/

/-- Only one of two handles has a record, or their records have different lengths. -/
def Misfit (s : Store) (o i : Handle) : Prop :=
  (s.records[o]?).map List.length ≠ (s.records[i]?).map List.length

/-- The fields of two tuples are matched by `R`, from left to right and no further than the first
failure, in `n` calls.  Fields that are not tracked on both sides are passed over. -/
inductive InOrder (R : Handle → Handle → Nat → Except Fault (List Demand) → Prop) :
    Fields → Fields → Nat → Except Fault (List Demand) → Prop
  | nil : InOrder R [] [] 0 (.ok [])
  | untracked {o i : Option Handle} {outs inputs : Fields} {n : Nat}
    {r : Except Fault (List Demand)} : o = none ∨ i = none → InOrder R outs inputs n r →
    InOrder R (o :: outs) (i :: inputs) n r
  | tracked {o i : Handle} {outs inputs : Fields} {m n : Nat} {first : List Demand}
    {r : Except Fault (List Demand)} : R o i m (.ok first) → InOrder R outs inputs n r →
    InOrder R (some o :: outs) (some i :: inputs) (m + n) (r.map (first ++ ·))
  | stopped {o i : Handle} {outs inputs : Fields} {m : Nat} {fault : Fault} :
    R o i m (.error fault) → InOrder R (some o :: outs) (some i :: inputs) m (.error fault)

/-- Matching `input` against `out` for the conditional bound to `site` takes `n` calls, the first
one included, and comes to `r`. -/
inductive Matches (s : Store) (site : Handle) :
    Handle → Handle → Nat → Except Fault (List Demand) → Prop
  | entry {out input : Handle} : s.records[out]? = none → s.records[input]? = none →
    Matches s site out input 1 (.ok [⟨out, input, site⟩])
  | misfit {out input : Handle} : Misfit s out input →
    Matches s site out input 1 (.error (.shapeMismatch out input))
  | fields {out input : Handle} {outs inputs : Fields} {n : Nat} {r : Except Fault (List Demand)} :
    s.records[out]? = some outs → s.records[input]? = some inputs →
    outs.length = inputs.length → InOrder (Matches s site) outs inputs n r →
    Matches s site out input (n + 1) r

/-- What holds of the matchings of fields may be used for the matching of two tuples. -/
@[elab_as_elim]
theorem Matches.induct {motive : ∀ out input n r, Matches s site out input n r → Prop}
    (entry : ∀ {out input} (hout : s.records[out]? = none) (hinput : s.records[input]? = none),
      motive out input 1 _ (.entry hout hinput))
    (misfit : ∀ {out input} (h : Misfit s out input), motive out input 1 _ (.misfit h))
    (fields : ∀ {out input outs inputs n r} (hout : s.records[out]? = some outs)
      (hinput : s.records[input]? = some inputs) (hlength : outs.length = inputs.length)
      (hall : InOrder (Matches s site) outs inputs n r),
      InOrder (fun o i n r => ∃ h : Matches s site o i n r, motive o i n r h) outs inputs n r →
        motive out input (n + 1) r (.fields hout hinput hlength hall))
    {out input : Handle} {n : Nat} {r : Except Fault (List Demand)}
    (h : Matches s site out input n r) : motive out input n r h :=
  @Matches.rec s site motive
    (fun outs inputs n r _ => InOrder (fun o i n r => ∃ h : Matches s site o i n r, motive o i n r h)
      outs inputs n r)
    entry misfit fields .nil (fun hnone _ ih => .untracked hnone ih)
    (fun hfirst _ ih ihs => .tracked ⟨hfirst, ih⟩ ihs) (fun hfirst ih => .stopped ⟨hfirst, ih⟩)
    out input n r h

theorem not_misfit_of_none (ho : s.records[o]? = none) (hi : s.records[i]? = none) :
    ¬ Misfit s o i := fun h => h (by rw [ho, hi])

theorem not_misfit_of_length_eq (ho : s.records[o]? = some outs) (hi : s.records[i]? = some inputs)
    (hlength : outs.length = inputs.length) : ¬ Misfit s o i := fun h => h (by
  rw [ho, hi, Option.map_some, Option.map_some, hlength])

/-- Two handles are entries, or tuples of one length, or do not fit. -/
theorem entries_or_tuples_or_misfit (s : Store) (o i : Handle) :
    (s.records[o]? = none ∧ s.records[i]? = none) ∨
    (∃ outs inputs, s.records[o]? = some outs ∧ s.records[i]? = some inputs ∧
      outs.length = inputs.length) ∨ Misfit s o i := by
  cases ho : s.records[o]? with
  | none =>
    cases hi : s.records[i]? with
    | none => exact Or.inl ⟨rfl, rfl⟩
    | some inputs => exact Or.inr (Or.inr (by simp [Misfit, ho, hi]))
  | some outs =>
    cases hi : s.records[i]? with
    | none => exact Or.inr (Or.inr (by simp [Misfit, ho, hi]))
    | some inputs =>
      by_cases hlength : outs.length = inputs.length
      · exact Or.inr (Or.inl ⟨outs, inputs, rfl, rfl, hlength⟩)
      · exact Or.inr (Or.inr (by simpa [Misfit, ho, hi] using hlength))

theorem Matches.exists_inOrder {n : Nat} {r : Except Fault (List Demand)}
    (h : Matches s site out input n r) (hout : s.records[out]? = some outs)
    (hinput : s.records[input]? = some inputs) (hlength : outs.length = inputs.length) :
    ∃ m, n = m + 1 ∧ InOrder (Matches s site) outs inputs m r := by
  cases h with
  | entry hnone _ => cases hnone.symm.trans hout
  | misfit hmisfit => exact absurd hmisfit (not_misfit_of_length_eq hout hinput hlength)
  | fields hout' hinput' _ hall =>
    obtain rfl := Option.some.inj (hout.symm.trans hout')
    obtain rfl := Option.some.inj (hinput.symm.trans hinput')
    exact ⟨_, rfl, hall⟩

/-- Fields are matched in one way if each is. -/
theorem InOrder.unique {R R' : Handle → Handle → Nat → Except Fault (List Demand) → Prop}
    (hR : ∀ {o i n r n' r'}, R o i n r → R' o i n' r' → n = n' ∧ r = r') {n n' : Nat}
    {r r' : Except Fault (List Demand)} (h : InOrder R outs inputs n r)
    (h' : InOrder R' outs inputs n' r') : n = n' ∧ r = r' := by
  induction h generalizing n' r' with
  | nil =>
    cases h'
    exact ⟨rfl, rfl⟩
  | untracked hnone _ ih =>
    cases h' with
    | untracked _ h' => exact ih h'
    | tracked _ _ => rcases hnone with h | h <;> cases h
    | stopped _ => rcases hnone with h | h <;> cases h
  | tracked hfirst _ ih =>
    cases h' with
    | untracked hnone _ => rcases hnone with h | h <;> cases h
    | tracked hfirst' h' =>
      obtain ⟨rfl, heq⟩ := hR hfirst hfirst'
      obtain ⟨rfl, rfl⟩ := ih h'
      exact ⟨rfl, by rw [Except.ok.inj heq]⟩
    | stopped hfirst' => cases (hR hfirst hfirst').2
  | stopped hfirst =>
    cases h' with
    | untracked hnone _ => rcases hnone with h | h <;> cases h
    | tracked hfirst' _ => cases (hR hfirst hfirst').2
    | stopped hfirst' => exact hR hfirst hfirst'

/-- **A matching comes to one thing in one number of calls.** -/
theorem Matches.unique {n n' : Nat} {r r' : Except Fault (List Demand)}
    (h : Matches s site out input n r) (h' : Matches s site out input n' r') :
    n = n' ∧ r = r' := by
  induction h using Matches.induct generalizing n' r' with
  | entry hout hinput =>
    cases h' with
    | entry _ _ => exact ⟨rfl, rfl⟩
    | misfit hmisfit => exact absurd hmisfit (not_misfit_of_none hout hinput)
    | fields hout' _ _ _ => cases hout.symm.trans hout'
  | misfit hmisfit =>
    cases h' with
    | entry hout hinput => exact absurd hmisfit (not_misfit_of_none hout hinput)
    | misfit _ => exact ⟨rfl, rfl⟩
    | fields hout hinput hlength _ =>
      exact absurd hmisfit (not_misfit_of_length_eq hout hinput hlength)
  | fields hout hinput hlength _ ih =>
    obtain ⟨m, rfl, hall'⟩ := h'.exists_inOrder hout hinput hlength
    obtain ⟨rfl, rfl⟩ := ih.unique (fun h h' => h.2 h') hall'
    exact ⟨rfl, rfl⟩

/-! ### Matching against a value of a type -/

/-- The fields of two tuples are matched if each is. -/
theorem exists_inOrder {f : Handle → Handle → Except Fault (List Demand)} :
    ∀ {outs inputs : Fields} {tys : List Ty}, outs.length = inputs.length →
      outs.length = tys.length →
      (∀ (k : Nat) u w ty, outs[k]? = some (some u) → tys[k]? = some ty →
        ∃ n ≤ ty.nodes, Matches s site u w n (f u w)) →
      ∃ n ≤ Ty.nodesAll tys, InOrder (Matches s site) outs inputs n (fieldDemands f outs inputs)
  | [], [], tys, _, _, _ => ⟨0, Nat.zero_le _, .nil⟩
  | out :: outs, input :: inputs, ty :: tys, hlength, htys, h => by
    obtain ⟨n, hn, hrest⟩ : ∃ n ≤ Ty.nodesAll tys,
        InOrder (Matches s site) outs inputs n (fieldDemands f outs inputs) :=
      exists_inOrder (Nat.succ.inj hlength) (Nat.succ.inj htys) fun k u w ty hu hty =>
        h (k + 1) u w ty hu hty
    have hle : n ≤ Ty.nodesAll (ty :: tys) := Nat.le_add_left_of_le hn
    cases out with
    | none => exact ⟨n, hle, .untracked (Or.inl rfl) hrest⟩
    | some u =>
      cases input with
      | none => exact ⟨n, hle, .untracked (Or.inr rfl) hrest⟩
      | some w =>
        obtain ⟨m, hm, hfirst⟩ := h 0 u w ty rfl rfl
        rw [fieldDemands]
        cases hf : f u w with
        | error fault =>
          rw [hf] at hfirst
          exact ⟨m, Nat.le_add_right_of_le hm, .stopped hfirst⟩
        | ok first =>
          rw [hf] at hfirst
          have hmap : (Except.ok first >>= fun first => fieldDemands f outs inputs >>= fun rest =>
              .ok (first ++ rest)) = (fieldDemands f outs inputs).map (first ++ ·) := by
            cases fieldDemands f outs inputs <;> rfl
          rw [hmap]
          exact ⟨m + n, Nat.add_le_add hm hn, .tracked hfirst hrest⟩

theorem demandsWithin_of_none (depth : Nat) (hout : s.records[out]? = none)
    (hinput : s.records[input]? = none) :
    demandsWithin s site depth out input = .ok [⟨out, input, site⟩] := by
  cases depth <;> rw [demandsWithin, fields?, fields?, hout, hinput]

theorem demandsWithin_of_misfit (depth : Nat) (h : Misfit s out input) :
    demandsWithin s site depth out input = .error (.shapeMismatch out input) := by
  unfold demandsWithin fields?
  split
  · rename_i hout hinput
    exact absurd h (not_misfit_of_none hout hinput)
  · rename_i hout hinput
    exact if_neg fun hlength => not_misfit_of_length_eq hout hinput hlength h
  · rfl

theorem demandsWithin_of_fields (depth : Nat) (hout : s.records[out]? = some outs)
    (hinput : s.records[input]? = some inputs) (hlength : outs.length = inputs.length) :
    demandsWithin s site (depth + 1) out input =
      fieldDemands (demandsWithin s site depth) outs inputs := by
  rw [demandsWithin, fields?, fields?, hout, hinput]
  exact if_pos hlength

/-- **A matching against a value of a type ends,** in as many calls as the type has nodes, and
comes to what the bounded one comes to.  The other side may go round in circles: it is followed no
deeper than the type. -/
theorem exists_matches {ty : Ty} (hout : Shaped s ty out) : ∀ {depth : Nat} {input : Handle},
    ty.depth ≤ depth →
      ∃ n ≤ ty.nodes, Matches s site out input n (demandsWithin s site depth out input) := by
  -- The induction is on the side that was minted: nothing is known of the records behind `input`.
  induction hout with
  | @plain ty out _ hnone =>
    intro depth input _
    rcases entries_or_tuples_or_misfit s out input with ⟨hout, hinput⟩ | ⟨_, _, hout, _⟩ | hmisfit
    · rw [demandsWithin_of_none depth hout hinput]
      exact ⟨1, ty.nodes_pos, .entry hout hinput⟩
    · cases hnone.symm.trans hout
    · rw [demandsWithin_of_misfit depth hmisfit]
      exact ⟨1, ty.nodes_pos, .misfit hmisfit⟩
  | @tuple tys out outs houts htys _ _ ih =>
    intro depth input hdepth
    rcases entries_or_tuples_or_misfit s out input with
      ⟨hout, _⟩ | ⟨outs', inputs, hout, hinput, hlength⟩ | hmisfit
    · cases hout.symm.trans houts
    · obtain rfl := Option.some.inj (houts.symm.trans hout)
      obtain ⟨depth, rfl⟩ : ∃ d, depth = d + 1 := Nat.exists_eq_add_one.2 (Nat.lt_of_lt_of_le
        (Nat.succ_pos _) hdepth)
      have hdepth : Ty.depthAll tys ≤ depth := Nat.le_of_succ_le_succ hdepth
      rw [demandsWithin_of_fields depth hout hinput hlength]
      obtain ⟨n, hn, hall⟩ : ∃ n ≤ Ty.nodesAll tys, InOrder (Matches s site) outs inputs n
          (fieldDemands (demandsWithin s site depth) outs inputs) :=
        exists_inOrder hlength htys fun k u w ty hu hty =>
          ih k u ty hu hty (Nat.le_trans (Ty.depth_le_of_getElem? hty) hdepth)
      exact ⟨n + 1, Nat.succ_le_succ hn, .fields hout hinput hlength hall⟩
    · rw [demandsWithin_of_misfit depth hmisfit]
      exact ⟨1, Ty.nodes_pos _, .misfit hmisfit⟩

/-! ### Paths -/

/-- The path of indices leads from `out` to `o` and from `input` to `i`, through fields that are
tracked on both sides. -/
def Facing (s : Store) (out input : Handle) (path : List Nat) (o i : Handle) : Prop :=
  s.entryAt? path out = some o ∧ s.entryAt? path input = some i

/-- The same from the fields of two tuples, of which the first have the index `k`. -/
def FieldsFacing (s : Store) (k : Nat) (outs inputs : Fields) (path : List Nat) (o i : Handle) :
    Prop :=
  ∃ j p u w, path = (k + j) :: p ∧ outs[j]? = some (some u) ∧ inputs[j]? = some (some w) ∧
    Facing s u w p o i

theorem facing_nil : Facing s out input [] o i ↔ o = out ∧ i = input := by
  simp [Facing, entryAt?, eq_comm]

/-- From a handle without a record no path leads any further. -/
theorem facing_iff_of_none (hout : s.records[out]? = none) :
    Facing s out input path o i ↔ path = [] ∧ o = out ∧ i = input := by
  cases path with
  | nil => simp [facing_nil]
  | cons index path => simp [Facing, entryAt?, fieldAt?, hout]

/-- From two tuples a path leads on through their fields. -/
theorem facing_iff_of_fields (hout : s.records[out]? = some outs)
    (hinput : s.records[input]? = some inputs) : Facing s out input path o i ↔
      path = [] ∧ o = out ∧ i = input ∨ FieldsFacing s 0 outs inputs path o i := by
  cases path with
  | nil => simp [facing_nil, FieldsFacing]
  | cons index path =>
    constructor
    · rintro ⟨ho, hi⟩
      obtain ⟨u, hu, ho⟩ := entryAt?_cons_eq_some_iff.1 ho
      obtain ⟨w, hw, hi⟩ := entryAt?_cons_eq_some_iff.1 hi
      simp only [fieldAt?, hout, hinput, Option.bind_some, Option.join_eq_some_iff] at hu hw
      exact Or.inr ⟨index, path, u, w, by rw [Nat.zero_add], hu, hw, ho, hi⟩
    · rintro (⟨hnil, _⟩ | ⟨j, p, u, w, hpath, hu, hw, ho, hi⟩)
      · cases hnil
      · rw [Nat.zero_add] at hpath
        obtain ⟨rfl, rfl⟩ := List.cons.inj hpath
        exact ⟨entryAt?_cons_eq_some_iff.2 ⟨u, fieldAt?_eq_some_iff.2 ⟨outs, hout, hu⟩, ho⟩,
          entryAt?_cons_eq_some_iff.2 ⟨w, fieldAt?_eq_some_iff.2 ⟨inputs, hinput, hw⟩, hi⟩⟩

theorem not_fieldsFacing_nil {k : Nat} : ¬ FieldsFacing s k [] inputs path o i := by
  simp [FieldsFacing]

/-- A path leads through the first field of two tuples or through the others. -/
theorem fieldsFacing_cons {k : Nat} {a b : Option Handle} :
    FieldsFacing s k (a :: outs) (b :: inputs) path o i ↔
      (∃ p, path = k :: p ∧ ∃ u w, a = some u ∧ b = some w ∧ Facing s u w p o i) ∨
        FieldsFacing s (k + 1) outs inputs path o i := by
  constructor
  · rintro ⟨j, p, u, w, hpath, hu, hw, hfacing⟩
    cases j with
    | zero => exact Or.inl ⟨p, hpath, u, w, Option.some.inj hu, Option.some.inj hw, hfacing⟩
    | succ j => exact Or.inr ⟨j, p, u, w, by rw [hpath]; congr 1; omega, hu, hw, hfacing⟩
  · rintro (⟨p, hpath, u, w, rfl, rfl, hfacing⟩ | ⟨j, p, u, w, hpath, hu, hw, hfacing⟩)
    · exact ⟨0, p, u, w, hpath, rfl, rfl, hfacing⟩
    · exact ⟨j + 1, p, u, w, by rw [hpath]; congr 1; omega, hu, hw, hfacing⟩

theorem FieldsFacing.exists_cons {k : Nat} (h : FieldsFacing s k outs inputs path o i) :
    ∃ j p, path = j :: p ∧ k ≤ j := by
  obtain ⟨j, p, _, _, hpath, _⟩ := h
  exact ⟨k + j, p, hpath, Nat.le_add_right k j⟩

/-! ### What a matching comes to -/

/-- The demands `ds` are those of the handles that face each other without a record, one for each
path, from left to right. -/
def Lists (s : Store) (site : Handle) (facing : List Nat → Handle → Handle → Prop)
    (ds : List Demand) : Prop :=
  ∃ paths : List (List Nat), paths.Pairwise (· < ·) ∧
    (∀ path, path ∈ paths ↔
      ∃ o i, facing path o i ∧ s.records[o]? = none ∧ s.records[i]? = none) ∧
    List.Forall₂ (fun path d => d.site = site ∧ facing path d.out d.input) paths ds

/-- A path leads to two handles that do not fit, and none that does so comes before it. -/
def FirstMisfit (s : Store) (facing : List Nat → Handle → Handle → Prop) (path : List Nat)
    (o i : Handle) : Prop :=
  facing path o i ∧ Misfit s o i ∧ ∀ p u w, facing p u w → Misfit s u w → ¬ p < path

/-- A result accounts for the handles that face each other: all fit and are listed, or it is the
failure of the first two that do not fit. -/
def Accounts (s : Store) (site : Handle) (facing : List Nat → Handle → Handle → Prop) :
    Except Fault (List Demand) → Prop
  | .ok ds => (∀ path o i, facing path o i → ¬ Misfit s o i) ∧ Lists s site facing ds
  | .error fault => ∃ path o i, fault = .shapeMismatch o i ∧ FirstMisfit s facing path o i

section Accounts

variable {facing first rest : List Nat → Handle → Handle → Prop} {r : Except Fault (List Demand)}

theorem accounts_entry (hout : s.records[out]? = none) (hinput : s.records[input]? = none) :
    Accounts s site (Facing s out input) (.ok [⟨out, input, site⟩]) := by
  have hfacing : ∀ path o i, Facing s out input path o i ↔ path = [] ∧ o = out ∧ i = input :=
    fun _ _ _ => facing_iff_of_none hout
  refine ⟨fun path o i h => ?_, [[]], List.pairwise_singleton _ _, fun path => ?_, ?_⟩
  · obtain ⟨_, rfl, rfl⟩ := (hfacing path o i).1 h
    exact not_misfit_of_none hout hinput
  · rw [List.mem_singleton]
    constructor
    · rintro rfl
      exact ⟨out, input, facing_nil.2 ⟨rfl, rfl⟩, hout, hinput⟩
    · rintro ⟨o, i, h, _⟩
      exact ((hfacing path o i).1 h).1
  · exact .cons ⟨rfl, facing_nil.2 ⟨rfl, rfl⟩⟩ .nil

theorem accounts_misfit (h : Misfit s out input) :
    Accounts s site (Facing s out input) (.error (.shapeMismatch out input)) :=
  ⟨[], out, input, rfl, facing_nil.2 ⟨rfl, rfl⟩, h, fun _ _ _ _ _ => List.not_lt_nil _⟩

/-- Two tuples of one length come to what their fields come to. -/
theorem Accounts.of_fields (h : Accounts s site (FieldsFacing s 0 outs inputs) r)
    (hout : s.records[out]? = some outs) (hinput : s.records[input]? = some inputs)
    (hlength : outs.length = inputs.length) : Accounts s site (Facing s out input) r := by
  have hfacing : ∀ path o i, Facing s out input path o i ↔
      path = [] ∧ o = out ∧ i = input ∨ FieldsFacing s 0 outs inputs path o i :=
    fun _ _ _ => facing_iff_of_fields hout hinput
  have hfit := not_misfit_of_length_eq hout hinput hlength
  cases r with
  | ok ds =>
    obtain ⟨hall, paths, hsorted, hmem, hlist⟩ := h
    refine ⟨fun path o i h => ?_, paths, hsorted, fun path => (hmem path).trans ?_,
      hlist.imp fun path d h => ⟨h.1, (hfacing _ _ _).2 (Or.inr h.2)⟩⟩
    · rcases (hfacing path o i).1 h with ⟨_, rfl, rfl⟩ | h
      · exact hfit
      · exact hall path o i h
    · refine exists_congr fun o => exists_congr fun i => and_congr_left fun hnone => ?_
      refine ⟨fun h => (hfacing _ _ _).2 (Or.inr h), fun h => ?_⟩
      rcases (hfacing path o i).1 h with ⟨_, rfl, rfl⟩ | h
      · cases hnone.1.symm.trans hout
      · exact h
  | error fault =>
    obtain ⟨path, o, i, rfl, h, hmisfit, hfirst⟩ := h
    refine ⟨path, o, i, rfl, (hfacing _ _ _).2 (Or.inr h), hmisfit, fun p u w h hmisfit => ?_⟩
    rcases (hfacing p u w).1 h with ⟨_, rfl, rfl⟩ | h
    · exact absurd hmisfit hfit
    · exact hfirst p u w h hmisfit

section Cons

variable {k : Nat}
  (hfacing : ∀ path o i, facing path o i ↔ (∃ p, path = k :: p ∧ first p o i) ∨ rest path o i)
  (hrest : ∀ path o i, rest path o i → ∃ j p, path = j :: p ∧ k + 1 ≤ j)

include hfacing hrest

/-- What the first field comes to stands before what the others come to. -/
theorem Accounts.cons {ds : List Demand} (hhead : Accounts s site first (.ok ds))
    (htail : Accounts s site rest r) : Accounts s site facing (r.map (ds ++ ·)) := by
  obtain ⟨hfit, paths, hsorted, hmem, hlist⟩ := hhead
  cases r with
  | ok ds' =>
    obtain ⟨hfit', paths', hsorted', hmem', hlist'⟩ := htail
    refine ⟨fun path o i h => ?_, paths.map (k :: ·) ++ paths', ?_, fun path => ?_, ?_⟩
    · rcases (hfacing path o i).1 h with ⟨p, _, h⟩ | h
      · exact hfit p o i h
      · exact hfit' path o i h
    · -- Paths through the first field begin with `k`, all others with a greater index.
      refine List.pairwise_append.2 ⟨List.pairwise_map.2 (hsorted.imp fun h => ?_), hsorted',
        fun a ha b hb => ?_⟩
      · exact List.cons_lt_cons_iff.2 (Or.inr ⟨rfl, h⟩)
      · obtain ⟨p, _, rfl⟩ := List.mem_map.1 ha
        obtain ⟨o, i, h, _⟩ := (hmem' b).1 hb
        obtain ⟨j, q, rfl, hj⟩ := hrest b o i h
        exact List.cons_lt_cons_iff.2 (Or.inl hj)
    · rw [List.mem_append, List.mem_map]
      constructor
      · rintro (⟨p, hp, rfl⟩ | hp)
        · obtain ⟨o, i, h, hnone⟩ := (hmem p).1 hp
          exact ⟨o, i, (hfacing _ _ _).2 (Or.inl ⟨p, rfl, h⟩), hnone⟩
        · obtain ⟨o, i, h, hnone⟩ := (hmem' path).1 hp
          exact ⟨o, i, (hfacing _ _ _).2 (Or.inr h), hnone⟩
      · rintro ⟨o, i, h, hnone⟩
        rcases (hfacing path o i).1 h with ⟨p, rfl, hp⟩ | hp
        · exact Or.inl ⟨p, (hmem p).2 ⟨o, i, hp, hnone⟩, rfl⟩
        · exact Or.inr ((hmem' path).2 ⟨o, i, hp, hnone⟩)
    · refine List.rel_append (List.forall₂_map_left_iff.2 (hlist.imp fun p d h => ?_))
        (hlist'.imp fun p d h => ?_)
      · exact ⟨h.1, (hfacing _ _ _).2 (Or.inl ⟨p, rfl, h.2⟩)⟩
      · exact ⟨h.1, (hfacing _ _ _).2 (Or.inr h.2)⟩
  | error fault =>
    obtain ⟨path, o, i, rfl, h, hmisfit, hfirst⟩ := htail
    refine ⟨path, o, i, rfl, (hfacing _ _ _).2 (Or.inr h), hmisfit, fun p u w h hmisfit => ?_⟩
    rcases (hfacing p u w).1 h with ⟨q, _, h⟩ | h
    · exact absurd hmisfit (hfit q u w h)
    · exact hfirst p u w h hmisfit

/-- What the first field fails for, the tuple fails for. -/
theorem Accounts.stop {fault : Fault} (hhead : Accounts s site first (.error fault)) :
    Accounts s site facing (.error fault) := by
  obtain ⟨path, o, i, rfl, h, hmisfit, hfirst⟩ := hhead
  refine ⟨k :: path, o, i, rfl, (hfacing _ _ _).2 (Or.inl ⟨path, rfl, h⟩), hmisfit,
    fun p u w h hmisfit hlt => ?_⟩
  rcases (hfacing p u w).1 h with ⟨q, rfl, hq⟩ | hq
  · rcases List.cons_lt_cons_iff.1 hlt with hlt | ⟨_, hlt⟩
    · exact Nat.lt_irrefl k hlt
    · exact hfirst q u w hq hmisfit hlt
  · obtain ⟨j, q, rfl, hj⟩ := hrest p u w hq
    rcases List.cons_lt_cons_iff.1 hlt with hlt | ⟨rfl, _⟩
    · exact Nat.lt_asymm hlt hj
    · exact Nat.lt_irrefl j hj

end Cons

end Accounts

/-- Fields account for what they hold if each does. -/
theorem InOrder.accounts {R : Handle → Handle → Nat → Except Fault (List Demand) → Prop}
    (hR : ∀ {o i n r}, R o i n r → Accounts s site (Facing s o i) r) {n : Nat}
    {r : Except Fault (List Demand)} (h : InOrder R outs inputs n r) :
    ∀ k, Accounts s site (FieldsFacing s k outs inputs) r := by
  have hfacing : ∀ {u w : Handle} {outs inputs : Fields} (k : Nat) (path : List Nat) (o i : Handle),
      FieldsFacing s k (some u :: outs) (some w :: inputs) path o i ↔
        (∃ p, path = k :: p ∧ Facing s u w p o i) ∨ FieldsFacing s (k + 1) outs inputs path o i :=
    fun k path o i => by simp [fieldsFacing_cons]
  induction h with
  | nil =>
    intro k
    have hnone : ∀ path o i, ¬ FieldsFacing s k [] [] path o i := fun _ _ _ => not_fieldsFacing_nil
    exact ⟨fun path o i h => absurd h (hnone path o i), [], .nil, by simp [hnone], .nil⟩
  | @untracked a b outs inputs _ _ hnone _ ih =>
    intro k
    -- No path leads through a field that is not tracked on both sides.
    have hskip : FieldsFacing s k (a :: outs) (b :: inputs) =
        FieldsFacing s (k + 1) outs inputs := by
      funext path o i
      refine propext (fieldsFacing_cons.trans (or_iff_right ?_))
      rintro ⟨p, _, u, w, rfl, rfl, _⟩
      rcases hnone with h | h <;> cases h
    exact hskip ▸ ih (k + 1)
  | tracked hfirst _ ih =>
    exact fun k => .cons (hfacing k) (fun _ _ _ h => h.exists_cons) (hR hfirst) (ih (k + 1))
  | stopped hfirst =>
    exact fun k => .stop (hfacing k) (fun _ _ _ h => h.exists_cons) (hR hfirst)

/-- **A matching accounts for all handles that face each other.** -/
theorem Matches.accounts {n : Nat} {r : Except Fault (List Demand)}
    (h : Matches s site out input n r) : Accounts s site (Facing s out input) r := by
  induction h using Matches.induct with
  | entry hout hinput => exact accounts_entry hout hinput
  | misfit h => exact accounts_misfit h
  | fields hout hinput hlength _ ih =>
    exact (ih.accounts (fun h => h.2) 0).of_fields hout hinput hlength

/-- The matching of a branch's result against the result of a conditional of type `ty`. -/
structure MatchedExactly (s : Store) (site out input : Handle) (ty : Ty) : Prop where
  /-- It ends, in as many calls as the type has nodes. -/
  calls : ∃ calls ≤ ty.nodes, ∀ n r, Matches s site out input n r ↔
    n = calls ∧ r = resultDemands s site out input
  /-- If it succeeds, there is one demand for each path to two entries. -/
  lists {ds : List Demand} : resultDemands s site out input = .ok ds →
    Lists s site (Facing s out input) ds
  /-- If it fails, it does so for the first two handles that do not fit. -/
  firstMisfit {fault : Fault} : resultDemands s site out input = .error fault →
    ∃ path o i, fault = .shapeMismatch o i ∧ FirstMisfit s (Facing s out input) path o i
  /-- It fails just when there are such. -/
  fails_iff : (∃ o i, resultDemands s site out input = .error (.shapeMismatch o i)) ↔
    ∃ path o i, Facing s out input path o i ∧ Misfit s o i

theorem matchedExactly_of_shaped {ty : Ty} (hout : Shaped s ty out)
    (hdepth : ty.depth ≤ recordDepth s) : MatchedExactly s site out input ty := by
  obtain ⟨calls, hle, hmatches⟩ : ∃ n ≤ ty.nodes,
      Matches s site out input n (resultDemands s site out input) := exists_matches hout hdepth
  have haccounts := hmatches.accounts
  refine ⟨⟨calls, hle, fun n r => ⟨fun h => h.unique hmatches, ?_⟩⟩, fun h => ?_, fun h => ?_, ?_⟩
  · rintro ⟨rfl, rfl⟩
    exact hmatches
  · rw [h] at haccounts
    exact haccounts.2
  · rw [h] at haccounts
    exact haccounts
  · cases hr : resultDemands s site out input with
    | ok ds =>
      rw [hr] at haccounts
      refine iff_of_false (fun ⟨_, _, h⟩ => nomatch h) ?_
      rintro ⟨path, o, i, h, hmisfit⟩
      exact haccounts.1 path o i h hmisfit
    | error fault =>
      rw [hr] at haccounts
      obtain ⟨path, o, i, rfl, h, hmisfit, _⟩ := haccounts
      exact iff_of_true ⟨o, i, rfl⟩ ⟨path, o, i, h, hmisfit⟩

end Analysis
end TensorLiveness
