/-
# Captured buffers

A closure needs the buffers that it captures for as long as it can be called.  `Frame` says what
the variables hold at run time, as far as closures go, and `Frame.step` how a stop of a control
path changes that.

The store has what a closure captures with every variable that holds the closure
(`Tracks.step`), with one exception: the result of a conditional has identities of its own, and
those of a function type have none.  A closure that comes out of a conditional therefore takes
its captures along no further than the end of the branch.

| statement | about |
| --- | --- |
| `captures_live` | a closure that has not come out of a conditional before the stop in question |
| `captures_not_handed_on` | what a conditional makes of a closure |
| `captures_lost` | a program whose result is a closure that came out of a conditional |
-/

import TensorLiveness.Proofs.Analysis.ControlPath

namespace TensorLiveness
namespace Analysis

open Identity Program Store

/-! ### Values at run time -/

/-- A value, as far as closures go: without any, the closure bound to a variable, or a tuple. -/
inductive Value
  | plain
  | closure (f : Handle)
  | tuple (fields : List Value)

namespace Value

/-- A field of a tuple. -/
def field : Value → Nat → Value
  | .tuple fields, index => fields.getD index .plain
  | _, _ => .plain

/-- The part of a value at a path of tuple indices. -/
def part (value : Value) (path : List Nat) : Value := path.foldl field value

/-- The value is or contains the closure bound to `f`. -/
def Contains (value : Value) (f : Handle) : Prop := ∃ path, value.part path = .closure f

theorem part_plain : ∀ path : List Nat, part .plain path = .plain
  | [] => rfl
  | _ :: path => part_plain path

end Value

/-- What the variables hold. -/
abbrev Frame := Handle → Value

namespace Frame

/-- The value of an atom. -/
def read (σ : Frame) (e : Expr) : Value := (e.var?.map σ).getD .plain

/-- The value that an expression has when it is bound to `v`. -/
def eval (σ : Frame) (v : Handle) : Expr → Value
  | .var u => σ u
  | .tuple fields => .tuple (fields.map σ.read)
  | .get source index => (σ.read source).field index
  | .closure .. => .closure v
  | _ => .plain

/-- The same frame with another value for `v`. -/
def set (σ : Frame) (v : Handle) (value : Value) : Frame := fun u => if u = v then value else σ u

/-- Go over one stop.  A conditional gets its value where its branch ends; whether that is the
result of the branch is up to `through`. -/
def step (through : Bool) (σ : Frame) : Waypoint → Frame
  | .binding v value => if value.isCond then σ else σ.set v (σ.eval v value)
  | .exit scope r =>
    match scope.owner? with
    | some v => σ.set v (if through then σ r else .plain)
    | none => σ

/-- What the variables hold in front of the stop `j` of a path.  Conditionals hand on the
results of their branches from the stop `i` on. -/
def along (path : List Waypoint) (i j : Nat) : Frame :=
  ((path.take j).drop i).foldl (step true) ((path.take i).foldl (step false) fun _ => .plain)

end Frame

/-- The values that are used at a stop: arguments, what an alias, a tuple or a closure takes up,
the field that is projected, and the result of a sequence. -/
def Waypoint.usedValues (σ : Frame) : Waypoint → List Value
  | .binding _ (.call _ args _) => (args.filterMap Expr.var?).map σ
  | .binding _ (.var u) => [σ u]
  | .binding _ (.tuple fields) => (fields.filterMap Expr.var?).map σ
  | .binding _ (.get source index) => source.var?.toList.map fun u => (σ u).field index
  | .binding _ (.closure params body) => (Expr.closure params body).occurrences.map σ
  | .binding _ _ => []
  | .exit _ result => [σ result]

/-! ### Closures and the store -/

section Tracking

variable {p : Propagation} {f x : Handle} {settled : Prop} {σ : Frame}

/-- The handle that `path` leads to from `u` stands for `x`. -/
def EntryHas (s : Store) (x u : Handle) (path : List Nat) : Prop :=
  ∃ w, s.entryAt? path u = some w ∧ x ∈ s.setOf w

/-- Wherever a variable holds the closure bound to `f`, the store has `x`; or `settled` holds. -/
def Tracks (s : Store) (f x : Handle) (settled : Prop) (σ : Frame) : Prop :=
  ∀ u path, (σ u).part path = .closure f → settled ∨ EntryHas s x u path

theorem EntryHas.congr {s : Store} {u v : Handle} {path : List Nat} (h : EntryHas s x u path)
    (hset : s.setOf v = s.setOf u) (hrecord : s.records[v]? = s.records[u]?) :
    EntryHas s x v path := by
  obtain ⟨w, hw, hx⟩ := h
  cases path with
  | nil =>
    obtain rfl := Option.some.inj hw
    exact ⟨v, rfl, hset ▸ hx⟩
  | cons index path =>
    rw [entryAt?, ← fieldAt?_congr hrecord] at hw
    exact ⟨w, hw, hx⟩

/-- A projection has what is below the field. -/
theorem EntryHas.projection {u v index : Handle} {path : List Nat}
    (h : EntryHas p.store x u (index :: path)) (hv : Denotes p v (.get (.var u) index)) :
    EntryHas p.store x v path := by
  obtain ⟨w, hw, hx⟩ := h
  obtain ⟨u', hu', hw⟩ := entryAt?_cons_eq_some_iff.1 hw
  obtain ⟨fields', hfields', hindex'⟩ := fieldAt?_eq_some_iff.1 hu'
  cases hv with
  | field hfields hindex hset hrecord =>
    obtain rfl := Option.some.inj (hfields.symm.trans hfields')
    obtain rfl := Option.some.inj (Option.some.inj (hindex.symm.trans hindex'))
    exact EntryHas.congr ⟨w, hw, hx⟩ hset hrecord
  | untracked hfields hindex _ _ =>
    obtain rfl := Option.some.inj (hfields.symm.trans hfields')
    exact nomatch Option.some.inj (hindex.symm.trans hindex')

theorem EntryHas.mem {s : Store} (hc : s.Covers) {u : Handle} {path : List Nat}
    (h : EntryHas s x u path) : x ∈ s.setOf u := by
  obtain ⟨w, hw, hx⟩ := h
  exact mem_setOf_of_entryAt hc hw hx

theorem tracks_start (s : Store) : Tracks s f x settled fun _ => .plain := by
  intro u path h
  rw [Value.part_plain] at h
  cases h

theorem Tracks.set {s : Store} (hσ : Tracks s f x settled σ) {v : Handle} {value : Value}
    (h : ∀ path, value.part path = .closure f → settled ∨ EntryHas s x v path) :
    Tracks s f x settled (σ.set v value) := by
  intro u path hu
  unfold Frame.set at hu
  split at hu
  · rename_i heq
    exact heq ▸ h path hu
  · exact hσ u path hu

/-- **A value holds no closure whose captures the store has not,** unless it is a conditional. -/
theorem Tracks.eval (hσ : Tracks p.store f x settled σ) {v : Handle} {value : Expr}
    (h : Denotes p v value) (hf : v = f → x ∈ p.store.setOf f) {path : List Nat}
    (hpart : (σ.eval v value).part path = .closure f) : settled ∨ EntryHas p.store x v path := by
  have hplain : ∀ {path}, Value.plain.part path ≠ .closure f := fun {path} h => by
    rw [Value.part_plain] at h
    cases h
  cases h with
  | var _ hset hrecord => exact (hσ _ path hpart).imp_right fun h => h.congr hset hrecord
  | const _ _ _ => exact absurd hpart hplain
  | op _ _ _ => exact absurd hpart hplain
  | call _ => exact absurd hpart hplain
  | cond _ _ _ _ _ => exact absurd hpart hplain
  | closure _ _ _ =>
    cases path with
    | nil =>
      obtain rfl := Value.closure.inj hpart
      exact Or.inr ⟨v, rfl, hf rfl⟩
    | cons index path => exact absurd hpart hplain
  | @tuple fields _ _ hrecord =>
    cases path with
    | nil => cases hpart
    | cons index path =>
      have hfield : ((fields.map σ.read).getD index .plain).part path = .closure f := hpart
      rw [List.getD_eq_getElem?_getD, List.getElem?_map] at hfield
      cases hget : fields[index]? with
      | none =>
        rw [hget] at hfield
        exact absurd hfield hplain
      | some field =>
        rw [hget] at hfield
        rw [Option.map_some, Option.getD_some, Frame.read] at hfield
        cases hvar : field.var? with
        | none =>
          rw [hvar] at hfield
          exact absurd hfield hplain
        | some u =>
          rw [hvar] at hfield
          refine (hσ u path hfield).imp_right fun ⟨w, hw, hx⟩ => ⟨w, ?_, hx⟩
          refine entryAt?_cons_eq_some_iff.2 ⟨u, fieldAt?_eq_some_iff.2 ⟨_, hrecord, ?_⟩, hw⟩
          rw [List.getElem?_map, hget, Option.map_some, hvar]
  | @field u index w fields hfields hindex hset hrecord =>
    exact (hσ u (index :: path) hpart).imp_right fun h =>
      h.projection (.field hfields hindex hset hrecord)
  | @untracked u index fields hfields hindex hset hrecord =>
    exact (hσ u (index :: path) hpart).imp_right fun h =>
      h.projection (.untracked hfields hindex hset hrecord)

/-- A stop binds its variable to what its value denotes. -/
def Understood (p : Propagation) (w : Waypoint) : Prop :=
  ∀ v value, w = .binding v value → Denotes p v value ∧ value.UniqueBinders

/-- **One stop.**  If the results of conditionals are handed on, they have to be settled. -/
theorem Tracks.step (hσ : Tracks p.store f x settled σ) {w : Waypoint} (hw : Understood p w)
    (hf : x ∈ p.store.setOf f) (hc : p.store.Covers) {through : Bool}
    (hexit : through = true → ∀ scope r, w = .exit scope r → x ∈ p.store.setOf r → settled) :
    Tracks p.store f x settled (σ.step through w) := by
  cases w with
  | binding v value =>
    rw [Frame.step]
    split
    · exact hσ
    · exact hσ.set fun path hpart => hσ.eval (hw v value rfl).1 (fun _ => hf) hpart
  | exit scope r =>
    rw [Frame.step]
    split
    · refine hσ.set fun path hpart => ?_
      cases through with
      | true =>
        rcases hσ r path hpart with h | h
        · exact Or.inl h
        · exact Or.inl (hexit rfl scope r rfl (h.mem hc))
      | false =>
        rw [if_neg Bool.false_ne_true, Value.part_plain] at hpart
        cases hpart
    · exact hσ

/-- Several stops. -/
theorem Tracks.foldl (hf : x ∈ p.store.setOf f) (hc : p.store.Covers) {through : Bool} :
    ∀ {ws : List Waypoint} {σ : Frame}, Tracks p.store f x settled σ →
      (∀ w ∈ ws, Understood p w) → (through = true → ∀ scope r, .exit scope r ∈ ws →
        x ∈ p.store.setOf r → settled) →
      Tracks p.store f x settled (ws.foldl (Frame.step through) σ) := by
  intro ws
  induction ws with
  | nil => exact fun hσ _ _ => hσ
  | cons w ws ih =>
    intro σ hσ hws hexits
    refine ih (hσ.step (hws w List.mem_cons_self) hf hc fun ht scope r heq => ?_)
      (fun w' hw' => hws w' (List.mem_cons_of_mem _ hw')) fun ht scope r hr => ?_
    · exact hexits ht scope r (heq ▸ List.mem_cons_self)
    · exact hexits ht scope r (List.mem_cons_of_mem _ hr)

/-- **The use of a closure is a use of its captures.** -/
theorem Tracks.usesId (hσ : Tracks p.store f x settled σ) (hc : p.store.Covers) {w : Waypoint}
    (hw : Understood p w) {value : Value} (hvalue : value ∈ w.usedValues σ)
    (hcontains : value.Contains f) : settled ∨ w.UsesId p.store.setOf x := by
  have hread : ∀ {u path}, (σ u).part path = .closure f → settled ∨ x ∈ p.store.setOf u :=
    fun h => (hσ _ _ h).imp_right fun h => h.mem hc
  obtain ⟨path, hpart⟩ := hcontains
  cases w with
  | exit scope r =>
    obtain rfl := List.mem_singleton.1 hvalue
    exact (hread hpart).imp_right fun hx => ⟨r, List.mem_cons_self, hx⟩
  | binding v e =>
    obtain ⟨hdenotes, hunique⟩ := hw v e rfl
    cases hdenotes with
    | var _ hset _ =>
      obtain rfl := List.mem_singleton.1 hvalue
      exact (hread hpart).imp_right fun hx => ⟨v, List.mem_cons_self, hset ▸ hx⟩
    | const _ _ _ => exact absurd hvalue List.not_mem_nil
    | op _ _ _ => exact absurd hvalue List.not_mem_nil
    | cond _ _ _ _ _ => exact absurd hvalue List.not_mem_nil
    | call _ =>
      obtain ⟨u, hu, rfl⟩ := List.mem_map.1 hvalue
      exact (hread hpart).imp_right fun hx => ⟨u, hu, hx⟩
    | closure _ hmem _ =>
      obtain ⟨u, hu, rfl⟩ := List.mem_map.1 hvalue
      have hu' := (Expr.mem_freeVarsUnder hunique).2 hu
      exact (hread hpart).imp_right fun hx => ⟨v, List.mem_cons_self, (hmem x).2 ⟨u, hu', hx⟩⟩
    | tuple _ hmem _ =>
      obtain ⟨u, hu, rfl⟩ := List.mem_map.1 hvalue
      obtain ⟨field, hfield, hvar⟩ := List.mem_filterMap.1 hu
      have hu' := List.mem_map.2 ⟨field, hfield, hvar⟩
      exact (hread hpart).imp_right fun hx => ⟨v, List.mem_cons_self, (hmem x).2 ⟨u, hu', hx⟩⟩
    | @field u index w fields hfields hindex hset hrecord =>
      obtain rfl := List.mem_singleton.1 hvalue
      refine (hσ u (index :: path) hpart).imp_right fun h => ⟨v, List.mem_cons_self, ?_⟩
      exact (h.projection (.field hfields hindex hset hrecord)).mem hc
    | @untracked u index fields hfields hindex hset hrecord =>
      obtain rfl := List.mem_singleton.1 hvalue
      refine (hσ u (index :: path) hpart).imp_right fun h => ⟨v, List.mem_cons_self, ?_⟩
      exact (h.projection (.untracked hfields hindex hset hrecord)).mem hc

end Tracking

/-! ### The order of a path -/

/-- The variable that a stop binds: a conditional binds its variable where its branch ends. -/
def Waypoint.binds? : Waypoint → Option Handle
  | .binding v value => if value.isCond then none else some v
  | .exit scope _ => scope.owner?

theorem Waypoint.binds?_of_mints? {w : Waypoint} {v : Handle} (h : w.mints? = some v) :
    w.binds? = some v := by
  cases w with
  | exit scope r => exact h
  | binding u value =>
    cases value with
    | call callee args ty => exact h
    | _ => cases h

/-- The bindings on a path are bindings of the sequence. -/
theorem ControlPath.mem_allBindings {scope : Scope} {e : Expr} {path : List Waypoint}
    (hpath : ControlPath scope e path) {v : Handle} {value : Expr}
    (h : Waypoint.binding v value ∈ path) : (v, value) ∈ e.allBindings := by
  induction hpath with
  | result scope r => exact nomatch List.mem_singleton.1 h
  | bind _ _ ih =>
    rcases List.mem_cons.1 h with heq | h
    · obtain ⟨rfl, rfl⟩ := Waypoint.binding.inj heq
      exact Expr.binding_mem_allBindings
    · exact Expr.mem_allBindings_of_body (ih h)
  | branch hbranch _ _ ihi ihb =>
    rcases List.mem_cons.1 h with heq | h
    · obtain ⟨rfl, rfl⟩ := Waypoint.binding.inj heq
      exact Expr.binding_mem_allBindings
    · rcases List.mem_append.1 h with h | h
      · exact Expr.mem_allBindings_of_inside (hbranch.branchBindings (ihi h))
      · exact Expr.mem_allBindings_of_body (ihb h)

/-- What is minted on a path is made by a binding of the sequence or of the one around it. -/
theorem ControlPath.made {scope : Scope} {e : Expr} {path : List Waypoint}
    (hpath : ControlPath scope e path) {w : Waypoint} {v : Handle} (hw : w ∈ path)
    (hv : w.mints? = some v) : scope.owner? = some v ∨
      ∃ value, (v, value) ∈ e.allBindings ∧ value.isMade = true := by
  induction hpath with
  | result scope r =>
    obtain rfl := List.mem_singleton.1 hw
    exact Or.inl hv
  | @bind scope u value body path _ _ ih =>
    rcases List.mem_cons.1 hw with rfl | hw
    · cases value with
      | call callee args ty =>
        obtain rfl := Option.some.inj hv
        exact Or.inr ⟨_, Expr.binding_mem_allBindings, rfl⟩
      | _ => cases hv
    · exact (ih hw).imp_right fun ⟨value', hmem, hmade⟩ =>
        ⟨value', Expr.mem_allBindings_of_body hmem, hmade⟩
  | @branch scope inner u value taken body inside path hbranch _ _ ihi ihb =>
    rcases List.mem_cons.1 hw with rfl | hw
    · cases hbranch <;> cases hv
    · rcases List.mem_append.1 hw with hw | hw
      · rcases ihi hw with h | ⟨value', hmem, hmade⟩
        · obtain rfl := Option.some.inj (hbranch.owner?_eq.symm.trans h)
          exact Or.inr ⟨value, Expr.binding_mem_allBindings, hbranch.isMade⟩
        · exact Or.inr ⟨value', Expr.mem_allBindings_of_inside (hbranch.branchBindings hmem), hmade⟩
      · exact (ihb hw).imp_right fun ⟨value', hmem, hmade⟩ =>
          ⟨value', Expr.mem_allBindings_of_body hmem, hmade⟩

/-- **The variables on a path are bound in increasing order.** -/
theorem ControlPath.pairwise_binds {scope : Scope} {e : Expr} {path : List Waypoint}
    (hpath : ControlPath scope e path) (ha : e.Ascending)
    (howner : ∀ z, scope.owner? = some z → ∀ b ∈ e.binders, b < z) :
    (path.filterMap Waypoint.binds?).Pairwise (· < ·) ∧
      ∀ b ∈ path.filterMap Waypoint.binds?, b ∈ e.binders ∨ scope.owner? = some b := by
  induction hpath with
  | result scope r =>
    cases hz : scope.owner? with
    | none => simp [Waypoint.binds?, hz]
    | some z => simp [Waypoint.binds?, hz]
  | @bind scope v value body path hcond _ ih =>
    have hbody : ∀ b ∈ body.binders, b ∈ (Expr.letIn v value body).binders := fun b hb =>
      List.mem_append_right _ (List.mem_cons_of_mem _ hb)
    obtain ⟨hsorted, hmem⟩ := ih ha.body fun z hz b hb => howner z hz b (hbody b hb)
    have hhead : (Waypoint.binding v value).binds? = some v := by
      rw [Waypoint.binds?, hcond, if_neg Bool.false_ne_true]
    rw [List.filterMap_cons_some hhead, List.pairwise_cons]
    refine ⟨⟨fun b hb => ?_, hsorted⟩, fun b hb => ?_⟩
    · rcases hmem b hb with hb | hb
      · exact ha.lt_of_mem_body hb
      · exact howner b hb v (List.mem_append_right _ List.mem_cons_self)
    · rcases List.mem_cons.1 hb with rfl | hb
      · exact Or.inl (List.mem_append_right _ List.mem_cons_self)
      · exact (hmem b hb).imp_left (hbody b)
  | @branch scope inner v value taken body inside path hbranch _ _ ihi ihb =>
    have hbody : ∀ b ∈ body.binders, b ∈ (Expr.letIn v value body).binders := fun b hb =>
      List.mem_append_right _ (List.mem_cons_of_mem _ hb)
    obtain ⟨hsorted, hmem⟩ := ihb ha.body fun z hz b hb => howner z hz b (hbody b hb)
    obtain ⟨hsorted', hmem'⟩ := ihi (hbranch.ascending ha.value) fun z hz b hb => by
      obtain rfl := Option.some.inj (hbranch.owner?_eq.symm.trans hz)
      exact ha.lt_of_mem_binders (hbranch.binders hb)
    -- what is bound inside is bound up to the conditional, which is bound last
    have hinside : ∀ b ∈ inside.filterMap Waypoint.binds?,
        b ≤ v ∧ b ∈ (Expr.letIn v value body).binders := fun b hb => by
      rcases hmem' b hb with hb | hb
      · exact ⟨Nat.le_of_lt (ha.lt_of_mem_binders (hbranch.binders hb)),
          List.mem_append_left _ (hbranch.binders hb)⟩
      · obtain rfl := Option.some.inj (hbranch.owner?_eq.symm.trans hb)
        exact ⟨Nat.le_refl _, List.mem_append_right _ List.mem_cons_self⟩
    have hhead : (Waypoint.binding v value).binds? = none := by
      rw [Waypoint.binds?, hbranch.isCond, if_pos rfl]
    rw [List.filterMap_cons_none hhead, List.filterMap_append, List.pairwise_append]
    refine ⟨⟨hsorted', hsorted, fun b hb c hc => ?_⟩, fun b hb => ?_⟩
    · rcases hmem c hc with hc | hc
      · exact Nat.lt_of_le_of_lt (hinside b hb).1 (ha.lt_of_mem_body hc)
      · exact howner c hc b (hinside b hb).2
    · rcases List.mem_append.1 hb with hb | hb
      · exact Or.inl (hinside b hb).2
      · exact (hmem b hb).imp_left (hbody b)

/-- What is bound behind a stop on a path is greater than what is bound there. -/
theorem ControlPath.lt_of_binds {e : Expr} {path : List Waypoint}
    (hpath : ControlPath .body e path) (ha : e.Ascending) {i k : Nat} {w w' : Waypoint}
    {a b : Handle} (hik : i < k) (hi : path[i]? = some w) (hk : path[k]? = some w')
    (hw : w.binds? = some a) (hw' : w'.binds? = some b) : a < b := by
  obtain ⟨hsorted, _⟩ := hpath.pairwise_binds ha fun z hz => nomatch hz
  rw [List.pairwise_filterMap, List.pairwise_iff_getElem] at hsorted
  obtain ⟨hilt, rfl⟩ := List.getElem?_eq_some_iff.1 hi
  obtain ⟨hklt, rfl⟩ := List.getElem?_eq_some_iff.1 hk
  exact hsorted i k hilt hklt hik a hw b hw'

/-! ### Analysed programs -/

/-- The buffers of a call and of a conditional are newer than all before. -/
theorem Denotes.newest {p : Propagation} {v : Handle} {value : Expr} (h : Denotes p v value)
    (hmade : value.isMade = true) : Newest p.store v := by
  cases h with
  | call hnew => exact hnew
  | cond hnew _ _ _ _ => exact hnew
  | _ => cases hmade

section Published

variable {vars : BinderTable} {fn : Function} {p : Propagation} {m : LivePoints}

/-- A path of an analysed function is understood. -/
theorem Passed.understood (h : Passed vars fn p m) {path : List Waypoint}
    (hpath : ControlPath .body fn.body path) {w : Waypoint} (hw : w ∈ path) : Understood p w := by
  rintro v value rfl
  have hmem := hpath.mem_allBindings hw
  exact ⟨h.denotes hmem, (h.flat.ascending_of_mem h.resolved.ascending hmem).1.uniqueBinders⟩

/-- **What a closure captures is older than the closure**: no stop behind it mints it. -/
theorem Passed.not_mintsId (h : Passed vars fn p m) {path : List Waypoint}
    (hpath : ControlPath .body fn.body path) {n k : Nat} {w : Waypoint} {f a x : Handle}
    {params : List Handle} {body : Expr} (hnk : n ≤ k)
    (hn : path[n]? = some (.binding f (.closure params body))) (hk : path[k]? = some w)
    (ha : a ∈ (Expr.closure params body).occurrences) (hx : x ∈ p.store.setOf a) :
    ¬ w.MintsId p.store.setOf x := by
  rintro ⟨v, hv, hxv⟩
  have hmem := hpath.mem_allBindings (List.mem_of_getElem? hn)
  have haf := (h.flat.ascending_of_mem h.resolved.ascending hmem).2 a ha
  have hne : n ≠ k := by
    rintro rfl
    obtain rfl := Option.some.inj (hn.symm.trans hk)
    cases hv
  have hfv := hpath.lt_of_binds h.resolved.ascending (Nat.lt_of_le_of_ne hnk hne) hn hk rfl
    (Waypoint.binds?_of_mints? hv)
  obtain howner | ⟨value, hvalue, hmade⟩ := hpath.made (List.mem_of_getElem? hk) hv
  · cases howner
  · have hlt := (h.denotes hvalue).newest hmade (Nat.lt_trans haf hfv) hx hxv
    exact Nat.lt_irrefl x hlt

/-- A captured variable is a bound handle of the program. -/
theorem Passed.mem_of_capture (h : Passed vars fn p m) {f a : Handle} {params : List Handle}
    {body : Expr} (hf : (f, .closure params body) ∈ fn.body.allBindings)
    (ha : a ∈ (Expr.closure params body).occurrences) :
    a ∈ p.store.sets ∧ a < vars.size ∧ ∀ x ∈ p.store.setOf a, x ∈ p.store.setOf f := by
  obtain ⟨hasc, hlt⟩ := h.flat.ascending_of_mem h.resolved.ascending hf
  have hfree := (Expr.mem_freeVarsUnder hasc.uniqueBinders).2 ha
  have hflt := (h.mem_of_mentioned (Or.inr (List.mem_map_of_mem (f := (·.1)) hf))).2
  cases h.denotes hf with
  | closure hbound hmem _ =>
    exact ⟨hbound a hfree, Nat.lt_trans (hlt a ha) hflt, fun x hx => (hmem x).2 ⟨a, hfree, hx⟩⟩

end Published

/-- **Captured buffers stay live until a closure comes out of a conditional.**  Take any control
path of a program whose liveness is published, a closure that is bound on it at the stop `i` or
before, and a value that is used at the stop `j` or behind and is or contains the closure.  What
a captured variable stands for is live at the stop `i`, provided that the closure has not come out
of a conditional before that stop. -/
theorem captures_live {source entry : String} {program : Program} {warnings : List Diagnostic}
    {fn : Function} {o : Outcome} {l : Liveness}
    (hread : readProgram source = .ok (program, warnings))
    (hentry : program.function? entry = some fn)
    (hanalyze : analyze program.vars fn .sharing = .ok o) (hpublished : o.published? = some l)
    {path : List Waypoint} (hpath : ControlPath .body fn.body path) {i j : Nat} (hij : i ≤ j)
    {earlier later : Waypoint} (hi : path[i]? = some earlier) (hj : path[j]? = some later)
    {f a : Handle} {params : List Handle} {body : Expr}
    (hf : Waypoint.binding f (.closure params body) ∈ path.take (i + 1))
    (ha : a ∈ (Expr.closure params body).occurrences) {value : Value}
    (huse : value ∈ later.usedValues (Frame.along path i j)) (hcontains : value.Contains f) :
    ∃ point live ids, earlier.point? l = some point ∧ l.liveAt? point = some live ∧
      l.identitiesOf? a = some ids ∧ ∀ x ∈ ids, x ∈ live := by
  have hvalid : o.status = .valid ∧ l = o.liveness := by
    rw [Outcome.published?] at hpublished
    split at hpublished
    · rename_i hstatus
      exact ⟨hstatus, (Option.some.inj hpublished).symm⟩
    · cases hpublished
  obtain ⟨hstatus, rfl⟩ := hvalid
  have hform := formErrors_eq_nil hanalyze (by simp [hstatus])
  obtain ⟨p, m, hpassed, hlive, hexits, hids⟩ :=
    exists_passed (readProgram_scoped hread hentry) hform (Or.inr rfl) hanalyze
  obtain ⟨n, hn⟩ := List.getElem?_of_mem hf
  rw [List.getElem?_take] at hn
  split at hn
  case isFalse => cases hn
  case isTrue hni =>
  have hmemf := hpath.mem_allBindings (List.mem_of_getElem? hn)
  obtain ⟨hasets, halt, hfa⟩ := hpassed.mem_of_capture hmemf ha
  have hcovers := hpassed.grows.covers (covers_empty _)
  obtain ⟨set, hsolved, hset⟩ := hpassed.live_of_needed hpath hi
  obtain ⟨point, hpoint, hliveAt⟩ := hsolved.published hlive hexits
  refine ⟨point, set, p.store.setOf a, hpoint, hliveAt,
    hpassed.identitiesOf?_eq hids hasets halt, fun x hx => hset x ?_⟩
  have hneeded : ∀ w ∈ path.drop i, w.UsesId p.store.setOf x →
      Needed p.store.setOf (path.drop i) x := fun w hw huses => by
    obtain ⟨k, hk⟩ := List.getElem?_of_mem hw
    refine needed_of_getElem? hk huses fun k' w' _ hk' => ?_
    rw [List.getElem?_drop] at hk'
    exact hpassed.not_mintsId hpath (by omega) hn hk' ha hx
  have htracks : Tracks p.store f x (Needed p.store.setOf (path.drop i) x)
      (Frame.along path i j) := by
    refine Tracks.foldl (hfa x hx) hcovers (Tracks.foldl (hfa x hx) hcovers (tracks_start _)
      (fun w hw => ?_) fun h => nomatch h) (fun w hw => ?_) fun _ scope r hr hxr => ?_
    · exact hpassed.understood hpath (List.mem_of_mem_take hw)
    · exact hpassed.understood hpath (List.mem_of_mem_take (List.mem_of_mem_drop hw))
    · rw [List.drop_take] at hr
      exact hneeded _ (List.mem_of_mem_take hr) ⟨r, List.mem_cons_self, hxr⟩
  have hlater : later ∈ path.drop i := by
    refine List.mem_of_getElem? (i := j - i) ?_
    rw [List.getElem?_drop, Nat.add_sub_cancel' hij, hj]
  have hunderstood := hpassed.understood hpath (List.mem_of_getElem? hj)
  rcases htracks.usesId hcovers hunderstood huse hcontains with h | h
  · exact h
  · exact hneeded later hlater h

/-- **No conditional hands captured buffers on.**  What is made on a control path behind a closure,
be it by a call or where the branch of a conditional ends, has none of the buffers that the
closure captures. -/
theorem captures_not_handed_on {source entry : String} {program : Program}
    {warnings : List Diagnostic} {fn : Function} {terminal : Pass} {o : Outcome}
    (hread : readProgram source = .ok (program, warnings))
    (hentry : program.function? entry = some fn) (hform : formErrors program.vars fn = [])
    (hterminal : terminal = .liveness ∨ terminal = .sharing)
    (hanalyze : analyze program.vars fn terminal = .ok o) {path : List Waypoint}
    (hpath : ControlPath .body fn.body path) {n k : Nat} (hnk : n ≤ k) {f a : Handle}
    {params : List Handle} {body : Expr} {later : Waypoint}
    (hn : path[n]? = some (.binding f (.closure params body))) (hk : path[k]? = some later)
    (ha : a ∈ (Expr.closure params body).occurrences) {ids : HandleSet}
    (hids : o.liveness.identitiesOf? a = some ids) : ∀ x ∈ ids, ¬ later.Mints o.liveness x := by
  obtain ⟨p, m, hpassed, _, _, hpublished⟩ :=
    exists_passed (readProgram_scoped hread hentry) hform hterminal hanalyze
  rintro x hx ⟨v, set, hv, hset, hxv⟩
  have hmentioned : Mentioned fn.body v :=
    (hpath.mentioned (List.mem_of_getElem? hk) (Or.inr hv)).resolve_left fun h => nomatch h
  obtain ⟨hvmem, hvlt⟩ := hpassed.mem_of_mentioned hmentioned
  have hmemf := hpath.mem_allBindings (List.mem_of_getElem? hn)
  obtain ⟨hamem, halt, _⟩ := hpassed.mem_of_capture hmemf ha
  obtain rfl := Option.some.inj (hids.symm.trans (hpassed.identitiesOf?_eq hpublished hamem halt))
  obtain rfl := Option.some.inj (hset.symm.trans (hpassed.identitiesOf?_eq hpublished hvmem hvlt))
  exact hpassed.not_mintsId hpath hnk hn hk ha hx ⟨v, hv, hxv⟩

/-- A program whose result is a closure that comes out of a conditional. -/
def choiceSource : String :=
  "fn @main(%c: Tensor, %a: Tensor) \x7b let %f = fn(%y: Tensor) \x7b add(%y, %a) \x7d; " ++
    "let %z = if (%c) \x7b %f \x7d else \x7b %f \x7d; %z \x7d"

/-- The closure of `choiceSource`. -/
def choiceClosure : Expr := .closure [2] (.call (.op "add") [.var 2, .var 1] .tensor)

/-- The conditional of `choiceSource`. -/
def choiceCond : Expr := .cond (.var 0) (.var 3) (.var 3) .func

/-- The function of `choiceSource`. -/
def choiceFunction : Function := ⟨[0, 1], .letIn 3 choiceClosure (.letIn 4 choiceCond (.var 4))⟩

/-- What `choiceSource` says. -/
def choiceProgram : Program :=
  ⟨⟨#[⟨"c", .tensor, ⟨9, 19⟩⟩, ⟨"a", .tensor, ⟨21, 31⟩⟩, ⟨"y", .tensor, ⟨47, 57⟩⟩,
    ⟨"f", .func, ⟨35, 75⟩⟩, ⟨"z", .func, ⟨76, 112⟩⟩]⟩, [("main", choiceFunction)]⟩

/-- The way through the first branch of `choiceSource`. -/
def choicePath : List Waypoint :=
  [.binding 3 choiceClosure, .binding 4 choiceCond, .exit (.thenOf 4) 3, .exit .body 4]

theorem choicePath_controlPath : ControlPath .body choiceFunction.body choicePath :=
  .bind rfl (.branch (.thenBranch _ _ _ _) (.result _ 3) (.result _ 4))

/-- What is published about `choiceSource`. -/
theorem choice_published : readProgram choiceSource = .ok (choiceProgram, []) ∧
    ∃ o, analyze choiceProgram.vars choiceFunction .sharing = .ok o ∧
      o.published? = some o.liveness ∧ o.liveness.exit? .body = some 10 ∧
      o.liveness.liveAt? 10 = some ∅ ∧ o.liveness.identitiesOf? 1 = some {6} := by
  refine ⟨by cbv, ?_⟩
  have hrun : ((analyze choiceProgram.vars choiceFunction .sharing).toOption.any fun o =>
      o.status = .valid ∧ o.liveness.exit? .body = some 10 ∧ o.liveness.liveAt? 10 = some ∅ ∧
        o.liveness.identitiesOf? 1 = some {6}) = true := by decide +kernel
  obtain ⟨o, ho, htest⟩ := exists_ok_of_any hrun
  obtain ⟨hstatus, hexit, hlive, hids⟩ := of_decide_eq_true htest
  exact ⟨o, ho, if_pos hstatus, hexit, hlive, hids⟩

/-- **The capture is live at the conditional,** out of which the closure comes later. -/
theorem captures_live_at_choice : ∃ o live, readProgram choiceSource = .ok (choiceProgram, []) ∧
    analyze choiceProgram.vars choiceFunction .sharing = .ok o ∧
    o.published? = some o.liveness ∧ ControlPath .body choiceFunction.body choicePath ∧
    o.liveness.liveAt? 4 = some live ∧ 6 ∈ live := by
  obtain ⟨hread, o, ho, hpublished, _, _, hids⟩ := choice_published
  have hentry : choiceProgram.function? "main" = some choiceFunction := rfl
  obtain ⟨point, live, ids, hpoint, hlive, hids', hmem⟩ := captures_live hread hentry ho hpublished
    choicePath_controlPath (i := 1) (j := 3) (by decide) rfl rfl (f := 3) (a := 1)
    List.mem_cons_self (by decide) (List.mem_singleton.2 rfl) ⟨[], rfl⟩
  obtain rfl := Option.some.inj hpoint
  obtain rfl := Option.some.inj (hids.symm.trans hids')
  exact ⟨o, live, hread, ho, hpublished, choicePath_controlPath, hlive,
    hmem 6 (mem_singleton.2 rfl)⟩

/-- **Behind the conditional the capture is lost,** although the closure is the result. -/
theorem captures_lost : ∃ o live ids later, readProgram choiceSource = .ok (choiceProgram, []) ∧
    analyze choiceProgram.vars choiceFunction .sharing = .ok o ∧
    o.published? = some o.liveness ∧ ControlPath .body choiceFunction.body choicePath ∧
    Waypoint.binding 3 choiceClosure ∈ choicePath.take 4 ∧ 1 ∈ choiceClosure.occurrences ∧
    choicePath[3]? = some later ∧
    (∃ value ∈ later.usedValues (Frame.along choicePath 0 3), value.Contains 3) ∧
    later.point? o.liveness = some 10 ∧ o.liveness.liveAt? 10 = some live ∧
    o.liveness.identitiesOf? 1 = some ids ∧ ¬ ∀ x ∈ ids, x ∈ live := by
  obtain ⟨hread, o, ho, hpublished, hexit, hlive, hids⟩ := choice_published
  refine ⟨o, _, _, _, hread, ho, hpublished, choicePath_controlPath, List.mem_cons_self,
    by decide, rfl, ⟨.closure 3, List.mem_cons_self, [], rfl⟩, hexit, hlive, hids, fun h => ?_⟩
  exact absurd (h 6 (mem_singleton.2 rfl)) Std.ExtTreeSet.not_mem_empty

end Analysis
end TensorLiveness
