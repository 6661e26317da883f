/-
# The live sets as equations

The walk mints a handle for every set on its way and keeps what is live by points.  What it
comes to is a recursion on identity sets alone: `liveEntries` lists what is live at every
place of a sequence, given what is needed behind it.

| definition | what is live |
| --- | --- |
| `liveFirst` | at the first point of a sequence |
| `liveBinding` | at one binding, given what is live behind it |
| `liveEntries` | at every place of a sequence and of its branches |

`walkBack_spec` shows by induction on the form of a sequence that the walk leaves just these
sets behind, and `livePoints_spec` says so of a function body.  `Extends` is the frame: which
points and which exits a part of the walk may touch.  The points behind branches are no places;
what is live there is live at the exit of the branch (`Covers`).
-/

import TensorLiveness.Analysis.LivePoints
import TensorLiveness.Proofs.Identity.Store
import TensorLiveness.Proofs.Program.Flat

namespace TensorLiveness
namespace Analysis

open Identity Program Store

/-- A place in a function: the binding of a variable, or the end of a sequence. -/
inductive Place
  | binding (v : Handle)
  | exit (scope : Scope)
deriving DecidableEq

/-- The variable whose conditional a sequence is a branch of. -/
def Scope.owner? : Scope → Option Handle
  | .body => none
  | .thenOf v | .elseOf v => some v

/-- The branches of the conditionals bound to some of the variables. -/
def Scope.branches (vs : List Handle) : List Scope := vs.flatMap fun v => [.thenOf v, .elseOf v]

theorem Scope.mem_branches {vs : List Handle} {scope : Scope} :
    scope ∈ branches vs ↔ ∃ v ∈ vs, scope.owner? = some v := by
  cases scope <;> simp [branches, owner?]

/-- Different variables have different branches. -/
theorem Scope.branches_disjoint {vs ws : List Handle} (h : ∀ v ∈ vs, v ∉ ws) {scope : Scope}
    (hv : scope ∈ branches vs) : scope ∉ branches ws := by
  intro hw
  obtain ⟨v, hv, howner⟩ := mem_branches.1 hv
  obtain ⟨w, hw, howner'⟩ := mem_branches.1 hw
  obtain rfl := Option.some.inj (howner.symm.trans howner')
  exact h v hv hw

theorem Scope.branches_mono {vs ws : List Handle} (h : ∀ v ∈ vs, v ∈ ws) :
    ∀ scope ∈ branches vs, scope ∈ branches ws := by
  intro scope hv
  obtain ⟨v, hv, howner⟩ := mem_branches.1 hv
  exact mem_branches.2 ⟨v, h v hv, howner⟩

/-- The scopes and the sequences of the two branches of the conditional bound to `v`. -/
inductive BranchOf (v : Handle) : Expr → Scope → Expr → Prop
  | thenBranch (test thenBranch elseBranch : Expr) (ty : Ty) :
    BranchOf v (.cond test thenBranch elseBranch ty) (.thenOf v) thenBranch
  | elseBranch (test thenBranch elseBranch : Expr) (ty : Ty) :
    BranchOf v (.cond test thenBranch elseBranch ty) (.elseOf v) elseBranch

namespace BranchOf

variable {v : Handle} {value taken : Expr} {inner : Scope}

theorem owner?_eq (h : BranchOf v value inner taken) : inner.owner? = some v := by
  cases h <;> rfl

theorem isCond (h : BranchOf v value inner taken) : value.isCond = true := by
  cases h <;> rfl

theorem isMade (h : BranchOf v value inner taken) : value.isMade = true := by
  cases h <;> rfl

theorem occurrences (h : BranchOf v value inner taken) {u : Handle} (hu : u ∈ taken.occurrences) :
    u ∈ value.occurrences := by
  cases h with
  | thenBranch => exact List.mem_append_left _ (List.mem_append_right _ hu)
  | elseBranch => exact List.mem_append_right _ hu

theorem binders (h : BranchOf v value inner taken) {u : Handle} (hu : u ∈ taken.binders) :
    u ∈ value.binders := by
  cases h with
  | thenBranch => exact List.mem_append_left _ (List.mem_append_right _ hu)
  | elseBranch => exact List.mem_append_right _ hu

theorem ascending (h : BranchOf v value inner taken) (ha : value.Ascending) :
    taken.Ascending := by
  cases h with
  | thenBranch => exact ha.thenBranch
  | elseBranch => exact ha.elseBranch

theorem branchBindings (h : BranchOf v value inner taken) {b : Handle × Expr}
    (hb : b ∈ taken.allBindings) : b ∈ value.branchBindings := by
  cases h with
  | thenBranch => exact List.mem_append_left _ hb
  | elseBranch => exact List.mem_append_right _ hb

/-- The variables bound in a branch come before the variable of the conditional. -/
theorem lt (h : BranchOf v value inner taken) (hflat : taken.Flat) {body : Expr}
    (ha : (Expr.letIn v value body).Ascending) : ∀ u ∈ taken.allBindings.map (·.1), u < v :=
  fun _ hu => ha.lt_of_mem_binders (h.binders (hflat.map_fst_allBindings_sublist.subset hu))

/-- A branch is none of the branches inside of it. -/
theorem not_mem_branches (h : BranchOf v value inner taken) {vs : List Handle}
    (hvs : ∀ u ∈ vs, u < v) : inner ∉ Scope.branches vs := by
  intro hmem
  obtain ⟨u, hu, howner⟩ := Scope.mem_branches.1 hmem
  obtain rfl := Option.some.inj (h.owner?_eq.symm.trans howner)
  exact Nat.lt_irrefl v (hvs v hu)

end BranchOf

/-! ### The equations -/

section Equations

variable (ids : Handle → HandleSet)

/-- What any of the variables stands for. -/
def unionAll (us : List Handle) : HandleSet := us.foldr (fun u set => ids u ∪ set) ∅

/-- What the first variable of a sequence stands for. -/
def firstIds : Expr → HandleSet
  | .letIn v _ _ => ids v
  | _ => ∅

/-- What is live at the binding of `v`, if `next` is what the next binder stands for and `after`
is live behind. -/
def liveBinding (v : Handle) (next after : HandleSet) : Expr → HandleSet
  | .op _ => next ∪ after
  | .call callee args ty => unionAll ids (Expr.call callee args ty).occurrences ∪ (after \ ids v)
  | .cond test thenBranch elseBranch ty =>
    unionAll ids (Expr.cond test thenBranch elseBranch ty).occurrences ∪ (after \ ids v)
  | _ => ids v ∪ after

/-- What is live at the first point of a sequence behind which `incoming` is needed. -/
def liveFirst (incoming : HandleSet) : Expr → HandleSet
  | .letIn v value body => liveBinding ids v (firstIds ids body) (liveFirst incoming body) value
  | .var r => ids r ∪ incoming
  | _ => incoming

mutual

/-- What is live at the places of a sequence. -/
def liveEntries (scope : Scope) (incoming : HandleSet) : Expr → List (Place × HandleSet)
  | .letIn v value body =>
    (.binding v, liveFirst ids incoming (.letIn v value body)) ::
      (liveInside v (liveFirst ids incoming body) value ++ liveEntries scope incoming body)
  | e => [(.exit scope, liveFirst ids incoming e)]

/-- What is live at the places inside the value of `v`. -/
def liveInside (v : Handle) (after : HandleSet) : Expr → List (Place × HandleSet)
  | .cond _ thenBranch elseBranch _ =>
    liveEntries (.thenOf v) (after \ ids v) thenBranch ++
      liveEntries (.elseOf v) (after \ ids v) elseBranch
  | _ => []

end

variable {ids}

theorem mem_unionAll {us : List Handle} {e : Handle} :
    e ∈ unionAll ids us ↔ ∃ u ∈ us, e ∈ ids u := by
  induction us with
  | nil => simp [unionAll]
  | cons u us ih =>
    rw [show unionAll ids (u :: us) = ids u ∪ unionAll ids us from rfl,
      Std.ExtTreeSet.mem_union_iff, ih]
    simp

theorem BranchOf.liveInside {v : Handle} {value taken : Expr} {inner : Scope}
    (h : BranchOf v value inner taken) {after : HandleSet} {entry : Place × HandleSet}
    (hentry : entry ∈ liveEntries ids inner (after \ ids v) taken) :
    entry ∈ Analysis.liveInside ids v after value := by
  cases h with
  | thenBranch => exact List.mem_append_left _ hentry
  | elseBranch => exact List.mem_append_right _ hentry

theorem Simple.liveInside_eq {value : Expr} (h : value.Simple) (v : Handle) (after : HandleSet) :
    liveInside ids v after value = [] := by
  cases h <;> rfl

end Equations

/-! ### Frames -/

namespace LivePoints

/-- The store is sound, points are allocated, and only leaves are live. -/
structure Sound (m : LivePoints) : Prop where
  store : m.store.Sound
  point_lt {point : Handle} {set : HandleSet} : m.live[point]? = some set →
    point < m.store.supply.next
  leaf {point e : Handle} {set : HandleSet} : m.live[point]? = some set → e ∈ set → m.store.Leaf e

/-- `m'` comes out of `m` by minting handles, by giving sets to the points `ps` and to minted
points, and by opening exits of the sequences `scopes`. -/
structure Extends (ps : List Handle) (scopes : List Scope) (m m' : LivePoints) : Prop where
  store : Store.Extends [] m.store m'.store
  live {point : Handle} : point ∉ ps → point < m.store.supply.next →
    m'.live[point]? = m.live[point]?
  exits {scope : Scope} : scope ∉ scopes → m'.exits.lookup scope = m.exits.lookup scope
  sound : m'.Sound

theorem Extends.refl {m : LivePoints} (h : m.Sound) : Extends [] [] m m :=
  ⟨.refl h.store, fun _ _ => rfl, fun _ => rfl, h⟩

theorem Extends.trans {ps ps' : List Handle} {scopes scopes' : List Scope}
    {m m' m'' : LivePoints} (h : Extends ps scopes m m') (h' : Extends ps' scopes' m' m'') :
    Extends (ps ++ ps') (scopes ++ scopes') m m'' := by
  refine ⟨h.store.trans h'.store, fun {point} hp hlt => ?_, fun {scope} hs => ?_, h'.sound⟩
  · rw [List.mem_append, not_or] at hp
    rw [h'.live hp.2 (Nat.lt_of_lt_of_le hlt h.store.next_le), h.live hp.1 hlt]
  · rw [List.mem_append, not_or] at hs
    rw [h'.exits hs.2, h.exits hs.1]

/-- Fewer points and exits may be touched than are named. -/
theorem Extends.mono {ps ps' : List Handle} {scopes scopes' : List Scope}
    {m m' : LivePoints} (h : Extends ps scopes m m')
    (hps : ∀ p ∈ ps, p ∈ ps' ∨ m.store.supply.next ≤ p) (hscopes : ∀ sc ∈ scopes, sc ∈ scopes') :
    Extends ps' scopes' m m' :=
  ⟨h.store, fun hp hlt => h.live (fun hmem => (hps _ hmem).elim hp (Nat.not_le.2 hlt)) hlt,
    fun hs => h.exits fun hmem => hs (hscopes _ hmem), h.sound⟩

/-! ### One point -/

theorem liveAt_eq_ok {m : LivePoints} {point : Handle} {set : HandleSet} :
    m.liveAt point = .ok set ↔ m.live[point]? = some set := by
  unfold liveAt
  split
  · rename_i set' h
    rw [h]
    exact ⟨fun h => congrArg some (Except.ok.inj h),
      fun h => congrArg Except.ok (Option.some.inj h)⟩
  · rename_i h
    rw [h]
    exact ⟨(nomatch ·), (nomatch ·)⟩

theorem getElem?_setLive (m : LivePoints) (point p : Handle) (set : HandleSet) :
    (m.setLive point set).live[p]? = if point = p then some set else m.live[p]? := by
  rw [setLive, Std.ExtTreeMap.getElem?_insert]
  simp only [Std.LawfulEqOrd.compare_eq_iff_eq]

/-- A set of leaves may be given to an allocated point. -/
theorem extends_setLive {m : LivePoints} {s : Store} (hm : m.Sound)
    (hs : Store.Extends [] m.store s) {point : Handle} {set : HandleSet}
    (hlt : point < s.supply.next) (hset : ∀ e ∈ set, s.Leaf e) :
    Extends [point] [] m ((m.withStore s).setLive point set) := by
  refine ⟨hs, fun {p} hp _ => ?_, fun _ => rfl, hs.sound, fun {p x} h => ?_,
    fun {p e x} h he => ?_⟩
  · rw [getElem?_setLive, if_neg fun heq : point = p => hp (heq ▸ List.mem_cons_self)]
    rfl
  · rw [getElem?_setLive] at h
    split at h
    · rename_i heq
      exact heq ▸ hlt
    · exact Nat.lt_of_lt_of_le (hm.point_lt h) hs.next_le
  · rw [getElem?_setLive] at h
    split at h
    · exact hset e (Option.some.inj h ▸ he)
    · exact hs.leaf (hm.leaf h he)

/-- What is live behind, less what `defined` stands for. -/
def behind (s : Store) (after : HandleSet) : Option Handle → HandleSet
  | some d => after \ s.setOf d
  | none => after

/-- What a point uses, united with what stands for the rest. -/
theorem merge_spec {m m' : LivePoints} {s : Store} {uses r : Handle} {rest set : HandleSet}
    (hext : Store.Extends [] m.store s) (huses : uses ∈ m.store.sets) (hr : s.setOf r = rest)
    (h : (s.freshUnionOf [uses, r] >>= fun u => u.2.identities u.1 >>= fun set =>
      .ok (set, m.withStore u.2)) = .ok (set, m')) :
    ∃ s', m' = m.withStore s' ∧ Store.Extends [] m.store s' ∧ (∀ e ∈ set, s'.Leaf e) ∧
      set = m.store.setOf uses ∪ rest := by
  obtain ⟨⟨merged, s'⟩, hmerged, h⟩ := bind_eq_ok.1 h
  obtain ⟨set', hset', h⟩ := bind_eq_ok.1 h
  obtain ⟨rfl, rfl⟩ := Prod.mk.inj (Except.ok.inj h)
  obtain ⟨_, rfl⟩ := identities_eq_ok.1 hset'
  obtain ⟨union, hunion, _, hmem⟩ := mints_freshUnionOf hext.sound hmerged
  refine ⟨s', rfl, hext.trans_minting hunion.grows, fun e he => hunion.grows.sound.leaf he,
    Std.ExtTreeSet.ext_mem fun e => ?_⟩
  rw [hunion.setOf_eq, hmem, Std.ExtTreeSet.mem_union_iff, ← hr, ← hext.setOf_eq huses]
  simp

/-- **The set of a point:** what it uses, and what is live behind less what it defines. -/
theorem liveBefore_spec {m m' : LivePoints} {uses next : Handle} {defined : Option Handle}
    {set : HandleSet} (hm : m.Sound) (hdefined : ∀ d, defined = some d → d ∈ m.store.sets)
    (h : m.liveBefore uses defined next = .ok (set, m')) :
    ∃ s after, m' = m.withStore s ∧ Store.Extends [] m.store s ∧ (∀ e ∈ set, s.Leaf e) ∧
      uses ∈ m.store.sets ∧ m.live[next]? = some after ∧
      set = m.store.setOf uses ∪ behind m.store after defined := by
  rw [liveBefore, bind_eq_ok] at h
  obtain ⟨_, huses, h⟩ := h
  obtain ⟨after, hafter, h⟩ := bind_eq_ok.1 h
  have huses := (identities_eq_ok.1 huses).1
  rw [liveAt_eq_ok] at hafter
  have hsnap := mints_freshSet hm.store "live" _ fun e he => hm.leaf hafter he
  generalize m.store.freshSet "live" after = minted at hsnap h
  obtain ⟨snapshot, s₁⟩ := minted
  dsimp only at hsnap
  cases defined with
  | none =>
    obtain ⟨s, rfl, hext, hleaf, hset⟩ := merge_spec hsnap.grows huses hsnap.setOf_eq h
    exact ⟨s, after, rfl, hext, hleaf, huses, hafter, hset⟩
  | some d =>
    obtain ⟨⟨r, s₂⟩, hdiff, h⟩ := bind_eq_ok.1 h
    obtain ⟨hdiff, _, _⟩ := mints_freshDifference hsnap.grows.sound hdiff
    have hrest : s₂.setOf r = behind m.store after (some d) := by
      rw [hdiff.setOf_eq, hsnap.setOf_eq, hsnap.grows.setOf_eq (hdefined d rfl)]
      rfl
    obtain ⟨s, rfl, hext, hleaf, hset⟩ :=
      merge_spec (hsnap.grows.trans_minting hdiff.grows) huses hrest h
    exact ⟨s, after, rfl, hext, hleaf, huses, hafter, hset⟩

/-- A recorded point has the set of `liveBefore`, and nothing else changes. -/
theorem record_spec {m m' : LivePoints} {point uses next : Handle} {defined : Option Handle}
    (hm : m.Sound) (hdefined : ∀ d, defined = some d → d ∈ m.store.sets)
    (hlt : point < m.store.supply.next) (h : m.record point uses defined next = .ok m') :
    ∃ after, m.live[next]? = some after ∧ uses ∈ m.store.sets ∧ Extends [point] [] m m' ∧
      m'.live[point]? = some (m.store.setOf uses ∪ behind m.store after defined) := by
  rw [record, bind_eq_ok] at h
  obtain ⟨⟨set, m₁⟩, hbefore, h⟩ := h
  obtain rfl := Except.ok.inj h
  obtain ⟨s, after, rfl, hext, hleaf, huses, hafter, rfl⟩ := liveBefore_spec hm hdefined hbefore
  refine ⟨after, hafter, huses, extends_setLive hm hext (Nat.lt_of_lt_of_le hlt hext.next_le) hleaf,
    ?_⟩
  rw [getElem?_setLive, if_pos rfl]

/-- Another store that has grown, and the same points. -/
theorem extends_withStore {m : LivePoints} {s : Store} (hm : m.Sound)
    (hs : Store.Extends [] m.store s) : Extends [] [] m (m.withStore s) :=
  ⟨hs, fun _ _ => rfl, fun _ => rfl, hs.sound,
    fun h => Nat.lt_of_lt_of_le (hm.point_lt h) hs.next_le, fun h he => hs.leaf (hm.leaf h he)⟩

/-- **An exit** needs the result of its sequence and what is needed behind it. -/
theorem openExit_spec {m m' : LivePoints} {scope : Scope} {result : Expr} {next exit r : Handle}
    (hm : m.Sound) (hr : result = .var r) (hmem : r ∈ m.store.sets)
    (h : m.openExit scope result next = .ok (exit, m')) : ∃ after, m.live[next]? = some after ∧
      Extends [] [scope] m m' ∧ m.store.supply.next ≤ exit ∧
      m'.exits.lookup scope = some exit ∧ exit ∈ m'.store.sets ∧ m'.store.setOf exit = ∅ ∧
      m'.live[exit]? = some (m.store.setOf r ∪ after) := by
  subst hr
  rw [openExit] at h
  simp only [Expr.var?] at h
  have hmint := mints_freshEmpty hm.store (scope.display ++ ".exit")
  generalize m.store.freshEmpty (scope.display ++ ".exit") = minted at hmint h
  obtain ⟨e, s⟩ := minted
  dsimp only at hmint
  obtain ⟨m₁, hrecord, h⟩ := bind_eq_ok.1 h
  obtain ⟨rfl, rfl⟩ := Prod.mk.inj (Except.ok.inj h)
  have hstore := extends_withStore hm hmint.grows
  obtain ⟨after, hafter, _, hext, hlive⟩ := record_spec hstore.sound (by rintro d ⟨⟩)
    (hstore.sound.store.lt_next hmint.mem) hrecord
  have hall : m.Extends [] [scope] _ := (hstore.trans hext).mono
    (fun p hp => Or.inr (List.mem_singleton.1 hp ▸ hmint.next_le))
    fun o ho => absurd ho List.not_mem_nil
  refine ⟨after, hafter, ⟨hall.store, hall.live, fun {sc} hsc => ?_, hall.sound.store,
    hall.sound.point_lt, hall.sound.leaf⟩, hmint.next_le, ?_, hext.store.mem hmint.mem, ?_, ?_⟩
  · have hne : sc ≠ scope := fun heq => hsc (heq ▸ List.mem_cons_self)
    rw [List.lookup_cons, beq_false_of_ne hne]
    exact hall.exits hsc
  · rw [List.lookup_cons, beq_self_eq_true]
  · exact (hext.store.setOf_eq hmint.mem).trans hmint.setOf_eq
  · exact hlive.trans (congrArg (fun set => some (set ∪ after)) (hmint.grows.setOf_eq hmem))

/-- The point behind a branch: what is live behind the conditional, less what that defines. -/
theorem openBranch_spec {m m' : LivePoints} {v next branchNext : Handle} (hm : m.Sound)
    (hv : v ∈ m.store.sets) (h : m.openBranch v next = .ok (branchNext, m')) :
    ∃ after, m.live[next]? = some after ∧ Extends [] [] m m' ∧
      m'.live[branchNext]? = some (after \ m.store.setOf v) := by
  rw [openBranch, bind_eq_ok] at h
  obtain ⟨after, hafter, h⟩ := h
  rw [liveAt_eq_ok] at hafter
  have hsnap := mints_freshSet hm.store "live" _ fun e he => hm.leaf hafter he
  generalize m.store.freshSet "live" after = minted at hsnap h
  obtain ⟨snapshot, s₁⟩ := minted
  dsimp only at hsnap
  obtain ⟨⟨b, s⟩, hdiff, h⟩ := bind_eq_ok.1 h
  obtain ⟨set, hset, h⟩ := bind_eq_ok.1 h
  obtain ⟨rfl, rfl⟩ := Prod.mk.inj (Except.ok.inj h)
  obtain ⟨hdiff, _, _⟩ := mints_freshDifference hsnap.grows.sound hdiff
  obtain ⟨hmem, rfl⟩ := identities_eq_ok.1 hset
  have hext := hsnap.grows.trans_minting hdiff.grows
  have hnew : m.store.supply.next ≤ b := Nat.le_trans hsnap.grows.next_le hdiff.next_le
  refine ⟨after, hafter, ?_, ?_⟩
  · exact (extends_setLive hm hext (hdiff.grows.sound.lt_next hmem)
      fun e he => hdiff.grows.sound.leaf he).mono
        (fun p hp => Or.inr (List.mem_singleton.1 hp ▸ hnew)) fun o ho => ho
  · rw [getElem?_setLive, if_pos rfl, hdiff.setOf_eq, hsnap.setOf_eq, hsnap.grows.setOf_eq hv]

/-! ### Points that keep their sets -/

/-- All points but `point` have the sets that they had. -/
def ChangesAt (point : Handle) (m m' : LivePoints) : Prop :=
  ∀ p ≠ point, m'.live[p]? = m.live[p]?

section ChangesAt

variable {m m' : LivePoints} {v next : Handle}

theorem changesAt_setLive (m : LivePoints) (point : Handle) (set : HandleSet) :
    ChangesAt point m (m.setLive point set) := fun p hp => by
  rw [getElem?_setLive, if_neg (Ne.symm hp)]

theorem live_liveBefore {uses : Handle} {defined : Option Handle} {set : HandleSet}
    (h : m.liveBefore uses defined next = .ok (set, m')) : m'.live = m.live := by
  have hmerge : ∀ {s : Store} {r : Handle}, (s.freshUnionOf [uses, r] >>= fun u =>
      u.2.identities u.1 >>= fun set => .ok (set, m.withStore u.2)) = .ok (set, m') →
      m'.live = m.live := fun h => by
    obtain ⟨_, _, h⟩ := bind_eq_ok.1 h
    obtain ⟨_, _, h⟩ := bind_eq_ok.1 h
    obtain ⟨_, rfl⟩ := Prod.mk.inj (Except.ok.inj h)
    rfl
  obtain ⟨_, _, h⟩ := bind_eq_ok.1 h
  obtain ⟨_, _, h⟩ := bind_eq_ok.1 h
  cases defined with
  | none => exact hmerge h
  | some d =>
    obtain ⟨_, _, h⟩ := bind_eq_ok.1 h
    exact hmerge h

theorem record_changesAt {point uses : Handle} {defined : Option Handle}
    (h : m.record point uses defined next = .ok m') : ChangesAt point m m' := by
  obtain ⟨⟨set, m₁⟩, hbefore, h⟩ := bind_eq_ok.1 h
  obtain rfl := Except.ok.inj h
  intro p hp
  rw [changesAt_setLive m₁ point set p hp, live_liveBefore hbefore]

theorem openExit_changesAt {scope : Scope} {result : Expr} {exit : Handle}
    (h : m.openExit scope result next = .ok (exit, m')) : ChangesAt exit m m' := by
  unfold openExit at h
  split at h
  · cases h
  · obtain ⟨m₁, hrecord, h⟩ := bind_eq_ok.1 h
    obtain ⟨rfl, rfl⟩ := Prod.mk.inj (Except.ok.inj h)
    exact fun p hp => record_changesAt hrecord p hp

theorem openBranch_changesAt {branchNext : Handle}
    (h : m.openBranch v next = .ok (branchNext, m')) : ChangesAt branchNext m m' := by
  obtain ⟨_, _, h⟩ := bind_eq_ok.1 h
  obtain ⟨_, _, h⟩ := bind_eq_ok.1 h
  obtain ⟨_, _, h⟩ := bind_eq_ok.1 h
  obtain ⟨rfl, rfl⟩ := Prod.mk.inj (Except.ok.inj h)
  exact changesAt_setLive _ _ _

theorem recordCond_changesAt {test thenBranch elseBranch : Expr}
    (h : m.recordCond v test thenBranch elseBranch next = .ok m') : ChangesAt v m m' := by
  unfold recordCond at h
  split at h
  · cases h
  · obtain ⟨_, _, h⟩ := bind_eq_ok.1 h
    obtain ⟨_, _, h⟩ := bind_eq_ok.1 h
    obtain ⟨⟨_, s⟩, _, h⟩ := bind_eq_ok.1 h
    exact record_changesAt (m := m.withStore s) h

theorem walkSimple_changesAt {value : Expr} (hsimple : value.Simple)
    (h : walkBackBinding m v next value = .ok m') : ChangesAt v m m' := by
  cases hsimple with
  | call name ty hatoms =>
    rw [walkBackBinding, Expr.isOp, if_pos rfl] at h
    obtain ⟨_, _, h⟩ := bind_eq_ok.1 h
    obtain ⟨⟨_, s⟩, _, h⟩ := bind_eq_ok.1 h
    exact record_changesAt (m := m.withStore s) h
  | var u => exact record_changesAt h
  | const value => exact record_changesAt h
  | tuple hatoms => exact record_changesAt h
  | get u index => exact record_changesAt h
  | closure params body => exact record_changesAt h
  | op name => exact record_changesAt h

end ChangesAt

/-! ### Places with their sets -/

/-- The place has this set. -/
inductive Solved (m : LivePoints) : Place → HandleSet → Prop
  | binding {v : Handle} {set : HandleSet} : m.live[v]? = some set → Solved m (.binding v) set
  | exit {scope : Scope} {point : Handle} {set : HandleSet} : m.exits.lookup scope = some point →
    m.store.firstMinted ≤ point → m.live[point]? = some set → Solved m (.exit scope) set

/-- A place keeps its set while other places get theirs. -/
theorem Solved.extends {ps : List Handle} {scopes : List Scope} {m m' : LivePoints} {place : Place}
    {set : HandleSet} (h : Solved m place set) (hm : m.Sound) (hext : Extends ps scopes m m')
    (hps : ∀ p ∈ ps, p < m.store.firstMinted) (hbinding : ∀ v, place = .binding v → v ∉ ps)
    (hexit : ∀ scope, place = .exit scope → scope ∉ scopes) : Solved m' place set := by
  cases h with
  | binding hlive =>
    exact .binding ((hext.live (hbinding _ rfl) (hm.point_lt hlive)).trans hlive)
  | exit hlookup hle hlive =>
    refine .exit ((hext.exits (hexit _ rfl)).trans hlookup) (hext.store.firstMinted_eq ▸ hle) ?_
    exact (hext.live (fun hmem => Nat.not_lt.2 hle (hps _ hmem)) (hm.point_lt hlive)).trans hlive

/-- The places of a sequence: its bindings, and the exits of its branches and of itself. -/
theorem place_of_mem_liveEntries {ids : Handle → HandleSet} {e : Expr} (he : e.Flat) :
    ∀ {scope : Scope} {incoming set : HandleSet} {place : Place},
      (place, set) ∈ liveEntries ids scope incoming e →
        (∃ v ∈ e.allBindings.map (·.1), place = .binding v) ∨ place = .exit scope ∨
          ∃ sc ∈ Scope.branches (e.allBindings.map (·.1)), place = .exit sc := by
  induction he with
  | result r =>
    intro scope incoming set place h
    obtain ⟨rfl, rfl⟩ := Prod.mk.inj (List.mem_singleton.1 h)
    exact Or.inr (Or.inl rfl)
  | @bind v value body hsimple _ ih =>
    intro scope incoming set place h
    rw [hsimple.allBindings_letIn, List.map_cons]
    rw [liveEntries, Simple.liveInside_eq hsimple, List.nil_append] at h
    rcases List.mem_cons.1 h with h | h
    · exact Or.inl ⟨v, List.mem_cons_self, (Prod.mk.inj h).1⟩
    · rcases ih h with ⟨w, hw, hplace⟩ | hplace | ⟨sc, hsc, hplace⟩
      · exact Or.inl ⟨w, List.mem_cons_of_mem _ hw, hplace⟩
      · exact Or.inr (Or.inl hplace)
      · exact Or.inr (Or.inr ⟨sc, List.mem_append_right _ hsc, hplace⟩)
  | @cond v c thenBranch elseBranch body ty _ _ _ iht ihe ihb =>
    intro scope incoming set place h
    rw [Expr.allBindings_cond, List.map_append, List.map_append, List.map_cons]
    rw [liveEntries, liveInside] at h
    simp only [List.mem_cons, List.mem_append, Scope.mem_branches] at h iht ihe ihb ⊢
    rcases h with h | (h | h) | h
    · exact Or.inl ⟨v, Or.inr (Or.inl rfl), (Prod.mk.inj h).1⟩
    · rcases iht h with ⟨w, hw, hplace⟩ | hplace | ⟨sc, ⟨w, hw, hsc⟩, hplace⟩
      · exact Or.inl ⟨w, Or.inl (Or.inl hw), hplace⟩
      · exact Or.inr (Or.inr ⟨_, ⟨v, Or.inr (Or.inl rfl), rfl⟩, hplace⟩)
      · exact Or.inr (Or.inr ⟨sc, ⟨w, Or.inl (Or.inl hw), hsc⟩, hplace⟩)
    · rcases ihe h with ⟨w, hw, hplace⟩ | hplace | ⟨sc, ⟨w, hw, hsc⟩, hplace⟩
      · exact Or.inl ⟨w, Or.inl (Or.inr hw), hplace⟩
      · exact Or.inr (Or.inr ⟨_, ⟨v, Or.inr (Or.inl rfl), rfl⟩, hplace⟩)
      · exact Or.inr (Or.inr ⟨sc, ⟨w, Or.inl (Or.inr hw), hsc⟩, hplace⟩)
    · rcases ihb h with ⟨w, hw, hplace⟩ | hplace | ⟨sc, ⟨w, hw, hsc⟩, hplace⟩
      · exact Or.inl ⟨w, Or.inr (Or.inr hw), hplace⟩
      · exact Or.inr (Or.inl hplace)
      · exact Or.inr (Or.inr ⟨sc, ⟨w, Or.inr (Or.inr hw), hsc⟩, hplace⟩)

/-- A sequence keeps its sets while places outside of it get theirs. -/
theorem solved_extends {ids : Handle → HandleSet} {e : Expr} (he : e.Flat) {ps : List Handle}
    {scopes : List Scope} {m m' : LivePoints} {scope : Scope} {incoming : HandleSet}
    (h : ∀ entry ∈ liveEntries ids scope incoming e, Solved m entry.1 entry.2) (hm : m.Sound)
    (hext : Extends ps scopes m m') (hps : ∀ p ∈ ps, p < m.store.firstMinted)
    (hbindings : ∀ v ∈ e.allBindings.map (·.1), v ∉ ps) (hscope : scope ∉ scopes)
    (hscopes : ∀ sc ∈ Scope.branches (e.allBindings.map (·.1)), sc ∉ scopes) :
    ∀ entry ∈ liveEntries ids scope incoming e, Solved m' entry.1 entry.2 := by
  intro entry hentry
  refine (h entry hentry).extends hm hext hps (fun v hplace => ?_) fun sc hplace => ?_
  · rcases place_of_mem_liveEntries he hentry with ⟨w, hw, heq⟩ | heq | ⟨_, _, heq⟩
    · exact Place.binding.inj (hplace.symm.trans heq) ▸ hbindings w hw
    · cases hplace.symm.trans heq
    · cases hplace.symm.trans heq
  · rcases place_of_mem_liveEntries he hentry with ⟨w, hw, heq⟩ | heq | ⟨sc', hsc', heq⟩
    · cases hplace.symm.trans heq
    · exact Place.exit.inj (hplace.symm.trans heq) ▸ hscope
    · exact Place.exit.inj (hplace.symm.trans heq) ▸ hscopes sc' hsc'

/-- What is live at a point of the walk: `set` is the entry of its binding, or a part of the entry
of an exit. -/
inductive Covers (entries : List (Place × HandleSet)) : Handle → HandleSet → Prop
  | binding {v : Handle} {set : HandleSet} : (.binding v, set) ∈ entries → Covers entries v set
  | exit {point : Handle} {scope : Scope} {set whole : HandleSet} : (.exit scope, whole) ∈ entries →
    (∀ e ∈ set, e ∈ whole) → Covers entries point set

theorem Covers.mono {entries entries' : List (Place × HandleSet)} {point : Handle}
    {set : HandleSet} (h : Covers entries point set)
    (hsub : ∀ entry ∈ entries, entry ∈ entries') : Covers entries' point set := by
  cases h with
  | binding hmem => exact .binding (hsub _ hmem)
  | exit hmem hset => exact .exit (hsub _ hmem) hset

/-- Every point of `m'` has the set that it has in `m`, or one that `entries` covers. -/
def CoversNew (entries : List (Place × HandleSet)) (m m' : LivePoints) : Prop :=
  ∀ (point : Handle) (set : HandleSet), m'.live[point]? = some set →
    m.live[point]? = some set ∨ Covers entries point set

namespace CoversNew

variable {entries entries' : List (Place × HandleSet)} {m m' m'' : LivePoints}

theorem refl (m : LivePoints) : CoversNew entries m m := fun _ _ => Or.inl

theorem mono (h : CoversNew entries m m') (hsub : ∀ entry ∈ entries, entry ∈ entries') :
    CoversNew entries' m m' := fun point set hset =>
  (h point set hset).imp_right fun h => h.mono hsub

theorem trans (h : CoversNew entries m m') (h' : CoversNew entries m' m'') :
    CoversNew entries m m'' := fun point set hset =>
  (h' point set hset).elim (h point set) Or.inr

theorem of_changesAt {changed : Handle} {set : HandleSet} (h : ChangesAt changed m m')
    (hlive : m'.live[changed]? = some set) (hcovers : Covers entries changed set) :
    CoversNew entries m m' := by
  intro point set' hset
  by_cases heq : point = changed
  · subst heq
    obtain rfl := Option.some.inj (hlive.symm.trans hset)
    exact Or.inr hcovers
  · exact Or.inl ((h point heq).symm.trans hset)

end CoversNew

/-- The exit of a sequence is one of its places. -/
theorem exit_mem_liveEntries {ids : Handle → HandleSet} {e : Expr} (he : e.Flat) (scope : Scope)
    (incoming : HandleSet) :
    (.exit scope, liveFirst ids incoming e.result) ∈ liveEntries ids scope incoming e := by
  induction he with
  | result r => exact List.mem_singleton.2 rfl
  | bind v _ _ ih => exact List.mem_cons_of_mem _ (List.mem_append_right _ ih)
  | cond v c ty _ _ _ _ _ ih => exact List.mem_cons_of_mem _ (List.mem_append_right _ ih)

/-! ### One binding -/

/-- In the store `s` everything that the sequence `e` mentions and binds is bound. -/
structure Walkable (s : Store) (e : Expr) : Prop where
  ascending : e.Ascending
  visible {u : Handle} : u ∈ e.occurrences → u ∈ s.sets
  bound {v : Handle} : v ∈ e.allBindings.map (·.1) → v ∈ s.sets
  lt_firstMinted {v : Handle} : v ∈ e.binders → v < s.firstMinted

theorem argumentVars_spec {v : Handle} : ∀ {args : List Expr} {us : List Handle},
    argumentVars v args = .ok us → us = Expr.occurrencesAll args := by
  intro args
  induction args with
  | nil =>
    intro us h
    exact (Except.ok.inj h).symm
  | cons arg args ih =>
    intro us h
    cases arg with
    | var u =>
      obtain ⟨us', hargs, h⟩ := bind_eq_ok.1 h
      rw [← Except.ok.inj h, ih hargs]
      rfl
    | const value => exact ih h
    | op name => cases h
    | call callee args ty => cases h
    | tuple fields => cases h
    | get source index => cases h
    | cond test thenBranch elseBranch ty => cases h
    | closure params body => cases h
    | letIn w value body => cases h

section Binding

variable {s : Store} {m m' : LivePoints} {v next : Handle}

/-- A point that uses what the variables `us` stand for, and defines its binder. -/
theorem recordUses_spec {used : Handle} {s' : Store} {us : List Handle} (hm : m.Sound)
    (hext : Store.Extends [] s m.store) (hv : v ∈ s.sets) (hs' : Store.Extends [] m.store s')
    (hus : ∀ u ∈ us, u ∈ s.sets) (hused : ∀ e, e ∈ s'.setOf used ↔ ∃ u ∈ us, e ∈ m.store.setOf u)
    (h : (m.withStore s').record v used (some v) next = .ok m') :
    ∃ after, m.live[next]? = some after ∧ Extends [v] [] m m' ∧
      m'.live[v]? = some (unionAll s.setOf us ∪ (after \ s.setOf v)) := by
  have hstore := extends_withStore hm hs'
  have hv' := hs'.mem (hext.mem hv)
  obtain ⟨after, hafter, _, hgrow, hlive⟩ := record_spec hstore.sound
    (by rintro d ⟨⟩; exact hv') (hs'.sound.lt_next hv') h
  refine ⟨after, hafter, hstore.trans hgrow, hlive.trans (congrArg some ?_)⟩
  have hsetOf : s'.setOf v = s.setOf v := (hs'.setOf_eq (hext.mem hv)).trans (hext.setOf_eq hv)
  refine Std.ExtTreeSet.ext_mem fun e => ?_
  rw [show behind (m.withStore s').store after (some v) = after \ s'.setOf v from rfl, hsetOf,
    Std.ExtTreeSet.mem_union_iff, Std.ExtTreeSet.mem_union_iff, mem_unionAll,
    show (m.withStore s').store = s' from rfl, hused]
  refine or_congr_left (exists_congr fun u => and_congr_right fun hu => ?_)
  rw [hext.setOf_eq (hus u hu)]

/-- **The point of a simple value.** -/
theorem walkSimple_spec {value : Expr} {first after : HandleSet} (hsimple : value.Simple)
    (hm : m.Sound) (hext : Store.Extends [] s m.store) (hv : v ∈ s.sets)
    (hocc : ∀ u ∈ value.occurrences, u ∈ s.sets) (hfirst : m.store.setOf next = first)
    (hafter : m.live[next]? = some after) (h : walkBackBinding m v next value = .ok m') :
    Extends [v] [] m m' ∧ m'.live[v]? = some (liveBinding s.setOf v first after value) := by
  have hv' := hext.mem hv
  -- the point uses `uses` and defines nothing
  have huse : ∀ {uses : Handle}, m.record v uses none next = .ok m' → Extends [v] [] m m' ∧
      m'.live[v]? = some (m.store.setOf uses ∪ after) := fun h => by
    obtain ⟨after', hafter', _, hgrow, hlive⟩ :=
      record_spec hm (by rintro d ⟨⟩) (hm.store.lt_next hv') h
    rw [hafter] at hafter'
    exact ⟨hgrow, Option.some.inj hafter' ▸ hlive⟩
  have hself : m.record v v none next = .ok m' → Extends [v] [] m m' ∧
      m'.live[v]? = some (s.setOf v ∪ after) := fun h => hext.setOf_eq hv ▸ huse h
  cases hsimple with
  | var u => exact hself h
  | const value => exact hself h
  | tuple hatoms => exact hself h
  | get u index => exact hself h
  | closure params body => exact hself h
  | op name => exact hfirst ▸ huse h
  | @call name args ty hatoms =>
    rw [walkBackBinding, Expr.isOp, if_pos rfl, recordCall, bind_eq_ok] at h
    obtain ⟨us, hargs, hcall⟩ := h
    obtain rfl := argumentVars_spec hargs
    obtain ⟨⟨used, s'⟩, hused, hrecord⟩ := bind_eq_ok.1 hcall
    obtain ⟨set, hmint, _, hmem⟩ := mints_freshUnionOf hm.store hused
    obtain ⟨after', hafter', hgrow, hlive⟩ := recordUses_spec hm hext hv hmint.grows hocc
      (by rw [hmint.setOf_eq]; exact hmem) hrecord
    rw [hafter] at hafter'
    exact ⟨hgrow, Option.some.inj hafter' ▸ hlive⟩

/-- **The point of a conditional** uses what occurs free in it. -/
theorem recordCond_spec {c : Handle} {thenBranch elseBranch : Expr} {ty : Ty} (hm : m.Sound)
    (hext : Store.Extends [] s m.store) (hv : v ∈ s.sets)
    (hthen : thenBranch.UniqueBinders) (helse : elseBranch.UniqueBinders)
    (hocc : ∀ u ∈ (Expr.cond (.var c) thenBranch elseBranch ty).occurrences, u ∈ s.sets)
    (h : m.recordCond v (.var c) thenBranch elseBranch next = .ok m') :
    ∃ after, m.live[next]? = some after ∧ Extends [v] [] m m' ∧ m'.live[v]? = some
      (unionAll s.setOf (Expr.cond (.var c) thenBranch elseBranch ty).occurrences ∪
        (after \ s.setOf v)) := by
  rw [recordCond] at h
  simp only [Expr.var?] at h
  obtain ⟨⟨freeThen, s₁⟩, h₁, h⟩ := bind_eq_ok.1 h
  obtain ⟨⟨freeElse, s₂⟩, h₂, h⟩ := bind_eq_ok.1 h
  obtain ⟨⟨used, s₃⟩, h₃, h⟩ := bind_eq_ok.1 h
  obtain ⟨set₁, hmint₁, hbound₁, hmem₁⟩ := mints_freshUnionOf hm.store h₁
  obtain ⟨set₂, hmint₂, hbound₂, hmem₂⟩ := mints_freshUnionOf hmint₁.grows.sound h₂
  obtain ⟨set₃, hmint₃, _, hmem₃⟩ := mints_freshUnionOf hmint₂.grows.sound h₃
  have hext₂ := hmint₁.grows.trans_minting hmint₂.grows
  have hc : c ∈ s.sets :=
    hocc c (List.mem_append_left _ (List.mem_append_left _ List.mem_cons_self))
  refine recordUses_spec hm hext hv (hext₂.trans_minting hmint₃.grows) hocc (fun e => ?_) h
  have hfreeThen : e ∈ s₂.setOf freeThen ↔ ∃ u ∈ thenBranch.occurrences, e ∈ m.store.setOf u := by
    rw [hmint₂.grows.setOf_eq hmint₁.mem, hmint₁.setOf_eq, hmem₁]
    simp only [Expr.mem_freeVars hthen]
  have hfreeElse : e ∈ s₂.setOf freeElse ↔ ∃ u ∈ elseBranch.occurrences, e ∈ m.store.setOf u := by
    rw [hmint₂.setOf_eq, hmem₂]
    simp only [Expr.mem_freeVars helse]
    refine exists_congr fun u => and_congr_right fun hu => ?_
    rw [hmint₁.grows.setOf_eq (hext.mem (hocc u (List.mem_append_right _ hu)))]
  have hcond : e ∈ s₂.setOf c ↔ e ∈ m.store.setOf c := by rw [hext₂.setOf_eq (hext.mem hc)]
  rw [hmint₃.setOf_eq, hmem₃]
  constructor
  · rintro ⟨u, hu, he⟩
    rcases List.mem_cons.1 hu with rfl | hu
    · obtain ⟨w, hw, he⟩ := hfreeThen.1 he
      exact ⟨w, List.mem_append_left _ (List.mem_append_right _ hw), he⟩
    · rcases List.mem_cons.1 hu with rfl | hu
      · obtain ⟨w, hw, he⟩ := hfreeElse.1 he
        exact ⟨w, List.mem_append_right _ hw, he⟩
      · obtain rfl := List.mem_singleton.1 hu
        exact ⟨u, List.mem_append_left _ (List.mem_append_left _ List.mem_cons_self), hcond.1 he⟩
  · rintro ⟨u, hu, he⟩
    rcases List.mem_append.1 hu with hu | hu
    · rcases List.mem_append.1 hu with hu | hu
      · obtain rfl := List.mem_singleton.1 hu
        exact ⟨u, List.mem_cons_of_mem _ (List.mem_cons_of_mem _ List.mem_cons_self), hcond.2 he⟩
      · exact ⟨freeThen, List.mem_cons_self, hfreeThen.2 ⟨u, hu, he⟩⟩
    · exact ⟨freeElse, List.mem_cons_of_mem _ List.mem_cons_self, hfreeElse.2 ⟨u, hu, he⟩⟩

end Binding

/-! ### Sequences -/

namespace Walkable

variable {s : Store} {v : Handle} {e value body : Expr}

theorem body_part (h : Walkable s (.letIn v value body)) : Walkable s body := by
  refine ⟨h.ascending.body, fun {u} hu => ?_, fun {u} hu => ?_, fun {u} hu => ?_⟩
  · by_cases hne : u = v
    · refine h.bound ?_
      rw [Expr.allBindings, List.map_append, List.map_cons, hne]
      exact List.mem_append_right _ List.mem_cons_self
    · exact h.visible
        (List.mem_append_right _ (List.mem_filter.2 ⟨hu, decide_eq_true hne⟩))
  · refine h.bound ?_
    rw [Expr.allBindings, List.map_append, List.map_cons]
    exact List.mem_append_right _ (List.mem_cons_of_mem _ hu)
  · exact h.lt_firstMinted (List.mem_append_right _ (List.mem_cons_of_mem _ hu))

theorem branch_part {inner : Scope} {taken : Expr} (h : Walkable s (.letIn v value body))
    (hbranch : BranchOf v value inner taken) : Walkable s taken := by
  refine ⟨hbranch.ascending h.ascending.value, fun {u} hu => ?_, fun {u} hu => ?_, fun {u} hu => ?_⟩
  · exact h.visible (List.mem_append_left _ (hbranch.occurrences hu))
  · obtain ⟨b, hb, rfl⟩ := List.mem_map.1 hu
    exact h.bound (List.mem_map_of_mem
      (Expr.mem_allBindings_of_inside (hbranch.branchBindings hb)))
  · exact h.lt_firstMinted (List.mem_append_left _ (hbranch.binders hu))

theorem binder_mem (h : Walkable s (.letIn v value body)) : v ∈ s.sets := by
  refine h.bound ?_
  rw [Expr.allBindings, List.map_append, List.map_cons]
  exact List.mem_append_right _ List.mem_cons_self

/-- A flat sequence results in a bound variable. -/
theorem exists_result (he : e.Flat) (h : Walkable s e) : ∃ r, e.result = .var r ∧ r ∈ s.sets := by
  induction he with
  | result r => exact ⟨r, rfl, h.visible List.mem_cons_self⟩
  | bind v _ _ ih => exact ih h.body_part
  | cond v c ty _ _ _ _ _ ih => exact ih h.body_part

/-- No variable is bound twice in a flat sequence. -/
theorem nodup (he : e.Flat) (h : Walkable s e) : (e.allBindings.map (·.1)).Nodup :=
  h.ascending.uniqueBinders.nodup.sublist he.map_fst_allBindings_sublist

theorem allBindings_lt (he : e.Flat) (h : Walkable s e) :
    ∀ v ∈ e.allBindings.map (·.1), v < s.firstMinted := fun _ hv =>
  h.lt_firstMinted (he.map_fst_allBindings_sublist.subset hv)

end Walkable

/-- The exit of a sequence is open and has this set. -/
structure ExitOpen (m : LivePoints) (scope : Scope) (exit : Handle) (set : HandleSet) : Prop where
  lookup_eq : m.exits.lookup scope = some exit
  minted : m.store.firstMinted ≤ exit
  setOf_eq : m.store.setOf exit = ∅
  live : m.live[exit]? = some set

/-- What the walk through a sequence leaves behind. -/
structure Walked (s : Store) (scope : Scope) (incoming : HandleSet) (e : Expr) (m m' : LivePoints)
    (first : Handle) : Prop where
  grows : Extends (e.allBindings.map (·.1)) (Scope.branches (e.allBindings.map (·.1))) m m'
  first_ids : m'.store.setOf first = firstIds s.setOf e
  first_live : m'.live[first]? = some (liveFirst s.setOf incoming e)
  first_mem : first ∈ e.allBindings.map (·.1) ∨ m'.store.firstMinted ≤ first
  solved : ∀ entry ∈ liveEntries s.setOf scope incoming e, Solved m' entry.1 entry.2
  covers : CoversNew (liveEntries s.setOf scope incoming e) m m'

/-- What the walk leaves behind at the binding of `v`, behind which `after` is live. -/
structure WalkedBinding (s : Store) (v : Handle) (first after : HandleSet) (value : Expr)
    (m m' : LivePoints) : Prop where
  grows : Extends (v :: value.branchBindings.map (·.1))
    (Scope.branches (v :: value.branchBindings.map (·.1))) m m'
  live : m'.live[v]? = some (liveBinding s.setOf v first after value)
  solved : ∀ entry ∈ liveInside s.setOf v after value, Solved m' entry.1 entry.2
  covers : CoversNew ((.binding v, liveBinding s.setOf v first after value) ::
    liveInside s.setOf v after value) m m'

/-- A binding before a sequence. -/
theorem WalkedBinding.walked {s : Store} {m m₁ m' : LivePoints} {scope : Scope}
    {incoming : HandleSet} {v first : Handle} {value body : Expr} (hbody : body.Flat)
    (hwalk : Walkable s (.letIn v value body))
    (hnodup : ((Expr.letIn v value body).allBindings.map (·.1)).Nodup)
    (hinside : ∀ u ∈ value.branchBindings.map (·.1), u < s.firstMinted)
    (hscope : scope ∉ Scope.branches ((Expr.letIn v value body).allBindings.map (·.1)))
    (hext : Store.Extends [] s m.store) (hrest : Walked s scope incoming body m m₁ first)
    (h : WalkedBinding s v (firstIds s.setOf body) (liveFirst s.setOf incoming body) value m₁ m') :
    Walked s scope incoming (.letIn v value body) m m' v := by
  rw [Expr.allBindings, List.map_append, List.map_cons] at hnodup hscope
  have hs' := (hext.trans hrest.grows.store).trans h.grows.store
  have hmem : ∀ {u}, u ∈ v :: value.branchBindings.map (·.1) →
      u ∈ value.branchBindings.map (·.1) ++ v :: body.allBindings.map (·.1) := by
    intro u hu
    rcases List.mem_cons.1 hu with rfl | hu
    · exact List.mem_append_right _ List.mem_cons_self
    · exact List.mem_append_left _ hu
  have hdisjoint : ∀ u ∈ body.allBindings.map (·.1), u ∉ v :: value.branchBindings.map (·.1) := by
    intro u hu hmem
    obtain ⟨_, htail, hcross⟩ := List.nodup_append.1 hnodup
    rcases List.mem_cons.1 hmem with rfl | hmem
    · exact (List.nodup_cons.1 htail).1 hu
    · exact hcross u hmem u (List.mem_cons_of_mem _ hu) rfl
  refine ⟨?_, ?_, h.live, ?_, fun entry hentry => ?_, ?_⟩
  · rw [Expr.allBindings, List.map_append, List.map_cons]
    refine (hrest.grows.trans h.grows).mono (fun u hu => Or.inl ?_) fun sc hsc => ?_
    · rcases List.mem_append.1 hu with hu | hu
      · exact List.mem_append_right _ (List.mem_cons_of_mem _ hu)
      · exact hmem hu
    · rcases List.mem_append.1 hsc with hsc | hsc
      · exact Scope.branches_mono
          (fun u hu => List.mem_append_right _ (List.mem_cons_of_mem _ hu)) sc hsc
      · exact Scope.branches_mono (fun u hu => hmem hu) sc hsc
  · exact hs'.setOf_eq hwalk.binder_mem
  · rw [Expr.allBindings, List.map_append, List.map_cons]
    exact Or.inl (List.mem_append_right _ List.mem_cons_self)
  · rw [liveEntries] at hentry
    rcases List.mem_cons.1 hentry with rfl | hentry
    · exact .binding h.live
    · rcases List.mem_append.1 hentry with hentry | hentry
      · exact h.solved entry hentry
      · refine solved_extends hbody hrest.solved hrest.grows.sound h.grows (fun u hu => ?_)
          hdisjoint (fun hmem' => hscope (Scope.branches_mono (fun u hu => hmem hu) _ hmem'))
          (fun sc hsc => Scope.branches_disjoint hdisjoint hsc) entry hentry
        rw [hrest.grows.store.firstMinted_eq, hext.firstMinted_eq]
        rcases List.mem_cons.1 hu with rfl | hu
        · exact hwalk.lt_firstMinted (List.mem_append_right _ List.mem_cons_self)
        · exact hinside u hu
  · rw [liveEntries]
    refine (hrest.covers.mono fun entry hentry => ?_).trans (h.covers.mono fun entry hentry => ?_)
    · exact List.mem_cons_of_mem _ (List.mem_append_right _ hentry)
    · exact List.cons_subset_cons _ (List.subset_append_left _ _) hentry

/-- A simple value has no branches to go through. -/
theorem walkedBinding_simple {s : Store} {m m' : LivePoints} {v next : Handle} {value : Expr}
    {first after : HandleSet} (hsimple : value.Simple) (hm : m.Sound)
    (hext : Store.Extends [] s m.store) (hv : v ∈ s.sets)
    (hocc : ∀ u ∈ value.occurrences, u ∈ s.sets) (hfirst : m.store.setOf next = first)
    (hafter : m.live[next]? = some after) (h : walkBackBinding m v next value = .ok m') :
    WalkedBinding s v first after value m m' := by
  obtain ⟨hgrow, hlive⟩ := walkSimple_spec hsimple hm hext hv hocc hfirst hafter h
  refine ⟨?_, hlive, fun entry hentry => ?_,
    .of_changesAt (walkSimple_changesAt hsimple h) hlive (.binding List.mem_cons_self)⟩
  · rw [hsimple.branchBindings_eq]
    exact hgrow.mono (fun p hp => Or.inl hp) fun sc hsc => absurd hsc List.not_mem_nil
  · rw [Simple.liveInside_eq hsimple] at hentry
    exact absurd hentry List.not_mem_nil

/-- The end of a branch: the point behind it and its exit. -/
theorem openBranchExit_spec {s : Store} {m m₁ m₂ : LivePoints} {scope : Scope}
    {v next branchNext exit : Handle} {e : Expr} {after : HandleSet} (he : e.Flat)
    (hwalk : Walkable s e) (hm : m.Sound) (hext : Store.Extends [] s m.store) (hv : v ∈ s.sets)
    (hafter : m.live[next]? = some after)
    (hbranch : m.openBranch v next = .ok (branchNext, m₁))
    (hexit : m₁.openExit scope e.result branchNext = .ok (exit, m₂)) :
    Extends [] [scope] m m₂ ∧
      ExitOpen m₂ scope exit (liveFirst s.setOf (after \ s.setOf v) e.result) ∧
      CoversNew (liveEntries s.setOf scope (after \ s.setOf v) e) m m₂ := by
  obtain ⟨r, hr, hmem⟩ := hwalk.exists_result he
  obtain ⟨after', hafter', hgrow, hlive⟩ := openBranch_spec hm (hext.mem hv) hbranch
  have hext₁ := hext.trans_minting hgrow.store
  obtain ⟨behind, hbehind, hgrow₂, hle, hlookup, _, hempty, hset⟩ :=
    openExit_spec hgrow.sound hr (hext₁.mem hmem) hexit
  rw [hafter] at hafter'
  obtain rfl := Option.some.inj hafter'
  rw [hext.setOf_eq hv] at hlive
  rw [hlive] at hbehind
  obtain rfl := Option.some.inj hbehind
  have hexitMem := @exit_mem_liveEntries s.setOf _ he scope (after \ s.setOf v)
  have hset' : m₂.live[exit]? = some (liveFirst s.setOf (after \ s.setOf v) e.result) := by
    rw [hset, hext₁.setOf_eq hmem, hr]
    rfl
  refine ⟨hgrow.trans hgrow₂, ⟨hlookup, ?_, hempty, hset'⟩, ?_⟩
  · rw [hgrow₂.store.firstMinted_eq]
    exact Nat.le_trans hgrow.sound.store.firstMinted_le hle
  · -- what is live behind a branch is live at its exit
    refine CoversNew.trans (.of_changesAt (openBranch_changesAt hbranch) hlive
      (.exit hexitMem fun x hx => ?_)) (.of_changesAt (openExit_changesAt hexit) hset'
        (.exit hexitMem fun _ hx => hx))
    rw [hr]
    exact Std.ExtTreeSet.mem_union_iff.2 (Or.inr hx)

/-- **A conditional before its branches.** -/
theorem walkedBinding_cond {s : Store} {m m₁ m₂ m₃ m₄ m' : LivePoints}
    {v thenFirst elseFirst : Handle} {test thenBranch elseBranch body : Expr} {ty : Ty}
    {first after : HandleSet} (hthen : thenBranch.Flat) (helse : elseBranch.Flat)
    (hwalk : Walkable s (.letIn v (.cond test thenBranch elseBranch ty) body))
    (hext : Store.Extends [] s m.store) (hcond : Extends [v] [] m m₁)
    (hlive : m₁.live[v]? =
      some (liveBinding s.setOf v first after (.cond test thenBranch elseBranch ty)))
    (hcondAt : ChangesAt v m m₁) (hthenOpen : Extends [] [.thenOf v] m₁ m₂)
    (hthenCovers : CoversNew (liveEntries s.setOf (.thenOf v) (after \ s.setOf v) thenBranch) m₁ m₂)
    (hthenWalk : Walked s (.thenOf v) (after \ s.setOf v) thenBranch m₂ m₃ thenFirst)
    (helseOpen : Extends [] [.elseOf v] m₃ m₄)
    (helseCovers : CoversNew (liveEntries s.setOf (.elseOf v) (after \ s.setOf v) elseBranch) m₃ m₄)
    (helseWalk : Walked s (.elseOf v) (after \ s.setOf v) elseBranch m₄ m' elseFirst) :
    WalkedBinding s v first after (.cond test thenBranch elseBranch ty) m m' := by
  have hasc := hwalk.ascending
  have hthenOf := BranchOf.thenBranch (v := v) test thenBranch elseBranch ty
  have helseOf := BranchOf.elseBranch (v := v) test thenBranch elseBranch ty
  have hthens := hthenOf.lt hthen hasc
  have helses := helseOf.lt helse hasc
  have hcross : ∀ u ∈ thenBranch.allBindings.map (·.1),
      u ∉ elseBranch.allBindings.map (·.1) := fun u hu hmem =>
    Nat.lt_irrefl u (hasc.value.lt_of_mem_branches (hthen.map_fst_allBindings_sublist.subset hu)
      (helse.map_fst_allBindings_sublist.subset hmem))
  have hbranch : (Expr.cond test thenBranch elseBranch ty).branchBindings.map (·.1) =
      thenBranch.allBindings.map (·.1) ++ elseBranch.allBindings.map (·.1) := by
    rw [Expr.branchBindings, List.map_append]
  have helseAll := helseOpen.trans helseWalk.grows
  have hinside := (hthenOpen.trans hthenWalk.grows).trans helseAll
  have hall := hcond.trans hinside
  have hfirst : m₃.store.firstMinted = s.firstMinted := by
    rw [hthenWalk.grows.store.firstMinted_eq, hthenOpen.store.firstMinted_eq,
      hcond.store.firstMinted_eq, hext.firstMinted_eq]
  refine ⟨?_, ?_, fun entry hentry => ?_, ?_⟩
  · rw [hbranch]
    refine hall.mono (fun u hu => Or.inl ?_) fun sc hsc => ?_
    · simpa using hu
    · simp only [List.mem_append, List.mem_cons, List.not_mem_nil, or_false, false_or] at hsc
      rcases hsc with (rfl | hsc) | rfl | hsc
      · exact Scope.mem_branches.2 ⟨v, List.mem_cons_self, rfl⟩
      · exact Scope.branches_mono
          (fun u hu => List.mem_cons_of_mem _ (List.mem_append_left _ hu)) sc hsc
      · exact Scope.mem_branches.2 ⟨v, List.mem_cons_self, rfl⟩
      · exact Scope.branches_mono
          (fun u hu => List.mem_cons_of_mem _ (List.mem_append_right _ hu)) sc hsc
  · have hlt : v < m₁.store.supply.next := hcond.sound.point_lt hlive
    refine (hinside.live (fun hmem => ?_) hlt).trans hlive
    simp only [List.mem_append, List.not_mem_nil, false_or] at hmem
    rcases hmem with hmem | hmem
    · exact Nat.lt_irrefl v (hthens v hmem)
    · exact Nat.lt_irrefl v (helses v hmem)
  · rw [liveInside] at hentry
    rcases List.mem_append.1 hentry with hentry | hentry
    · -- the places of the first branch are none of those of the second
      refine solved_extends hthen hthenWalk.solved hthenWalk.grows.sound helseAll (fun u hu => ?_)
        (fun u hu => ?_) (fun hmem => ?_) (fun sc hsc hmem => ?_) entry hentry
      · rw [hfirst]
        exact (hwalk.branch_part helseOf).allBindings_lt helse u hu
      · exact hcross u hu
      · rcases List.mem_cons.1 hmem with heq | hmem
        · cases heq
        · exact hthenOf.not_mem_branches helses hmem
      · rcases List.mem_cons.1 hmem with rfl | hmem
        · exact helseOf.not_mem_branches hthens hsc
        · exact Scope.branches_disjoint hcross hsc hmem
    · exact helseWalk.solved entry hentry
  · refine CoversNew.trans (.of_changesAt hcondAt hlive (.binding List.mem_cons_self)) ?_
    refine ((hthenCovers.trans hthenWalk.covers).mono fun entry hentry => ?_).trans
      ((helseCovers.trans helseWalk.covers).mono fun entry hentry => ?_)
    · exact List.mem_cons_of_mem _ (List.mem_append_left _ hentry)
    · exact List.mem_cons_of_mem _ (List.mem_append_right _ hentry)

/-- **The walk through a flat sequence solves its equations.** -/
theorem walkBack_spec {s : Store} {e : Expr} (he : e.Flat) : ∀ {scope : Scope}
    {incoming : HandleSet} {m m' : LivePoints} {exit first : Handle}, Walkable s e → m.Sound →
      Store.Extends [] s m.store → scope ∉ Scope.branches (e.allBindings.map (·.1)) →
        ExitOpen m scope exit (liveFirst s.setOf incoming e.result) →
          walkBack m exit e = .ok (first, m') → Walked s scope incoming e m m' first := by
  induction he with
  | result r =>
    intro scope incoming m m' exit first hwalk hm hext _ hopen h
    obtain ⟨rfl, rfl⟩ := Prod.mk.inj (Except.ok.inj h)
    refine ⟨.refl hm, hopen.setOf_eq, hopen.live, Or.inr hopen.minted, fun entry hentry => ?_,
      .refl m⟩
    obtain rfl := List.mem_singleton.1 hentry
    exact .exit hopen.lookup_eq hopen.minted hopen.live
  | @bind v value body hsimple hbody ih =>
    intro scope incoming m m' exit first hwalk hm hext hscope hopen h
    obtain ⟨⟨next, m₁⟩, hrest, h⟩ := bind_eq_ok.1 h
    obtain ⟨m₂, hbind, h⟩ := bind_eq_ok.1 h
    obtain ⟨rfl, rfl⟩ := Prod.mk.inj (Except.ok.inj h)
    have hrest := ih hwalk.body_part hm hext (fun hmem => hscope ?_) hopen hrest
    · have hbinding := walkedBinding_simple hsimple hrest.grows.sound
        (hext.trans hrest.grows.store) hwalk.binder_mem
        (fun u hu => hwalk.visible (List.mem_append_left _ hu)) hrest.first_ids hrest.first_live
        hbind
      refine hbinding.walked hbody hwalk (hwalk.nodup (.bind v hsimple hbody)) (fun u hu => ?_)
        hscope hext hrest
      rw [hsimple.branchBindings_eq] at hu
      exact absurd hu List.not_mem_nil
    · rw [hsimple.allBindings_letIn]
      exact List.mem_append_right _ hmem
  | @cond v c thenBranch elseBranch body ty hthen helse hbody iht ihe ihb =>
    intro scope incoming m m' exit first hwalk hm hext hscope hopen h
    obtain ⟨⟨next, m₁⟩, hrest, h⟩ := bind_eq_ok.1 h
    obtain ⟨m₈, hbind, h⟩ := bind_eq_ok.1 h
    obtain ⟨rfl, rfl⟩ := Prod.mk.inj (Except.ok.inj h)
    obtain ⟨m₂, hcond, hbind⟩ := bind_eq_ok.1 hbind
    obtain ⟨⟨thenNext, m₃⟩, hthenNext, hbind⟩ := bind_eq_ok.1 hbind
    obtain ⟨⟨thenExit, m₄⟩, hthenExit, hbind⟩ := bind_eq_ok.1 hbind
    obtain ⟨⟨thenFirst, m₅⟩, hthenWalk, hbind⟩ := bind_eq_ok.1 hbind
    obtain ⟨⟨elseNext, m₆⟩, helseNext, hbind⟩ := bind_eq_ok.1 hbind
    obtain ⟨⟨elseExit, m₇⟩, helseExit, hbind⟩ := bind_eq_ok.1 hbind
    obtain ⟨⟨elseFirst, m₈'⟩, helseWalk, hbind⟩ := bind_eq_ok.1 hbind
    obtain rfl := Except.ok.inj hbind
    have hasc := hwalk.ascending
    have hv := hwalk.binder_mem
    have hthenOf := BranchOf.thenBranch (v := v) (.var c) thenBranch elseBranch ty
    have helseOf := BranchOf.elseBranch (v := v) (.var c) thenBranch elseBranch ty
    have hthens := hthenOf.lt hthen hasc
    have helses := helseOf.lt helse hasc
    have hthenPart := hwalk.branch_part hthenOf
    have helsePart := hwalk.branch_part helseOf
    have hrest := ihb hwalk.body_part hm hext (fun hmem => hscope ?_) hopen hrest
    · have hext₁ := hext.trans_minting hrest.grows.store
      have hnext : v < next := by
        rcases hrest.first_mem with hmem | hle
        · exact hasc.lt_of_mem_body (hbody.map_fst_allBindings_sublist.subset hmem)
        · rw [hext₁.firstMinted_eq] at hle
          exact Nat.lt_of_lt_of_le
            (hwalk.lt_firstMinted (List.mem_append_right _ List.mem_cons_self)) hle
      obtain ⟨after, hafter, hgrow₂, hlive⟩ := recordCond_spec hrest.grows.sound hext₁ hv
        hasc.value.thenBranch.uniqueBinders hasc.value.elseBranch.uniqueBinders
        (fun u hu => hwalk.visible (List.mem_append_left _ hu)) hcond
      obtain rfl := Option.some.inj (hafter.symm.trans hrest.first_live)
      have hext₂ := hext₁.trans_minting hgrow₂.store
      have hafter₂ : m₂.live[next]? = some (liveFirst s.setOf incoming body) :=
        (hgrow₂.live (fun hmem => Nat.ne_of_gt hnext (List.mem_singleton.1 hmem))
          (hrest.grows.sound.point_lt hafter)).trans hafter
      obtain ⟨hthenOpen, hthenSet, hthenCovers⟩ := openBranchExit_spec hthen hthenPart
        hgrow₂.sound hext₂ hv hafter₂ hthenNext hthenExit
      have hext₄ := hext₂.trans_minting hthenOpen.store
      have hthenWalked := iht hthenPart hthenOpen.sound hext₄
        (hthenOf.not_mem_branches hthens) hthenSet hthenWalk
      have hext₅ := hext₄.trans_minting hthenWalked.grows.store
      have hafter₅ : m₅.live[next]? = some (liveFirst s.setOf incoming body) :=
        ((hthenOpen.trans hthenWalked.grows).live
          (fun hmem => Nat.lt_asymm hnext (hthens next hmem))
          (hgrow₂.sound.point_lt hafter₂)).trans hafter₂
      obtain ⟨helseOpen, helseSet, helseCovers⟩ := openBranchExit_spec helse helsePart
        hthenWalked.grows.sound hext₅ hv hafter₅ helseNext helseExit
      have helseWalked := ihe helsePart helseOpen.sound (hext₅.trans_minting helseOpen.store)
        (helseOf.not_mem_branches helses) helseSet helseWalk
      have hbinding : WalkedBinding s v (firstIds s.setOf body) (liveFirst s.setOf incoming body)
          (.cond (.var c) thenBranch elseBranch ty) m₁ m₈' :=
        walkedBinding_cond hthen helse hwalk hext₁ hgrow₂ hlive (recordCond_changesAt hcond)
          hthenOpen hthenCovers hthenWalked helseOpen helseCovers helseWalked
      refine hbinding.walked hbody hwalk (hwalk.nodup (.cond v c ty hthen helse hbody))
        (fun u hu => ?_) hscope hext hrest
      refine Nat.lt_trans ?_ (hwalk.lt_firstMinted (List.mem_append_right _ List.mem_cons_self))
      rw [Expr.branchBindings, List.map_append] at hu
      exact (List.mem_append.1 hu).elim (hthens u) (helses u)
    · rw [Expr.allBindings_cond, List.map_append, List.map_cons]
      exact Scope.branches_mono
        (fun u hu => List.mem_append_right _ (List.mem_cons_of_mem _ hu)) _ hmem

end LivePoints

/-- **The live sets of a function body solve its equations,** and there are no others. -/
theorem livePoints_spec {s : Store} {body : Expr} {m : LivePoints} (hflat : body.Flat)
    (hwalk : LivePoints.Walkable s body) (hs : s.Sound) (h : livePoints s body = .ok m) :
    Store.Extends [] s m.store ∧ m.Sound ∧
      (∀ entry ∈ liveEntries s.setOf .body ∅ body, m.Solved entry.1 entry.2) ∧
      ∀ (point : Handle) (set : HandleSet), m.live[point]? = some set →
        LivePoints.Covers (liveEntries s.setOf .body ∅ body) point set := by
  unfold livePoints at h
  have hmint := mints_freshEmpty hs "exit.seed"
  generalize s.freshEmpty "exit.seed" = minted at hmint h
  obtain ⟨seed, s₁⟩ := minted
  dsimp only at hmint h
  obtain ⟨⟨exit, m₂⟩, hexit, h⟩ := bind_eq_ok.1 h
  obtain ⟨⟨first, m₃⟩, hwalked, h⟩ := bind_eq_ok.1 h
  obtain rfl := Except.ok.inj h
  have hempty : (⟨s₁, ∅, []⟩ : LivePoints).Sound :=
    ⟨hmint.grows.sound, fun h => by simp at h, fun h => by simp at h⟩
  have hseed := LivePoints.extends_setLive hempty (.refl hmint.grows.sound)
    (hmint.grows.sound.lt_next hmint.mem) fun e he => absurd he Std.ExtTreeSet.not_mem_empty
  obtain ⟨r, hr, hmem⟩ := hwalk.exists_result hflat
  obtain ⟨after, hafter, hopen, hle, hlookup, _, hset, hlive⟩ :=
    LivePoints.openExit_spec hseed.sound hr (hmint.grows.mem hmem) hexit
  have hafter' : after = ∅ := by
    rw [LivePoints.getElem?_setLive, if_pos rfl] at hafter
    exact (Option.some.inj hafter).symm
  have hext := hmint.grows.trans_minting hopen.store
  have hset' : LivePoints.ExitOpen m₂ .body exit (liveFirst s.setOf ∅ body.result) := by
    refine ⟨hlookup, ?_, hset, hlive.trans ?_⟩
    · rw [hopen.store.firstMinted_eq]
      exact Nat.le_trans hmint.grows.sound.firstMinted_le hle
    · rw [hafter', hr]
      exact congrArg (fun set => some (set ∪ ∅)) (hmint.grows.setOf_eq hmem)
  have hbody := LivePoints.walkBack_spec hflat hwalk hopen.sound hext (fun hbranch => by
    obtain ⟨_, _, howner⟩ := Scope.mem_branches.1 hbranch
    cases howner) hset' hwalked
  refine ⟨hext.trans_minting hbody.grows.store, hbody.grows.sound, hbody.solved,
    fun point set hpoint => ?_⟩
  have hexitMem := @LivePoints.exit_mem_liveEntries s.setOf _ hflat .body ∅
  have hstart : LivePoints.CoversNew (liveEntries s.setOf .body ∅ body) ⟨s₁, ∅, []⟩ m₃ := by
    refine LivePoints.CoversNew.trans (.of_changesAt (LivePoints.changesAt_setLive _ seed ∅)
      ((LivePoints.getElem?_setLive _ seed seed ∅).trans (if_pos rfl)) (.exit hexitMem ?_))
      (LivePoints.CoversNew.trans (.of_changesAt (LivePoints.openExit_changesAt hexit) hset'.live
        (.exit hexitMem fun _ hx => hx)) hbody.covers)
    exact fun x hx => absurd hx Std.ExtTreeSet.not_mem_empty
  exact (hstart point set hpoint).resolve_left fun h => by simp at h

end Analysis
end TensorLiveness
