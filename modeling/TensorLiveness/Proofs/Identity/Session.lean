/-
# Sessions with one store

A store is worked on in place: what an operation has done by the time it gives up would stay done.
`InPlace` computations show this, since a fault of theirs comes with the session that it leaves, and
a session has the handles minted so far as well, in the order of minting.  Whatever is done, an
operation in place is the operation of `Store`, and one that gives up has done nothing
(`perform_eq`).

| statement | about |
| --- | --- |
| `mint_run`, `union_run`, `value_run` | operations in place |
| `perform_eq` | one operation |
| `Numbered.after` | what one operation keeps |
| `Numbered.run` | any number of operations |
| `appendOnly_run` | a session from its start to its end |
-/

import TensorLiveness.Proofs.Identity.Numbering

namespace TensorLiveness
namespace Identity

open Program

/-- A store with the handles that it has minted, in order. -/
structure Session where
  store : Store
  minted : List Handle

/-- A computation that works on a session in place. -/
abbrev InPlace := EStateM Fault Session

namespace InPlace

/-- Mint a handle. -/
def mint (hint : String) (set : Handle → HandleSet) : InPlace Handle := do
  let x ← get
  let (v, store) := x.store.mint hint set
  modify fun x => ⟨store, x.minted ++ [v]⟩
  return v

/-- The set of a handle. -/
def identities (v : Handle) : InPlace HandleSet := do
  let x ← get
  match x.store.identities v with
  | .ok set => return set
  | .error fault => throw fault

/-- Record the fields of a tuple. -/
def recordFields (v : Handle) (fields : Fields) : InPlace Unit :=
  modify fun x => { x with store := x.store.recordFields v fields }

/-- Put the sets of tracked fields to `set`, one after the other. -/
def union (set : HandleSet) : Fields → InPlace HandleSet
  | [] => return set
  | none :: rest => union set rest
  | some v :: rest => do
    let more ← identities v
    union (set ∪ more) rest

/-- Mint the union of tracked fields. -/
def merge (fields : Fields) : InPlace Handle := do
  let set ← union ∅ fields
  mint "merge" fun _ => set

/-- Mint what `a` stands for and `b` does not. -/
def difference (a b : Handle) : InPlace Handle := do
  let removed ← identities b
  let set ← identities a
  mint "remove" fun _ => set \ removed

/-- Record for `v` what is recorded for `d`. -/
def copyFields (v d : Handle) : InPlace Unit := do
  let x ← get
  match x.store.fields? d with
  | some fields => recordFields v fields
  | none => return ()

/-- Let `v` stand for what `d` stands for, unless `v` is bound already. -/
def bindLike (v d : Handle) : InPlace Unit := do
  let x ← get
  if x.store.binds v then return ()
  else
    let set ← identities d
    modify fun x => { x with store := { x.store with sets := x.store.sets.insert v set } }
    copyFields v d

mutual

/-- Mint what a value of a type stands for. -/
def value (hint : String) : Ty → InPlace Handle
  | .tensor | .other _ => mint hint fun v => {v}
  | .func => mint hint fun _ => ∅
  | .tuple fields => do
    let vs ← values hint 0 fields
    let v ← merge (vs.map some)
    recordFields v (vs.map some)
    return v

/-- Mint the fields of a tuple from the field number `i` on. -/
def values (hint : String) (i : Nat) : List Ty → InPlace (List Handle)
  | [] => return []
  | ty :: tys => do
    let v ← value (hint ++ "." ++ toString i) ty
    let vs ← values hint (i + 1) tys
    return v :: vs

end

end InPlace

/-- Something that is asked of a store. -/
inductive Operation
  | freshLeaf (hint : String)
  | freshEmpty (hint : String)
  | freshSet (hint : String) (set : HandleSet)
  | freshValue (hint : String) (ty : Ty)
  | freshUnion (fields : Fields)
  | freshUnionOf (vs : List Handle)
  | freshDifference (a b : Handle)
  | bindLike (v d : Handle)
  | recordFields (v : Handle) (fields : Fields)
  | identities (v : Handle)

/-- What comes back. -/
inductive Answer
  | done
  | handle (v : Handle)
  | set (set : HandleSet)

namespace Operation

/-- An operation in place. -/
def perform : Operation → InPlace Answer
  | freshLeaf hint => .handle <$> InPlace.mint hint fun v => {v}
  | freshEmpty hint => .handle <$> InPlace.mint hint fun _ => ∅
  | freshSet hint set => .handle <$> InPlace.mint hint fun _ => set
  | freshValue hint ty => .handle <$> InPlace.value hint ty
  | freshUnion fields => .handle <$> InPlace.merge fields
  | freshUnionOf vs => .handle <$> InPlace.merge (vs.map some)
  | freshDifference a b => .handle <$> InPlace.difference a b
  | bindLike v d => (fun _ => .done) <$> InPlace.bindLike v d
  | recordFields v fields => (fun _ => .done) <$> InPlace.recordFields v fields
  | identities v => .set <$> InPlace.identities v

/-- The operation that `Store` has: an answer with the store behind it, or a fault. -/
def apply (s : Store) : Operation → Except Fault (Answer × Store)
  | freshLeaf hint => .ok ((s.freshLeaf hint).map .handle id)
  | freshEmpty hint => .ok ((s.freshEmpty hint).map .handle id)
  | freshSet hint set => .ok ((s.freshSet hint set).map .handle id)
  | freshValue hint ty => .ok ((s.freshValue hint ty).map .handle id)
  | freshUnion fields => (s.freshUnion fields).map (Prod.map .handle id)
  | freshUnionOf vs => (s.freshUnionOf vs).map (Prod.map .handle id)
  | freshDifference a b => (s.freshDifference a b).map (Prod.map .handle id)
  | bindLike v d => (s.bindLike v d).map fun t => (.done, t)
  | recordFields v fields => .ok (.done, s.recordFields v fields)
  | identities v => (s.identities v).map fun set => (.set set, s)

/-- The session that an operation leaves, whether it gives up or not. -/
def after (op : Operation) (x : Session) : Session :=
  match op.perform.run x with
  | .ok _ y => y
  | .error _ y => y

/-- Only handles of the program and minted ones may be bound. -/
def Admissible (programSize : Nat) (x : Session) : Operation → Prop
  | bindLike v _ => v < programSize ∨ v ∈ x.minted
  | _ => True

end Operation

namespace Session

/-- The session with nothing done yet, for a program of so many handles. -/
def start (programSize : Nat) : Session := ⟨.empty programSize, []⟩

/-- The session after some operations. -/
def run (x : Session) (ops : List Operation) : Session := ops.foldl (fun x op => op.after x) x

/-- Each operation is admissible when its turn comes. -/
def Admits (programSize : Nat) : Session → List Operation → Prop
  | _, [] => True
  | x, op :: ops => op.Admissible programSize x ∧ Admits programSize (op.after x) ops

/-- The session in which the store has become `t`. -/
def reach (x : Session) (t : Store) : Session :=
  ⟨t, x.minted ++ List.range' x.store.supply.next (t.supply.next - x.store.supply.next)⟩

/-- What an operation on the store comes to in place, when it does all or nothing. -/
def settle {α : Type} (x : Session) : Except Fault (α × Store) → EStateM.Result Fault Session α
  | .ok (a, t) => .ok a (x.reach t)
  | .error fault => .error fault x

variable {α β : Type} {x : Session} {t r : Store}

theorem reach_of_next_eq (h : t.supply.next = x.store.supply.next) :
    x.reach t = ⟨t, x.minted⟩ := by
  rw [reach, h, Nat.sub_self, List.range'_zero, List.append_nil]

theorem reach_self (x : Session) : x.reach x.store = x := reach_of_next_eq rfl

theorem reach_reach (h : x.store.supply.next ≤ t.supply.next)
    (h' : t.supply.next ≤ r.supply.next) : (x.reach t).reach r = x.reach r := by
  obtain ⟨k, hk⟩ := Nat.exists_eq_add_of_le h
  obtain ⟨l, hl⟩ := Nat.exists_eq_add_of_le h'
  have hl' : r.supply.next = x.store.supply.next + (k + l) := by rw [hl, hk, Nat.add_assoc]
  have hsub : r.supply.next - t.supply.next = l := by rw [hl, Nat.add_sub_cancel_left]
  rw [reach, reach, reach, hsub, hl', hk, Nat.add_sub_cancel_left, Nat.add_sub_cancel_left,
    List.append_assoc, List.range'_append_1]

/-! ### Operations in place -/

theorem mint_run (x : Session) (hint : String) (set : Handle → HandleSet) :
    (InPlace.mint hint set).run x = x.settle (.ok (x.store.mint hint set)) := by
  have hnext : (x.store.mint hint set).2.supply.next - x.store.supply.next = 1 :=
    Nat.add_sub_cancel_left x.store.supply.next 1
  rw [settle, reach, hnext]
  rfl

theorem identities_run (x : Session) (v : Handle) : (InPlace.identities v).run x =
    x.settle ((x.store.identities v).map fun set => (set, x.store)) := by
  rw [InPlace.identities, EStateM.run_bind, EStateM.run_get]
  dsimp only
  cases x.store.identities v with
  | ok set => exact congrArg _ (reach_self x).symm
  | error fault => rfl

theorem recordFields_run (x : Session) (v : Handle) (fields : Fields) :
    (InPlace.recordFields v fields).run x =
      x.settle (.ok ((), x.store.recordFields v fields)) := by
  have hreach : x.reach (x.store.recordFields v fields) =
      ⟨x.store.recordFields v fields, x.minted⟩ := reach_of_next_eq rfl
  rw [settle, hreach]
  rfl

theorem empty_union (set : HandleSet) : ∅ ∪ set = set := by
  refine Std.ExtTreeSet.ext_mem fun e => ?_
  rw [Std.ExtTreeSet.mem_union_iff]
  exact or_iff_right Std.ExtTreeSet.not_mem_empty

theorem union_empty (set : HandleSet) : set ∪ ∅ = set := by
  refine Std.ExtTreeSet.ext_mem fun e => ?_
  rw [Std.ExtTreeSet.mem_union_iff]
  exact or_iff_left Std.ExtTreeSet.not_mem_empty

theorem union_assoc (a b c : HandleSet) : a ∪ b ∪ c = a ∪ (b ∪ c) := by
  refine Std.ExtTreeSet.ext_mem fun e => ?_
  simp only [Std.ExtTreeSet.mem_union_iff, or_assoc]

/-- A union in place goes on from what it has. -/
theorem union_run (x : Session) : ∀ (fields : Fields) (set : HandleSet),
    (InPlace.union set fields).run x =
      x.settle ((x.store.union fields).map fun more => (set ∪ more, x.store)) := by
  intro fields
  induction fields with
  | nil =>
    intro set
    rw [Store.union, Except.map, settle, reach_self, union_empty]
    rfl
  | cons field rest ih =>
    intro set
    cases field with
    | none => exact ih set
    | some v =>
      rw [InPlace.union, EStateM.run_bind, identities_run, Store.union]
      cases x.store.identities v with
      | error fault => rfl
      | ok more =>
        show (InPlace.union (set ∪ more) rest).run (x.reach x.store) = _
        rw [reach_self, ih]
        cases x.store.union rest with
        | error fault => rfl
        | ok others =>
          exact congrArg (fun s => x.settle (.ok (s, x.store))) (union_assoc set more others)

theorem merge_run (x : Session) (fields : Fields) :
    (InPlace.merge fields).run x = x.settle (x.store.freshUnion fields) := by
  rw [InPlace.merge, EStateM.run_bind, union_run, Store.freshUnion]
  cases x.store.union fields with
  | error fault => rfl
  | ok set =>
    show (InPlace.mint "merge" fun _ => ∅ ∪ set).run (x.reach x.store) = _
    rw [reach_self, mint_run, empty_union]
    rfl

theorem difference_run (x : Session) (a b : Handle) :
    (InPlace.difference a b).run x = x.settle (x.store.freshDifference a b) := by
  rw [InPlace.difference, EStateM.run_bind, identities_run, Store.freshDifference]
  cases x.store.identities b with
  | error fault => rfl
  | ok removed =>
    show (InPlace.identities a >>= _).run (x.reach x.store) = _
    rw [reach_self, EStateM.run_bind, identities_run]
    cases x.store.identities a with
    | error fault => rfl
    | ok set =>
      show (InPlace.mint "remove" fun _ => set \ removed).run (x.reach x.store) = _
      rw [reach_self, mint_run]
      rfl

theorem copyFields_run (x : Session) (v d : Handle) : (InPlace.copyFields v d).run x =
    .ok () { x with store := { x.store with
      records := match x.store.records[d]? with
        | some fields => x.store.records.insert v fields
        | none => x.store.records } } := by
  rw [InPlace.copyFields, EStateM.run_bind, EStateM.run_get]
  dsimp only
  rw [Store.fields?]
  cases x.store.records[d]? <;> rfl

theorem bindLike_run (x : Session) (v d : Handle) :
    (InPlace.bindLike v d).run x = x.settle ((x.store.bindLike v d).map fun t => ((), t)) := by
  rw [InPlace.bindLike, EStateM.run_bind, EStateM.run_get, Store.bindLike]
  dsimp only
  by_cases hv : x.store.binds v = true
  · rw [if_pos hv, if_pos hv]
    exact congrArg _ (reach_self x).symm
  · rw [if_neg hv, if_neg hv, EStateM.run_bind, identities_run]
    cases x.store.identities d with
    | error fault => rfl
    | ok set =>
      have hreach : ∀ sets records, x.reach { x.store with sets := sets, records := records } =
          ⟨{ x.store with sets := sets, records := records }, x.minted⟩ :=
        fun _ _ => reach_of_next_eq rfl
      show EStateM.run (do
        modify fun x : Session =>
          { x with store := { x.store with sets := x.store.sets.insert v set } }
        InPlace.copyFields v d) (x.reach x.store) = EStateM.Result.ok () (x.reach _)
      rw [reach_self, EStateM.run_bind, EStateM.run_modify, hreach]
      exact copyFields_run _ v d

/-- Bound handles have a union. -/
theorem union_of_bound {s : Store} {vs : List Handle} (h : ∀ v ∈ vs, v ∈ s.sets) :
    s.union (vs.map some) = .ok (s.unionOfBound vs) := by
  induction vs with
  | nil => rfl
  | cons v vs ih =>
    obtain ⟨hv, hvs⟩ := List.forall_mem_cons.1 h
    have hset : s.identities v = .ok (s.setOf v) := Store.identities_eq_ok.2 ⟨hv, rfl⟩
    rw [List.map_cons, Store.union, hset, ih hvs]
    rfl

mutual

/-- **A value in place never gives up:** the fields of a tuple are bound by the time it is made. -/
theorem value_run : ∀ (ty : Ty) (x : Session) (hint : String),
    (InPlace.value hint ty).run x = x.settle (.ok (x.store.freshValue hint ty))
  | .tensor, x, hint | .other _, x, hint => mint_run x hint fun v => {v}
  | .func, x, hint => mint_run x hint fun _ => ∅
  | .tuple tys, x, hint => by
    have hbound := Store.mem_freshValues tys x.store hint 0
    have hlater := Store.mintsOnly_freshValues tys x.store hint 0
    rw [InPlace.value, EStateM.run_bind, values_run, Store.freshValue]
    generalize x.store.freshValues hint 0 tys = fields at hbound hlater ⊢
    obtain ⟨vs, t⟩ := fields
    dsimp only
    show (InPlace.merge (vs.map some) >>= _).run (x.reach t) = _
    have hunion : (x.reach t).store.freshUnion (vs.map some) =
        .ok (t.freshSet "merge" (t.unionOfBound vs)) := by
      rw [Store.freshUnion]
      exact congrArg (· >>= _) (union_of_bound hbound)
    rw [EStateM.run_bind, merge_run, hunion]
    have hmint : Store.MintsOnly t (t.freshSet "merge" (t.unionOfBound vs)).2 :=
      Store.mintsOnly_mint t "merge" fun _ => t.unionOfBound vs
    generalize t.freshSet "merge" (t.unionOfBound vs) = tuple at hmint ⊢
    obtain ⟨v, r⟩ := tuple
    show EStateM.Result.ok v
      (⟨r.recordFields v (vs.map some), ((x.reach t).reach r).minted⟩ : Session) = _
    rw [reach_reach hlater.next_le hmint.next_le]
    rfl

theorem values_run : ∀ (tys : List Ty) (x : Session) (hint : String) (i : Nat),
    (InPlace.values hint i tys).run x = x.settle (.ok (x.store.freshValues hint i tys))
  | [], x, hint, i => congrArg _ (reach_self x).symm
  | ty :: tys, x, hint, i => by
    have hvalue := Store.mintsOnly_freshValue ty x.store (hint ++ "." ++ toString i)
    have hvalues := Store.mintsOnly_freshValues tys
      (x.store.freshValue (hint ++ "." ++ toString i) ty).2 hint (i + 1)
    rw [InPlace.values, EStateM.run_bind, value_run, Store.freshValues]
    generalize x.store.freshValue (hint ++ "." ++ toString i) ty = field at hvalue hvalues ⊢
    obtain ⟨v, t⟩ := field
    show (InPlace.values hint (i + 1) tys >>= _).run (x.reach t) = _
    rw [EStateM.run_bind, values_run]
    exact congrArg _ (reach_reach hvalue.next_le hvalues.next_le)

end

theorem map_run {m : InPlace α} {e : Except Fault (α × Store)} {f : α → β}
    (h : m.run x = x.settle e) : (f <$> m).run x = x.settle (e.map (Prod.map f id)) := by
  rw [← bind_pure_comp, EStateM.run_bind, h]
  cases e <;> rfl

end Session

open Session

/-- **An operation in place is the operation of the store,** and one that gives up does nothing. -/
theorem Operation.perform_eq (op : Operation) (x : Session) :
    op.perform.run x = x.settle (op.apply x.store) := by
  cases op with
  | freshLeaf hint => exact map_run (mint_run x hint _)
  | freshEmpty hint => exact map_run (mint_run x hint _)
  | freshSet hint set => exact map_run (mint_run x hint _)
  | freshValue hint ty => exact map_run (value_run ty x hint)
  | freshUnion fields => exact map_run (merge_run x fields)
  | freshUnionOf vs => exact map_run (merge_run x (vs.map some))
  | freshDifference a b => exact map_run (difference_run x a b)
  | bindLike v d =>
    rw [perform, map_run (bindLike_run x v d), apply]
    cases x.store.bindLike v d <;> rfl
  | recordFields v fields => exact map_run (recordFields_run x v fields)
  | identities v =>
    rw [perform, map_run (identities_run x v), apply]
    cases x.store.identities v <;> rfl

/-- What an operation comes to on a store, if it comes to anything. -/
structure Operation.Applied (op : Operation) (s : Store) (a : Answer) (t : Store) : Prop where
  later : Store.Later s t
  only {v : Handle} : v ∈ t.sets → v ∈ s.sets ∨ v < t.supply.next ∨ ∃ d, op = .bindLike v d
  last {v : Handle} : a = .handle v → s.supply.next ≤ v ∧ t.supply.next = v + 1
  single {v : Handle} : a = .handle v → (∀ hint ty, op ≠ .freshValue hint ty) → v = s.supply.next

variable {op : Operation} {s t : Store} {a : Answer}

theorem Operation.Applied.of_mint (hint : String) (set : Handle → HandleSet) :
    op.Applied s (.handle (s.mint hint set).1) (s.mint hint set).2 := by
  have h := Store.mintsOnly_mint s hint set
  refine ⟨h.toLater, fun hv => (h.only hv).imp_right fun h => Or.inl h.2, fun hv => ?_,
    fun hv _ => ?_⟩
  · obtain rfl := Answer.handle.inj hv
    exact ⟨Nat.le_refl _, rfl⟩
  · exact (Answer.handle.inj hv).symm

/-- An operation that mints nothing, but may bind a handle. -/
theorem Operation.Applied.of_later (h : Store.Later s t) (ha : ∀ v, a ≠ .handle v)
    (honly : ∀ v ∈ t.sets, v ∈ s.sets ∨ ∃ d, op = .bindLike v d) : op.Applied s a t :=
  ⟨h, fun hv => (honly _ hv).imp_right Or.inr, fun hv => absurd hv (ha _),
    fun hv => absurd hv (ha _)⟩

theorem Operation.freshUnion_applied (op : Operation) (s : Store) (fields : Fields) :
    Ends ((s.freshUnion fields).map (Prod.map Answer.handle id))
      (fun p => op.Applied s p.1 p.2) s.Lacks := by
  refine (Store.freshUnion_mints s fields).map fun m hm => ?_
  obtain ⟨set, rfl⟩ := hm
  exact .of_mint "merge" fun _ => set

/-- **An operation mints and binds, or fails for a handle that is not bound.** -/
theorem Operation.apply_ends (op : Operation) (s : Store) :
    Ends (op.apply s) (fun p => op.Applied s p.1 p.2) s.Lacks := by
  cases op with
  | freshLeaf hint => exact .of_mint hint fun v => {v}
  | freshEmpty hint => exact .of_mint hint fun _ => ∅
  | freshSet hint set => exact .of_mint hint fun _ => set
  | freshValue hint ty =>
    have h := Store.mintsOnly_freshValue ty s hint
    refine ⟨h.toLater, fun hv => (h.only hv).imp_right fun h => Or.inl h.2, fun hv => ?_,
      fun _ hne => ?_⟩
    · obtain rfl := Answer.handle.inj hv
      exact Store.freshValue_last ty s hint
    · exact absurd rfl (hne hint ty)
  | freshUnion fields => exact freshUnion_applied _ s fields
  | freshUnionOf vs => exact freshUnion_applied _ s (vs.map some)
  | freshDifference a b =>
    refine (Store.freshDifference_mints s a b).map fun m hm => ?_
    obtain ⟨set, rfl⟩ := hm
    exact .of_mint "remove" fun _ => set
  | bindLike v d =>
    refine (Store.bindLike_binds s v d).map fun t ht => ?_
    rcases ht with rfl | ⟨hv, set, records, rfl⟩
    · exact .of_later (.refl t) (fun _ => nofun) fun u hu => Or.inl hu
    · refine .of_later (Store.later_insert hv set records) (fun _ => nofun) fun u hu => ?_
      rcases Std.ExtTreeMap.mem_insert.1 hu with heq | hu
      · exact Or.inr ⟨d, by rw [Std.LawfulEqOrd.compare_eq_iff_eq.1 heq]⟩
      · exact Or.inl hu
  | recordFields v fields =>
    exact .of_later (Store.mintsOnly_recordFields s v fields).toLater (fun _ => nofun)
      fun u hu => Or.inl hu
  | identities v =>
    refine (Store.identities_lacks s v).map fun set _ => ?_
    exact .of_later (.refl s) (fun _ => nofun) fun u hu => Or.inl hu

theorem Operation.perform_eq_ok {x y : Session} : op.perform.run x = .ok a y ↔
    ∃ t, op.apply x.store = .ok (a, t) ∧ x.reach t = y := by
  rw [perform_eq]
  cases op.apply x.store with
  | error fault => exact iff_of_false nofun nofun
  | ok p =>
    obtain ⟨b, t⟩ := p
    simp [settle, and_assoc]

theorem Operation.perform_eq_error {x y : Session} {fault : Fault} :
    op.perform.run x = .error fault y ↔ op.apply x.store = .error fault ∧ x = y := by
  rw [perform_eq]
  cases op.apply x.store with
  | error fault => simp [settle]
  | ok p => exact iff_of_false nofun nofun

theorem Operation.after_of_ok {x y : Session} (h : op.perform.run x = .ok a y) :
    op.after x = y := by
  rw [after, h]

theorem Operation.after_of_error {x y : Session} {fault : Fault}
    (h : op.perform.run x = .error fault y) : op.after x = y := by
  rw [after, h]

/-- The log of a session grows by the numbers that the supply has given. -/
theorem Operation.minted_after (op : Operation) (x : Session) : (op.after x).minted = x.minted ++
    List.range' x.store.supply.next
      ((op.after x).store.supply.next - x.store.supply.next) := by
  cases h : op.perform.run x with
  | ok a y =>
    obtain ⟨t, -, rfl⟩ := perform_eq_ok.1 h
    rw [after_of_ok h]
    rfl
  | error fault y =>
    obtain ⟨-, rfl⟩ := perform_eq_error.1 h
    rw [after_of_error h, Nat.sub_self, List.range'_zero, List.append_nil]

/-! ### Any number of operations -/

/-- What holds on the way: the handles minted are the ones that the supply has given, and nothing
is bound above them. -/
structure Numbered (n : Nat) (x : Session) : Prop where
  reached : (start n).reach x.store = x
  later : Store.Later (.empty n) x.store
  lt_next {v : Handle} : v ∈ x.store.sets → v < x.store.supply.next

section Numbered

variable {n : Nat} {x y : Session} {v : Handle}

theorem numbered_start (n : Nat) : Numbered n (start n) :=
  ⟨reach_self _, .refl _, fun hv => absurd hv Store.sets_empty⟩

theorem Numbered.minted_eq (h : Numbered n x) :
    x.minted = List.range' n (x.store.supply.next - n) := by
  have hminted := congrArg Session.minted h.reached
  rw [← hminted]
  exact List.nil_append _

theorem Numbered.mem_minted (h : Numbered n x) :
    v ∈ x.minted ↔ n ≤ v ∧ v < x.store.supply.next := by
  have hle : n ≤ x.store.supply.next := h.later.next_le
  rw [h.minted_eq, List.mem_range'_1, Nat.add_sub_cancel' hle]

theorem Numbered.next_eq (h : Numbered n x) : x.store.supply.next = n + x.minted.length := by
  have hle : n ≤ x.store.supply.next := h.later.next_le
  rw [h.minted_eq, List.length_range', Nat.add_sub_cancel' hle]

/-- **One operation** goes on with the numbers, and leaves what is bound as it is. -/
theorem Numbered.after (h : Numbered n x) {op : Operation} (hop : op.Admissible n x) :
    Numbered n (op.after x) ∧ Store.Later x.store (op.after x).store := by
  cases hperform : op.perform.run x with
  | error fault y =>
    obtain ⟨-, rfl⟩ := Operation.perform_eq_error.1 hperform
    rw [Operation.after_of_error hperform]
    exact ⟨h, .refl x.store⟩
  | ok a y =>
    obtain ⟨t, happly, rfl⟩ := Operation.perform_eq_ok.1 hperform
    have happlied := (op.apply_ends x.store).of_ok happly
    rw [Operation.after_of_ok hperform]
    refine ⟨⟨?_, h.later.trans happlied.later, fun {v} hv => ?_⟩, happlied.later⟩
    · have hreach := reach_reach (x := start n) h.later.next_le happlied.later.next_le
      rw [h.reached] at hreach
      exact hreach.symm
    · rcases happlied.only hv with hv | hlt | ⟨d, rfl⟩
      · exact Nat.lt_of_lt_of_le (h.lt_next hv) happlied.later.next_le
      · exact hlt
      · refine Nat.lt_of_lt_of_le ?_ happlied.later.next_le
        rcases hop with hlt | hmem
        · exact Nat.lt_of_lt_of_le hlt h.later.next_le
        · exact (h.mem_minted.1 hmem).2

theorem Numbered.run (h : Numbered n x) {ops : List Operation} (hops : x.Admits n ops) :
    Numbered n (x.run ops) ∧ Store.Later x.store (x.run ops).store := by
  induction ops generalizing x with
  | nil => exact ⟨h, .refl x.store⟩
  | cons op ops ih =>
    obtain ⟨hop, hops⟩ := hops
    obtain ⟨hafter, hlater⟩ := h.after hop
    obtain ⟨hrun, hlater'⟩ := ih hafter hops
    exact ⟨hrun, hlater.trans hlater'⟩

/-- A handle that is newly minted was not bound. -/
theorem Numbered.newly_minted (h : Numbered n x) (hy : Numbered n y) (hv : v ∈ y.minted)
    (hnew : v ∉ x.minted) : n ≤ v ∧ v ∉ x.store.sets ∧ v ∈ y.store.sets := by
  obtain ⟨hle, hlt⟩ := hy.mem_minted.1 hv
  exact ⟨hle, fun hmem => hnew (h.mem_minted.2 ⟨hle, h.lt_next hmem⟩), hy.later.minted hle hlt⟩

/-- **The handle that comes back** is the one minted last, and the only one if it is not for a value
of a type. -/
theorem Numbered.answer (h : Numbered n x) {op : Operation}
    (hv : op.perform.run x = .ok (.handle v) y) : y.minted.getLast? = some v ∧ v ∉ x.minted ∧
      ((∀ hint ty, op ≠ .freshValue hint ty) → y.minted = x.minted ++ [v]) := by
  have hminted := op.minted_after x
  rw [Operation.after_of_ok hv] at hminted
  obtain ⟨t, happly, rfl⟩ := Operation.perform_eq_ok.1 hv
  have happlied := (op.apply_ends x.store).of_ok happly
  obtain ⟨hle, hnext⟩ := happlied.last rfl
  have hcount : t.supply.next - x.store.supply.next = v - x.store.supply.next + 1 := by
    rw [hnext, Nat.sub_add_comm hle]
  have hlast : (x.reach t).minted =
      x.minted ++ (List.range' x.store.supply.next (v - x.store.supply.next) ++ [v]) := by
    rw [reach, hcount, List.range'_concat, Nat.one_mul, Nat.add_sub_cancel' hle]
  refine ⟨?_, fun hmem => ?_, fun hne => ?_⟩
  · rw [hlast, ← List.append_assoc, List.getLast?_concat]
  · exact Nat.not_lt.2 hle (h.mem_minted.1 hmem).2
  · rw [hlast, happlied.single rfl hne, Nat.sub_self, List.range'_zero, List.nil_append]

/-- What is bound keeps its set. -/
theorem Numbered.keeps (h : Numbered n x) (hlater : Store.Later x.store y.store) {set : HandleSet}
    (hset : x.store.sets[v]? = some set) : y.store.sets[v]? = some set := by
  have hv := Store.mem_of_getElem? hset
  rw [hlater.sets (h.lt_next hv) hv, hset]

end Numbered

theorem Session.admits_append {n : Nat} {x : Session} {ops ops' : List Operation} :
    x.Admits n (ops ++ ops') ↔ x.Admits n ops ∧ (x.run ops).Admits n ops' := by
  induction ops generalizing x with
  | nil => exact (and_iff_right trivial).symm
  | cons op ops ih => rw [List.cons_append, Admits, Admits, ih, and_assoc]; rfl

/-- What is seen of an operation that takes the session `x` to `y`, up to the session `z` later on,
for a program of `n` handles. -/
structure AppendOnly (n : Nat) (op : Operation) (x y z : Session) : Prop where
  performs : op.perform.run x = x.settle (op.apply x.store)
  atomic {fault : Fault} {w : Session} :
    op.perform.run x = .error fault w → w = x ∧ x.store.Lacks fault
  numbers : y.minted = List.range' n y.minted.length ∧
    y.store.supply.next = n + y.minted.length
  mints : x.minted <+: y.minted ∧
    ∀ v ∈ y.minted, v ∉ x.minted → n ≤ v ∧ v ∉ x.store.sets ∧ v ∈ y.store.sets
  answer {v : Handle} : op.perform.run x = .ok (.handle v) y →
    y.minted.getLast? = some v ∧ v ∉ x.minted ∧
      ((∀ hint ty, op ≠ .freshValue hint ty) → y.minted = x.minted ++ [v])
  keeps {v : Handle} {set : HandleSet} :
    x.store.sets[v]? = some set → z.store.sets[v]? = some set
  ordered_leaves : z.store.leaves.Pairwise (· < ·)
  mem_leaves (v : Handle) : v ∈ z.store.leaves ↔ z.store.sets[v]? = some {v}
  leaf {hint : String} : op = .freshLeaf hint →
    ∃ v, op.perform.run x = .ok (.handle v) y ∧ v ∈ z.store.leaves

/-- **A store only adds, and what gives up adds nothing.**  In a session that starts without any
handle bound, handles are minted by number from the first that is not the program's on, none of them
is bound before, and what is bound keeps its set.  A fault is about a handle that is not bound, and
it leaves the session as it was.  The numbers here do not end; below `2^32` each is its own word
(`Handle.word_of_lt`). -/
theorem appendOnly_run (n : Nat) (earlier : List Operation) (op : Operation)
    (later : List Operation) (h : (start n).Admits n (earlier ++ op :: later)) :
    AppendOnly n op ((start n).run earlier) (op.after ((start n).run earlier))
      ((start n).run (earlier ++ op :: later)) := by
  obtain ⟨hearlier, hop, hlater⟩ := Session.admits_append.1 h
  have hx := ((numbered_start n).run hearlier).1
  have hrun : (start n).run (earlier ++ op :: later) =
      (op.after ((start n).run earlier)).run later := List.foldl_append
  rw [hrun]
  generalize (start n).run earlier = x at hx hop hlater ⊢
  obtain ⟨hy, hxy⟩ := hx.after hop
  obtain ⟨-, hyz⟩ := hy.run hlater
  have hnumbers : (op.after x).store.supply.next - n = (op.after x).minted.length := by
    rw [hy.next_eq, Nat.add_sub_cancel_left]
  refine ⟨op.perform_eq x, fun {fault w} herror => ?_, ⟨hnumbers ▸ hy.minted_eq, hy.next_eq⟩,
    ⟨?_, fun v hv hnew => hx.newly_minted hy hv hnew⟩, hx.answer, hx.keeps (hxy.trans hyz),
    Store.ordered_leaves _, fun v => Store.mem_leaves.trans decide_eq_true_iff, ?_⟩
  · obtain ⟨happly, rfl⟩ := Operation.perform_eq_error.1 herror
    exact ⟨rfl, (op.apply_ends x.store).of_error happly⟩
  · rw [op.minted_after]
    exact List.prefix_append _ _
  · rintro hint rfl
    have hperform : (Operation.freshLeaf hint).perform.run x =
        .ok (.handle x.store.supply.next) (x.reach (x.store.freshLeaf hint).2) :=
      (Operation.freshLeaf hint).perform_eq x
    rw [Operation.after_of_ok hperform] at hy hyz ⊢
    refine ⟨_, hperform, Store.mem_leaves.2 (decide_eq_true (hy.keeps hyz ?_))⟩
    exact (Store.getElem?_mint x.store hint (fun v => {v}) _).trans (if_pos rfl)

/-- A session for a program of two handles: a pair is made and bound to the first, a union with
a handle that is not bound is tried, and two handles more are minted. -/
def sampleOperations : List Operation :=
  [.freshValue "p" (.tuple [.tensor, .tensor]), .bindLike 0 4, .freshUnion [some 0, none, some 9],
    .freshLeaf "q", .freshDifference 0 2]

/-- The union fails for `9` and changes nothing, and `2`, `3` and `5` are the leaves at the end. -/
theorem appendOnly_run_sampleOperations :
    (start 2).Admits 2 sampleOperations ∧
    (Operation.freshUnion [some 0, none, some 9]).perform.run
      ((start 2).run (sampleOperations.take 2)) =
        .error (.unbound 9) ((start 2).run (sampleOperations.take 2)) ∧
    ((start 2).run sampleOperations).minted = [2, 3, 4, 5, 6] ∧
    ((start 2).run sampleOperations).store.leaves = [2, 3, 5] := by
  have hadmits : (start 2).Admits 2 sampleOperations :=
    ⟨trivial, Or.inl (by decide), trivial, trivial, trivial, trivial⟩
  have h := appendOnly_run 2 (sampleOperations.take 2) (.freshUnion [some 0, none, some 9])
    [.freshLeaf "q", .freshDifference 0 2] hadmits
  have h0 : 0 ∈ ((start 2).run (sampleOperations.take 2)).store.sets := by decide +kernel
  have h9 : 9 ∉ ((start 2).run (sampleOperations.take 2)).store.sets := by decide +kernel
  refine ⟨hadmits, ?_, by decide +kernel, by decide +kernel⟩
  rw [h.performs, Operation.apply, Store.freshUnion, Store.union,
    Store.identities_eq_ok.2 ⟨h0, rfl⟩, Store.union, Store.union, Store.identities,
    Std.ExtTreeMap.getElem?_eq_none h9]
  rfl

end Identity
end TensorLiveness
