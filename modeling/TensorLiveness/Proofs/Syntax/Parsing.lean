/-
# Reading what the grammar derives

What the reader returns is derived by the lexemes that it consumed (`expr_sound`,
`functions_sound`), and what lexemes derive the reader returns (`expr_accepts`,
`functions_accepts`), as long as what follows does not go on with the same rule.
Both go by recursion on the number of lexemes left, rule by rule.
-/

import TensorLiveness.Proofs.Syntax.Grammar

namespace TensorLiveness
namespace Syntax

open Number Text

/-! ### A name and the arguments behind it -/

/-- The callee that a lexeme names. -/
inductive Names (l : Lexeme) : Callee → Prop
  | var : l.token.terminal = .localName → Names l (.var l.ident)
  | op : l.token.terminal = .identifier → Names l (.op l.ident)

/-- A callee with the arguments that follow it, as their call if there are any. -/
def Callee.applied : Callee → Option (List Expr) → Span → Expr
  | callee, some args, span => .call callee args span
  | .var name, none, span => .var name span
  | .op name, none, span => .op name span

/-- An argument list, or nothing. -/
inductive DerivesArguments : List Lexeme → Option (List Expr) → Prop
  | none : DerivesArguments [] none
  | some {l : Lexeme} {ls : List Lexeme} {args : List Expr} : l.token.terminal = .leftParen →
    Items Derives ls args → DerivesArguments (l :: ls) (some args)

theorem Names.derives {l : Lexeme} {callee : Callee} {ls : List Lexeme}
    {args : Option (List Expr)} (hl : Names l callee) (hargs : DerivesArguments ls args) :
    Derives (l :: ls) (callee.applied args (spanOf (l :: ls))) := by
  cases hargs with
  | none =>
    cases hl with
    | var hl => exact .var hl
    | op hl => exact .op hl
  | some hopen hitems =>
    cases hl with
    | var hl => exact .callVar hl hopen hitems
    | op hl => exact .callOp hl hopen hitems

namespace Cursor

/-- From `c` the lexemes `ls` were read, up to `c'`. -/
structure Consumes (c : Cursor) (ls : List Lexeme) (c' : Cursor) : Prop where
  rest_eq : c.rest = ls ++ c'.rest
  reached_eq : c'.reached = stopAfter c.reached ls

namespace Consumes

variable {c c' c'' : Cursor} {ls ls' : List Lexeme}

theorem refl (c : Cursor) : c.Consumes [] c := ⟨rfl, rfl⟩

theorem trans (h : c.Consumes ls c') (h' : c'.Consumes ls' c'') : c.Consumes (ls ++ ls') c'' :=
  ⟨by rw [h.rest_eq, h'.rest_eq, List.append_assoc],
    by rw [h'.reached_eq, h.reached_eq, stopAfter_append]⟩

theorem cons {l : Lexeme} (h : c.Consumes [l] c') (h' : c'.Consumes ls c'') :
    c.Consumes (l :: ls) c'' := h.trans h'

theorem of_miss {symbols : List Terminal} (h : (c.miss symbols).Consumes ls c') :
    c.Consumes ls c' := ⟨h.rest_eq, h.reached_eq⟩

theorem miss (h : c.Consumes ls c') (symbols : List Terminal) : c.Consumes ls (c'.miss symbols) :=
  ⟨h.rest_eq, h.reached_eq⟩

theorem spanOf_eq {l : Lexeme} (h : c.Consumes (l :: ls) c') :
    spanOf (l :: ls) = ⟨l.span.start, c'.reached⟩ := by
  rw [h.reached_eq, stopAfter_cons, spanOf]

theorem size_lt {l : Lexeme} (h : c.Consumes (l :: ls) c') : c'.size < c.size := by
  rw [size, size, h.rest_eq, List.cons_append, List.length_cons, List.length_append]
  omega

/-- What is left is what stood behind. -/
theorem rest_of_eq {tail : List Lexeme} (h : c.Consumes ls c') (hc : c.rest = ls ++ tail) :
    c'.rest = tail :=
  List.append_cancel_left (h.rest_eq.symm.trans hc)

end Consumes

/-! ### What is returned is derived -/

section Soundness

variable {α β : Type} {c : Cursor}

theorem exists_of_bind {m : Except Mismatch (Reading c α)} {f : Reading c α → Except Mismatch β}
    {b : β} (h : (m >>= f) = .ok b) :
    ∃ x c' hlt, m = .ok ⟨x, c', hlt⟩ ∧ f ⟨x, c', hlt⟩ = .ok b := by
  cases m with
  | error e => cases h
  | ok r => exact ⟨r.value, r.next, r.next_lt, rfl, h⟩

theorem exists_of_bind_optional {m : Except Mismatch (Optional c α)}
    {f : Optional c α → Except Mismatch β} {b : β} (h : (m >>= f) = .ok b) :
    ∃ x c' hle, m = .ok ⟨x, c', hle⟩ ∧ f ⟨x, c', hle⟩ = .ok b := by
  cases m with
  | error e => cases h
  | ok r => exact ⟨r.value, r.next, r.next_le, rfl, h⟩

/-- What is returned is derived by the lexemes that were read. -/
def Sound (item : List Lexeme → α → Prop) (m : Except Mismatch (Reading c α)) : Prop :=
  ∀ ⦃x c' hlt⦄, m = .ok ⟨x, c', hlt⟩ → ∃ ls, c.Consumes ls c' ∧ item ls x

theorem advance?_sound {l : Lexeme} {c' : Cursor} {hlt : c'.size < c.size}
    (h : c.advance? = some ⟨l, c', hlt⟩) : c.Consumes [l] c' := by
  obtain ⟨rest, missed, reached⟩ := c
  cases rest with
  | nil => cases h
  | cons l' rest =>
    cases h
    exact ⟨rfl, rfl⟩

theorem expect_sound {t : Terminal} {l : Lexeme} {c' : Cursor} {hlt : c'.size < c.size}
    (h : c.expect t = .ok ⟨l, c', hlt⟩) : c.Consumes [l] c' ∧ l.token.terminal = t := by
  unfold expect at h
  split at h
  · rename_i r hr
    split at h
    · rename_i hterminal
      cases h
      exact ⟨advance?_sound hr, hterminal⟩
    · cases h
  · cases h

/-- Items that are derived make up a list that is derived. -/
theorem items_sound {item : List Lexeme → α → Prop} {bound : Nat} {starts : List Terminal}
    {read : (d : Cursor) → d.size < bound → Except Mismatch (Reading d α)}
    (hread : ∀ d hd, Sound item (read d hd)) (c : Cursor) (hc : c.size < bound) :
    Sound (Items item) (items bound starts read c hc) := by
  intro xs c' hlt h
  rw [items] at h
  split at h
  · obtain ⟨x, c₁, h₁, hx, h⟩ := exists_of_bind h
    obtain ⟨ls, hls, hitem⟩ := hread c hc hx
    dsimp only at h
    split at h
    · rename_i l c₂ h₂ hcomma
      obtain ⟨ys, c₃, h₃, hys, h⟩ := exists_of_bind h
      obtain ⟨hl, hterminal⟩ := expect_sound hcomma
      obtain ⟨ls', hls', hitems⟩ := items_sound hread c₂ (by omega) hys
      cases h
      exact ⟨_, hls.trans (hl.cons hls'), .cons hitem hterminal hitems⟩
    · obtain ⟨l, c₂, h₂, hclose, h⟩ := exists_of_bind h
      obtain ⟨hl, hterminal⟩ := expect_sound hclose
      cases h
      exact ⟨_, hls.trans hl.of_miss, .last hitem hterminal⟩
  · obtain ⟨l, c₁, h₁, hclose, h⟩ := exists_of_bind h
    obtain ⟨hl, hterminal⟩ := expect_sound hclose
    cases h
    exact ⟨_, hl.of_miss, .close hterminal⟩
termination_by c.size
decreasing_by omega

/-- **A type that is read is derived.** -/
theorem typeExpr_sound (c : Cursor) : Sound DerivesType c.typeExpr := by
  intro ty c' hlt h
  rw [typeExpr] at h
  split at h
  · rename_i l c₁ h₁ hl
    split at h
    · rename_i hterminal
      cases h
      exact ⟨_, advance?_sound hl, .named hterminal⟩
    · rename_i hterminal
      obtain ⟨fields, c₂, h₂, hfields, h⟩ := exists_of_bind h
      obtain ⟨ls, hls, hitems⟩ := items_sound (fun d _ => typeExpr_sound d) c₁ h₁ hfields
      have hall := (advance?_sound hl).cons hls
      cases h
      exact ⟨_, hall, hall.spanOf_eq ▸ .tuple hterminal hitems⟩
    · cases h
  · cases h
termination_by c.size

theorem param_sound (c : Cursor) : Sound DerivesParam c.param := by
  intro p c' hlt h
  rw [param] at h
  obtain ⟨name, c₁, h₁, hname, h⟩ := exists_of_bind h
  obtain ⟨colon, c₂, h₂, hcolon, h⟩ := exists_of_bind h
  obtain ⟨ty, c₃, h₃, hty, h⟩ := exists_of_bind h
  obtain ⟨hread, hlocal⟩ := expect_sound hname
  obtain ⟨hread', hterminal⟩ := expect_sound hcolon
  obtain ⟨ls, hls, hderives⟩ := typeExpr_sound c₂ hty
  have hall := hread.cons (hread'.cons hls)
  cases h
  exact ⟨_, hall, hall.spanOf_eq ▸ .mk hlocal hterminal hderives⟩

theorem params_sound {ps : List Param} {c' : Cursor} {hlt : c'.size < c.size}
    (h : c.params = .ok ⟨ps, c', hlt⟩) :
    ∃ l ls, c.Consumes (l :: ls) c' ∧ l.token.terminal = .leftParen ∧
      Items DerivesParam ls ps := by
  rw [params, parenthesised] at h
  obtain ⟨l, c₁, h₁, hopen, h⟩ := exists_of_bind h
  obtain ⟨xs, c₂, h₂, hxs, h⟩ := exists_of_bind h
  obtain ⟨hread, hterminal⟩ := expect_sound hopen
  obtain ⟨ls, hls, hitems⟩ := items_sound (fun d _ => param_sound d) c₁ h₁ hxs
  cases h
  exact ⟨l, ls, hread.cons hls, hterminal, hitems⟩

theorem annotation_sound {ty : Option TypeTerm} {c' : Cursor} {hle : c'.size ≤ c.size}
    (h : c.annotation = .ok ⟨ty, c', hle⟩) :
    ∃ ls, c.Consumes ls c' ∧ DerivesAnnotation ls ty := by
  unfold annotation at h
  split at h
  · rename_i colon c₁ h₁ hcolon
    obtain ⟨t, c₂, h₂, hty, h⟩ := exists_of_bind h
    obtain ⟨hread, hterminal⟩ := expect_sound hcolon
    obtain ⟨ls, hls, hderives⟩ := typeExpr_sound c₁ hty
    cases h
    exact ⟨_, hread.cons hls, .some hterminal hderives⟩
  · cases h
    exact ⟨_, (Consumes.refl c).miss _, .none⟩

/-- Projections lengthen a derivation. -/
theorem projections_sound {e : Expr} {ls : List Lexeme} (he : Derives ls e) (c : Cursor) :
    ∃ ls', c.Consumes ls' (projections e c).next ∧ Derives (ls ++ ls') (projections e c).value := by
  rw [projections]
  split
  · rename_i i span c₁ h₁ hl
    have hspan : (⟨e.span.start, span.stop⟩ : Span) = spanOf (ls ++ [⟨.index i, span⟩]) := by
      rw [spanOf_append he.startsIn.ne_nil, he.span_eq]
      rfl
    have hget : Derives (ls ++ [⟨.index i, span⟩]) (.get e i ⟨e.span.start, span.stop⟩) := by
      rw [hspan]
      exact .get he rfl
    obtain ⟨ls', hls', hderives⟩ := projections_sound hget c₁
    refine ⟨_, (advance?_sound hl).cons hls', ?_⟩
    rwa [List.append_assoc] at hderives
  · exact ⟨[], (Consumes.refl c).miss _, (List.append_nil ls).symm ▸ he⟩
termination_by c.size

mutual

theorem primary_sound (c : Cursor) : Sound Derives c.primary := by
  intro e c' hlt h
  rw [primary] at h
  split at h
  · rename_i l c₁ h₁ hl
    have hread := advance?_sound hl
    split at h
    · rename_i name htoken
      obtain ⟨args, c₂, h₂, hargs, h⟩ := exists_of_bind_optional h
      obtain ⟨ls, hls, hderives⟩ := arguments_sound c₁ hargs
      have hall := hread.cons hls
      have hlocal : Names l (.var l.ident) := .var (by rw [htoken]; rfl)
      have hcall := hlocal.derives hderives
      rw [hall.spanOf_eq] at hcall
      cases args <;> cases h <;> exact ⟨_, hall, hcall⟩
    · rename_i name htoken
      obtain ⟨args, c₂, h₂, hargs, h⟩ := exists_of_bind_optional h
      obtain ⟨ls, hls, hderives⟩ := arguments_sound c₁ hargs
      have hall := hread.cons hls
      have hidentifier : Names l (.op l.ident) := .op (by rw [htoken]; rfl)
      have hcall := hidentifier.derives hderives
      rw [hall.spanOf_eq] at hcall
      cases args <;> cases h <;> exact ⟨_, hall, hcall⟩
    · rename_i value htoken
      cases h
      exact ⟨_, hread, .number htoken⟩
    · rename_i htoken
      obtain ⟨fields, c₂, h₂, hfields, h⟩ := exists_of_bind h
      obtain ⟨ls, hls, hitems⟩ := items_sound (fun d _ => expr_sound d) c₁ h₁ hfields
      have hall := hread.cons hls
      have hopen : l.token.terminal = .leftParen := by rw [htoken]; rfl
      cases h
      exact ⟨_, hall, hall.spanOf_eq ▸ .tuple hopen hitems⟩
    · rename_i htoken
      obtain ⟨l₁, c₂, h₂, hopen, h⟩ := exists_of_bind h
      obtain ⟨test, c₃, h₃, htest, h⟩ := exists_of_bind h
      obtain ⟨l₂, c₄, h₄, hclose, h⟩ := exists_of_bind h
      obtain ⟨thenBlock, c₅, h₅, hthen, h⟩ := exists_of_bind h
      obtain ⟨l₃, c₆, h₆, helse, h⟩ := exists_of_bind h
      obtain ⟨elseBlock, c₇, h₇, helseBlock, h⟩ := exists_of_bind h
      obtain ⟨hread₁, hleft⟩ := expect_sound hopen
      obtain ⟨ls, hls, hderives⟩ := expr_sound c₂ htest
      obtain ⟨hread₂, hright⟩ := expect_sound hclose
      obtain ⟨ls₁, hls₁, hderives₁⟩ := block_sound c₄ hthen
      obtain ⟨hread₃, hword⟩ := expect_sound helse
      obtain ⟨ls₂, hls₂, hderives₂⟩ := block_sound c₆ helseBlock
      have hall := hread.cons (hread₁.cons (hls.trans (hread₂.cons (hls₁.trans
        (hread₃.cons hls₂)))))
      have hif : l.token.terminal = .ifWord := by rw [htoken]; rfl
      cases h
      exact ⟨_, hall, hall.spanOf_eq ▸ .cond hif hleft hderives hright hderives₁ hword hderives₂⟩
    · rename_i htoken
      obtain ⟨ps, c₂, h₂, hparams, h⟩ := exists_of_bind h
      obtain ⟨body, c₃, h₃, hbody, h⟩ := exists_of_bind h
      obtain ⟨l', ls, hls, hopen, hitems⟩ := params_sound hparams
      obtain ⟨ls', hls', hderives⟩ := block_sound c₂ hbody
      have hall := hread.cons (hls.trans hls')
      have hfn : l.token.terminal = .fnWord := by rw [htoken]; rfl
      cases h
      exact ⟨_, hall, hall.spanOf_eq ▸ .closure hfn hopen hitems hderives⟩
    · cases h
  · cases h
termination_by (c.size, 0)

theorem arguments_sound (c : Cursor) {args : Option (List Expr)} {c' : Cursor}
    {hle : c'.size ≤ c.size} (h : c.arguments = .ok ⟨args, c', hle⟩) :
    ∃ ls, c.Consumes ls c' ∧ DerivesArguments ls args := by
  rw [arguments] at h
  split at h
  · rename_i l c₁ h₁ hl
    obtain ⟨xs, c₂, h₂, hxs, h⟩ := exists_of_bind h
    obtain ⟨hread, hterminal⟩ := expect_sound hl
    obtain ⟨ls, hls, hitems⟩ := items_sound (fun d _ => expr_sound d) c₁ h₁ hxs
    cases h
    exact ⟨_, hread.cons hls, .some hterminal hitems⟩
  · cases h
    exact ⟨_, (Consumes.refl c).miss _, .none⟩
termination_by (c.size, 0)

/-- **An expression that is read is derived.** -/
theorem expr_sound (c : Cursor) : Sound Derives c.expr := by
  intro e c' hlt h
  rw [expr] at h
  obtain ⟨e₀, c₁, h₁, hprimary, h⟩ := exists_of_bind h
  obtain ⟨ls, hls, hderives⟩ := primary_sound c hprimary
  obtain ⟨ls', hls', hderives'⟩ := projections_sound hderives c₁
  cases h
  exact ⟨_, hls.trans hls', hderives'⟩
termination_by (c.size, 1)

theorem blockRest_sound (start : Nat) (c : Cursor) :
    Sound (DerivesRest start) (blockRest start c) := by
  intro b c' hlt h
  rw [blockRest] at h
  split at h
  · rename_i l c₁ h₁ hl
    obtain ⟨name, c₂, h₂, hname, h⟩ := exists_of_bind h
    obtain ⟨ty, c₃, h₃, hty, h⟩ := exists_of_bind_optional h
    obtain ⟨l₁, c₄, h₄, hequals, h⟩ := exists_of_bind h
    obtain ⟨value, c₅, h₅, hvalue, h⟩ := exists_of_bind h
    obtain ⟨l₂, c₆, h₆, hsemicolon, h⟩ := exists_of_bind h
    obtain ⟨rest, c₇, h₇, hrest, h⟩ := exists_of_bind h
    obtain ⟨hread, hlet⟩ := expect_sound hl
    obtain ⟨hread₁, hlocal⟩ := expect_sound hname
    obtain ⟨ls, hls, hannotation⟩ := annotation_sound hty
    obtain ⟨hread₂, hterminal₁⟩ := expect_sound hequals
    obtain ⟨ls₁, hls₁, hderives⟩ := expr_sound c₄ hvalue
    obtain ⟨hread₃, hterminal₂⟩ := expect_sound hsemicolon
    obtain ⟨ls₂, hls₂, hderives'⟩ := blockRest_sound start c₆ hrest
    have hstatement := hread.cons (hread₁.cons (hls.trans (hread₂.cons (hls₁.trans hread₃))))
    have hall := hread.cons (hread₁.cons (hls.trans (hread₂.cons (hls₁.trans
      (hread₃.cons hls₂)))))
    cases h
    exact ⟨_, hall, hstatement.spanOf_eq ▸
      .bind hlet hlocal hannotation hterminal₁ hderives hterminal₂ hderives'⟩
  · obtain ⟨value, c₁, h₁, hvalue, h⟩ := exists_of_bind h
    obtain ⟨l, c₂, h₂, hclose, h⟩ := exists_of_bind h
    obtain ⟨ls, hls, hderives⟩ := expr_sound _ hvalue
    obtain ⟨hread, hterminal⟩ := expect_sound hclose
    have hstop : c₂.reached = l.span.stop := hread.reached_eq
    cases h
    exact ⟨_, hls.of_miss.trans hread, hstop ▸ .result hderives hterminal⟩
termination_by (c.size, 2)

theorem block_sound (c : Cursor) : Sound DerivesBlock c.block := by
  intro b c' hlt h
  rw [block] at h
  obtain ⟨l, c₁, h₁, hl, h⟩ := exists_of_bind h
  obtain ⟨b, c₂, h₂, hb, h⟩ := exists_of_bind h
  obtain ⟨hread, hterminal⟩ := expect_sound hl
  obtain ⟨ls, hls, hrest⟩ := blockRest_sound _ c₁ hb
  cases h
  exact ⟨_, hread.cons hls, .mk hterminal hrest⟩
termination_by (c.size, 0)

end

/-- **The functions that are read are derived by all the lexemes.** -/
theorem functions_sound (c : Cursor) {fs : List FunctionDecl} (h : c.functions = .ok fs) :
    DerivesFunctions c.rest fs := by
  rw [functions] at h
  split at h
  · rename_i l c₁ h₁ hl
    obtain ⟨name, c₂, h₂, hname, h⟩ := exists_of_bind h
    obtain ⟨ps, c₃, h₃, hparams, h⟩ := exists_of_bind h
    obtain ⟨body, c₄, h₄, hbody, h⟩ := exists_of_bind h
    obtain ⟨hread, hfn⟩ := expect_sound hl
    obtain ⟨hread₁, hglobal⟩ := expect_sound hname
    obtain ⟨l', ls, hls, hopen, hitems⟩ := params_sound hparams
    obtain ⟨ls', hls', hderives⟩ := block_sound c₃ hbody
    have hall := hread.cons (hread₁.cons (hls.trans hls'))
    dsimp only at h
    rcases hrest : functions c₄ with e | rest
    · rw [hrest] at h
      cases h
    · rw [hrest] at h
      cases h
      rw [hall.rest_eq]
      refine .cons ?_ (functions_sound c₄ hrest)
      exact hall.spanOf_eq ▸ .mk hfn hglobal hopen hitems hderives
  · split at h
    · rename_i hnil
      cases h
      rw [hnil]
      exact .nil
    · cases h
termination_by c.size

end Soundness

/-! ### What is derived is returned -/

/-- What follows goes on neither with an argument list nor with a projection. -/
def Ends (tail : List Lexeme) : Prop :=
  ∀ l ∈ tail.head?, l.token.terminal ≠ .leftParen ∧ l.token.terminal ≠ .index

theorem Ends.cons {l : Lexeme} {t : Terminal} (hl : l.token.terminal = t)
    (ht : t ≠ .leftParen ∧ t ≠ .index) (tail : List Lexeme) : Ends (l :: tail) := by
  rintro _ ⟨⟩
  exact hl ▸ ht

section Completeness

variable {α : Type} {c : Cursor} {ls tail : List Lexeme}

/-- The lexemes are read, and the value is returned. -/
def Accepts (m : Except Mismatch (Reading c α)) (ls : List Lexeme) (x : α) : Prop :=
  ∃ c' hlt, m = .ok ⟨x, c', hlt⟩ ∧ c.Consumes ls c'

theorem advance?_of_rest {l : Lexeme} (h : c.rest = l :: tail) :
    ∃ c' hlt, c.advance? = some ⟨l, c', hlt⟩ ∧ c.Consumes [l] c' := by
  obtain ⟨rest, missed, reached⟩ := c
  obtain rfl : rest = l :: tail := h
  exact ⟨_, _, rfl, rfl, rfl⟩

theorem expect_accepts {l : Lexeme} {t : Terminal} (h : c.rest = l :: tail)
    (ht : l.token.terminal = t) : Accepts (c.expect t) [l] l := by
  obtain ⟨c', hlt, hadvance, hread⟩ := advance?_of_rest h
  refine ⟨c', hlt, ?_, hread⟩
  rw [expect, hadvance]
  exact if_pos ht

theorem expect_rejects {t : Terminal} (h : ∀ l ∈ c.rest.head?, l.token.terminal ≠ t) :
    ∃ e, c.expect t = .error e := by
  unfold expect
  split
  · rename_i r hr
    obtain ⟨l, c', hlt⟩ := r
    refine ⟨_, if_neg (h l ?_)⟩
    rw [(advance?_sound hr).rest_eq]
    rfl
  · exact ⟨_, rfl⟩

theorem next?_any {starts : List Terminal} {l : Lexeme} (h : c.rest = l :: tail) :
    c.next?.any (· ∈ starts) = decide (l.token.terminal ∈ starts) := by
  rw [next?, h]
  rfl

/-- **A list is read when its items are.** -/
theorem items_accepts {item : List Lexeme → α → Prop} {bound : Nat} {starts : List Terminal}
    {read : (d : Cursor) → d.size < bound → Except Mismatch (Reading d α)}
    (hread : ∀ d hd ls x tail, d.rest = ls ++ tail → item ls x → Ends tail →
      Accepts (read d hd) ls x)
    (hstarts : ∀ ls x, item ls x → StartsIn starts ls) (hclose : .rightParen ∉ starts)
    {xs : List α} (h : Items item ls xs) :
    ∀ (c : Cursor) (hc : c.size < bound), c.rest = ls ++ tail →
      Accepts (items bound starts read c hc) ls xs := by
  have hnext : ∀ {ls x tail} {c : Cursor}, item ls x → c.rest = ls ++ tail →
      c.next?.any (· ∈ starts) = true := by
    intro ls x tail c hx hrest
    obtain ⟨l, ls', rfl, hl⟩ := hstarts ls x hx
    rw [next?_any hrest, decide_eq_true hl]
  induction h with
  | @close l hl =>
    intro c hc hrest
    have hnot : ¬ c.next?.any (· ∈ starts) = true := by
      rw [next?_any hrest, hl, decide_eq_true_eq]
      exact hclose
    obtain ⟨c₁, h₁, hclosed, hl₁⟩ := expect_accepts (c := c.miss starts) hrest hl
    refine ⟨c₁, hl₁.of_miss.size_lt, ?_, hl₁.of_miss⟩
    rw [items, if_neg hnot, hclosed]
    rfl
  | @last ls x l hx hl =>
    intro c hc hrest
    rw [List.append_assoc] at hrest
    obtain ⟨c₁, h₁, hitem, hls⟩ := hread c hc ls x _ hrest hx (.cons hl (by decide) tail)
    have hrest₁ : c₁.rest = l :: tail := hls.rest_of_eq hrest
    obtain ⟨e, hcomma⟩ := expect_rejects (c := c₁) (t := .comma) (by
      rw [hrest₁]
      rintro _ ⟨⟩
      rw [hl]
      decide)
    obtain ⟨c₂, h₂, hclosed, hl₂⟩ := expect_accepts (c := c₁.miss [.comma]) hrest₁ hl
    have hall := hls.trans hl₂.of_miss
    refine ⟨c₂, by simp at h₂; omega, ?_, hall⟩
    rw [items, if_pos (hnext hx hrest), hitem]
    simp only [bind, Except.bind, hcomma, hclosed]
  | @cons ls ls' x xs l hx hl _ ih =>
    intro c hc hrest
    rw [List.append_assoc] at hrest
    obtain ⟨c₁, h₁, hitem, hls⟩ := hread c hc ls x _ hrest hx (.cons hl (by decide) _)
    have hrest₁ : c₁.rest = l :: (ls' ++ tail) := hls.rest_of_eq hrest
    obtain ⟨c₂, h₂, hcomma, hl₂⟩ := expect_accepts hrest₁ hl
    obtain ⟨c₃, h₃, hitems, hls₃⟩ := ih c₂ (by omega) (hl₂.rest_of_eq hrest₁)
    refine ⟨c₃, by omega, ?_, hls.trans (hl₂.cons hls₃)⟩
    rw [items, if_pos (hnext hx hrest), hitem]
    simp only [bind, Except.bind, hcomma, hitems]

/-- **A type that is derived is read.** -/
theorem typeExpr_accepts {ls tail : List Lexeme} {ty : TypeTerm} (c : Cursor)
    (hrest : c.rest = ls ++ tail) (h : DerivesType ls ty) : Accepts c.typeExpr ls ty := by
  cases h with
  | named hl =>
    obtain ⟨c₁, h₁, hadvance, hread⟩ := advance?_of_rest hrest
    refine ⟨c₁, h₁, ?_, hread⟩
    rw [typeExpr, hadvance]
    simp only [hl]
  | tuple hl hitems =>
    obtain ⟨c₁, h₁, hadvance, hread⟩ := advance?_of_rest hrest
    obtain ⟨c₂, h₂, hfields, hls⟩ := items_accepts
      (fun d _ _ _ _ hrest' hty _ => typeExpr_accepts d hrest' hty)
      (fun _ _ hty => hty.startsIn) (by decide) hitems c₁ h₁ (hread.rest_of_eq hrest)
    have hall := hread.cons hls
    refine ⟨c₂, hall.size_lt, ?_, hall⟩
    rw [typeExpr, hadvance, hall.spanOf_eq]
    simp only [hl, hfields, bind, Except.bind]
termination_by c.size

theorem param_accepts {ls tail : List Lexeme} {p : Param} (c : Cursor)
    (hrest : c.rest = ls ++ tail) (h : DerivesParam ls p) : Accepts c.param ls p := by
  obtain ⟨hname, hcolon, hty⟩ := h
  obtain ⟨c₁, h₁, hlocal, hread⟩ := expect_accepts hrest hname
  have hrest₁ := hread.rest_of_eq hrest
  obtain ⟨c₂, h₂, hterminal, hread₁⟩ := expect_accepts hrest₁ hcolon
  obtain ⟨c₃, h₃, htype, hls⟩ := typeExpr_accepts c₂ (hread₁.rest_of_eq hrest₁) hty
  have hall := hread.cons (hread₁.cons hls)
  refine ⟨c₃, hall.size_lt, ?_, hall⟩
  rw [param, hlocal, hall.spanOf_eq]
  simp only [hterminal, htype, bind, Except.bind]

theorem params_accepts {l : Lexeme} {ps : List Param} (hrest : c.rest = l :: (ls ++ tail))
    (hl : l.token.terminal = .leftParen) (h : Items DerivesParam ls ps) :
    Accepts c.params (l :: ls) ps := by
  obtain ⟨c₁, h₁, hopen, hread⟩ := expect_accepts hrest hl
  obtain ⟨c₂, h₂, hitems, hls⟩ := items_accepts
    (fun d _ _ _ _ hrest' hp _ => param_accepts d hrest' hp)
    (fun _ _ hp => hp.startsIn) (by decide) h c₁ h₁ (hread.rest_of_eq hrest)
  have hall := hread.cons hls
  refine ⟨c₂, hall.size_lt, ?_, hall⟩
  rw [params, parenthesised, hopen]
  simp only [hitems, bind, Except.bind]

/-- The same for what may read nothing. -/
def AcceptsOptional (m : Except Mismatch (Optional c α)) (ls : List Lexeme) (x : α) : Prop :=
  ∃ c' hle, m = .ok ⟨x, c', hle⟩ ∧ c.Consumes ls c'

theorem annotation_accepts {ty : Option TypeTerm} (hrest : c.rest = ls ++ tail)
    (htail : ∀ l ∈ tail.head?, l.token.terminal ≠ .colon) (h : DerivesAnnotation ls ty) :
    AcceptsOptional c.annotation ls ty := by
  cases h with
  | none =>
    obtain ⟨e, hcolon⟩ := expect_rejects (c := c) (t := .colon) (by rwa [hrest])
    refine ⟨c.miss [.colon], Nat.le_refl _, ?_, (Consumes.refl c).miss [.colon]⟩
    rw [ annotation, hcolon]
  | some hcolon hty =>
    obtain ⟨c₁, h₁, hterminal, hread⟩ := expect_accepts hrest hcolon
    obtain ⟨c₂, h₂, htype, hls⟩ := typeExpr_accepts c₁ (hread.rest_of_eq hrest) hty
    have hall := hread.cons hls
    refine ⟨c₂, Nat.le_of_lt hall.size_lt, ?_, hall⟩
    rw [ annotation, hterminal]
    simp only [htype, bind, Except.bind]

/-- Projections of an expression, from the first to the last. -/
inductive Projects : Expr → List Lexeme → Expr → Prop
  | nil (e : Expr) : Projects e [] e
  | cons {e e' : Expr} {l : Lexeme} {i : Nat} {ls : List Lexeme} : l.token = .index i →
    Projects (.get e i ⟨e.span.start, l.span.stop⟩) ls e' → Projects e (l :: ls) e'

theorem Projects.snoc {e e' : Expr} {ls : List Lexeme} (h : Projects e ls e') {l : Lexeme} {i : Nat}
    (hl : l.token = .index i) :
    Projects e (ls ++ [l]) (.get e' i ⟨e'.span.start, l.span.stop⟩) := by
  induction h with
  | nil e => exact .cons hl (.nil _)
  | cons hl' _ ih => exact .cons hl' ih

/-- **A derivation is projections of what is none.** -/
theorem exists_projects : ∀ {e : Expr} {ls : List Lexeme}, Derives ls e →
    ∃ e₀ ls₀ ls₁, ls = ls₀ ++ ls₁ ∧ Derives ls₀ e₀ ∧ (∀ source i span, e₀ ≠ .get source i span) ∧
      Projects e₀ ls₁ e
  | .get source i _, _, @Derives.get _ _ l _ h hl => by
    obtain ⟨e₀, ls₀, ls₁, rfl, hderives, hne, hprojects⟩ := exists_projects h
    refine ⟨e₀, ls₀, ls₁ ++ [l], by rw [List.append_assoc], hderives, hne, ?_⟩
    rw [spanOf_append h.startsIn.ne_nil, ← h.span_eq]
    exact hprojects.snoc hl
  | .var .., _, h | .op .., _, h | .number .., _, h | .call .., _, h | .tuple .., _, h
  | .cond .., _, h | .closure .., _, h =>
    ⟨_, _, [], (List.append_nil _).symm, h, fun _ _ _ => Expr.noConfusion, .nil _⟩

theorem projections_accepts {e e' : Expr} (h : Projects e ls e') :
    ∀ c : Cursor, c.rest = ls ++ tail → (∀ l ∈ tail.head?, l.token.terminal ≠ .index) →
      (projections e c).value = e' ∧ c.Consumes ls (projections e c).next := by
  induction h with
  | nil e =>
    intro c hrest htail
    rw [projections]
    split
    · rename_i hadvance
      rw [(advance?_sound hadvance).rest_eq, List.nil_append] at hrest
      subst hrest
      exact absurd rfl (htail _ rfl)
    · exact ⟨rfl, (Consumes.refl c).miss [.index]⟩
  | @cons e e' l i ls hl _ ih =>
    intro c hrest htail
    obtain ⟨token, span⟩ := l
    obtain rfl : token = .index i := hl
    obtain ⟨c₁, h₁, hadvance, hread⟩ := advance?_of_rest hrest
    obtain ⟨hvalue, hls⟩ := ih c₁ (hread.rest_of_eq hrest) htail
    rw [projections, hadvance]
    exact ⟨hvalue, hread.cons hls⟩

/-- A name is read with the arguments that follow it. -/
theorem names_accepts {l : Lexeme} {callee : Callee} {c₁ : Cursor} {h₁ : c₁.size < c.size}
    {args : Option (List Expr)} (hadvance : c.advance? = some ⟨l, c₁, h₁⟩) (hl : Names l callee)
    (hargs : AcceptsOptional c₁.arguments ls args) :
    Accepts c.primary (l :: ls) (callee.applied args (spanOf (l :: ls))) := by
  obtain ⟨c₂, h₂, harguments, hls⟩ := hargs
  have hall := (advance?_sound hadvance).cons hls
  refine ⟨c₂, hall.size_lt, ?_, hall⟩
  rw [primary, hadvance, hall.spanOf_eq]
  obtain ⟨token, span⟩ := l
  cases hl with
  | var hl =>
    cases token with
    | localName name => cases args <;> simp only [harguments, Callee.applied, bind, Except.bind]
    | _ => cases hl
  | op hl =>
    cases token with
    | identifier name => cases args <;> simp only [harguments, Callee.applied, bind, Except.bind]
    | _ => cases hl

mutual

theorem primary_accepts {ls tail : List Lexeme} {e : Expr} (c : Cursor)
    (hrest : c.rest = ls ++ tail) (h : Derives ls e)
    (hget : ∀ source i span, e ≠ .get source i span)
    (htail : ∀ l ∈ tail.head?, l.token.terminal ≠ .leftParen) : Accepts c.primary ls e := by
  cases h with
  | var hl =>
    obtain ⟨c₁, h₁, hadvance, hread⟩ := advance?_of_rest hrest
    exact names_accepts hadvance (.var hl)
      (arguments_accepts c₁ (hread.rest_of_eq hrest) .none htail)
  | op hl =>
    obtain ⟨c₁, h₁, hadvance, hread⟩ := advance?_of_rest hrest
    exact names_accepts hadvance (.op hl)
      (arguments_accepts c₁ (hread.rest_of_eq hrest) .none htail)
  | @number l value hl =>
    obtain ⟨c₁, h₁, hadvance, hread⟩ := advance?_of_rest hrest
    refine ⟨c₁, h₁, ?_, hread⟩
    obtain ⟨token, span⟩ := l
    obtain rfl : token = .number value := hl
    rw [primary, hadvance]
    rfl
  | callVar hl hopen hitems =>
    obtain ⟨c₁, h₁, hadvance, hread⟩ := advance?_of_rest hrest
    exact names_accepts hadvance (.var hl)
      (arguments_accepts c₁ (hread.rest_of_eq hrest) (.some hopen hitems) htail)
  | callOp hl hopen hitems =>
    obtain ⟨c₁, h₁, hadvance, hread⟩ := advance?_of_rest hrest
    exact names_accepts hadvance (.op hl)
      (arguments_accepts c₁ (hread.rest_of_eq hrest) (.some hopen hitems) htail)
  | @tuple l ls fields hl hitems =>
    obtain ⟨c₁, h₁, hadvance, hread⟩ := advance?_of_rest hrest
    obtain ⟨c₂, h₂, hfields, hls⟩ := items_accepts
      (fun d _ _ _ _ hrest' he hends => expr_accepts d hrest' he hends)
      (fun _ _ he => he.startsIn) (by decide) hitems c₁ h₁ (hread.rest_of_eq hrest)
    have hall := hread.cons hls
    refine ⟨c₂, hall.size_lt, ?_, hall⟩
    rw [primary, hadvance, hall.spanOf_eq]
    obtain ⟨token, span⟩ := l
    cases token with
    | leftParen => simp only [hfields, bind, Except.bind]
    | _ => cases hl
  | get _ _ => exact absurd rfl (hget _ _ _)
  | @cond l l₁ l₂ l₃ ls ls₁ ls₂ test thenBlock elseBlock hl hopen htest hclose hthen hword helse =>
    obtain ⟨c₁, h₁, hadvance, hread⟩ := advance?_of_rest hrest
    have hrest₁ := hread.rest_of_eq hrest
    obtain ⟨c₂, h₂, hopened, hread₁⟩ := expect_accepts hrest₁ hopen
    have hrest₂ : c₂.rest = ls ++ l₂ :: (ls₁ ++ l₃ :: (ls₂ ++ tail)) := by
      simpa using hread₁.rest_of_eq hrest₁
    obtain ⟨c₃, h₃, htested, hls⟩ := expr_accepts c₂ hrest₂ htest (.cons hclose (by decide) _)
    have hrest₃ := hls.rest_of_eq hrest₂
    obtain ⟨c₄, h₄, hclosed, hread₂⟩ := expect_accepts hrest₃ hclose
    have hrest₄ := hread₂.rest_of_eq hrest₃
    obtain ⟨c₅, h₅, hthenRead, hls₁⟩ := block_accepts c₄ hrest₄ hthen
    have hrest₅ := hls₁.rest_of_eq hrest₄
    obtain ⟨c₆, h₆, hworded, hread₃⟩ := expect_accepts hrest₅ hword
    obtain ⟨c₇, h₇, helseRead, hls₂⟩ := block_accepts c₆ (hread₃.rest_of_eq hrest₅) helse
    have hall := hread.cons (hread₁.cons (hls.trans (hread₂.cons (hls₁.trans
      (hread₃.cons hls₂)))))
    refine ⟨c₇, hall.size_lt, ?_, hall⟩
    rw [primary, hadvance, hall.spanOf_eq]
    obtain ⟨token, span⟩ := l
    cases token with
    | ifWord =>
      simp only [hopened, htested, hclosed, hthenRead, hworded, helseRead, bind, Except.bind]
    | _ => cases hl
  | @closure l l' ls ls' params body hl hopen hitems hbody =>
    obtain ⟨c₁, h₁, hadvance, hread⟩ := advance?_of_rest hrest
    have hrest₁ : c₁.rest = l' :: (ls ++ (ls' ++ tail)) := by
      simpa using hread.rest_of_eq hrest
    obtain ⟨c₂, h₂, hparams, hls⟩ := params_accepts hrest₁ hopen hitems
    obtain ⟨c₃, h₃, hblock, hls'⟩ := block_accepts c₂ (hls.rest_of_eq hrest₁) hbody
    have hall := hread.cons (hls.trans hls')
    refine ⟨c₃, hall.size_lt, ?_, hall⟩
    rw [primary, hadvance]
    have hspan : spanOf (l :: l' :: (ls ++ ls')) = ⟨l.span.start, c₃.reached⟩ := hall.spanOf_eq
    rw [hspan]
    obtain ⟨token, span⟩ := l
    cases token with
    | fnWord => simp only [hparams, hblock, bind, Except.bind]
    | _ => cases hl
termination_by (c.size, 0)

theorem arguments_accepts {ls tail : List Lexeme} {args : Option (List Expr)} (c : Cursor)
    (hrest : c.rest = ls ++ tail) (h : DerivesArguments ls args)
    (htail : ∀ l ∈ tail.head?, l.token.terminal ≠ .leftParen) :
    AcceptsOptional c.arguments ls args := by
  cases h with
  | none =>
    obtain ⟨e, hopen⟩ := expect_rejects (c := c) (t := .leftParen) (by rwa [hrest])
    refine ⟨c.miss [.leftParen], Nat.le_refl _, ?_, (Consumes.refl c).miss [.leftParen]⟩
    rw [arguments, hopen]
  | some hl hitems =>
    obtain ⟨c₁, h₁, hopen, hread⟩ := expect_accepts hrest hl
    obtain ⟨c₂, h₂, hargs, hls⟩ := items_accepts
      (fun d _ _ _ _ hrest' he hends => expr_accepts d hrest' he hends)
      (fun _ _ he => he.startsIn) (by decide) hitems c₁ h₁ (hread.rest_of_eq hrest)
    have hall := hread.cons hls
    refine ⟨c₂, Nat.le_of_lt hall.size_lt, ?_, hall⟩
    rw [arguments, hopen]
    simp only [hargs, bind, Except.bind]
termination_by (c.size, 0)

/-- **An expression that is derived is read.** -/
theorem expr_accepts {ls tail : List Lexeme} {e : Expr} (c : Cursor) (hrest : c.rest = ls ++ tail)
    (h : Derives ls e) (hends : Ends tail) : Accepts c.expr ls e := by
  obtain ⟨e₀, ls₀, ls₁, rfl, hderives, hget, hprojects⟩ := exists_projects h
  rw [List.append_assoc] at hrest
  have hhead : ∀ l ∈ (ls₁ ++ tail).head?, l.token.terminal ≠ .leftParen := by
    cases hprojects with
    | nil => exact fun l hl => (hends l hl).1
    | cons hl _ =>
      rintro _ ⟨⟩
      rw [hl]
      exact (by decide : Terminal.index ≠ .leftParen)
  obtain ⟨c₁, h₁, hprimary, hls₀⟩ := primary_accepts c hrest hderives hget hhead
  obtain ⟨hvalue, hls₁⟩ := projections_accepts hprojects c₁ (hls₀.rest_of_eq hrest)
    fun l hl => (hends l hl).2
  have hall := hls₀.trans hls₁
  refine ⟨(projections e₀ c₁).next, Nat.lt_of_le_of_lt (projections e₀ c₁).next_le h₁, ?_, hall⟩
  rw [expr, hprimary]
  simp only [bind, Except.bind, hvalue]
termination_by (c.size, 1)

theorem blockRest_accepts {start : Nat} {ls tail : List Lexeme} {b : Block} (c : Cursor)
    (hrest : c.rest = ls ++ tail) (h : DerivesRest start ls b) :
    Accepts (blockRest start c) ls b := by
  cases h with
  | @result _ ls value l hvalue hclose =>
    rw [List.append_assoc] at hrest
    have hhead : ∀ l' ∈ c.rest.head?, l'.token.terminal ≠ .letWord := by
      obtain ⟨l', ls', rfl, hstarts⟩ := hvalue.startsIn
      rw [hrest]
      rintro _ ⟨⟩ hlet
      rw [hlet] at hstarts
      exact absurd hstarts (by decide)
    obtain ⟨e, hlet⟩ := expect_rejects hhead
    obtain ⟨c₁, h₁, hread, hls⟩ := expr_accepts (c.miss [.letWord]) hrest hvalue
      (.cons hclose (by decide) tail)
    have hrest₁ : c₁.rest = l :: tail := hls.rest_of_eq hrest
    obtain ⟨c₂, h₂, hclosed, hl⟩ := expect_accepts hrest₁ hclose
    have hall := hls.of_miss.trans hl
    have hstop : c₂.reached = l.span.stop := hl.reached_eq
    refine ⟨c₂, by simp at h₁; omega, ?_, hall⟩
    rw [blockRest, hlet]
    simp only [hread, hclosed, hstop, bind, Except.bind]
  | @bind _ l name l₁ l₂ ls ls₁ ls₂ ty value rest hlet hname hty hequals hvalue hsemicolon hblock =>
    obtain ⟨c₁, h₁, hletRead, hread⟩ := expect_accepts hrest hlet
    have hrest₁ := hread.rest_of_eq hrest
    obtain ⟨c₂, h₂, hnameRead, hread₁⟩ := expect_accepts hrest₁ hname
    have hrest₂ : c₂.rest = ls ++ l₁ :: (ls₁ ++ l₂ :: (ls₂ ++ tail)) := by
      simpa using hread₁.rest_of_eq hrest₁
    have hcolon : ∀ l ∈ (l₁ :: (ls₁ ++ l₂ :: (ls₂ ++ tail))).head?,
        l.token.terminal ≠ .colon := by
      rintro _ ⟨⟩
      rw [hequals]
      decide
    obtain ⟨c₃, h₃, htyRead, hls⟩ := annotation_accepts hrest₂ hcolon hty
    have hrest₃ := hls.rest_of_eq hrest₂
    obtain ⟨c₄, h₄, hequalsRead, hread₂⟩ := expect_accepts hrest₃ hequals
    have hrest₄ := hread₂.rest_of_eq hrest₃
    obtain ⟨c₅, h₅, hvalueRead, hls₁⟩ := expr_accepts c₄ hrest₄ hvalue
      (.cons hsemicolon (by decide) _)
    have hrest₅ := hls₁.rest_of_eq hrest₄
    obtain ⟨c₆, h₆, hsemicolonRead, hread₃⟩ := expect_accepts hrest₅ hsemicolon
    obtain ⟨c₇, h₇, hblockRead, hls₂⟩ := blockRest_accepts c₆ (hread₃.rest_of_eq hrest₅) hblock
    have hstatement := hread.cons (hread₁.cons (hls.trans (hread₂.cons (hls₁.trans hread₃))))
    have hall := hread.cons (hread₁.cons (hls.trans (hread₂.cons (hls₁.trans
      (hread₃.cons hls₂)))))
    refine ⟨c₇, hall.size_lt, ?_, hall⟩
    rw [blockRest, hletRead, hstatement.spanOf_eq]
    simp only [hnameRead, htyRead, hequalsRead, hvalueRead, hsemicolonRead, hblockRead, bind,
      Except.bind]
termination_by (c.size, 2)

theorem block_accepts {ls tail : List Lexeme} {b : Block} (c : Cursor)
    (hrest : c.rest = ls ++ tail) (h : DerivesBlock ls b) : Accepts c.block ls b := by
  obtain ⟨hl, h⟩ := h
  obtain ⟨c₁, h₁, hopen, hread⟩ := expect_accepts hrest hl
  obtain ⟨c₂, h₂, hblock, hls⟩ := blockRest_accepts c₁ (hread.rest_of_eq hrest) h
  have hall := hread.cons hls
  refine ⟨c₂, hall.size_lt, ?_, hall⟩
  rw [block, hopen]
  simp only [hblock, bind, Except.bind]
termination_by (c.size, 0)

end

/-- **Functions that are derived by all the lexemes are read.** -/
theorem functions_accepts {ls : List Lexeme} {fs : List FunctionDecl}
    (h : DerivesFunctions ls fs) : ∀ c : Cursor, c.rest = ls → c.functions = .ok fs := by
  induction h with
  | nil =>
    intro c hrest
    obtain ⟨e, hfn⟩ := expect_rejects (c := c) (t := .fnWord) (by
      rw [hrest]
      exact fun _ h => nomatch h)
    rw [functions, hfn]
    exact if_pos hrest
  | @cons _ ls' f fs hf _ ih =>
    intro c hrest
    obtain ⟨hl, hname, hopen, hparams, hbody⟩ := hf
    rename_i l name l' ls ls₁ params body
    obtain ⟨c₁, h₁, hfn, hread⟩ := expect_accepts hrest hl
    have hrest₁ := hread.rest_of_eq hrest
    obtain ⟨c₂, h₂, hglobal, hread₁⟩ := expect_accepts hrest₁ hname
    have hrest₂ : c₂.rest = l' :: (ls ++ (ls₁ ++ ls')) := by
      simpa using hread₁.rest_of_eq hrest₁
    obtain ⟨c₃, h₃, hparamsRead, hls⟩ := params_accepts hrest₂ hopen hparams
    have hrest₃ : c₃.rest = ls₁ ++ ls' := hls.rest_of_eq hrest₂
    obtain ⟨c₄, h₄, hblock, hls₁⟩ := block_accepts c₃ hrest₃ hbody
    have hall := hread.cons (hread₁.cons (hls.trans hls₁))
    have hspan : spanOf (l :: name :: l' :: (ls ++ ls₁)) = ⟨l.span.start, c₄.reached⟩ :=
      hall.spanOf_eq
    rw [functions, hfn, hspan]
    simp only [hglobal, hparamsRead, hblock, ih c₄ (hls₁.rest_of_eq hrest₃), bind, Except.bind]

end Completeness

end Cursor

/-! ### Source texts -/

/-- **A module that is read without errors is derived by the lexemes of its text.** -/
theorem parse_sound {source : String} {m : Module} (h : parse source = (some m, [])) :
    lexicalErrors source = [] ∧ DerivesFunctions (lexemes source) m.functions := by
  unfold parse at h
  split at h
  · rename_i m' hm
    obtain ⟨hsome, hlexical⟩ := Prod.mk.inj h
    obtain rfl := Option.some.inj hsome
    refine ⟨List.map_eq_nil_iff.1 hlexical, ?_⟩
    rcases hfs : Cursor.functions ⟨lexemes source, [], 0⟩ with e | fs
    · rw [parseLexemes, hfs] at hm
      cases hm
    · rw [parseLexemes, hfs] at hm
      cases hm
      exact Cursor.functions_sound _ hfs
  · cases (Prod.mk.inj h).1

/-- **Functions that are derived by the lexemes of a text are read.** -/
theorem exists_parse {source : String} {fs : List FunctionDecl}
    (hlexical : lexicalErrors source = []) (h : DerivesFunctions (lexemes source) fs) :
    ∃ m, parse source = (some m, []) ∧ m.functions = fs := by
  have hfs := Cursor.functions_accepts h ⟨lexemes source, [], 0⟩ rfl
  obtain ⟨span, hmodule⟩ : ∃ span, parseLexemes source.utf8ByteSize (lexemes source) =
      .ok ⟨fs, span⟩ := by
    rw [parseLexemes, hfs]
    exact ⟨_, rfl⟩
  refine ⟨⟨fs, span⟩, ?_, rfl⟩
  rw [parse, hmodule, hlexical]
  rfl

end Syntax
end TensorLiveness
