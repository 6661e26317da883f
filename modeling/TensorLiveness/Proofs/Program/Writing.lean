/-
# The tokens of a printed program

`Expr.tokens` lists the tokens that make up an expression as it is printed.  Scanning finds exactly
these in the text of what can be written (`Writable.scans`, `WritableBlock.scans`,
`scans_functions`).

A text that ends in a name or in a number is scanned so only in front of what does not lengthen it
(`Scans Delimited`); one that ends in punctuation or in a blank, in front of anything
(`Scans fun _ => True`).
-/

import TensorLiveness.Program.Printer
import TensorLiveness.Proofs.Program.Legible
import TensorLiveness.Proofs.Program.WellFormed

namespace TensorLiveness
namespace Syntax

open Number

/-! ### Blanks and punctuation -/

/-- The token that a character is by itself. -/
def punctuation? : Char → Option Token
  | '(' => some .leftParen
  | ')' => some .rightParen
  | '\x7b' => some .leftBrace
  | '\x7d' => some .rightBrace
  | ',' => some .comma
  | ';' => some .semicolon
  | ':' => some .colon
  | '=' => some .equals
  | _ => none

/-- The tokens of a text of blanks and punctuation. -/
def marks? : List Char → Option (List Token)
  | [] => some []
  | c :: cs =>
    if isBlank c then marks? cs
    else (punctuation? c).bind fun t => (marks? cs).map (t :: ·)

theorem firstPiece_punctuation {c : Char} {t : Token} (h : punctuation? c = some t)
    (cs : List Char) : firstPiece c cs = (0, .token t) := by
  unfold punctuation? at h
  split at h
  all_goals cases h
  all_goals rfl

theorem significant_marks : ∀ {cs : List Char} {ts : List Token}, marks? cs = some ts →
    ∀ rest, significant (cs ++ rest) = ts.map .token ++ significant rest
  | [], _, h, rest => by
    cases h
    rfl
  | c :: cs, ts, h, rest => by
    rw [marks?] at h
    split at h
    · rename_i hblank
      rw [List.cons_append, significant_blank hblank, significant_marks h]
    · obtain ⟨t, ht, hmap⟩ := Option.bind_eq_some_iff.1 h
      obtain ⟨ts, hts, rfl⟩ := Option.map_eq_some_iff.1 hmap
      rw [List.cons_append, significant_of_firstPiece (firstPiece_punctuation ht _), List.drop_zero,
        significant_marks hts]
      rfl

theorem delimited_of_blank {c : Char} (h : isBlank c = true) (cs : List Char) :
    Delimited (c :: cs) := by
  simp only [isBlank, Bool.or_eq_true, decide_eq_true_eq] at h
  rcases h with ((rfl | rfl) | rfl) | rfl <;> exact .cons (by decide) _

theorem delimited_of_punctuation {c : Char} {t : Token} (h : punctuation? c = some t)
    (cs : List Char) : Delimited (c :: cs) := by
  unfold punctuation? at h
  split at h
  all_goals cases h
  all_goals exact .cons (by decide) _

/-- Blanks and punctuation end names and numbers. -/
theorem delimited_of_marks {cs : List Char} {ts : List Token} (h : marks? cs = some ts)
    (hne : cs ≠ []) (rest : List Char) : Delimited (cs ++ rest) := by
  cases cs with
  | nil => exact absurd rfl hne
  | cons c cs =>
    rw [marks?] at h
    split at h
    · rename_i hblank
      exact delimited_of_blank hblank _
    · obtain ⟨t, ht, _⟩ := Option.bind_eq_some_iff.1 h
      exact delimited_of_punctuation ht _

theorem isDotted_of_isWord {w : List Char} (h : IsWord w) : IsDotted w := by
  have := IsDotted.mk h .nil
  rwa [List.append_nil] at this

namespace Scans

variable {p : List Char → Prop} {a b : String} {as bs : List Token}

theorem marks (h : marks? a.toList = some as) : Scans p a as :=
  fun rest _ => significant_marks h rest

/-- A text that may stand in front of any other. -/
theorem before (ha : Scans (fun _ => True) a as) (hb : Scans p b bs) :
    Scans p (a ++ b) (as ++ bs) :=
  ha.append hb fun _ _ => trivial

/-- Punctuation behind a name or a number. -/
theorem then_marks (ha : Scans Delimited a as) (hb : marks? b.toList = some bs)
    (hne : b.toList ≠ []) : Scans p (a ++ b) (as ++ bs) :=
  ha.append (marks hb) fun rest _ => delimited_of_marks hb hne rest

/-! ### Names and numbers -/

/-- A dotted name in front of what does not lengthen it. -/
theorem dotted {name : String} (h : IsDotted name.toList) :
    Scans Delimited name [nameToken name.toList false] :=
  fun _ hrest => significant_dotted h hrest

theorem identifier {name : String} (h : IsIdentifier name) :
    Scans Delimited name [.identifier name] :=
  nameToken_eq h.2 ▸ dotted h.1

/-- A keyword between blanks and punctuation. -/
theorem keyword (front w : List Char) {text : String} {back : List Char} {t : Token}
    {ts us : List Token} (htext : text.toList = front ++ (w ++ back))
    (hfront : marks? front = some ts) (hw : IsWord w) (ht : nameToken w false = t)
    (hback : marks? back = some us) (hne : back ≠ []) : Scans p text (ts ++ t :: us) := by
  intro rest _
  rw [htext, List.append_assoc, List.append_assoc, significant_marks hfront,
    significant_dotted (isDotted_of_isWord hw) (delimited_of_marks hback hne rest),
    significant_marks hback, ht, List.map_append, List.append_assoc]
  rfl

theorem number {x : Binary64} (h : x.IsFinite) : Scans Delimited x.render [.number x] := by
  obtain ⟨negative, m, rfl⟩ := h
  exact fun _ hrest => significant_number negative m hrest

/-- A local name in front of what is no part of a word. -/
theorem localName {name : String} (h : IsWord name.toList) :
    Scans (fun rest => ∀ c ∈ rest.head?, isWordChar c = false) ("%" ++ name)
      [.localName name] := by
  intro rest hrest
  rw [String.toList_append, List.append_assoc]
  exact ((significant_sigil h hrest).1).trans (by rw [String.ofList_toList]; rfl)

theorem globalName {name : String} (h : IsWord name.toList) :
    Scans Delimited ("@" ++ name) [.globalName name] := by
  intro rest hrest
  rw [String.toList_append, List.append_assoc]
  exact ((significant_sigil h hrest.not_wordChar).2).trans (by rw [String.ofList_toList]; rfl)

theorem index {i : Nat} (h : i < UInt64.size) :
    Scans Delimited ("." ++ toString i) [.index i] := by
  have htext : ("." ++ toString i).toList = '.' :: Nat.toDigits 10 i := by
    rw [String.toList_append, Nat.toString_eq_ofList_toDigits]
    exact congrArg ('.' :: ·) String.toList_ofList
  intro rest hrest
  rw [htext]
  exact significant_index h fun c hc => isDigit_eq_false (hrest c hc).1

end Scans

/-! ### Lists -/

/-- The tokens of a list with commas between its items. -/
def commas : List (List Token) → List Token
  | [] => []
  | [ts] => ts
  | ts :: us :: tss => ts ++ .comma :: commas (us :: tss)

/-- The tokens of the rest of a list, with the parenthesis that closes it. -/
def listed (tss : List (List Token)) : List Token := commas tss ++ [.rightParen]

/-- The tokens of a block around those of its inside. -/
def enclosed (ts : List Token) : List Token := .leftBrace :: (ts ++ [.rightBrace])

/-- **A list of texts** is scanned as the tokens of its items with commas between them. -/
theorem Scans.commas : ∀ {texts : List String} {tss : List (List Token)},
    List.Forall₂ (Scans Delimited) texts tss →
      Scans Delimited (", ".intercalate texts) (commas tss)
  | [], _, .nil => by
    rw [String.intercalate_nil]
    exact .empty
  | [text], _, .cons h .nil => by
    rw [String.intercalate_singleton]
    exact h
  | text :: text' :: texts, ts :: us :: tss, .cons h hs => by
    have hrest := Scans.commas hs
    rw [String.intercalate_cons_cons]
    have := (h.then_marks (b := ", ") rfl (by decide)).before hrest
    simpa only [Syntax.commas, List.append_assoc, List.cons_append, List.nil_append] using this

end Syntax

namespace Program

open Number Syntax

/-! ### The tokens of a program -/

mutual

/-- The tokens of a type. -/
def Ty.tokens : Ty → List Token
  | .tensor => [.identifier "Tensor"]
  | .func => [.identifier "Func"]
  | .tuple fields => .leftParen :: listed (Ty.tokensAll fields)
  | .other name => [.identifier name]

/-- The tokens of types. -/
def Ty.tokensAll : List Ty → List (List Token)
  | [] => []
  | t :: ts => t.tokens :: Ty.tokensAll ts

end

/-- The tokens of a binder with its type. -/
def BinderTable.declarationTokens (vars : BinderTable) (v : Handle) : List Token :=
  .localName (vars.nameOf v) :: .colon :: ((vars.ty? v).getD .tensor).tokens

mutual

/-- The tokens of an expression. -/
def Expr.tokens (vars : BinderTable) : Expr → List Token
  | .var v => [.localName (vars.nameOf v)]
  | .const value => [.number value]
  | .op name => [.identifier name]
  | .call callee args _ =>
    callee.tokens vars ++ .leftParen :: listed (Expr.tokensAll vars args)
  | .tuple fields =>
    .leftParen ::
      if fields.length = 1 then commas (Expr.tokensAll vars fields) ++ [.comma, .rightParen]
      else listed (Expr.tokensAll vars fields)
  | .get source index => source.tokens vars ++ [.index index]
  | .cond test thenBranch elseBranch _ =>
    .ifWord :: .leftParen :: (test.tokens vars ++ .rightParen ::
      (enclosed (thenBranch.tokens vars) ++ .elseWord :: enclosed (elseBranch.tokens vars)))
  | .closure params body =>
    .fnWord :: .leftParen ::
      (listed (params.map vars.declarationTokens) ++ enclosed (body.tokens vars))
  | .letIn v value body =>
    .letWord :: (vars.declarationTokens v ++ .equals ::
      (value.tokens vars ++ .semicolon :: body.tokens vars))

/-- The tokens of expressions. -/
def Expr.tokensAll (vars : BinderTable) : List Expr → List (List Token)
  | [] => []
  | e :: es => e.tokens vars :: Expr.tokensAll vars es

end

/-- The tokens of a function. -/
def Function.tokens (vars : BinderTable) (name : String) (f : Function) : List Token :=
  .fnWord :: .globalName name :: .leftParen ::
    (listed (f.params.map vars.declarationTokens) ++ enclosed (f.body.tokens vars))

/-! ### Scanning what was printed -/

mutual

theorem Ty.Writable.scans : ∀ {t : Ty}, t.Writable → Scans Delimited t.display t.tokens
  | .tensor, _ => .identifier ⟨isDotted_of_isWord (.of_all rfl rfl), by decide⟩
  | .func, _ => .identifier ⟨isDotted_of_isWord (.of_all rfl rfl), by decide⟩
  | .other name, h => .identifier h.1
  | .tuple fields, h => by
    have hfields := Scans.commas (Ty.WritableAll.scans h)
    have := ((Scans.marks (a := "(") rfl).before hfields).then_marks (b := ")") rfl (by decide)
      (p := Delimited)
    simpa only [Ty.display, Ty.tokens, listed, List.append_assoc, List.cons_append, List.nil_append]
      using this

theorem Ty.WritableAll.scans : ∀ {ts : List Ty}, Ty.WritableAll ts →
    List.Forall₂ (Scans Delimited) (Ty.displayAll ts) (Ty.tokensAll ts)
  | [], _ => .nil
  | _ :: _, h => .cons (Ty.Writable.scans h.1) (Ty.WritableAll.scans h.2)

end

section

variable {vars : BinderTable} {p : List Char → Prop}

theorem nameOf_eq {v : Handle} {name : String} (hv : vars.name? v = some name) :
    vars.nameOf v = name := by
  rw [BinderTable.nameOf, hv]
  rfl

theorem display_eq {v : Handle} {name : String} (hv : vars.name? v = some name) :
    vars.display v = "%" ++ name := by
  rw [BinderTable.display, hv]

theorem scans_declaration (hvars : vars.Writable) {v : Handle}
    (h : vars.Declared v) : Scans Delimited (vars.declaration v) (vars.declarationTokens v) := by
  obtain ⟨⟨name, hname⟩, ty, hty⟩ := h
  have hlocal := (Scans.localName (hvars.isWord hname)).mono fun _ h => Delimited.not_wordChar h
  have := (hlocal.then_marks (b := ": ") rfl (by decide)).before (hvars.ty hty).scans
  rw [BinderTable.declaration, BinderTable.declarationTokens, display_eq hname, nameOf_eq hname,
    hty, Option.getD_some]
  simpa only [List.append_assoc, List.cons_append, List.nil_append] using this

theorem scans_declarations (hvars : vars.Writable) {vs : List Handle}
    (h : ∀ v ∈ vs, vars.Declared v) :
    Scans Delimited (vars.declarations vs) (commas (vs.map vars.declarationTokens)) := by
  refine Scans.commas ?_
  induction vs with
  | nil => exact .nil
  | cons v vs ih =>
    exact .cons (scans_declaration hvars (h v List.mem_cons_self))
      (ih fun w hw => h w (List.mem_cons_of_mem _ hw))

theorem scans_indentation (depth : Nat) : Scans p (indentation depth) [] := by
  refine .marks ?_
  rw [indentation, String.toList_ofList]
  induction 2 * depth with
  | zero => rfl
  | succ n ih => exact ih

/-- Lines between braces. -/
theorem scans_braced {lines : String} {ts : List Token} (h : Scans (fun _ => True) lines ts)
    (depth : Nat) : Scans p (braced depth lines) (enclosed ts) := by
  have := (((Scans.marks (a := "\x7b\n") rfl).before h).before
    (scans_indentation depth)).before (Scans.marks (a := "\x7d") rfl (p := p))
  simpa only [Program.braced, enclosed, List.append_assoc, List.cons_append, List.nil_append]
    using this

/-- The result of a block on a line of its own. -/
theorem scans_line {text : String} {ts : List Token} (h : Scans Delimited text ts) (depth : Nat) :
    Scans p (indentation depth ++ text ++ "\n") ts := by
  have := ((scans_indentation depth).before h).then_marks (b := "\n") rfl (by decide) (p := p)
  simpa only [List.nil_append, List.append_nil] using this

theorem print_withResultType (ty : Ty) (position : Position) (depth : Nat) (e : Expr) :
    (e.withResultType ty).print vars position depth = e.print vars position depth := by
  cases e <;> rfl

theorem tokens_withResultType (ty : Ty) (e : Expr) :
    (e.withResultType ty).tokens vars = e.tokens vars := by
  cases e <;> rfl

/-- A result is printed like an operand, on a line of its own. -/
theorem Writable.print_sequence {e : Expr} (h : Writable vars e) (depth : Nat) :
    e.print vars .sequence depth =
      indentation depth ++ e.print vars .operand depth ++ "\n" := by
  cases h <;> rfl

mutual

/-- **What can be written is scanned as its tokens.** -/
theorem Writable.scans (hvars : vars.Writable) : ∀ {e : Expr}, Writable vars e → ∀ depth,
    Scans Delimited (e.print vars .operand depth) (e.tokens vars)
  | .var v, .var hv, _ => by
    have := (Scans.localName (hvars.isWord hv)).mono fun _ h => Delimited.not_wordChar h
    rw [Expr.tokens, nameOf_eq hv]
    rwa [← display_eq hv] at this
  | .const _, .const hvalue, _ => .number hvalue
  | .op _, .op hname, _ => .identifier hname
  | .call _ _ _, .call hname hargs, depth => by
    have := (((Scans.identifier hname).then_marks (b := "(") rfl (by decide)).before
      (Scans.commas (WritableAll.scans hvars hargs depth))).then_marks (b := ")") rfl (by decide)
      (p := Delimited)
    simpa only [Expr.print, placed, Expr.tokens, listed, List.append_assoc, List.cons_append,
      List.nil_append] using this
  | .tuple fields, .tuple hfields, depth => by
    have hitems := (Scans.marks (a := "(") rfl).before
      (Scans.commas (WritableAll.scans hvars hfields depth))
    rw [Expr.print, placed, Expr.tokens]
    split
    · have := hitems.then_marks (b := ",)") rfl (by decide) (p := Delimited)
      simpa only [List.append_assoc, List.cons_append, List.nil_append] using this
    · have := hitems.then_marks (b := ")") rfl (by decide) (p := Delimited)
      simpa only [listed, List.append_assoc, List.cons_append, List.nil_append] using this
  | .get _ index, @Writable.get _ v name _ hv hindex, depth => by
    have hpoint : ∀ rest, Delimited rest →
        ∀ c ∈ (("." ++ toString index).toList ++ rest).head?, isWordChar c = false := by
      intro rest _
      rw [String.toList_append, List.append_assoc]
      rintro _ ⟨⟩
      rfl
    have := (Scans.localName (hvars.isWord hv)).append (.index hindex) hpoint
    rw [← String.append_assoc, ← display_eq hv] at this
    rw [Expr.tokens, Expr.tokens, nameOf_eq hv]
    exact this
  | .cond _ _ _ _, .cond htest hthen helse, depth => by
    have hif : Scans (fun _ => True) "if (" [.ifWord, .leftParen] :=
      .keyword [] ['i', 'f'] rfl rfl (.of_all rfl rfl) rfl rfl (by decide)
    have helseWord : Scans (fun _ => True) " else " [.elseWord] :=
      .keyword [' '] ['e', 'l', 's', 'e'] rfl rfl (.of_all rfl rfl) rfl rfl (by decide)
    have := ((((hif.before (Writable.scans hvars htest depth)).then_marks (b := ") ") rfl
      (by decide)).before (scans_braced (WritableBlock.scans hvars hthen (depth + 1)) depth)).before
        helseWord).before (scans_braced (WritableBlock.scans hvars helse (depth + 1)) depth)
          (p := Delimited)
    simpa only [Expr.print, placed, Expr.tokens, listed, List.append_assoc, List.cons_append,
      List.nil_append, String.append_assoc] using this
  | .closure params body, .closure hparams hbody, depth => by
    have hfn : Scans (fun _ => True) "fn(" [.fnWord, .leftParen] :=
      .keyword [] ['f', 'n'] rfl rfl (.of_all rfl rfl) rfl rfl (by decide)
    have := ((hfn.before (scans_declarations hvars hparams)).then_marks (b := ") ") rfl
      (by decide)).before (scans_braced (WritableBlock.scans hvars hbody (depth + 1)) depth)
        (p := Delimited)
    simpa only [Expr.print, placed, Expr.tokens, listed, List.append_assoc, List.cons_append,
      List.nil_append] using this

theorem WritableAll.scans (hvars : vars.Writable) : ∀ {es : List Expr}, WritableAll vars es →
    ∀ depth, List.Forall₂ (Scans Delimited) (Expr.printAll vars depth es) (Expr.tokensAll vars es)
  | [], .nil, _ => .nil
  | _ :: _, .cons h hs, depth =>
    .cons (Writable.scans hvars h depth) (WritableAll.scans hvars hs depth)

/-- The same for a block, whose last line is closed. -/
theorem WritableBlock.scans (hvars : vars.Writable) : ∀ {e : Expr}, WritableBlock vars e →
    ∀ depth, Scans (fun _ => True) (e.print vars .sequence depth) (e.tokens vars)
  | _, .result h, depth => by
    rw [h.print_sequence]
    exact scans_line (Writable.scans hvars h depth) depth
  | _, .bind hv hty hvalue hbody, depth => by
    have hlet : Scans (fun _ => True) "let " [.letWord] :=
      .keyword [] ['l', 'e', 't'] rfl rfl (.of_all rfl rfl) rfl rfl (by decide)
    have := (((((scans_indentation depth).before hlet).before
      (scans_declaration hvars ⟨⟨_, hv⟩, _, hty⟩)).then_marks (b := " = ") rfl (by decide)).before
        (Writable.scans hvars hvalue depth)).then_marks (b := ";\n") rfl (by decide)
          (p := fun _ => True)
    have := this.before (WritableBlock.scans hvars hbody depth)
    simpa only [Expr.print, statement, print_withResultType, tokens_withResultType, Expr.tokens,
      List.append_assoc, List.cons_append, List.nil_append] using this

end

/-- A function is scanned as its tokens. -/
theorem WritableFunction.scans (hvars : vars.Writable) {g : String × Function}
    (h : WritableFunction vars g) :
    Scans (fun _ => True) (g.2.print vars g.1) (g.2.tokens vars g.1) := by
  have hfn : Scans (fun _ => True) "fn " [.fnWord] :=
    .keyword [] ['f', 'n'] rfl rfl (.of_all rfl rfl) rfl rfl (by decide)
  have hname : Scans Delimited ("fn @" ++ g.1) [.fnWord, .globalName g.1] := by
    have := hfn.before (Scans.globalName h.name)
    rwa [← String.append_assoc] at this
  have := ((((hname.then_marks (b := "(") rfl (by decide)).before
    (scans_declarations hvars h.params)).then_marks (b := ") ") rfl (by decide)).before
      (scans_braced (h.body.scans hvars 1) 0)).before (Scans.marks (a := "\n") rfl)
        (p := fun _ => True)
  simpa only [Function.print, Function.tokens, listed, List.append_assoc, List.cons_append,
    List.nil_append, List.append_nil] using this

/-- **The functions of a program, one after the other,** are scanned as their tokens. -/
theorem scans_functions (hvars : vars.Writable) {gs : List (String × Function)}
    (h : ∀ g ∈ gs, WritableFunction vars g) :
    Scans (fun _ => True) (String.join (gs.map fun g => g.2.print vars g.1))
      (gs.flatMap fun g => g.2.tokens vars g.1) := by
  induction gs with
  | nil => exact .empty
  | cons g gs ih =>
    rw [List.map_cons, String.join_cons, List.flatMap_cons]
    exact ((h g List.mem_cons_self).scans hvars).before
      (ih fun g' hg' => h g' (List.mem_cons_of_mem _ hg'))

end

end Program
end TensorLiveness
