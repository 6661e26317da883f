/-
# The grammar

Which lexemes derive which tree, rule by rule.  A node spans its first lexeme through its last.

| relation | rule |
| --- | --- |
| `Items item` | `item,* )`: the rest of a list, up to the parenthesis that closes it |
| `DerivesType` | `IDENT \| ( type,* )` |
| `DerivesParam` | `LOCAL : type` |
| `DerivesAnnotation` | `(: type)?` |
| `Derives` | expressions; a projection is behind the expression that it projects from |
| `DerivesRest` | `(let LOCAL annotation = expr ;)* expr }`: the rest of a block |
| `DerivesBlock` | `{ rest` |
| `DerivesFunction` | `fn GLOBAL ( params block` |

In a list a comma may stand behind the last item.
-/

import TensorLiveness.Syntax.Parser

namespace TensorLiveness
namespace Syntax

open Number Text

/-! ### Spans -/

/-- The end of the last of the lexemes, or `reached` if there are none. -/
def stopAfter (reached : Nat) (ls : List Lexeme) : Nat :=
  (ls.getLast?.map (·.span.stop)).getD reached

@[simp] theorem stopAfter_cons (reached : Nat) (l : Lexeme) (ls : List Lexeme) :
    stopAfter reached (l :: ls) = stopAfter l.span.stop ls := by
  cases ls with
  | nil => rfl
  | cons l' ls =>
    rw [stopAfter, List.getLast?_cons_cons, stopAfter, List.getLast?_eq_some_getLast
      (List.cons_ne_nil _ _)]
    rfl

@[simp] theorem stopAfter_append (reached : Nat) (as bs : List Lexeme) :
    stopAfter reached (as ++ bs) = stopAfter (stopAfter reached as) bs := by
  induction as generalizing reached with
  | nil => rfl
  | cons a as ih => rw [List.cons_append, stopAfter_cons, stopAfter_cons, ih]

/-- The span from the first of the lexemes to the last. -/
def spanOf : List Lexeme → Span
  | [] => .nowhere
  | l :: ls => ⟨l.span.start, stopAfter l.span.stop ls⟩

theorem spanOf_append {ls : List Lexeme} (h : ls ≠ []) (ls' : List Lexeme) :
    spanOf (ls ++ ls') = ⟨(spanOf ls).start, stopAfter (spanOf ls).stop ls'⟩ := by
  obtain ⟨l, ls, rfl⟩ := List.exists_cons_of_ne_nil h
  rw [List.cons_append, spanOf, spanOf, stopAfter_append]

/-! ### Rules -/

/-- The rest of a comma-separated list with the parenthesis that closes it. -/
inductive Items {α : Type} (item : List Lexeme → α → Prop) : List Lexeme → List α → Prop
  | close {l : Lexeme} : l.token.terminal = .rightParen → Items item [l] []
  | last {ls : List Lexeme} {x : α} {l : Lexeme} : item ls x → l.token.terminal = .rightParen →
    Items item (ls ++ [l]) [x]
  | cons {ls ls' : List Lexeme} {x : α} {xs : List α} {l : Lexeme} : item ls x →
    l.token.terminal = .comma → Items item ls' xs → Items item (ls ++ l :: ls') (x :: xs)

/-- Types. -/
inductive DerivesType : List Lexeme → TypeTerm → Prop
  | named {l : Lexeme} : l.token.terminal = .identifier → DerivesType [l] (.named l.ident)
  | tuple {l : Lexeme} {ls : List Lexeme} {fields : List TypeTerm} :
    l.token.terminal = .leftParen → Items DerivesType ls fields →
    DerivesType (l :: ls) (.tuple fields (spanOf (l :: ls)))

/-- Parameters. -/
inductive DerivesParam : List Lexeme → Param → Prop
  | mk {name colon : Lexeme} {ls : List Lexeme} {ty : TypeTerm} :
    name.token.terminal = .localName → colon.token.terminal = .colon → DerivesType ls ty →
    DerivesParam (name :: colon :: ls) ⟨name.ident, ty, spanOf (name :: colon :: ls)⟩

/-- Types behind a colon, or nothing. -/
inductive DerivesAnnotation : List Lexeme → Option TypeTerm → Prop
  | none : DerivesAnnotation [] none
  | some {colon : Lexeme} {ls : List Lexeme} {ty : TypeTerm} : colon.token.terminal = .colon →
    DerivesType ls ty → DerivesAnnotation (colon :: ls) (some ty)

mutual

/-- Expressions. -/
inductive Derives : List Lexeme → Expr → Prop
  | var {l : Lexeme} : l.token.terminal = .localName → Derives [l] (.var l.ident (spanOf [l]))
  | op {l : Lexeme} : l.token.terminal = .identifier → Derives [l] (.op l.ident (spanOf [l]))
  | number {l : Lexeme} {value : Binary64} : l.token = .number value →
    Derives [l] (.number value (spanOf [l]))
  | callVar {l l' : Lexeme} {ls : List Lexeme} {args : List Expr} :
    l.token.terminal = .localName → l'.token.terminal = .leftParen → Items Derives ls args →
    Derives (l :: l' :: ls) (.call (.var l.ident) args (spanOf (l :: l' :: ls)))
  | callOp {l l' : Lexeme} {ls : List Lexeme} {args : List Expr} :
    l.token.terminal = .identifier → l'.token.terminal = .leftParen → Items Derives ls args →
    Derives (l :: l' :: ls) (.call (.op l.ident) args (spanOf (l :: l' :: ls)))
  | tuple {l : Lexeme} {ls : List Lexeme} {fields : List Expr} :
    l.token.terminal = .leftParen → Items Derives ls fields →
    Derives (l :: ls) (.tuple fields (spanOf (l :: ls)))
  | get {ls : List Lexeme} {source : Expr} {l : Lexeme} {i : Nat} : Derives ls source →
    l.token = .index i → Derives (ls ++ [l]) (.get source i (spanOf (ls ++ [l])))
  | cond {l l₁ l₂ l₃ : Lexeme} {ls ls₁ ls₂ : List Lexeme} {test : Expr}
    {thenBlock elseBlock : Block} : l.token.terminal = .ifWord → l₁.token.terminal = .leftParen →
    Derives ls test → l₂.token.terminal = .rightParen → DerivesBlock ls₁ thenBlock →
    l₃.token.terminal = .elseWord → DerivesBlock ls₂ elseBlock →
    Derives (l :: l₁ :: (ls ++ l₂ :: (ls₁ ++ l₃ :: ls₂)))
      (.cond test thenBlock elseBlock (spanOf (l :: l₁ :: (ls ++ l₂ :: (ls₁ ++ l₃ :: ls₂)))))
  | closure {l l' : Lexeme} {ls ls' : List Lexeme} {params : List Param} {body : Block} :
    l.token.terminal = .fnWord → l'.token.terminal = .leftParen → Items DerivesParam ls params →
    DerivesBlock ls' body →
    Derives (l :: l' :: (ls ++ ls')) (.closure params body (spanOf (l :: l' :: (ls ++ ls'))))

/-- Blocks. -/
inductive DerivesBlock : List Lexeme → Block → Prop
  | mk {l : Lexeme} {ls : List Lexeme} {b : Block} : l.token.terminal = .leftBrace →
    DerivesRest l.span.start ls b → DerivesBlock (l :: ls) b

/-- The rest of a block that started at byte `start`. -/
inductive DerivesRest : Nat → List Lexeme → Block → Prop
  | result {start : Nat} {ls : List Lexeme} {value : Expr} {l : Lexeme} : Derives ls value →
    l.token.terminal = .rightBrace →
    DerivesRest start (ls ++ [l]) (.result value ⟨start, l.span.stop⟩)
  | bind {start : Nat} {l name l₁ l₂ : Lexeme} {ls ls₁ ls₂ : List Lexeme} {ty : Option TypeTerm}
    {value : Expr} {rest : Block} : l.token.terminal = .letWord →
    name.token.terminal = .localName → DerivesAnnotation ls ty → l₁.token.terminal = .equals →
    Derives ls₁ value → l₂.token.terminal = .semicolon → DerivesRest start ls₂ rest →
    DerivesRest start (l :: name :: (ls ++ l₁ :: (ls₁ ++ l₂ :: ls₂)))
      (.bind name.ident ty value (spanOf (l :: name :: (ls ++ l₁ :: (ls₁ ++ [l₂])))) rest)

end

/-- Functions. -/
inductive DerivesFunction : List Lexeme → FunctionDecl → Prop
  | mk {l name l' : Lexeme} {ls ls' : List Lexeme} {params : List Param} {body : Block} :
    l.token.terminal = .fnWord → name.token.terminal = .globalName →
    l'.token.terminal = .leftParen → Items DerivesParam ls params → DerivesBlock ls' body →
    DerivesFunction (l :: name :: l' :: (ls ++ ls'))
      ⟨name.ident, params, body, spanOf (l :: name :: l' :: (ls ++ ls'))⟩

/-- Functions one after the other. -/
inductive DerivesFunctions : List Lexeme → List FunctionDecl → Prop
  | nil : DerivesFunctions [] []
  | cons {ls ls' : List Lexeme} {f : FunctionDecl} {fs : List FunctionDecl} :
    DerivesFunction ls f → DerivesFunctions ls' fs → DerivesFunctions (ls ++ ls') (f :: fs)

/-! ### What a derivation begins with -/

/-- The first of the lexemes is of one of these terminals. -/
def StartsIn (starts : List Terminal) (ls : List Lexeme) : Prop :=
  ∃ l ls', ls = l :: ls' ∧ l.token.terminal ∈ starts

theorem StartsIn.ne_nil {starts : List Terminal} {ls : List Lexeme} (h : StartsIn starts ls) :
    ls ≠ [] := by
  obtain ⟨l, ls', rfl, _⟩ := h
  exact List.cons_ne_nil l ls'

theorem StartsIn.append {starts : List Terminal} {ls : List Lexeme} (h : StartsIn starts ls)
    (ls' : List Lexeme) : StartsIn starts (ls ++ ls') := by
  obtain ⟨l, ls₀, rfl, hl⟩ := h
  exact ⟨l, ls₀ ++ ls', rfl, hl⟩

theorem StartsIn.cons {starts : List Terminal} {l : Lexeme} (ls : List Lexeme)
    (h : l.token.terminal ∈ starts) : StartsIn starts (l :: ls) := ⟨l, ls, rfl, h⟩

theorem DerivesType.startsIn {ls : List Lexeme} {ty : TypeTerm} (h : DerivesType ls ty) :
    StartsIn typeStarts ls := by
  cases h with
  | named hl => exact .cons _ (by rw [hl]; decide)
  | tuple hl _ => exact .cons _ (by rw [hl]; decide)

theorem DerivesParam.startsIn {ls : List Lexeme} {p : Param} (h : DerivesParam ls p) :
    StartsIn [.localName] ls := by
  obtain ⟨hname, _, _⟩ := h
  exact .cons _ (by rw [hname]; decide)

theorem Derives.startsIn : ∀ {e : Expr} {ls : List Lexeme}, Derives ls e → StartsIn exprStarts ls
  | .var .., _, .var h => .cons _ (by rw [h]; decide)
  | .op .., _, .op h => .cons _ (by rw [h]; decide)
  | .number .., _, .number h => .cons _ (by rw [h, Token.terminal]; decide)
  | .call .., _, .callVar h _ _ => .cons _ (by rw [h]; decide)
  | .call .., _, .callOp h _ _ => .cons _ (by rw [h]; decide)
  | .tuple .., _, .tuple h _ => .cons _ (by rw [h]; decide)
  | .get .., _, .get h _ => h.startsIn.append _
  | .cond .., _, .cond h _ _ _ _ _ _ => .cons _ (by rw [h]; decide)
  | .closure .., _, .closure h _ _ _ => .cons _ (by rw [h]; decide)

/-- **An expression spans the lexemes that derive it.** -/
theorem Derives.span_eq {ls : List Lexeme} {e : Expr} (h : Derives ls e) : e.span = spanOf ls := by
  cases h <;> rfl

end Syntax
end TensorLiveness
