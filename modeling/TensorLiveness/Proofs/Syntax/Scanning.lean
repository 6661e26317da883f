/-
# Scanning piece by piece

`significant cs` is what scanning makes of `cs`, without blanks and without places.  Two things
are known of it.

- A text of a known form in front of others is scanned as if it stood alone, as long as what
  follows does not lengthen it (`Delimited`).  `Scans` says so of a text and its tokens;
  `Scans.append` puts two such texts together.
- What scanning makes of a text is in order (`Clear`): names are made of words, indices are in
  range, and an identifier that is spelled like a keyword has an index behind it
  (`clear_of_significant`).
-/

import Mathlib.Tactic.SplitIfs
import TensorLiveness.Proofs.Number.Reading
import TensorLiveness.Syntax.Scanner

namespace TensorLiveness
namespace Syntax

open Number Text

/-! ### Words -/

/-- A letter or an underscore, and then letters, digits and underscores. -/
inductive IsWord : List Char → Prop
  | mk {c : Char} {cs : List Char} : isWordStart c = true → (∀ d ∈ cs, isWordChar d = true) →
    IsWord (c :: cs)

theorem IsWord.of_all {c : Char} {cs : List Char} (h : isWordStart c = true)
    (hcs : cs.all isWordChar = true) : IsWord (c :: cs) := .mk h (List.all_eq_true.1 hcs)

/-- Words with a dot in front of each. -/
inductive IsDots : List Char → Prop
  | nil : IsDots []
  | cons {w ds : List Char} : IsWord w → IsDots ds → IsDots ('.' :: (w ++ ds))

/-- Words joined by dots. -/
inductive IsDotted : List Char → Prop
  | mk {w ds : List Char} : IsWord w → IsDots ds → IsDotted (w ++ ds)

/-- The text goes on with neither a word character nor a dot. -/
def Delimited (rest : List Char) : Prop :=
  ∀ c ∈ rest.head?, isWordChar c = false ∧ c ≠ '.'

theorem Delimited.cons {c : Char} (h : isWordChar c = false ∧ c ≠ '.') (cs : List Char) :
    Delimited (c :: cs) := by
  rintro _ ⟨⟩
  exact h

theorem Delimited.not_wordChar {rest : List Char} (h : Delimited rest) :
    ∀ c ∈ rest.head?, isWordChar c = false := fun c hc => (h c hc).1

theorem isWordChar_of_isDigit {c : Char} (h : c.isDigit = true) : isWordChar c = true := by
  simp [isWordChar, Char.isAlphanum, h]

theorem isDigit_eq_false {c : Char} (h : isWordChar c = false) : c.isDigit = false := by
  by_contra hne
  rw [isWordChar_of_isDigit (Bool.eq_true_of_not_eq_false hne)] at h
  cases h

/-- A digit starts no word. -/
theorem isWordStart_eq_false {c : Char} (h : c.isDigit = true) : isWordStart c = false := by
  have hunderscore : c ≠ '_' := by
    rintro rfl
    exact absurd h (by decide)
  have hdigit : 48 ≤ c.toNat ∧ c.toNat ≤ 57 := by
    simpa [Char.isDigit, UInt32.le_iff_toNat_le] using h
  delta isWordStart Char.isAlpha Char.isUpper Char.isLower
  simp [UInt32.le_iff_toNat_le, hunderscore]
  omega

theorem wordLength_append {w rest : List Char} (h : IsWord w)
    (hrest : ∀ c ∈ rest.head?, isWordChar c = false) : wordLength (w ++ rest) = w.length := by
  obtain ⟨hc, hcs⟩ := h
  rw [List.cons_append, wordLength, if_pos hc, takeWhile_append_of_stop hcs hrest,
    List.length_cons, Nat.add_comm]

/-- Behind a word there is no word character: dots, or what follows them. -/
theorem IsDots.not_wordChar {ds rest : List Char} (h : IsDots ds) (hrest : Delimited rest) :
    ∀ c ∈ (ds ++ rest).head?, isWordChar c = false := by
  cases h with
  | nil => exact hrest.not_wordChar
  | cons =>
    rintro _ ⟨⟩
    rfl

theorem dottedLength_of_delimited {rest : List Char} (h : Delimited rest) :
    dottedLength rest = 0 := by
  rw [dottedLength.eq_def]
  split
  · exact absurd rfl (h _ rfl).2
  · rfl

theorem dottedLength_append {ds rest : List Char} (h : IsDots ds) (hrest : Delimited rest) :
    dottedLength (ds ++ rest) = ds.length := by
  induction h with
  | nil => exact dottedLength_of_delimited hrest
  | @cons w ds hw hds ih =>
    have hword := wordLength_append hw (hds.not_wordChar hrest)
    have hne : w.length ≠ 0 := by
      obtain ⟨_, _⟩ := hw
      exact Nat.succ_ne_zero _
    rw [List.cons_append, List.append_assoc, dottedLength, hword, if_neg hne, List.drop_left, ih,
      List.length_cons, List.length_append]
    omega

theorem isWord_take_wordLength {cs : List Char} (h : wordLength cs ≠ 0) :
    IsWord (cs.take (wordLength cs)) := by
  cases cs with
  | nil => exact absurd rfl h
  | cons c cs =>
    by_cases hc : isWordStart c = true
    · rw [wordLength, if_pos hc, Nat.add_comm, List.take_succ_cons,
        ← List.prefix_iff_eq_take.1 (List.takeWhile_prefix _)]
      exact .mk hc fun d hd => List.mem_takeWhile_imp hd
    · rw [wordLength, if_neg hc] at h
      exact absurd rfl h

theorem isDots_take_dottedLength (cs : List Char) : IsDots (cs.take (dottedLength cs)) := by
  fun_induction dottedLength cs with
  | case1 cs h => exact .nil
  | case2 cs h ih =>
    rw [Nat.add_assoc, Nat.add_comm 1, List.take_succ_cons, List.take_add]
    exact .cons (isWord_take_wordLength h) ih
  | case3 => exact .nil

/-! ### Pieces -/

/-- The pieces of a text that are not blank. -/
def significant (cs : List Char) : List Piece :=
  ((scanFrom 0 cs).map (·.piece)).filter (· ≠ .blank)

/-- Where a text starts makes no difference to its pieces. -/
theorem pieces_scanFrom (start start' : Nat) (cs : List Char) :
    (scanFrom start cs).map (·.piece) = (scanFrom start' cs).map (·.piece) := by
  fun_induction scanFrom start cs generalizing start' with
  | case1 => rw [scanFrom]
  | case2 start c cs n piece h text stop ih =>
    rw [scanFrom, h, List.map_cons, List.map_cons, ih]

@[simp] theorem significant_nil : significant [] = [] := by
  simp [significant, scanFrom]

theorem significant_cons (c : Char) (cs : List Char) :
    significant (c :: cs) =
      [(firstPiece c cs).2].filter (· ≠ .blank) ++ significant (cs.drop (firstPiece c cs).1) := by
  unfold significant
  rw [scanFrom, List.map_cons, pieces_scanFrom _ 0, ← List.filter_append]
  rfl

/-- What a text starts with comes first. -/
theorem significant_of_firstPiece {c : Char} {cs : List Char} {n : Nat} {t : Token}
    (h : firstPiece c cs = (n, .token t)) :
    significant (c :: cs) = .token t :: significant (cs.drop n) := by
  rw [significant_cons, h]
  rfl

theorem significant_eq_map_iff {ps : List Scanned} {ts : List Token} :
    (ps.map (·.piece)).filter (· ≠ .blank) = ts.map .token ↔
      ps.filterMap Scanned.error? = [] ∧ (ps.filterMap Scanned.lexeme?).map (·.token) = ts := by
  induction ps generalizing ts with
  | nil => simp
  | cons p ps ih =>
    obtain ⟨piece, text, span⟩ := p
    cases piece with
    | blank => exact ih
    | unknown => cases ts <;> simp [Scanned.error?]
    | token t =>
      have herror : Scanned.error? ⟨.token t, text, span⟩ = none := rfl
      have hlexeme : Scanned.lexeme? ⟨.token t, text, span⟩ = some ⟨t, span⟩ := rfl
      rw [List.filterMap_cons_none herror, List.filterMap_cons_some hlexeme]
      cases ts with
      | nil => simp
      | cons u ts =>
        simp only [List.map_cons, ne_eq, reduceCtorEq, not_false_eq_true, decide_true,
          List.filter_cons_of_pos, List.cons.injEq, Piece.token.injEq, ih]
        tauto

/-- **Scanning without errors.**  The pieces that are not blank are the tokens. -/
theorem significant_eq_iff {source : String} {ts : List Token} :
    significant source.toList = ts.map .token ↔
      lexicalErrors source = [] ∧ (lexemes source).map (·.token) = ts :=
  significant_eq_map_iff

theorem firstPiece_blank {c : Char} (h : isBlank c = true) (cs : List Char) :
    firstPiece c cs = ((cs.takeWhile isBlank).length, .blank) := by
  simp only [isBlank, Bool.or_eq_true, decide_eq_true_eq] at h
  rcases h with ((rfl | rfl) | rfl) | rfl <;> rfl

theorem drop_length_takeWhile {α : Type} (p : α → Bool) (l : List α) :
    l.drop (l.takeWhile p).length = l.dropWhile p := by
  calc l.drop (l.takeWhile p).length
      = (l.takeWhile p ++ l.dropWhile p).drop (l.takeWhile p).length := by
        rw [List.takeWhile_append_dropWhile]
    _ = l.dropWhile p := List.drop_left

/-- Blanks count for nothing. -/
theorem significant_blank {c : Char} (h : isBlank c = true) (cs : List Char) :
    significant (c :: cs) = significant cs := by
  have hskip : ∀ {c : Char}, isBlank c = true → ∀ cs,
      significant (c :: cs) = significant (cs.dropWhile isBlank) := by
    intro c h cs
    rw [significant_cons, firstPiece_blank h, drop_length_takeWhile]
    rfl
  rw [hskip h]
  cases cs with
  | nil => rfl
  | cons d ds =>
    by_cases hd : isBlank d = true
    · rw [hskip hd, List.dropWhile_cons_of_pos hd]
    · rw [List.dropWhile_cons_of_neg hd]

/-! ### What a text starts with -/

theorem isBlank_eq_false {c : Char} (h : isWordStart c = true ∨ c.isDigit = true) :
    isBlank c = false := by
  by_contra hne
  simp only [isBlank, Bool.not_eq_false, Bool.or_eq_true, decide_eq_true_eq] at hne
  rcases hne with ((rfl | rfl) | rfl) | rfl <;> exact absurd h (by decide)

/-- A text that starts like a word starts with a name, a keyword or an identifier. -/
theorem firstPiece_word {c : Char} (h : isWordStart c = true) (cs : List Char) :
    firstPiece c cs =
      let n := (cs.takeWhile isWordChar).length
      let m := n + dottedLength (cs.drop n)
      (m, .token (nameToken (c :: cs.take m) ((cs.drop m).head? = some '.'))) := by
  unfold firstPiece
  split
  case h_14 => rw [isBlank_eq_false (.inl h), if_neg Bool.false_ne_true, if_pos h]
  all_goals exact absurd h (by decide)

/-- A text that starts with a digit starts with a number. -/
theorem firstPiece_digit {c : Char} (h : c.isDigit = true) (cs : List Char) :
    firstPiece c cs =
      let n := unsignedLength (c :: cs) - 1
      (n, numberPiece (c :: cs.take n)) := by
  have hword := isWordStart_eq_false h
  unfold firstPiece
  split
  case h_14 =>
    rw [isBlank_eq_false (.inr h), hword, if_neg Bool.false_ne_true, if_neg Bool.false_ne_true,
      if_pos h]
  all_goals exact absurd h (by decide)

/-- A dotted name is scanned in one piece. -/
theorem significant_dotted {name rest : List Char} (h : IsDotted name) (hrest : Delimited rest) :
    significant (name ++ rest) = .token (nameToken name false) :: significant rest := by
  obtain ⟨⟨hc, hcs⟩, hds⟩ := h
  rename_i ds c cs
  have htake : ((cs ++ (ds ++ rest)).takeWhile isWordChar).length = cs.length := by
    rw [takeWhile_append_of_stop hcs (hds.not_wordChar hrest)]
  have hdot : (decide (rest.head? = some '.')) = false :=
    decide_eq_false fun hhead => (hrest '.' hhead).2 rfl
  have hfirst : firstPiece c (cs ++ (ds ++ rest)) =
      (cs.length + ds.length, .token (nameToken (c :: (cs ++ ds)) false)) := by
    rw [firstPiece_word hc]
    simp only [htake, List.drop_left, dottedLength_append hds hrest]
    rw [← List.append_assoc, ← List.length_append, List.take_left, List.drop_left, hdot]
  rw [List.append_assoc, List.cons_append, significant_of_firstPiece hfirst, ← List.append_assoc,
    ← List.length_append, List.drop_left]
  rfl

/-- A local or a global name is scanned in one piece. -/
theorem significant_sigil {name rest : List Char} (h : IsWord name)
    (hrest : ∀ c ∈ rest.head?, isWordChar c = false) :
    significant ('%' :: (name ++ rest)) =
        .token (.localName (String.ofList name)) :: significant rest ∧
      significant ('@' :: (name ++ rest)) =
        .token (.globalName (String.ofList name)) :: significant rest := by
  have hlength := wordLength_append h hrest
  have hne : name.length ≠ 0 := by
    obtain ⟨_, _⟩ := h
    exact Nat.succ_ne_zero _
  have hlocal : firstPiece '%' (name ++ rest) =
      (name.length, .token (.localName (String.ofList name))) := by
    simp only [firstPiece, hlength, if_neg hne, List.take_left]
  have hglobal : firstPiece '@' (name ++ rest) =
      (name.length, .token (.globalName (String.ofList name))) := by
    simp only [firstPiece, hlength, if_neg hne, List.take_left]
  rw [significant_of_firstPiece hlocal, significant_of_firstPiece hglobal, List.drop_left]
  exact ⟨rfl, rfl⟩

theorem digitsLength_append {ds rest : List Char} (h : ∀ c ∈ ds, c.isDigit = true)
    (hrest : ∀ c ∈ rest.head?, c.isDigit = false) : digitsLength (ds ++ rest) = ds.length := by
  rw [digitsLength, takeWhile_append_of_stop h hrest]

/-- An index in range is scanned in one piece. -/
theorem significant_index {i : Nat} (hi : i < UInt64.size) {rest : List Char}
    (hrest : ∀ c ∈ rest.head?, c.isDigit = false) :
    significant ('.' :: (Nat.toDigits 10 i ++ rest)) =
      .token (.index i) :: significant rest := by
  have hlength : digitsLength (Nat.toDigits 10 i ++ rest) = (Nat.toDigits 10 i).length :=
    digitsLength_append isDigit_toDigits hrest
  have hne : (Nat.toDigits 10 i).length ≠ 0 := Nat.pos_iff_ne_zero.1 Nat.length_toDigits_pos
  have hfirst : firstPiece '.' (Nat.toDigits 10 i ++ rest) =
      ((Nat.toDigits 10 i).length, .token (.index i)) := by
    simp only [firstPiece, hlength, if_neg hne, List.take_left, digitsValue_toDigits, if_pos hi]
  rw [significant_of_firstPiece hfirst, List.drop_left]

/-! ### Numbers -/

theorem fractionLength_of_delimited {rest : List Char} (h : Delimited rest) :
    fractionLength rest = 0 := by
  unfold fractionLength
  split
  · exact absurd rfl (h _ rfl).2
  · rfl

theorem exponentLength_of_delimited {rest : List Char} (h : Delimited rest) :
    exponentLength rest = 0 := by
  cases rest with
  | nil => rfl
  | cons c cs =>
    have hc := (h c rfl).1
    refine if_neg ?_
    rintro (rfl | rfl) <;> exact absurd hc (by decide)

theorem unsignedLength_append {body rest : List Char} {d : Decimal} (h : Plain body d)
    (hrest : Delimited rest) : unsignedLength (body ++ rest) = body.length := by
  have hdigit : ∀ c ∈ rest.head?, c.isDigit = false :=
    fun c hc => isDigit_eq_false (hrest c hc).1
  cases h with
  | whole hne hds =>
    simp only [unsignedLength, digitsLength_append hds hdigit, List.length_eq_zero_iff, if_neg hne,
      List.drop_left, fractionLength_of_delimited hrest, Nat.add_zero,
      exponentLength_of_delimited hrest]
  | @point ds fs hne hne' hds hfs =>
    have hpoint : ∀ c ∈ ('.' :: (fs ++ rest)).head?, c.isDigit = false := by
      rintro _ ⟨⟩
      rfl
    have hfraction : fractionLength ('.' :: (fs ++ rest)) = 1 + fs.length := by
      simp only [fractionLength, digitsLength_append hfs hdigit, List.length_eq_zero_iff,
        if_neg hne']
    have hdrop : (ds ++ '.' :: (fs ++ rest)).drop (ds.length + (1 + fs.length)) = rest := by
      rw [← List.drop_drop, List.drop_left, Nat.add_comm 1, List.drop_succ_cons, List.drop_left]
    rw [List.append_assoc, List.cons_append]
    simp only [unsignedLength, digitsLength_append hds hpoint, List.length_eq_zero_iff, if_neg hne,
      List.drop_left, hfraction, hdrop, exponentLength_of_delimited hrest]
    simp only [List.length_append, List.length_cons]
    omega

/-- A finite number is scanned in one piece. -/
theorem significant_number (negative : Bool) (x : Magnitude) {rest : List Char}
    (hrest : Delimited rest) :
    significant ((Binary64.finite negative x).render.toList ++ rest) =
      .token (.number (.finite negative x)) :: significant rest := by
  have hread := Binary64.read?_render negative x
  obtain ⟨body, d, htext, hplain, _⟩ := Binary64.render_plain negative x
  have hlength := unsignedLength_append hplain hrest
  have hpiece : numberPiece (Binary64.finite negative x).render.toList =
      .token (.number (.finite negative x)) := by
    rw [numberPiece, hread]
  obtain ⟨c, cs, rfl, hc⟩ := hplain.exists_digit
  rw [htext] at hpiece ⊢
  cases negative with
  | true =>
    have hfirst : firstPiece '-' (c :: cs ++ rest) =
        ((c :: cs).length, .token (.number (.finite true x))) := by
      simp only [firstPiece, hlength, List.length_cons, Nat.add_eq_zero_iff, Nat.one_ne_zero,
        and_false, if_false]
      rw [← List.length_cons, List.take_left]
      exact congrArg (Prod.mk _) hpiece
    exact (significant_of_firstPiece hfirst).trans (congrArg _ (by rw [List.drop_left]))
  | false =>
    have hfirst : firstPiece c (cs ++ rest) =
        (cs.length, .token (.number (.finite false x))) := by
      rw [firstPiece_digit hc]
      rw [List.cons_append] at hlength
      simp only [hlength, List.length_cons, Nat.add_sub_cancel, List.take_left]
      exact congrArg (Prod.mk _) hpiece
    exact (significant_of_firstPiece hfirst).trans (congrArg _ (by rw [List.drop_left]))

/-! ### Texts and their tokens -/

/-- The text is scanned as these tokens, whatever follows it that `p` admits. -/
def Scans (p : List Char → Prop) (text : String) (ts : List Token) : Prop :=
  ∀ rest, p rest → significant (text.toList ++ rest) = ts.map .token ++ significant rest

namespace Scans

variable {p q : List Char → Prop} {a b : String} {as bs : List Token}

theorem mono (h : Scans p a as) (hpq : ∀ rest, q rest → p rest) : Scans q a as :=
  fun rest hrest => h rest (hpq rest hrest)

/-- **One text behind another** is scanned as the tokens of both. -/
theorem append (ha : Scans p a as) (hb : Scans q b bs)
    (hp : ∀ rest, q rest → p (b.toList ++ rest)) : Scans q (a ++ b) (as ++ bs) := by
  intro rest hrest
  rw [String.toList_append, List.append_assoc, ha _ (hp rest hrest), hb rest hrest,
    List.map_append, List.append_assoc]

theorem empty : Scans p "" [] := fun _ _ => rfl

/-- A text on its own has the tokens that it is scanned as. -/
theorem tokens_eq (h : Scans p a as) (hp : p []) :
    lexicalErrors a = [] ∧ (lexemes a).map (·.token) = as := by
  have := h [] hp
  rw [List.append_nil, significant_nil, List.append_nil] at this
  exact significant_eq_iff.1 this

end Scans

/-! ### The order of tokens -/

/-- The words that are no identifiers on their own. -/
def keywords : List String := ["fn", "let", "if", "else"]

/-- What a token carries can be written. -/
def Token.Legible : Token → Prop
  | .localName name | .globalName name => IsWord name.toList
  | .identifier name => IsDotted name.toList
  | .index i => i < UInt64.size
  | _ => True

/-- Tokens as they come out of a text: all legible, and an index behind each identifier that is
spelled like a keyword. -/
def Clear : List Token → Prop
  | [] => True
  | t :: ts =>
    t.Legible ∧ (∀ name ∈ keywords, t = .identifier name → ∃ i, ts.head? = some (.index i)) ∧
      Clear ts

/-- A name that is no keyword is an identifier. -/
theorem nameToken_eq {name : String} (h : name ∉ keywords) :
    nameToken name.toList false = .identifier name := by
  have hne : ∀ keyword ∈ keywords, name.toList ≠ keyword.toList := fun keyword hmem heq =>
    h (String.toList_inj.1 heq ▸ hmem)
  have hfn : name.toList ≠ ['f', 'n'] := hne "fn" (by decide)
  have hlet : name.toList ≠ ['l', 'e', 't'] := hne "let" (by decide)
  have hif : name.toList ≠ ['i', 'f'] := hne "if" (by decide)
  have helse : name.toList ≠ ['e', 'l', 's', 'e'] := hne "else" (by decide)
  rw [nameToken, if_neg Bool.false_ne_true, if_neg hfn, if_neg hlet, if_neg hif, if_neg helse,
    String.ofList_toList]

/-- An identifier that is spelled like a keyword has a dot behind it. -/
theorem dot_of_nameToken {text : List Char} {dot : Bool} {name : String}
    (h : nameToken text dot = .identifier name) :
    name = String.ofList text ∧ (name ∈ keywords → dot = true) := by
  cases dot with
  | true => exact ⟨(Token.identifier.inj h).symm, fun _ => rfl⟩
  | false =>
    by_cases hmem : String.ofList text ∈ keywords
    · have hlists : text ∈ keywords.map String.toList :=
        List.mem_map.2 ⟨_, hmem, String.toList_ofList⟩
      -- each keyword is a token of its own
      simp only [keywords, List.map_cons, List.map_nil, List.mem_cons, List.not_mem_nil,
        or_false] at hlists
      rcases hlists with rfl | rfl | rfl | rfl <;> cases h
    · have := nameToken_eq hmem
      rw [String.toList_ofList, h] at this
      obtain rfl := Token.identifier.inj this
      exact ⟨rfl, fun hname => absurd hname hmem⟩

theorem isDotted_take {c : Char} (hc : isWordStart c = true) (cs : List Char) :
    IsDotted (c :: cs.take ((cs.takeWhile isWordChar).length +
      dottedLength (cs.drop (cs.takeWhile isWordChar).length))) := by
  rw [List.take_add, ← List.prefix_iff_eq_take.1 (List.takeWhile_prefix _)]
  exact .mk (.mk hc fun d hd => List.mem_takeWhile_imp hd) (isDots_take_dottedLength _)

theorem nameToken_legible {text : List Char} (h : IsDotted text) (dot : Bool) :
    (nameToken text dot).Legible := by
  have hidentifier : (Token.identifier (String.ofList text)).Legible := by
    rwa [Token.Legible, String.toList_ofList]
  unfold nameToken
  split_ifs
  all_goals first | exact hidentifier | trivial

theorem exists_number_of_numberPiece {text : List Char} {t : Token}
    (h : numberPiece text = .token t) : ∃ value, t = .number value := by
  unfold numberPiece at h
  split at h
  · exact ⟨_, (Piece.token.inj h).symm⟩
  · cases h

/-- What starts like no word is legible and no identifier. -/
theorem firstPiece_legible_of_not_word {c : Char} {cs : List Char} {n : Nat} {t : Token}
    (hc : isWordStart c = false) (h : firstPiece c cs = (n, .token t)) :
    t.Legible ∧ ∀ name, t ≠ .identifier name := by
  have hnumber : ∀ text, numberPiece text = .token t →
      t.Legible ∧ ∀ name, t ≠ .identifier name := by
    intro text htext
    obtain ⟨value, rfl⟩ := exists_number_of_numberPiece htext
    exact ⟨trivial, fun _ => Token.noConfusion⟩
  have hsigil : ∀ make : String → Token, (∀ name, (make name).Legible ↔ IsWord name.toList) →
      (∀ name name', make name ≠ .identifier name') →
      (if wordLength cs = 0 then (0, Piece.unknown)
        else (wordLength cs, .token (make (String.ofList (cs.take (wordLength cs)))))) =
        (n, Piece.token t) → t.Legible ∧ ∀ name, t ≠ .identifier name := by
    intro make hmake hne heq
    split at heq
    · cases heq
    · rename_i hlength
      cases heq
      refine ⟨(hmake _).2 ?_, hne _⟩
      rw [String.toList_ofList]
      exact isWord_take_wordLength hlength
  unfold firstPiece at h
  split at h
  case h_10 => exact hsigil .localName (fun _ => Iff.rfl) (fun _ _ => Token.noConfusion) h
  case h_11 => exact hsigil .globalName (fun _ => Iff.rfl) (fun _ _ => Token.noConfusion) h
  case h_12 =>
    dsimp only at h
    split at h
    · cases h
    · obtain ⟨_, hpiece⟩ := Prod.mk.inj h
      split at hpiece
      · rename_i hlt
        cases hpiece
        exact ⟨hlt, fun _ => Token.noConfusion⟩
      · cases hpiece
  case h_13 =>
    dsimp only at h
    split at h
    · cases h
    · exact hnumber _ (Prod.mk.inj h).2
  case h_14 =>
    rw [hc, if_neg Bool.false_ne_true] at h
    split at h
    · cases h
    · split at h
      · exact hnumber _ (Prod.mk.inj h).2
      · cases h
  all_goals
    cases h
    try exact ⟨trivial, fun _ => Token.noConfusion⟩

/-- **A token that is scanned is legible,** and if it is an identifier that is spelled like a
keyword then a dot comes next. -/
theorem firstPiece_legible {c : Char} {cs : List Char} {n : Nat} {t : Token}
    (h : firstPiece c cs = (n, .token t)) :
    t.Legible ∧ ∀ name ∈ keywords, t = .identifier name → (cs.drop n).head? = some '.' := by
  by_cases hc : isWordStart c = true
  · rw [firstPiece_word hc] at h
    obtain ⟨rfl, htoken⟩ := Prod.mk.inj h
    obtain rfl := Piece.token.inj htoken
    exact ⟨nameToken_legible (isDotted_take hc cs) _, fun name hname heq =>
      of_decide_eq_true ((dot_of_nameToken heq).2 hname)⟩
  · obtain ⟨hlegible, hne⟩ := firstPiece_legible_of_not_word (Bool.eq_false_of_not_eq_true hc) h
    exact ⟨hlegible, fun name _ heq => absurd heq (hne name)⟩

/-- Behind a dot there is an index or nothing that is known. -/
theorem exists_index_of_significant {cs : List Char} {ts : List Token}
    (hcs : cs.head? = some '.') (h : significant cs = ts.map .token) :
    ∃ i, ts.head? = some (.index i) := by
  obtain ⟨cs', rfl⟩ := List.head?_eq_some_iff.1 hcs
  have hpiece : (firstPiece '.' cs').2 = .unknown ∨
      ∃ i, (firstPiece '.' cs').2 = .token (.index i) := by
    simp only [firstPiece]
    split_ifs
    · exact .inl rfl
    · exact .inr ⟨_, rfl⟩
    · exact .inl rfl
  rw [significant_cons] at h
  rcases hpiece with hpiece | ⟨i, hpiece⟩
  · rw [hpiece] at h
    cases ts <;> cases h
  · rw [hpiece] at h
    cases ts with
    | nil => cases h
    | cons t ts =>
      obtain rfl := Piece.token.inj (List.cons.inj h).1
      exact ⟨i, rfl⟩

/-- **What scanning makes of a text is in order.** -/
theorem clear_of_significant (cs : List Char) {ts : List Token}
    (h : significant cs = ts.map .token) : Clear ts := by
  induction hlength : cs.length using Nat.strong_induction_on generalizing cs ts with
  | _ k ih =>
    cases cs with
    | nil =>
      rw [significant_nil] at h
      obtain rfl := List.map_eq_nil_iff.1 h.symm
      trivial
    | cons c cs =>
      have hlt : (cs.drop (firstPiece c cs).1).length < k := by
        rw [← hlength, List.length_drop, List.length_cons]
        omega
      rcases hfirst : firstPiece c cs with ⟨n, piece⟩
      rw [significant_cons, hfirst] at h
      rw [hfirst] at hlt
      cases piece with
      | blank => exact ih _ hlt _ h rfl
      | unknown => cases ts <;> cases h
      | token t =>
        cases ts with
        | nil => cases h
        | cons u ts =>
          obtain ⟨htoken, hrest⟩ := List.cons.inj h
          obtain rfl := Piece.token.inj htoken
          obtain ⟨hlegible, hkeyword⟩ := firstPiece_legible hfirst
          exact ⟨hlegible, fun name hname heq =>
            exists_index_of_significant (hkeyword name hname heq) hrest, ih _ hlt _ hrest rfl⟩

end Syntax
end TensorLiveness
