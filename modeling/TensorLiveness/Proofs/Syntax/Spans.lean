/-
# Where tokens and errors lie

Scanning leaves no character out and takes none twice.  The pieces of a source lie one behind
the other, each from one character boundary to another, so whatever is in no token and in no
error is in a blank piece.

| part of the source | what is known of it |
| --- | --- |
| in a token or an error | in one of them only (`Tiling.apart`) |
| between them | a blank character, or in a comment (`Tiling.between`) |

`Tiling` puts this together for the spans of a source, and `tiling_lexemes` says that every
source has it.
-/

import Mathlib.Data.List.Pairwise
import TensorLiveness.Proofs.Syntax.Scanning

namespace TensorLiveness

namespace Text

/-- A non-empty part of the source, from one character boundary to another. -/
def Span.Cuts (source : List Char) (s : Span) : Prop :=
  ∃ before text after, source = before ++ text ++ after ∧ text ≠ [] ∧
    s = ⟨byteLength before, byteLength before + byteLength text⟩

/-- One span ends where the other starts, or earlier. -/
def Span.Before (s t : Span) : Prop :=
  s.stop ≤ t.start

/-- No byte is in both spans. -/
def Span.Apart (s t : Span) : Prop :=
  s.Before t ∨ t.Before s

/-- The byte is in the span. -/
def Span.Has (s : Span) (offset : Nat) : Prop :=
  s.start ≤ offset ∧ offset < s.stop

theorem Span.Apart.symm {s t : Span} (h : s.Apart t) : t.Apart s :=
  Or.symm h

end Text

namespace Syntax

open Text

/-! ### Blank pieces -/

/-- The text that `#` starts, up to the end of the line: what follows it is nothing, or a line
end. -/
def IsComment (text after : List Char) : Prop :=
  ∃ body, text = '#' :: body ∧ '\n' ∉ body ∧ ∀ c ∈ after.head?, c = '\n'

theorem isComment_line (cs : List Char) :
    IsComment ('#' :: cs.takeWhile (· ≠ '\n')) (cs.dropWhile (· ≠ '\n')) := by
  refine ⟨_, rfl, fun hmem => ?_, fun c hc => ?_⟩
  · have hne : decide ('\n' ≠ '\n') = true := List.mem_takeWhile_imp (p := (· ≠ '\n')) hmem
    exact of_decide_eq_true hne rfl
  · have := List.head?_dropWhile_not (p := (· ≠ '\n')) (l := cs)
    rw [Option.mem_def.1 hc] at this
    simpa using this

/-- **A blank piece** is made of blanks, or is a comment. -/
theorem blank_of_firstPiece {c : Char} {cs : List Char} {n : Nat}
    (h : firstPiece c cs = (n, .blank)) :
    (∀ d ∈ c :: cs.take n, isBlank d = true) ∨ IsComment (c :: cs.take n) (cs.drop n) := by
  have hnumber : ∀ text, numberPiece text ≠ .blank := by
    intro text
    unfold numberPiece
    split <;> exact Piece.noConfusion
  unfold firstPiece at h
  split at h
  case h_9 =>
    obtain ⟨rfl, -⟩ := Prod.mk.inj h
    rw [← List.prefix_iff_eq_take.1 (List.takeWhile_prefix _), drop_length_takeWhile]
    exact .inr (isComment_line cs)
  case h_14 =>
    split_ifs at h with hblank
    · obtain ⟨rfl, -⟩ := Prod.mk.inj h
      rw [← List.prefix_iff_eq_take.1 (List.takeWhile_prefix _)]
      exact .inl (List.forall_mem_cons.2 ⟨hblank, fun d hd => List.mem_takeWhile_imp hd⟩)
    · cases h
    · exact absurd (Prod.mk.inj h).2 (hnumber _)
    · cases h
  case h_12 =>
    dsimp only at h
    split_ifs at h <;> cases h
  case h_13 =>
    dsimp only at h
    split_ifs at h
    · cases h
    · exact absurd (Prod.mk.inj h).2 (hnumber _)
  case h_10 | h_11 =>
    dsimp only at h
    split_ifs at h <;> cases h
  all_goals cases h

/-! ### Pieces and their places -/

/-- The piece lies at its text in `cs`, which starts at byte `start`. -/
structure Scanned.Fits (start : Nat) (cs : List Char) (p : Scanned) (before after : List Char) :
    Prop where
  split : cs = before ++ p.text ++ after
  ne_nil : p.text ≠ []
  span : p.span =
    ⟨start + byteLength before, start + byteLength before + byteLength p.text⟩
  blank : p.piece = .blank →
    (∀ c ∈ p.text, isBlank c = true) ∨ IsComment p.text after

/-- Each piece lies at its text. -/
theorem exists_fits {start : Nat} {cs : List Char} {p : Scanned} (hp : p ∈ scanFrom start cs) :
    ∃ before after, p.Fits start cs before after := by
  fun_induction scanFrom start cs with
  | case1 => cases hp
  | case2 start c cs n piece h text stop ih =>
    have hcs : c :: cs = text ++ cs.drop n :=
      congrArg (c :: ·) (List.take_append_drop n cs).symm
    rcases List.mem_cons.1 hp with rfl | hp
    · exact ⟨[], cs.drop n, hcs, List.cons_ne_nil _ _, rfl, fun hblank =>
        blank_of_firstPiece (h.trans (congrArg _ hblank))⟩
    · obtain ⟨before, after, hsplit, hne, hspan, hblank⟩ := ih hp
      refine ⟨text ++ before, after, ?_, hne, ?_, hblank⟩
      · rw [hcs, hsplit, List.append_assoc, List.append_assoc, List.append_assoc]
      · rw [hspan, byteLength_append, ← Nat.add_assoc]

/-- **The pieces lie one behind the other.** -/
theorem pairwise_before_scanFrom (start : Nat) (cs : List Char) :
    (scanFrom start cs).Pairwise fun p q => p.span.Before q.span := by
  fun_induction scanFrom start cs with
  | case1 => exact .nil
  | case2 start c cs n piece h text stop ih =>
    refine List.pairwise_cons.2 ⟨fun p hp => ?_, ih⟩
    obtain ⟨before, after, hfits⟩ := exists_fits hp
    rw [Span.Before, hfits.span]
    exact Nat.le_add_right _ _

/-- **Every character is in a piece.** -/
theorem exists_piece (start : Nat) (cs after : List Char) (c : Char) :
    ∀ before, cs = before ++ c :: after →
      ∃ p ∈ scanFrom start cs, c ∈ p.text ∧ p.span.Has (start + byteLength before) := by
  fun_induction scanFrom start cs with
  | case1 =>
    exact fun before h =>
      absurd h.symm (List.append_ne_nil_of_right_ne_nil _ (List.cons_ne_nil _ _))
  | case2 start d cs n piece _ text stop ih =>
    intro before h
    have hcs : text ++ cs.drop n = before ++ c :: after :=
      (congrArg (d :: ·) (List.take_append_drop n cs)).trans h
    -- the character is behind the first piece, or in it
    rcases List.append_eq_append_iff.1 hcs with ⟨rest, rfl, hdrop⟩ | ⟨rest, htext, hrest⟩
    · obtain ⟨p, hp, hc, hhas⟩ := ih _ hdrop
      refine ⟨p, List.mem_cons_of_mem _ hp, hc, ?_⟩
      rwa [byteLength_append, ← Nat.add_assoc]
    · cases rest with
      | nil =>
        obtain rfl : text = before := htext.trans (List.append_nil _)
        obtain ⟨p, hp, hc, hhas⟩ := ih [] hrest.symm
        exact ⟨p, List.mem_cons_of_mem _ hp, hc, hhas⟩
      | cons e rest =>
        obtain ⟨rfl, -⟩ := List.cons.inj hrest
        refine ⟨_, List.mem_cons_self, ?_, Nat.le_add_right _ _, ?_⟩
        · rw [htext]
          exact List.mem_append_right _ List.mem_cons_self
        · have hpos := Char.utf8Size_pos c
          change start + byteLength before < start + byteLength text
          rw [htext, byteLength_append, byteLength_cons]
          omega

/-- Two pieces of a source have no byte in common. -/
theorem apart_of_mem_scanFrom {start : Nat} {cs : List Char} {p q : Scanned}
    (hp : p ∈ scanFrom start cs) (hq : q ∈ scanFrom start cs) (hne : p ≠ q) :
    p.span.Apart q.span := by
  have hpairwise := (pairwise_before_scanFrom start cs).imp
    (S := fun p q => p.span.Apart q.span) fun hbefore => .inl hbefore
  have : Std.Symm fun p q : Scanned => p.span.Apart q.span := ⟨fun _ _ => Span.Apart.symm⟩
  exact hpairwise.forall hp hq hne

/-! ### Tokens and errors -/

/-- The spans that scanning gives to tokens, or to errors. -/
theorem mem_lexeme_spans {ps : List Scanned} {s : Span} :
    s ∈ (ps.filterMap Scanned.lexeme?).map (·.span) ↔
      ∃ p ∈ ps, (∃ t, p.piece = .token t) ∧ p.span = s := by
  simp only [List.mem_map, List.mem_filterMap]
  constructor
  · rintro ⟨l, ⟨p, hp, hl⟩, rfl⟩
    unfold Scanned.lexeme? at hl
    split at hl
    · cases hl
      exact ⟨p, hp, ⟨_, ‹_›⟩, rfl⟩
    · cases hl
  · rintro ⟨p, hp, ⟨t, ht⟩, rfl⟩
    exact ⟨⟨t, p.span⟩, ⟨p, hp, by rw [Scanned.lexeme?, ht]⟩, rfl⟩

theorem mem_error_spans {ps : List Scanned} {s : Span} :
    s ∈ (ps.filterMap Scanned.error?).map (·.span) ↔
      ∃ p ∈ ps, p.piece = .unknown ∧ p.span = s := by
  simp only [List.mem_map, List.mem_filterMap]
  constructor
  · rintro ⟨e, ⟨p, hp, he⟩, rfl⟩
    unfold Scanned.error? at he
    split at he
    · cases he
      exact ⟨p, hp, ‹_›, rfl⟩
    · cases he
  · rintro ⟨p, hp, hpiece, rfl⟩
    exact ⟨⟨p.span, _⟩, ⟨p, hp, by rw [Scanned.error?, hpiece]⟩, rfl⟩

/-- A character that `#` makes part of a comment, with no token or error in that comment. -/
def InComment (source : List Char) (spans : List Span) (offset : Nat) : Prop :=
  ∃ before text after, source = before ++ text ++ after ∧ IsComment text after ∧
    Span.Has ⟨byteLength before, byteLength before + byteLength text⟩ offset ∧
    ∀ s ∈ spans, s.Apart ⟨byteLength before, byteLength before + byteLength text⟩

/-- Tokens and errors cover the source up to blanks and comments, and nothing twice. -/
structure Tiling (source : List Char) (tokens errors : List Span) : Prop where
  cuts : ∀ s ∈ tokens ++ errors, s.Cuts source
  tokens_increasing : tokens.Pairwise Span.Before
  errors_increasing : errors.Pairwise Span.Before
  apart : (tokens ++ errors).Pairwise Span.Apart
  between : ∀ before c after, source = before ++ c :: after →
    (∀ s ∈ tokens ++ errors, ¬ s.Has (byteLength before)) →
    isBlank c = true ∨ InComment source (tokens ++ errors) (byteLength before)

/-- A token or an error is a piece that is not blank. -/
theorem exists_piece_of_mem_spans {ps : List Scanned} {s : Span}
    (h : s ∈ (ps.filterMap Scanned.lexeme?).map (·.span) ++
      (ps.filterMap Scanned.error?).map (·.span)) :
    ∃ p ∈ ps, p.piece ≠ .blank ∧ p.span = s := by
  rcases List.mem_append.1 h with h | h
  · obtain ⟨p, hp, ⟨t, ht⟩, rfl⟩ := mem_lexeme_spans.1 h
    exact ⟨p, hp, ht ▸ Piece.noConfusion, rfl⟩
  · obtain ⟨p, hp, hpiece, rfl⟩ := mem_error_spans.1 h
    exact ⟨p, hp, hpiece ▸ Piece.noConfusion, rfl⟩

theorem mem_spans_of_piece {ps : List Scanned} {p : Scanned} (hp : p ∈ ps)
    (h : p.piece ≠ .blank) :
    p.span ∈ (ps.filterMap Scanned.lexeme?).map (·.span) ++
      (ps.filterMap Scanned.error?).map (·.span) := by
  cases hpiece : p.piece with
  | blank => exact absurd hpiece h
  | token t => exact List.mem_append_left _ (mem_lexeme_spans.2 ⟨p, hp, ⟨t, hpiece⟩, rfl⟩)
  | unknown => exact List.mem_append_right _ (mem_error_spans.2 ⟨p, hp, hpiece, rfl⟩)

/-- A byte in no token and no error is in a blank character or in a comment. -/
theorem blank_or_inComment (source : String) {before after : List Char} {c : Char}
    (hsource : source.toList = before ++ c :: after)
    (h : ∀ s ∈ (lexemes source).map (·.span) ++ (lexicalErrors source).map (·.span),
      ¬ s.Has (byteLength before)) :
    isBlank c = true ∨ InComment source.toList
      ((lexemes source).map (·.span) ++ (lexicalErrors source).map (·.span))
      (byteLength before) := by
  obtain ⟨p, hp, hc, hhas⟩ := exists_piece 0 _ after c before hsource
  rw [Nat.zero_add] at hhas
  have hblank : p.piece = .blank := by
    by_contra hne
    exact h _ (mem_spans_of_piece hp hne) hhas
  obtain ⟨front, back, hfits⟩ := exists_fits hp
  have hspan := hfits.span
  rw [Nat.zero_add] at hspan
  rcases hfits.blank hblank with hall | hcomment
  · exact .inl (hall c hc)
  · refine .inr ⟨front, p.text, back, hfits.split, hcomment, hspan ▸ hhas, fun s hs => ?_⟩
    obtain ⟨q, hq, hpiece, rfl⟩ := exists_piece_of_mem_spans hs
    rw [← hspan]
    exact apart_of_mem_scanFrom hq hp fun heq => hpiece (heq ▸ hblank)

/-- **Scanning loses and duplicates nothing.**  The spans of tokens and errors are non-empty,
within the source, on character boundaries and apart from each other, each kind in increasing
order; what is left is blank or in a comment. -/
theorem tiling_lexemes (source : String) :
    Tiling source.toList ((lexemes source).map (·.span))
      ((lexicalErrors source).map (·.span)) := by
  have hbefore := pairwise_before_scanFrom 0 source.toList
  have htokens : ((lexemes source).map (·.span)).Pairwise Span.Before := by
    refine List.pairwise_map.2 (hbefore.filterMap _ fun p q hpq l hl m hm => ?_)
    unfold Scanned.lexeme? at hl hm
    split at hl <;> split at hm <;> cases hl <;> cases hm
    exact hpq
  have herrors : ((lexicalErrors source).map (·.span)).Pairwise Span.Before := by
    refine List.pairwise_map.2 (hbefore.filterMap _ fun p q hpq e he e' he' => ?_)
    unfold Scanned.error? at he he'
    split at he <;> split at he' <;> cases he <;> cases he'
    exact hpq
  refine ⟨fun s hs => ?_, htokens, herrors, ?_, fun before c after hsource h =>
    blank_or_inComment source hsource h⟩
  · obtain ⟨p, hp, -, rfl⟩ := exists_piece_of_mem_spans hs
    obtain ⟨before, after, hfits⟩ := exists_fits hp
    exact ⟨before, p.text, after, hfits.split, hfits.ne_nil, by
      rw [hfits.span, Nat.zero_add]⟩
  · refine List.pairwise_append.2 ⟨htokens.imp .inl, herrors.imp .inl, fun s hs t ht => ?_⟩
    obtain ⟨p, hp, ⟨token, htoken⟩, rfl⟩ := mem_lexeme_spans.1 hs
    obtain ⟨q, hq, hunknown, rfl⟩ := mem_error_spans.1 ht
    refine apart_of_mem_scanFrom hp hq ?_
    rintro rfl
    rw [htoken] at hunknown
    cases hunknown

/-- Offsets count bytes, and a comma in a comment is no token. -/
example : (lexemes "é, # ,\n").map (·.span) = [⟨2, 3⟩] := by
  cbv

end Syntax
end TensorLiveness
