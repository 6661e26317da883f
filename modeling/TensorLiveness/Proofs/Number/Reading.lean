/-
# A number that is written reads back

`Binary64.read?` takes the text of a finite number back to that number
(`read?_render`).  The text is digits with an optional point among them (`Plain`), the decimal
that it is read as has the magnitude of the one that was written (`positional_plain`), and the
decimal that is chosen for a magnitude rounds to it (`magnitude?_shortest`): the candidates on a
grid because they were tried, the number in full because nothing of it is lost in rounding
(`nearest?_of_exact`).
-/

import Mathlib.Data.List.TakeWhile
import Mathlib.Tactic.Ring
import TensorLiveness.Number.Shortest

namespace TensorLiveness
namespace Number

/-! ### Digits -/

theorem takeWhile_append_of_stop {α : Type} {p : α → Bool} {l rest : List α}
    (h : ∀ a ∈ l, p a = true) (hstop : ∀ a ∈ rest.head?, p a = false) :
    (l ++ rest).takeWhile p = l := by
  rw [List.takeWhile_append_of_pos h]
  cases rest with
  | nil => exact List.append_nil l
  | cons a rest => rw [List.takeWhile_cons, hstop a rfl, if_neg Bool.false_ne_true, List.append_nil]

theorem dropWhile_append_of_stop {α : Type} {p : α → Bool} {l rest : List α}
    (h : ∀ a ∈ l, p a = true) (hstop : ∀ a ∈ rest.head?, p a = false) :
    (l ++ rest).dropWhile p = rest := by
  rw [List.dropWhile_append_of_pos h]
  cases rest with
  | nil => rfl
  | cons a rest => rw [List.dropWhile_cons, hstop a rfl, if_neg Bool.false_ne_true]

theorem digitsValue_eq (cs : List Char) : digitsValue cs = Nat.ofDigitChars 10 cs 0 := rfl

theorem digitsValue_toDigits (n : Nat) : digitsValue (Nat.toDigits 10 n) = n :=
  Nat.ofDigitChars_ten_toDigits

theorem digitsValue_append_zeros (cs : List Char) (k : Nat) :
    digitsValue (cs ++ List.replicate k '0') = digitsValue cs * Nat.pow 10 k := by
  rw [digitsValue_eq, Nat.ofDigitChars_append, Nat.ofDigitChars_replicate_zero, digitsValue_eq,
    Nat.mul_comm]
  rfl

theorem digitsValue_zeros_append (k : Nat) (cs : List Char) :
    digitsValue (List.replicate k '0' ++ cs) = digitsValue cs := by
  rw [digitsValue_eq, Nat.ofDigitChars_append, Nat.ofDigitChars_replicate_zero, Nat.mul_zero,
    digitsValue_eq]

theorem isDigit_toDigits {n : Nat} : ∀ c ∈ Nat.toDigits 10 n, c.isDigit = true :=
  fun _ hc => Nat.isDigit_of_mem_toDigits (by decide) (by decide) hc

theorem isDigit_zeros {k : Nat} : ∀ c ∈ List.replicate k '0', c.isDigit = true :=
  fun c hc => by rw [List.eq_of_mem_replicate hc]; rfl

theorem isDigit_append {as bs : List Char} (ha : ∀ c ∈ as, c.isDigit = true)
    (hb : ∀ c ∈ bs, c.isDigit = true) : ∀ c ∈ as ++ bs, c.isDigit = true :=
  fun c hc => (List.mem_append.1 hc).elim (ha c) (hb c)

theorem toLower_of_isDigit {c : Char} (h : c.isDigit = true) : c.toLower = c := by
  unfold Char.toLower
  refine dif_neg fun hupper => ?_
  simp only [Char.isDigit, Bool.and_eq_true, decide_eq_true_eq, ge_iff_le,
    UInt32.le_iff_toNat_le] at h hupper
  exact absurd (Nat.le_trans hupper.1 h.2) (by decide)

/-- A factor of ten is a digit. -/
theorem length_toDigits_mul_pow {n : Nat} (hn : 0 < n) (k : Nat) :
    (Nat.toDigits 10 (n * Nat.pow 10 k)).length = (Nat.toDigits 10 n).length + k := by
  induction k with
  | zero => rw [Nat.pow_eq, Nat.pow_zero, Nat.mul_one, Nat.add_zero]
  | succ k ih =>
    have hpos : 0 < n * Nat.pow 10 k := Nat.mul_pos hn (Nat.pow_pos (by decide))
    have hshift : n * Nat.pow 10 (k + 1) = 10 * (n * Nat.pow 10 k) + 0 := by
      rw [Nat.pow_eq, Nat.pow_eq]
      ring
    rw [hshift, ← Nat.toDigits_append_toDigits (by decide) hpos (by decide), List.length_append,
      ih, Nat.add_assoc]
    rfl

/-! ### The plain notation -/

/-- The text is the plain notation of the decimal: digits with an optional point among them. -/
inductive Plain : List Char → Decimal → Prop
  | whole {ds : List Char} : ds ≠ [] → (∀ c ∈ ds, c.isDigit = true) → Plain ds ⟨digitsValue ds, 0⟩
  | point {ds fs : List Char} : ds ≠ [] → fs ≠ [] → (∀ c ∈ ds, c.isDigit = true) →
    (∀ c ∈ fs, c.isDigit = true) → Plain (ds ++ '.' :: fs) ⟨digitsValue (ds ++ fs), -fs.length⟩

/-- **The plain notation is read as the decimal that it denotes.** -/
theorem Plain.read?_eq {cs : List Char} {d : Decimal} (h : Plain cs d) :
    Decimal.read? cs = some d := by
  cases h with
  | whole hne hds =>
    have htake : cs.takeWhile Char.isDigit = cs := List.takeWhile_eq_self_iff.2 hds
    have hdrop : cs.dropWhile Char.isDigit = [] := List.dropWhile_eq_nil_iff.2 hds
    simp only [Decimal.read?, htake, hdrop, List.append_nil, if_neg hne, Decimal.readExponent?]
    rfl
  | @point ds fs hne _ hds hfs =>
    have hstop : ∀ c ∈ ('.' :: fs).head?, c.isDigit = false := by
      rintro _ ⟨⟩
      rfl
    have htake : fs.takeWhile Char.isDigit = fs := List.takeWhile_eq_self_iff.2 hfs
    have hdrop : fs.dropWhile Char.isDigit = [] := List.dropWhile_eq_nil_iff.2 hfs
    simp only [Decimal.read?, takeWhile_append_of_stop hds hstop,
      dropWhile_append_of_stop hds hstop, htake, hdrop, Decimal.readExponent?]
    rw [if_neg fun h => hne (List.append_eq_nil_iff.1 h).1, Option.map_some, Int.zero_sub]

theorem Plain.exists_digit {cs : List Char} {d : Decimal} (h : Plain cs d) :
    ∃ c cs', cs = c :: cs' ∧ c.isDigit = true := by
  cases h with
  | whole hne hds =>
    obtain ⟨c, cs', rfl⟩ := List.exists_cons_of_ne_nil hne
    exact ⟨c, cs', rfl, hds c List.mem_cons_self⟩
  | point hne _ hds _ =>
    obtain ⟨c, cs', rfl⟩ := List.exists_cons_of_ne_nil hne
    exact ⟨c, _, rfl, hds c List.mem_cons_self⟩

namespace Decimal

/-- Zeros behind a whole number stand for its exponent. -/
theorem magnitude?_mul_pow (n k : Nat) :
    magnitude? ⟨n * Nat.pow 10 k, 0⟩ = magnitude? ⟨n, k⟩ := by
  rcases Nat.eq_zero_or_pos n with rfl | hn
  · rw [Nat.zero_mul]
    simp [magnitude?]
  · have hne : n * Nat.pow 10 k ≠ 0 :=
      Nat.pos_iff_ne_zero.1 (Nat.mul_pos hn (Nat.pow_pos (by decide)))
    have hratio : ratio ⟨n * Nat.pow 10 k, 0⟩ = ratio ⟨n, k⟩ := by
      simp [ratio]
    simp only [magnitude?, hratio, length_toDigits_mul_pow hn, Nat.pos_iff_ne_zero.1 hn, hne,
      false_or, Int.add_zero, Nat.cast_add]

/-- **What is written of a decimal is read with the same magnitude.** -/
theorem positional_plain (d : Decimal) :
    ∃ d', Plain d.positional d' ∧ d'.magnitude? = d.magnitude? := by
  obtain ⟨n, e⟩ := d
  have hne : Nat.toDigits 10 n ≠ [] := List.ne_nil_of_length_pos Nat.length_toDigits_pos
  unfold positional
  dsimp only
  split
  · rename_i he
    obtain ⟨k, rfl⟩ := Int.eq_ofNat_of_zero_le he
    refine ⟨_, .whole (fun h => hne (List.append_eq_nil_iff.1 h).1)
      (isDigit_append isDigit_toDigits isDigit_zeros), ?_⟩
    rw [Int.toNat_natCast, digitsValue_append_zeros, digitsValue_toDigits, magnitude?_mul_pow]
  · rename_i he
    obtain ⟨k, rfl⟩ := Int.exists_eq_neg_ofNat (Int.le_of_lt (Int.not_le.1 he))
    have hk : 0 < k := by omega
    rw [Int.neg_neg, Int.toNat_natCast]
    split
    · rename_i hlt
      have htaken : ((Nat.toDigits 10 n).drop ((Nat.toDigits 10 n).length - k)).length = k := by
        rw [List.length_drop]
        omega
      have hdigits : ∀ c, c ∈ (Nat.toDigits 10 n).take ((Nat.toDigits 10 n).length - k) ∨
          c ∈ (Nat.toDigits 10 n).drop ((Nat.toDigits 10 n).length - k) → c.isDigit = true :=
        fun c hc => isDigit_toDigits c (hc.elim List.mem_of_mem_take List.mem_of_mem_drop)
      refine ⟨_, .point ?_ (List.ne_nil_of_length_pos (by omega))
        (fun c hc => hdigits c (.inl hc)) (fun c hc => hdigits c (.inr hc)), ?_⟩
      · refine List.ne_nil_of_length_pos ?_
        rw [List.length_take]
        omega
      · rw [List.take_append_drop, htaken, digitsValue_toDigits]
    · rename_i hle
      have hplaces : (List.replicate (k - (Nat.toDigits 10 n).length) '0' ++
          Nat.toDigits 10 n).length = k := by
        rw [List.length_append, List.length_replicate]
        omega
      have hvalue : digitsValue (['0'] ++ (List.replicate (k - (Nat.toDigits 10 n).length) '0' ++
          Nat.toDigits 10 n)) = n :=
        (digitsValue_zeros_append (k - (Nat.toDigits 10 n).length + 1) _).trans
          (digitsValue_toDigits n)
      have hne' : List.replicate (k - (Nat.toDigits 10 n).length) '0' ++ Nat.toDigits 10 n ≠ [] :=
        List.ne_nil_of_length_pos (by omega)
      refine ⟨_, @Plain.point ['0'] _ (List.cons_ne_nil _ _) hne' (List.all_eq_true.1 rfl)
        (isDigit_append isDigit_zeros isDigit_toDigits), ?_⟩
      change magnitude? ⟨digitsValue (['0'] ++ (_ ++ _)), -((_ ++ _ : List Char).length : Int)⟩ = _
      rw [hvalue, hplaces]

end Decimal

/-! ### The number in full -/

namespace Magnitude

theorem mantissa_pos {x : Magnitude} (hx : x ≠ .zero) : 0 < x.mantissa := by
  rcases Nat.eq_zero_or_pos x.mantissa with hzero | hpos
  · obtain ⟨m, s, hlt, hle, hnormal⟩ := x
    obtain rfl : m = 0 := hzero
    obtain rfl : s = 0 := hnormal.resolve_right (by decide)
    exact absurd rfl hx
  · exact hpos

theorem ofParts?_eq (x : Magnitude) : ofParts? x.mantissa x.shift = some x :=
  dif_pos ⟨x.mantissa_lt, x.shift_le, x.normal⟩

/-- Nothing is rounded off a whole number. -/
theorem halfEven_mul (q : Nat) {den : Nat} (hden : 0 < den) : halfEven (q * den) den = q := by
  unfold halfEven
  simp only [Nat.mul_mod_left, Nat.mul_zero, Nat.mul_div_cancel q hden, if_pos hden]

/-- The leading bit of a number that is not subnormal is its 53rd. -/
theorem log2_shifted (x : Magnitude) : (x.mantissa * Nat.pow 2 x.shift).log2 - 52 = x.shift := by
  have hlt : x.mantissa < 2 ^ 53 := x.mantissa_lt
  rcases x.normal with hzero | hnormal
  · have hlog : x.mantissa.log2 < 53 := by
      rcases Nat.eq_zero_or_pos x.mantissa with h | h
      · rw [h]
        decide
      · exact (Nat.log2_lt (Nat.pos_iff_ne_zero.1 h)).2 hlt
    rw [hzero, Nat.pow_eq, Nat.pow_zero, Nat.mul_one]
    omega
  · have hpow : 2 ^ (52 + x.shift) ≤ x.mantissa * 2 ^ x.shift := by
      rw [Nat.pow_add]
      exact Nat.mul_le_mul_right _ hnormal
    have hpow' : x.mantissa * 2 ^ x.shift < 2 ^ (52 + x.shift + 1) := by
      rw [show 52 + x.shift + 1 = 53 + x.shift by omega, Nat.pow_add]
      exact Nat.mul_lt_mul_of_pos_right hlt (Nat.pow_pos (by decide))
    have hne : x.mantissa * 2 ^ x.shift ≠ 0 :=
      Nat.pos_iff_ne_zero.1 (Nat.lt_of_lt_of_le (Nat.pow_pos (by decide)) hpow)
    have hlog : (x.mantissa * Nat.pow 2 x.shift).log2 = 52 + x.shift :=
      (Nat.log2_eq_iff hne).2 ⟨hpow, hpow'⟩
    rw [hlog, Nat.add_sub_cancel_left]

/-- **A ratio that is a magnitude rounds to it.** -/
theorem nearest?_of_exact (x : Magnitude) {num den : Nat} (hden : 0 < den)
    (h : num * Nat.pow 2 1074 = x.mantissa * Nat.pow 2 x.shift * den) :
    nearest? num den = some x := by
  have hquot : num * Nat.pow 2 1074 / den = x.mantissa * Nat.pow 2 x.shift := by
    rw [h, Nat.mul_div_cancel _ hden]
  have hround : halfEven (num * Nat.pow 2 1074) (den * Nat.pow 2 x.shift) = x.mantissa := by
    rw [h, Nat.mul_assoc, Nat.mul_comm (Nat.pow 2 x.shift) den]
    exact halfEven_mul _ (Nat.mul_pos hden (Nat.pow_pos (by decide)))
  unfold nearest?
  simp only [hquot, log2_shifted, hround]
  rw [if_neg (Nat.ne_of_lt x.mantissa_lt), ofParts?_eq]

/-- The number in full is the magnitude itself. -/
theorem exactDecimal_ratio (x : Magnitude) : 0 < x.exactDecimal.ratio.2 ∧
    x.exactDecimal.ratio.1 * Nat.pow 2 1074 =
      x.mantissa * Nat.pow 2 x.shift * x.exactDecimal.ratio.2 := by
  unfold exactDecimal
  simp only [Nat.pow_eq]
  generalize 1074 = n
  split
  · rename_i hle
    refine ⟨Nat.one_pos, ?_⟩
    simp only [Decimal.ratio, Int.le_refl, if_true, Int.toNat_zero, Nat.pow_eq, Nat.pow_zero,
      Nat.mul_one]
    rw [Nat.mul_assoc, Nat.pow_sub_mul_pow 2 hle]
  · rename_i hlt
    have hpow := Nat.pow_sub_mul_pow 2 (Nat.le_of_lt (Nat.not_le.1 hlt))
    have hneg : ¬ (0 : Int) ≤ -((n - x.shift : Nat) : Int) := by omega
    simp only [Decimal.ratio, if_neg hneg, Int.neg_neg, Int.toNat_natCast, Nat.pow_eq]
    refine ⟨Nat.pow_pos (by decide), ?_⟩
    rw [← hpow, show 10 = 5 * 2 from rfl, Nat.mul_pow]
    ring

theorem length_toDigits_le {n k : Nat} (hk : 0 < k) (h : n < 10 ^ k) :
    (Nat.toDigits 10 n).length ≤ k :=
  (Nat.length_toDigits_le_iff (by decide) hk).2 h

/-- The leading digit of the number in full is near the point. -/
theorem exactDecimal_leading (x : Magnitude) :
    -2000 ≤ (Nat.toDigits 10 x.exactDecimal.coefficient).length + x.exactDecimal.exponent ∧
      (Nat.toDigits 10 x.exactDecimal.coefficient).length + x.exactDecimal.exponent ≤ 2000 := by
  have hlt : x.mantissa < 10 ^ 53 := Nat.lt_of_lt_of_le x.mantissa_lt (by decide)
  have hshift := x.shift_le
  unfold exactDecimal
  simp only [Nat.pow_eq]
  split
  · rename_i hle
    have hdigits : (Nat.toDigits 10 (x.mantissa * 2 ^ (x.shift - 1074))).length ≤
        53 + (x.shift - 1074) := by
      refine length_toDigits_le (by omega) ?_
      rw [Nat.pow_add]
      exact Nat.mul_lt_mul_of_lt_of_le hlt (Nat.pow_le_pow_left (by decide) _)
        (Nat.pow_pos (by decide))
    dsimp only
    omega
  · have hdigits : (Nat.toDigits 10 (x.mantissa * 5 ^ (1074 - x.shift))).length ≤
        53 + (1074 - x.shift) := by
      refine length_toDigits_le (by omega) ?_
      rw [Nat.pow_add]
      exact Nat.mul_lt_mul_of_lt_of_le hlt (Nat.pow_le_pow_left (by decide) _)
        (Nat.pow_pos (by decide))
    dsimp only
    omega

theorem exactDecimal_coefficient_ne_zero {x : Magnitude} (hx : x ≠ .zero) :
    x.exactDecimal.coefficient ≠ 0 := by
  have hpos := mantissa_pos hx
  unfold exactDecimal
  split
  · exact Nat.pos_iff_ne_zero.1 (Nat.mul_pos hpos (Nat.pow_pos (by decide)))
  · exact Nat.pos_iff_ne_zero.1 (Nat.mul_pos hpos (Nat.pow_pos (by decide)))

theorem magnitude?_exactDecimal {x : Magnitude} (hx : x ≠ .zero) :
    x.exactDecimal.magnitude? = some x := by
  obtain ⟨hlow, hhigh⟩ := exactDecimal_leading x
  obtain ⟨hden, hratio⟩ := exactDecimal_ratio x
  unfold Decimal.magnitude?
  dsimp only
  rw [if_neg (not_or.2 ⟨exactDecimal_coefficient_ne_zero hx, Int.not_lt.2 hlow⟩),
    if_neg (Int.not_lt.2 hhigh), nearest?_of_exact x hden hratio]

/-! ### The decimal that is chosen -/

/-- Of two decimals the one that is taken was tried. -/
theorem magnitude?_of_choice {x : Magnitude} {below above d : Decimal} {p : Prop} [Decidable p]
    (h : (if below.magnitude? = some x then
        if above.magnitude? = some x ∧ p then some above else some below
      else if above.magnitude? = some x then some above else none) = some d) :
    d.magnitude? = some x := by
  split at h
  · rename_i hbelow
    split at h
    · rename_i habove
      exact Option.some.inj h ▸ habove.1
    · exact Option.some.inj h ▸ hbelow
  · split at h
    · rename_i habove
      exact Option.some.inj h ▸ habove
    · cases h

theorem magnitude?_of_onGrid? {x : Magnitude} {place : Int} {d : Decimal}
    (h : x.onGrid? place = some d) : d.magnitude? = some x :=
  magnitude?_of_choice h

/-- **The decimal that is written for a magnitude rounds to it.** -/
theorem magnitude?_shortest {x : Magnitude} (hx : x ≠ .zero) :
    x.shortest.magnitude? = some x := by
  unfold shortest
  dsimp only
  cases hfound : (List.range 17).findSome? fun (n : Nat) =>
      x.onGrid? (leadingPlace x.ratio.1 x.ratio.2 - (n + 1)) with
  | none => exact magnitude?_exactDecimal hx
  | some d =>
    obtain ⟨n, _, hn⟩ := List.exists_of_findSome?_eq_some hfound
    exact magnitude?_of_onGrid? hn

end Magnitude

/-! ### Signed numbers -/

/-- A finite number is written in plain notation behind its sign. -/
theorem Binary64.render_plain (negative : Bool) (x : Magnitude) :
    ∃ body d, (Binary64.finite negative x).render.toList =
        (if negative then '-' :: body else body) ∧
      Plain body d ∧ d.magnitude? = some x := by
  have htext : (Binary64.finite negative x).render.toList =
      if negative then '-' :: (if x = .zero then ['0'] else x.shortest.positional)
      else if x = .zero then ['0'] else x.shortest.positional := String.toList_ofList
  rw [htext]
  by_cases hzero : x = .zero
  · have hplain : Plain ['0'] ⟨0, 0⟩ := .whole (List.cons_ne_nil _ _) (List.all_eq_true.1 rfl)
    refine ⟨_, ⟨0, 0⟩, rfl, ?_, ?_⟩
    · rwa [if_pos hzero]
    · rw [hzero]
      rfl
  · obtain ⟨d, hplain, hd⟩ := x.shortest.positional_plain
    refine ⟨_, d, rfl, ?_, hd.trans (Magnitude.magnitude?_shortest hzero)⟩
    rwa [if_neg hzero]

/-- A text that starts with a digit is read as a decimal. -/
theorem Binary64.read?_plain {body : List Char} {d : Decimal} (h : Plain body d)
    (negative : Bool) :
    Binary64.read? (if negative then '-' :: body else body) = some (.ofDecimal negative d) := by
  obtain ⟨c, cs, rfl, hc⟩ := h.exists_digit
  have hsign : c ≠ '-' ∧ c ≠ '+' := by
    refine ⟨?_, ?_⟩ <;> rintro rfl <;> exact absurd hc (by decide)
  have hlower := toLower_of_isDigit hc
  have hword : c ≠ 'i' ∧ c ≠ 'n' := by
    refine ⟨?_, ?_⟩ <;> rintro rfl <;> exact absurd hc (by decide)
  have hbody : ∀ negative, (let word := (c :: cs).map Char.toLower
      if word = ['i', 'n', 'f'] ∨ word = ['i', 'n', 'f', 'i', 'n', 'i', 't', 'y'] then
        some (Binary64.infinite negative)
      else if word = ['n', 'a', 'n'] then some .nan
      else (Decimal.read? (c :: cs)).map (ofDecimal negative)) = some (ofDecimal negative d) := by
    intro negative
    simp [hlower, hword, h.read?_eq]
  cases negative with
  | true => exact hbody true
  | false =>
    simp only [Bool.false_eq_true, if_false]
    unfold read?
    split
    rename_i hpeel
    split at hpeel
    · rename_i heq
      exact absurd (List.cons.inj heq).1 hsign.1
    · rename_i heq
      exact absurd (List.cons.inj heq).1 hsign.2
    · obtain ⟨rfl, rfl⟩ := Prod.mk.inj hpeel
      exact hbody false

/-- **A finite number that is written reads back as itself.** -/
theorem Binary64.read?_render (negative : Bool) (x : Magnitude) :
    Binary64.read? (Binary64.finite negative x).render.toList = some (.finite negative x) := by
  obtain ⟨body, d, htext, hplain, hd⟩ := render_plain negative x
  rw [htext, read?_plain hplain, ofDecimal, hd]

end Number
end TensorLiveness
