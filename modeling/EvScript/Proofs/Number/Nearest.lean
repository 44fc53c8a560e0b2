import Mathlib.Algebra.Order.Field.Basic
import Mathlib.Algebra.Order.Field.Rat
import Mathlib.Algebra.Order.Ring.Abs
import Mathlib.Algebra.Ring.Parity
import Mathlib.Data.Int.Order.Basic
import Mathlib.Tactic.Linarith
import Mathlib.Tactic.Positivity
import EvScript.Code.Listing
import EvScript.Proofs.Number.Printing

/-!
# Nearest Numbers

Rounding to a format gives the number of the format that is nearest to a fraction, and of two that
are as near the one with even digits. At the exponent of the fraction the values of the format are
the multiples of one unit; values with smaller exponents lie below all of these.

An integer of at most 53 binary digits passes the 64-bit format unchanged, so it is stored as the
32-bit number nearest to it. A word that stores a number is widened to 64 bits without a change of
its value, and storing it again gives the word.

## Main results

* `stored_integer_is_nearest` — what an integer is stored as.
* `stored_again` — a word that is read and stored again.
-/

namespace EvScript.Number

open Format

variable {f : Format} {num den : Nat}

namespace Format

variable {a d rank : Nat}

/-! ### Values near a fraction -/

/-- How far apart two numbers are. -/
def gap (x y : Nat) : Nat := ((x : Int) - y).natAbs

/-- **No multiple is nearer than the rounded quotient**, and as near is another one only if the
quotient was rounded to an even number. -/
theorem gap_halfEven (hd : 0 < d) {q : Nat} (hq : q ≠ halfEven a d) :
    gap (d * halfEven a d) a < gap (d * q) a ∨
      gap (d * halfEven a d) a ≤ gap (d * q) a ∧ halfEven a d % 2 = 0 := by
  have hsplit := Nat.div_add_mod a d
  have hmod := Nat.mod_lt a hd
  have hstep : d * q + d ≤ d * halfEven a d ∨ d * halfEven a d + d ≤ d * q := by
    rcases Nat.lt_or_gt_of_ne hq with hlt | hgt
    · exact .inl (Nat.mul_le_mul_left d hlt)
    · exact .inr (Nat.mul_le_mul_left d hgt)
  unfold gap
  simp only [halfEven] at hstep ⊢
  split_ifs at hstep ⊢ with hless htie
  · omega
  · have heven := Nat.mod_two_eq_zero_or_one (a / d)
    refine .inr ⟨?_, by omega⟩
    rcases heven with h | h <;> rw [h, Nat.mul_add] at hstep ⊢ <;> omega
  · rw [Nat.mul_add, Nat.mul_one] at hstep ⊢
    omega

/-- Behind the first block with an exponent, values are multiples of its unit. -/
theorem exists_units_eq_mul {e : Nat} (h : (e + 1) * f.block ≤ rank ∨ e = 0) :
    ∃ q, f.units rank = q * 2 ^ e := by
  rcases h with h | rfl
  · obtain ⟨k, m, hlow, hhigh, rfl⟩ :=
      exists_block ((Nat.le_mul_of_pos_left _ (Nat.succ_pos e)).trans h)
    have hle : e ≤ k := by
      by_contra hlt
      have := Nat.mul_le_mul_right f.block (show k + 1 ≤ e by omega)
      rw [Nat.add_mul] at this h
      omega
    refine ⟨m * 2 ^ (k - e), ?_⟩
    rw [units_of_block hlow hhigh, Nat.mul_assoc, ← Nat.pow_add, Nat.sub_add_cancel hle]
  · exact ⟨f.units rank, by simp⟩

theorem units_lt_of_lt_block {e : Nat} (h : rank < (e + 1) * f.block) :
    f.units rank < f.block * 2 ^ e := by
  have hblock := f.block_pos
  rw [← units_of_block (f := f) (k := e) le_rfl (by omega)]
  refine f.units_strictMono ?_
  rw [Nat.add_mul] at h
  omega

/-- **No value of the format is nearer than the rounded fraction**, and as near is another one only
if the fraction was rounded to an even rank. -/
theorem gap_nearest (hp : 1 < f.precision) (hden : 0 < den)
    (hne : f.units rank ≠ f.units (f.nearest num den)) :
    gap (f.units (f.nearest num den) * den) (num * 2 ^ f.scale) <
        gap (f.units rank * den) (num * 2 ^ f.scale) ∨
      gap (f.units (f.nearest num den) * den) (num * 2 ^ f.scale) ≤
        gap (f.units rank * den) (num * 2 ^ f.scale) ∧ f.nearest num den % 2 = 0 := by
  have hp' : 0 < f.precision := Nat.zero_lt_of_lt hp
  have hbig : 0 < f.shiftOf (num * 2 ^ f.scale / den) → _ := le_of_shiftOf_pos hp'
  rw [units_nearest_eq hp'] at hne ⊢
  rw [nearest_eq]
  generalize f.shiftOf (num * 2 ^ f.scale / den) = e at hbig hne ⊢
  have hd : 0 < den * 2 ^ e := Nat.mul_pos hden (Nat.two_pow_pos e)
  have heven : halfEven (num * 2 ^ f.scale) (den * 2 ^ e) % 2 = 0 →
      (e * f.block + halfEven (num * 2 ^ f.scale) (den * 2 ^ e)) % 2 = 0 := by
    intro h
    have hblock : e * f.block % 2 = 0 := by
      rw [block, show f.precision - 1 = f.precision - 2 + 1 by omega, Nat.pow_succ, ← Nat.mul_assoc,
        Nat.mul_mod_left]
    omega
  have hround : ∀ q, q ≠ halfEven (num * 2 ^ f.scale) (den * 2 ^ e) → _ := fun q =>
    gap_halfEven (a := num * 2 ^ f.scale) hd
  have hcomm : ∀ q, q * 2 ^ e * den = den * 2 ^ e * q := fun q => by ring
  simp only [hcomm]
  by_cases hfar : (e + 1) * f.block ≤ rank ∨ e = 0
  · -- the value is a multiple of the unit that the fraction is rounded to
    obtain ⟨q, hq⟩ := exists_units_eq_mul hfar
    rw [hq, hcomm]
    refine (hround q ?_).imp_right fun h => ⟨h.1, heven h.2⟩
    rintro rfl
    exact hne hq
  · -- the value is below the values with that exponent, and so farther than the first of them
    obtain ⟨hlow, hpos⟩ := not_or.mp hfar
    have hle := (Nat.le_div_iff_mul_le hden).mp (hbig (Nat.pos_of_ne_zero hpos))
    have hlt := Nat.mul_lt_mul_of_pos_right (units_lt_of_lt_block (Nat.not_le.mp hlow)) hden
    have hfirst : gap (den * 2 ^ e * f.block) (num * 2 ^ f.scale) <
        gap (f.units rank * den) (num * 2 ^ f.scale) := by
      rw [hcomm] at hle hlt
      unfold gap
      omega
    refine .inl (lt_of_le_of_lt ?_ hfirst)
    by_cases hsame : f.block = halfEven (num * 2 ^ f.scale) (den * 2 ^ e)
    · rw [← hsame]
    · exact (hround f.block hsame).elim Nat.le_of_lt And.left

theorem two_pow_scale_dvd_units (hp : 0 < f.precision) (num : Nat) :
    2 ^ f.scale ∣ f.units (f.nearest num 1) := by
  rw [units_nearest_eq hp]
  generalize f.shiftOf (num * 2 ^ f.scale / 1) = e
  rcases Nat.le_total f.scale e with hle | hle
  · exact (Nat.pow_dvd_pow 2 hle).mul_left _
  · obtain ⟨q, hq⟩ := (Nat.pow_dvd_pow 2 hle).mul_left num
    rw [Nat.one_mul, hq, halfEven_mul_self (Nat.two_pow_pos e), Nat.mul_comm, ← hq]
    exact Nat.dvd_mul_left _ _

end Format

/-! ### Nearest numbers -/

namespace Binary

/-- The sign of a number. -/
def sign (x : Binary f) : ℚ := if x.negative then -1 else 1

/-- The value of a finite number. -/
def value (x : Binary f) : ℚ := x.sign * (x.units / 2 ^ f.scale)

/-- The digits of a number, as a whole number. -/
def significand (x : Binary f) : Nat := x.rank - f.exponent x.rank * f.block

/-- The number is finite and nearest to `r`: no finite number is nearer, and if one with another
value is as near, the digits of this one are even. -/
structure IsNearest (r : ℚ) (x : Binary f) : Prop where
  finite : x.isInfinite = false
  least : ∀ y : Binary f, y.isInfinite = false → |x.value - r| ≤ |y.value - r|
  even : ∀ y : Binary f, y.isInfinite = false → y.value ≠ x.value →
    |y.value - r| = |x.value - r| → Even x.significand

variable {x y : Binary f}

theorem abs_sign (x : Binary f) : |x.sign| = 1 := by
  unfold sign
  split <;> simp

theorem even_significand (hp : 1 < f.precision) (h : x.rank % 2 = 0) : Even x.significand := by
  have hblock : Even f.block := Nat.even_pow.mpr ⟨even_two, by omega⟩
  have hle : f.exponent x.rank * f.block ≤ x.rank :=
    (Nat.mul_le_mul_right _ (Nat.sub_le _ _)).trans (Nat.div_mul_le_self _ _)
  exact (Nat.even_sub hle).mpr ⟨fun _ => hblock.mul_left _, fun _ => Nat.even_iff.mpr h⟩

theorem abs_sub_eq_gap (hden : 0 < den) (u : Nat) : |(u / 2 ^ f.scale : ℚ) - num / den| =
    gap (u * den) (num * 2 ^ f.scale) / (2 ^ f.scale * den) := by
  have hd : (0 : ℚ) < den := by exact_mod_cast hden
  rw [gap, Nat.cast_natAbs, div_sub_div _ _ (by positivity) hd.ne', abs_div,
    abs_of_pos (by positivity : (0 : ℚ) < 2 ^ f.scale * den)]
  push_cast
  rw [mul_comm (2 ^ f.scale : ℚ) num]

theorem abs_units_sub_le (x y : Binary f) : |(y.units / 2 ^ f.scale : ℚ) - num / den| ≤
    |y.value - x.sign * (num / den)| := by
  have hmagnitude : ∀ (z : Binary f) (q : ℚ), 0 ≤ q → |z.sign * q| = q := by
    intro z q hq
    rw [abs_mul, abs_sign, one_mul, abs_of_nonneg hq]
  have habs := abs_abs_sub_abs_le y.value (x.sign * (num / den))
  rwa [value, hmagnitude y _ (by positivity), hmagnitude x _ (by positivity)] at habs

theorem abs_value_sub (x : Binary f) : |x.value - x.sign * (num / den)| =
    |(x.units / 2 ^ f.scale : ℚ) - num / den| := by
  rw [value, ← mul_sub, abs_mul, abs_sign, one_mul]

/-- Numbers of the same magnitude that are as near to a fraction other than zero are equal. -/
theorem value_eq_of_units (hunits : y.units = x.units) (hnum : num ≠ 0) (hden : 0 < den)
    (h : |y.value - x.sign * (num / den)| = |x.value - x.sign * (num / den)|) :
    y.value = x.value := by
  by_contra hne
  have hopposite : y.sign = -x.sign := by
    unfold value sign at *
    rw [hunits] at hne
    cases hy : y.negative <;> cases hx : x.negative <;> simp_all
  have hpos : (0 : ℚ) < num / den := by positivity
  have hle : (0 : ℚ) ≤ x.units / 2 ^ f.scale := by positivity
  rw [abs_value_sub, value, hunits, hopposite, neg_mul, ← neg_add', abs_neg, ← mul_add, abs_mul,
    abs_sign, one_mul, abs_of_pos (by linarith), eq_comm, abs_eq (by linarith)] at h
  refine hne ?_
  have hzero : (x.units / 2 ^ f.scale : ℚ) = 0 := by rcases h with h | h <;> linarith
  simp [value, hunits, hzero]

/-- **A number whose rank is that of a fraction is nearest to the fraction.** -/
theorem isNearest_of_rank (hp : 1 < f.precision) (hden : 0 < den) (hfinite : x.isInfinite = false)
    (hrank : x.rank = f.nearest num den) : IsNearest (x.sign * (num / den)) x := by
  have hbest : ∀ y : Binary f, y.units ≠ x.units →
      |x.value - x.sign * (num / den)| < |y.value - x.sign * (num / den)| ∨
        |x.value - x.sign * (num / den)| ≤ |y.value - x.sign * (num / den)| ∧ x.rank % 2 = 0 := by
    intro y hne
    have hd : (0 : ℚ) < 2 ^ f.scale * den := by positivity
    rw [units, units, hrank] at hne
    have hgap := gap_nearest hp hden hne
    rw [← hrank, ← units, ← units, ← Nat.cast_lt (α := ℚ), ← Nat.cast_le (α := ℚ),
      ← div_lt_div_iff_of_pos_right hd, ← div_le_div_iff_of_pos_right hd, ← abs_sub_eq_gap hden,
      ← abs_sub_eq_gap hden, ← abs_value_sub] at hgap
    exact hgap.imp (·.trans_le (abs_units_sub_le x y)) (.imp_left (·.trans (abs_units_sub_le x y)))
  refine ⟨hfinite, fun y _ => ?_, fun y _ hne heq => ?_⟩
  · by_cases hsame : y.units = x.units
    · rw [abs_value_sub, ← hsame]
      exact abs_units_sub_le x y
    · exact (hbest y hsame).elim le_of_lt And.left
  · by_cases hsame : y.units = x.units
    · rcases Nat.eq_zero_or_pos num with rfl | hnum
      · -- zero is a number of the format
        have hunits : x.units = 0 := by
          rw [units, hrank, units_nearest (m := 0) (k := 0) (by omega) hden (Nat.zero_le _)
            (by simp), Nat.zero_mul]
        exact absurd (by simp [value, hsame, hunits]) hne
      · exact absurd (value_eq_of_units hsame hnum.ne' hden heq) hne
    · rcases hbest y hsame with hlt | ⟨-, heven⟩
      · exact absurd heq hlt.ne'
      · exact even_significand hp heven

/-! ### Widening -/

theorem eq_of_rank (hnegative : x.negative = y.negative) (hrank : x.rank = y.rank) : x = y := by
  cases x
  cases y
  simp_all

theorem rank_convert_double {x : Binary .single} (h : x.isInfinite = false) :
    (x.convert .double).rank = double.nearest x.units (2 ^ Format.single.scale) ∧
      (x.convert .double).isInfinite = false := by
  have hlt : double.nearest x.units (2 ^ Format.single.scale) < double.infinity :=
    (nearest_mono (by decide) _ (Format.single.units_strictMono.monotone x.rank_le)).trans_lt
      (by decide +kernel)
  rw [convert, h]
  refine ⟨Nat.min_eq_left hlt.le, ?_⟩
  rw [Bool.eq_false_iff, ne_eq, if_neg (by decide), isInfinite_ofRatio]
  exact Nat.not_le.mpr hlt

theorem units_convert_double {x : Binary .single} (h : x.isInfinite = false) :
    (x.convert .double).units = x.units * 2 ^ (double.scale - Format.single.scale) := by
  rw [units, (rank_convert_double h).1]
  exact units_nearest_units (by decide) (by decide) (by decide) x.rank

theorem negative_convert (g : Format) (x : Binary f) : (x.convert g).negative = x.negative := by
  rw [convert]
  split <;> rfl

/-- **Widening keeps the value.** -/
theorem value_convert_double {x : Binary .single} (h : x.isInfinite = false) :
    (x.convert .double).value = x.value := by
  have hscale : (2 : ℚ) ^ double.scale =
      2 ^ (double.scale - Format.single.scale) * 2 ^ Format.single.scale := by
    rw [← pow_add, Nat.sub_add_cancel (by decide)]
  rw [value, value, sign, negative_convert, ← sign, units_convert_double h, hscale]
  push_cast
  rw [mul_comm (x.units : ℚ), mul_div_mul_left _ _ (by positivity)]

/-- Narrowing to a finite number of the rank that the value is rounded to. -/
theorem narrow?_eq_some {d : Binary .double} {x : Binary .single} (hd : d.isInfinite = false)
    (hx : x.isInfinite = false) (hnegative : d.negative = x.negative)
    (hrank : Format.single.nearest d.units (2 ^ double.scale) = x.rank) : d.narrow? = some x := by
  have hconvert : d.convert .single = x := by
    rw [convert, hd]
    refine eq_of_rank hnegative ?_
    exact (congrArg (min · Format.single.infinity) hrank).trans (Nat.min_eq_left x.rank_le)
  simp [narrow?, hconvert, hx]

/-- **Narrowing gives back what was widened.** -/
theorem narrow?_convert (x : Binary .single) : (x.convert .double).narrow? = some x := by
  cases h : x.isInfinite with
  | true =>
    have hrank : x.rank = Format.single.infinity := by simpa [isInfinite] using h
    have hwide : (x.convert .double).isInfinite = true := by
      rw [convert, if_pos h]
      exact beq_self_eq_true _
    simp only [narrow?, hwide, Bool.not_true, Bool.and_false, Bool.false_eq_true, if_false]
    rw [convert, if_pos hwide]
    refine congrArg some (eq_of_rank ?_ ?_)
    · exact negative_convert .double x
    · exact hrank.symm
  | false =>
    refine narrow?_eq_some (rank_convert_double h).2 h (negative_convert .double x) ?_
    have hscale : 2 ^ double.scale =
        2 ^ Format.single.scale * 2 ^ (double.scale - Format.single.scale) := by
      rw [← Nat.pow_add, Nat.add_sub_cancel' (by decide)]
    rw [units_convert_double h, hscale, nearest_mul_right (Nat.two_pow_pos _)]
    exact nearest_units (by decide) x.rank

end Binary

/-! ### Words -/

/-- The 64-bit number that the low 32 bits of an integer are read as, if they store a number. -/
def Word.toDouble? (word : Int) : Option (Binary .double) :=
  (Word.toBinary? word).map (·.convert .double)

/-- A whole number with a sign is stored as the 32-bit number nearest to it. -/
theorem signedWord_eq {u : Nat} (h : u ≤ 2 ^ 53) (negative : Bool) :
    signedWord negative u = Word.ofBinary (.ofRatio .single negative u 1) := by
  have hrank : (Binary.ofRatio .single negative u 1).rank = singleRank u := by
    rw [singleRank_eq h]
    exact Nat.min_eq_left ((singleRank_eq h).symm.trans_lt (stored_of_le h).2).le
  rw [Word.ofBinary, hrank]
  rfl

theorem Binary.print_of_dvd {x : Binary .single} (h : x.isInfinite = false)
    (hdvd : 2 ^ Format.single.scale ∣ x.units) :
    ∃ m : Int, x.value = m ∧ x.print = .ok (toString m) := by
  obtain ⟨q, hq⟩ := hdvd
  have hpos : 0 < 2 ^ Format.single.scale := Nat.two_pow_pos _
  refine ⟨if x.negative then -(q : Int) else q, ?_, ?_⟩
  · rw [value, hq, sign]
    push_cast
    rw [mul_div_cancel_left₀ _ (by positivity)]
    split <;> simp
  · have hdiv : (x.units : Int) / (2 ^ Format.single.scale : Nat) = q := by
      rw [← Int.natCast_ediv, hq, Nat.mul_div_cancel_left _ hpos]
    have hmod : x.units % 2 ^ Format.single.scale = 0 := by rw [hq, Nat.mul_mod_right]
    simp only [print, h, Bool.false_eq_true, if_false, hmod, if_true, hdiv]

/-- **An integer is stored as the number nearest to it.** Up to `2 ^ 53` in magnitude every integer
is stored. Its word is read as the 32-bit number that is nearest to it, a tie going to the even
digits; up to `2 ^ 24` that is the integer itself. The number is a whole one, and the word is listed
as the decimal of it. -/
theorem stored_integer_is_nearest (n : Int) (hn : |n| ≤ 2 ^ 53) :
    ∃ (w : Int) (x : Binary .single), (Quantity.int n).encode = .ok w ∧
      Word.toDouble? w = some (x.convert .double) ∧ (x.convert .double).value = x.value ∧
      x.IsNearest n ∧ (|n| ≤ 2 ^ 24 → x.value = n) ∧
      ∃ m : Int, x.value = m ∧
        ∀ strings, Operand.print? strings ⟨.value, some w⟩ = .ok (some (toString m)) := by
  have hu : n.natAbs ≤ 2 ^ 53 := by
    rw [Int.abs_eq_natAbs] at hn
    omega
  obtain ⟨hd, hs⟩ := stored_of_le hu
  obtain ⟨x, hx⟩ : ∃ x, x = Binary.ofRatio .single (decide (n < 0)) n.natAbs 1 := ⟨_, rfl⟩
  have hlt : Format.single.nearest n.natAbs 1 < Format.single.infinity := singleRank_eq hu ▸ hs
  have hrank : x.rank = Format.single.nearest n.natAbs 1 := hx ▸ Nat.min_eq_left hlt.le
  have hfinite : x.isInfinite = false := by
    rw [hx, Bool.eq_false_iff, ne_eq, isInfinite_ofRatio]
    exact Nat.not_le.mpr hlt
  have hsign : x.sign * ((n.natAbs : ℚ) / (1 : Nat)) = n := by
    rw [Binary.sign, hx, Nat.cast_one, div_one, Nat.cast_natAbs]
    rcases Int.lt_or_le n 0 with hneg | hpos
    · simp [Binary.ofRatio, hneg, abs_of_neg hneg]
    · simp [Binary.ofRatio, Int.not_lt.mpr hpos, abs_of_nonneg hpos]
  obtain ⟨m, hm, hprint⟩ := Binary.print_of_dvd hfinite
    (by rw [Binary.units, hrank]; exact two_pow_scale_dvd_units (by decide) _)
  refine ⟨Word.ofBinary x, x, ?_, ?_, Binary.value_convert_double hfinite, ?_, fun hsmall => ?_, m,
    hm, fun strings => ?_⟩
  · rw [encode_int_iff, signedWord_eq hu, hx]
    exact ⟨hd, hs, rfl⟩
  · rw [Word.toDouble?, toBinary?_ofBinary]
    rfl
  · rw [← hsign]
    exact Binary.isNearest_of_rank (by decide) one_pos hfinite hrank
  · have hunits : x.units = n.natAbs * 2 ^ Format.single.scale := by
      rw [Binary.units, hrank]
      refine units_nearest (by decide) one_pos ?_ (Nat.mul_one _).symm
      rw [Int.abs_eq_natAbs] at hsmall
      exact (show n.natAbs ≤ 2 ^ 24 by omega).trans (by decide)
    rw [Binary.value, hunits, ← hsign]
    push_cast
    rw [mul_div_cancel_right₀ _ (by positivity), div_one]
  · simp only [Operand.print?, printWord_ofBinary, hprint]

/-- An integer halfway between two numbers goes to the one with even digits. -/
theorem tie_goes_to_even : |(-16777217 : Int)| ≤ 2 ^ 53 ∧
    (Quantity.int (-16777217)).encode = .ok (-880803840) ∧
    ∃ x : Binary .single, Word.toDouble? (-880803840) = some (x.convert .double) ∧
      x.IsNearest (-16777217 : Int) ∧ x.value = (-16777216 : Int) := by
  obtain ⟨w, x, hw, hx, -, hnearest, -, m, hm, hprint⟩ :=
    stored_integer_is_nearest (-16777217) (by decide)
  have hword : (Quantity.int (-16777217)).encode = .ok (-880803840) := by decide +kernel
  obtain rfl : w = -880803840 := Except.ok.inj (hw.symm.trans hword)
  have hdecimal : printWord (-880803840) = .ok "-16777216" := by decide +kernel
  have hlisted := hprint []
  simp only [Operand.print?, hdecimal, Except.ok.injEq, Option.some.injEq] at hlisted
  obtain rfl : m = -16777216 := toString_int_inj hlisted.symm
  exact ⟨by decide, hword, x, hx, hnearest, hm⟩

/-! ### Reading and storing again -/

/-- The low 32 bits are no number: all digits of the exponent are set, and some of the others. -/
def Word.IsNaN (word : Int) : Prop := word / 2 ^ 23 % 2 ^ 8 = 255 ∧ word % 2 ^ 23 ≠ 0

/-- The word of the number in the low 32 bits of an integer has these bits. -/
theorem word_of_toBinary? {b : Int} {x : Binary .single} (h : Word.toBinary? b = some x) :
    -2 ^ 31 ≤ Word.ofBinary x ∧ Word.ofBinary x < 2 ^ 31 ∧
      Word.ofBinary x % 2 ^ 32 = b % 2 ^ 32 := by
  simp only [Word.toBinary?, Option.dite_none_right_eq_some, Option.some.injEq] at h
  obtain ⟨_, rfl⟩ := h
  simp only [Word.ofBinary, decide_eq_true_eq]
  split <;> omega

/-- **A word that is read and stored again** is the word itself, as a signed number of 32 bits. -/
theorem stored_again (b : Int) (hb : ¬ Word.IsNaN b) :
    ∃ x w, Word.toDouble? b = some x ∧ (Quantity.real x).encode = .ok w ∧
      -2 ^ 31 ≤ w ∧ w < 2 ^ 31 ∧ w % 2 ^ 32 = b % 2 ^ 32 := by
  have hrank : (b % 2 ^ 32).toNat % 2 ^ 31 ≤ Format.single.infinity := by
    show _ ≤ 255 * 2 ^ 23
    unfold Word.IsNaN at hb
    omega
  obtain ⟨x, hx⟩ : ∃ x, Word.toBinary? b = some x := ⟨_, dif_pos hrank⟩
  refine ⟨x.convert .double, Word.ofBinary x, by rw [Word.toDouble?, hx]; rfl, ?_,
    word_of_toBinary? hx⟩
  rw [encode_real_iff, Binary.narrow?_convert]
  rfl

/-- The least negative number in the low bits of a larger integer. -/
theorem least_stored_again : ¬ Word.IsNaN (2 ^ 35 + 2 ^ 31 + 1) ∧
    ∃ x, Word.toDouble? (2 ^ 35 + 2 ^ 31 + 1) = some x ∧
      (Quantity.real x).encode = .ok (1 - 2 ^ 31) := by
  have hnumber : ¬ Word.IsNaN (2 ^ 35 + 2 ^ 31 + 1) := by
    unfold Word.IsNaN
    omega
  obtain ⟨x, w, hx, hw, hlow, hhigh, hmod⟩ := stored_again _ hnumber
  obtain rfl : w = 1 - 2 ^ 31 := by omega
  exact ⟨hnumber, x, hx, hw⟩

end EvScript.Number
