import Mathlib.Algebra.Order.Group.Abs
import Mathlib.Algebra.Order.Group.Int
import EvScript.Number.Literal
import EvScript.Proofs.Number.Rounding

/-!
# Stored Integers

The word of an integer is an integer again, and could be mistaken for the number itself. This makes
no difference exactly for zero and two short ranges of integers that are stored as a word which,
taken as a number, is stored as itself. Both are found in the same way: the rank of a number grows
about as slowly as its logarithm, so only between two powers of two can the two meet, and there the
rank is a linear function of the number, up to rounding.
-/

namespace EvScript.Number

open Format

variable {e u : Nat} {n w : Int}

/-! ### The rank of a whole number -/

/-- The rank of a whole number in the 32-bit format, rounded by way of the 64-bit format. -/
def singleRank (u : Nat) : Nat :=
  single.nearest (double.units (double.nearest u 1)) (2 ^ double.scale)

theorem singleRank_mono {u' : Nat} (h : u ≤ u') : singleRank u ≤ singleRank u' :=
  nearest_mono (by decide) _ (double.units_strictMono.monotone (nearest_mono (by decide) _ h))

/-- A whole number of at most 53 digits is a 64-bit number, so it is rounded once. -/
theorem singleRank_eq (hu : u ≤ 2 ^ 53) : singleRank u = single.nearest u 1 := by
  have hexact : double.units (double.nearest u 1) = u * 2 ^ double.scale :=
    units_nearest (by decide) one_pos (hu.trans (by decide)) (Nat.mul_one _).symm
  have hscale : single.nearest (u * 2 ^ double.scale) (1 * 2 ^ double.scale) = _ :=
    nearest_mul_right (Nat.two_pow_pos double.scale)
  rw [singleRank, hexact, ← hscale, Nat.one_mul]

theorem singleRank_of_bounds (he : 23 ≤ e) (he' : e ≤ 52) (hlow : 2 ^ e ≤ u)
    (hhigh : u < 2 ^ (e + 1)) : singleRank u = (e + 126) * 2 ^ 23 + halfEven u (2 ^ (e - 23)) := by
  have hlow' : single.block * 2 ^ (e + 126) = 2 ^ e * 2 ^ single.scale := by
    show 2 ^ 23 * 2 ^ (e + 126) = 2 ^ e * 2 ^ 149
    rw [← Nat.pow_add, ← Nat.pow_add, show 23 + (e + 126) = e + 149 by omega]
  have hden : 2 ^ (e + 126) = 2 ^ single.scale * 2 ^ (e - 23) := by
    show 2 ^ (e + 126) = 2 ^ 149 * 2 ^ (e - 23)
    rw [← Nat.pow_add, show 149 + (e - 23) = e + 126 by omega]
  have hsmall : u ≤ 2 ^ 53 := hhigh.le.trans (Nat.pow_le_pow_right two_pos (by omega))
  rw [singleRank_eq hsmall, nearest_of_bounds (k := e + 126) (by decide) one_pos, Nat.one_mul, hden,
    Nat.mul_comm u, halfEven_mul_left (Nat.two_pow_pos _)]
  · rfl
  · rw [Nat.mul_one, hlow']
    exact Nat.mul_le_mul_right _ hlow
  · rw [two_mul_block (by decide), Nat.mul_one, Nat.mul_assoc 2, hlow', ← Nat.mul_assoc 2,
      ← Nat.pow_succ']
    exact Nat.mul_lt_mul_of_pos_right hhigh (Nat.two_pow_pos _)

/-! ### Words -/

/-- The word that stores a whole number with a sign. -/
def signedWord (negative : Bool) (u : Nat) : Int :=
  if negative then (singleRank u : Int) - 2 ^ 31 else singleRank u

/-- A rounded fraction is infinite if its rank is not that of a finite value. -/
theorem isInfinite_ofRatio {f : Format} {negative : Bool} {num den : Nat} :
    (Binary.ofRatio f negative num den).isInfinite = true ↔ f.infinity ≤ f.nearest num den := by
  rw [Binary.isInfinite, beq_iff_eq]
  exact min_eq_right_iff

/-- Going down to 32 bits, for a whole number that 64 bits are enough for. -/
theorem narrow?_ofRatio (negative : Bool) (hd : double.nearest u 1 < double.infinity) :
    (Binary.ofRatio double negative u 1).narrow?.map Word.ofBinary =
      if singleRank u < single.infinity then some (signedWord negative u) else none := by
  have hrank : (Binary.ofRatio double negative u 1).rank = double.nearest u 1 :=
    Nat.min_eq_left hd.le
  have hfinite : (Binary.ofRatio double negative u 1).isInfinite = false := by
    rw [Bool.eq_false_iff, ne_eq, isInfinite_ofRatio]
    exact Nat.not_le.mpr hd
  have hconvert : (Binary.ofRatio double negative u 1).convert single =
      Binary.ofRatio single negative (double.units (double.nearest u 1)) (2 ^ double.scale) := by
    rw [Binary.convert, hfinite, Binary.units, hrank]
    rfl
  simp only [Binary.narrow?, hconvert, hfinite, Bool.not_false, Bool.and_true, isInfinite_ofRatio]
  rw [← singleRank]
  by_cases hs : singleRank u < single.infinity
  · have hrank' : (Binary.ofRatio single negative (double.units (double.nearest u 1))
        (2 ^ double.scale)).rank = singleRank u := Nat.min_eq_left hs.le
    rw [if_pos hs, if_neg (Nat.not_le.mpr hs), Option.map_some, Word.ofBinary, hrank']
    rfl
  · rw [if_neg hs, if_pos (Nat.not_lt.mp hs)]
    rfl

theorem encode_real (x : Binary .double) : (Quantity.real x).encode =
    (x.narrow?.map Word.ofBinary).elim (.error .single) .ok := by
  dsimp only [Quantity.encode, Quantity.toDouble, bind, Except.bind]
  cases x.narrow? <;> rfl

theorem encode_real_iff {x : Binary .double} :
    (Quantity.real x).encode = .ok w ↔ x.narrow?.map Word.ofBinary = some w := by
  rw [encode_real]
  cases x.narrow?.map Word.ofBinary <;> simp

theorem encode_int_eq_ok_iff : (Quantity.int n).encode = .ok w ↔
    ∃ x, Binary.ofInt? double n = some x ∧ (Quantity.real x).encode = .ok w := by
  rw [Quantity.encode, Quantity.toDouble]
  cases Binary.ofInt? double n with
  | none => exact ⟨fun h => (nomatch h), fun ⟨_, h, _⟩ => (nomatch h)⟩
  | some x =>
    constructor
    · intro h
      exact ⟨x, rfl, h⟩
    · rintro ⟨y, hy, h⟩
      cases hy
      exact h

theorem ofInt?_eq_some_iff {f : Format} {x : Binary f} : Binary.ofInt? f n = some x ↔
    f.nearest n.natAbs 1 < f.infinity ∧ Binary.ofRatio f (decide (n < 0)) n.natAbs 1 = x := by
  simp only [Binary.ofInt?, isInfinite_ofRatio]
  split
  · simp [*]
  · simp [Nat.not_le.mp ‹_›]

/-- **The word of an integer**, if neither format is too small for it. -/
theorem encode_int_iff : (Quantity.int n).encode = .ok w ↔
    double.nearest n.natAbs 1 < double.infinity ∧ singleRank n.natAbs < single.infinity ∧
      signedWord (decide (n < 0)) n.natAbs = w := by
  rw [encode_int_eq_ok_iff]
  constructor
  · rintro ⟨x, hx, hw⟩
    obtain ⟨hd, rfl⟩ := ofInt?_eq_some_iff.mp hx
    rw [encode_real_iff, narrow?_ofRatio _ hd] at hw
    split at hw
    · exact ⟨hd, ‹_›, Option.some.inj hw⟩
    · cases hw
  · rintro ⟨hd, hs, rfl⟩
    refine ⟨_, ofInt?_eq_some_iff.mpr ⟨hd, rfl⟩, ?_⟩
    rw [encode_real_iff, narrow?_ofRatio _ hd, if_pos hs]

/-! ### Words taken as numbers -/

theorem singleRank_one : singleRank 1 = 127 * 2 ^ 23 := by decide +kernel

theorem singleRank_two_pow (he : 23 ≤ e) (he' : e ≤ 52) :
    singleRank (2 ^ e) = (e + 127) * 2 ^ 23 := by
  have hpow : 2 ^ e = 2 ^ (e - 23) * 2 ^ 23 := by rw [← Nat.pow_add, Nat.sub_add_cancel he]
  rw [singleRank_of_bounds he he' le_rfl (Nat.pow_lt_pow_right one_lt_two e.lt_succ_self), hpow,
    halfEven_mul_self (Nat.two_pow_pos _)]
  ring

theorem stored_of_le (h : u ≤ 2 ^ 53) :
    double.nearest u 1 < double.infinity ∧ singleRank u < single.infinity := by
  constructor
  · exact (nearest_mono (by decide) 1 h).trans_lt (by decide +kernel)
  · rw [singleRank_eq h]
    exact (nearest_mono (by decide) 1 h).trans_lt (by decide +kernel)

/-- The whole numbers between `2 ^ 30` and `2 ^ 31` have the ranks of one exponent. -/
theorem singleRank_thirty (hlow : 2 ^ 30 ≤ u) (hhigh : u < 2 ^ 31) :
    singleRank u = 156 * 2 ^ 23 + halfEven u 128 :=
  singleRank_of_bounds (e := 30) (by decide) (by decide) hlow hhigh

theorem singleRank_twentyNine (hlow : 2 ^ 29 ≤ u) (hhigh : u < 2 ^ 30) :
    singleRank u = 155 * 2 ^ 23 + halfEven u 64 :=
  singleRank_of_bounds (e := 29) (by decide) (by decide) hlow hhigh

theorem singleRank_eq_self_iff (hpos : 0 < u) (hle : u < 2 ^ 31) :
    singleRank u = u ↔ u = 1318926965 := by
  have hone := singleRank_mono hpos
  rw [singleRank_one] at hone
  by_cases hsmall : u < 2 ^ 29
  · -- the rank is too large already at one
    omega
  have hmid := singleRank_mono (Nat.not_lt.mp hsmall)
  rw [singleRank_two_pow (by decide) (by decide)] at hmid
  by_cases hthirty : u < 2 ^ 30
  · omega
  rw [singleRank_thirty (Nat.not_lt.mp hthirty) hle]
  have hup := two_mul_halfEven_le (a := u) (d := 128) (by decide)
  have hdown := le_two_mul_halfEven (a := u) (d := 128) (by decide)
  constructor
  · intro h
    omega
  · rintro rfl
    decide

theorem singleRank_add_self_iff : singleRank u + u = 2 ^ 31 ↔ u = 834214802 := by
  by_cases hsmall : u < 2 ^ 29
  · have hmid := singleRank_mono hsmall.le
    rw [singleRank_two_pow (by decide) (by decide)] at hmid
    omega
  by_cases hthirty : u < 2 ^ 30
  · rw [singleRank_twentyNine (Nat.not_lt.mp hsmall) hthirty]
    have hup := two_mul_halfEven_le (a := u) (d := 64) (by decide)
    have hdown := le_two_mul_halfEven (a := u) (d := 64) (by decide)
    constructor
    · intro h
      omega
    · rintro rfl
      decide
  · have hbig := singleRank_mono (Nat.not_lt.mp hthirty)
    rw [singleRank_two_pow (by decide) (by decide)] at hbig
    omega

/-- **The words that are stored as themselves.** -/
theorem signedWord_eq_self_iff (hlow : -2 ^ 31 ≤ w) (hhigh : w < 2 ^ 31) :
    signedWord (decide (w < 0)) w.natAbs = w ↔ w = 0 ∨ w = 1318926965 ∨ w = -834214802 := by
  by_cases hneg : w < 0
  · have hsum := singleRank_add_self_iff (u := w.natAbs)
    simp only [signedWord, decide_eq_true hneg, if_true]
    omega
  · simp only [signedWord, decide_eq_false hneg, Bool.false_eq_true, if_false]
    by_cases hzero : w = 0
    · subst w
      exact ⟨fun _ => .inl rfl, fun _ => by decide +kernel⟩
    · have hself := singleRank_eq_self_iff (u := w.natAbs) (by omega) (by omega)
      omega

/-! ### Integers -/

/-- The integers with the one positive word that is stored as itself. The word is odd, so the
integers halfway to its neighbours do not have it. -/
theorem singleRank_eq_iff : singleRank u = 1318926965 ↔ 1318926912 < u ∧ u < 1318927040 := by
  by_cases hsmall : u < 2 ^ 30
  · have hmid := singleRank_mono hsmall.le
    rw [singleRank_two_pow (by decide) (by decide)] at hmid
    omega
  by_cases hbig : u < 2 ^ 31
  · rw [singleRank_thirty (Nat.not_lt.mp hsmall) hbig, halfEven]
    split_ifs <;> omega
  · have hmid := singleRank_mono (Nat.not_lt.mp hbig)
    rw [singleRank_two_pow (by decide) (by decide)] at hmid
    omega

/-- The magnitudes with the one negative word that is stored as itself. The word is even, so the
integers halfway to its neighbours have it too. -/
theorem singleRank_eq_iff_of_negative :
    singleRank u = 2 ^ 31 - 834214802 ↔ 834214752 ≤ u ∧ u ≤ 834214816 := by
  by_cases hsmall : u < 2 ^ 29
  · have hmid := singleRank_mono hsmall.le
    rw [singleRank_two_pow (by decide) (by decide)] at hmid
    omega
  by_cases hbig : u < 2 ^ 30
  · rw [singleRank_twentyNine (Nat.not_lt.mp hsmall) hbig, halfEven]
    split_ifs <;> omega
  · have hmid := singleRank_mono (Nat.not_lt.mp hbig)
    rw [singleRank_two_pow (by decide) (by decide)] at hmid
    omega

theorem singleRank_eq_zero_iff : singleRank u = 0 ↔ u = 0 := by
  constructor
  · intro h
    by_contra hne
    have hone := singleRank_mono (Nat.one_le_iff_ne_zero.mpr hne)
    rw [singleRank_one] at hone
    omega
  · rintro rfl
    decide +kernel

theorem word_bounds (h : (Quantity.int n).encode = .ok w) : -2 ^ 31 ≤ w ∧ w < 2 ^ 31 := by
  obtain ⟨-, hs, rfl⟩ := encode_int_iff.mp h
  rw [show single.infinity = 255 * 2 ^ 23 from rfl] at hs
  rw [signedWord]
  split <;> omega

theorem encode_int_word (h : (Quantity.int n).encode = .ok w) :
    (Quantity.int w).encode = .ok (signedWord (decide (w < 0)) w.natAbs) := by
  have hbounds := word_bounds h
  obtain ⟨hd, hs⟩ := stored_of_le (u := w.natAbs) (by omega)
  exact encode_int_iff.mpr ⟨hd, hs, rfl⟩

/-- **Storing the word of an integer** as if it were the integer itself gives the same word
exactly for zero and for two ranges of integers. -/
theorem encode_int_word_iff (h : (Quantity.int n).encode = .ok w) :
    (Quantity.int w).encode = .ok w ↔
      n = 0 ∨ |n - 1318926976| < 64 ∨ |n + 834214784| ≤ 32 := by
  have hbounds := word_bounds h
  rw [encode_int_word h, Except.ok.injEq, signedWord_eq_self_iff hbounds.1 hbounds.2, abs_lt,
    abs_le]
  obtain ⟨-, hs, rfl⟩ := encode_int_iff.mp h
  rw [show single.infinity = 255 * 2 ^ 23 from rfl] at hs
  have hzero := singleRank_eq_zero_iff (u := n.natAbs)
  by_cases hneg : n < 0
  · have hrange := singleRank_eq_iff_of_negative (u := n.natAbs)
    simp only [signedWord, decide_eq_true hneg, if_true]
    omega
  · have hrange := singleRank_eq_iff (u := n.natAbs)
    simp only [signedWord, decide_eq_false hneg, Bool.false_eq_true, if_false]
    omega

/-! ### Literals -/

namespace Literal

variable {l : Literal} {n w : Int}

theorem places_of_unsigned? {negative : Bool} {cs : List Char}
    (h : unsigned? negative cs = some l) (hl : l.pointed = false) : l.places = 0 := by
  unfold unsigned? at h
  dsimp only at h
  split at h
  · cases h
  · cases h
    rfl
  · split at h
    · cases h
      cases hl
    · cases h
  · cases h

theorem places_of_ofText? {text : String} (h : ofText? text = some l) (hl : l.pointed = false) :
    l.places = 0 := by
  unfold ofText? at h
  split at h
  · exact places_of_unsigned? h hl
  · exact places_of_unsigned? h hl

theorem toInt?_eq_some_iff : l.toInt? = some n ↔
    l.pointed = false ∧ n = if l.negative then -(l.digits : Int) else l.digits := by
  unfold toInt?
  cases l.pointed with
  | true => simp
  | false => exact ⟨fun h => ⟨rfl, (Option.some.inj h).symm⟩, fun h => congrArg some h.2.symm⟩

/-- A literal for an integer that can be stored can be stored as a fraction too, as the word of
its digits with its sign. -/
theorem encode_toDouble (hplaces : l.places = 0) (hn : l.toInt? = some n)
    (h : (Quantity.int n).encode = .ok w) :
    (Quantity.real l.toDouble).encode = .ok (signedWord l.negative l.digits) := by
  obtain ⟨-, rfl⟩ := toInt?_eq_some_iff.mp hn
  obtain ⟨hd, hs, -⟩ := encode_int_iff.mp h
  have habs : (if l.negative then -(l.digits : Int) else l.digits).natAbs = l.digits := by
    split <;> simp
  rw [habs] at hd hs
  rw [toDouble, hplaces, Nat.pow_zero, encode_real_iff, narrow?_ofRatio _ hd, if_pos hs]

/-- **Storing the word of a literal** gives the word of the literal exactly for zero without a
sign and for two ranges of integers. -/
theorem signedWord_eq_iff (hn : l.toInt? = some n) (h : (Quantity.int n).encode = .ok w) :
    signedWord (decide (w < 0)) w.natAbs = signedWord l.negative l.digits ↔
      n = 0 ∧ l.negative = false ∨ |n - 1318926976| < 64 ∨ |n + 834214784| ≤ 32 := by
  obtain ⟨-, hn⟩ := toInt?_eq_some_iff.mp hn
  have hword := (encode_int_iff.mp h).2.2
  by_cases hzero : n = 0
  · have hdigits : l.digits = 0 := by
      split at hn <;> omega
    have hrank := singleRank_eq_zero_iff.mpr rfl
    subst hzero
    have hw : w = 0 := by
      rw [← hword, Int.natAbs_zero, signedWord, hrank]
      rfl
    subst hw
    simp only [hdigits, signedWord, Int.natAbs_zero, hrank]
    cases l.negative <;> decide
  · -- the sign of the literal is that of the integer
    have hsign : signedWord l.negative l.digits = w := by
      have hdigits : l.digits = n.natAbs := by
        split at hn <;> omega
      have hnegative : l.negative = decide (n < 0) := by
        cases hneg : l.negative <;> rw [hneg] at hn <;> simp at hn ⊢ <;> omega
      rw [hdigits, hnegative, hword]
    have hiff := encode_int_word_iff h
    rw [encode_int_word h, Except.ok.injEq] at hiff
    rw [hsign, hiff]
    simp [hzero]

end Literal

end EvScript.Number
