import Mathlib.Tactic.Positivity
import EvScript.Proofs.Compile.Literals
import EvScript.Proofs.Token.Spaced

/-!
# Printed Words Read Again

A word is printed as an integer if it stores one, and otherwise with six places. The decimal gives
the word back if the number is an integer and no negative zero, or at least 16 in magnitude. From
there on, neighbouring 32-bit numbers are at least `2 ^ (-19)` apart, and the decimal is off by half
of `10 ^ (-6)` and its rounding to 64 bits by half of `2 ^ (-29)` at most.

## Main results

* `printed_reads_back` — which words are read back from their listing.
-/

namespace EvScript

namespace Number

open Format

namespace Format

variable {f : Format} {num den k m d : Nat}

theorem two_mul_gap_halfEven_le (a : Nat) (hd : 0 < d) : 2 * gap (d * halfEven a d) a ≤ d := by
  have hup := two_mul_halfEven_le (a := a) hd
  have hdown := le_two_mul_halfEven (a := a) hd
  unfold gap
  omega

theorem two_mul_gap_nearest_le (hp : 0 < f.precision) (hden : 0 < den)
    (h : num * 2 ^ f.scale < 2 ^ f.precision * 2 ^ k * den) :
    2 * gap (f.units (f.nearest num den) * den) (num * 2 ^ f.scale) ≤ den * 2 ^ k := by
  have hshift : f.shiftOf (num * 2 ^ f.scale / den) ≤ k := by
    by_contra hlt
    have hbig := le_of_shiftOf_pos (f := f) hp (Nat.zero_lt_of_lt (Nat.not_le.mp hlt))
    rw [Nat.le_div_iff_mul_le hden] at hbig
    have hpow := Nat.pow_le_pow_right two_pos (Nat.not_le.mp hlt)
    have hle := Nat.mul_le_mul_right den (Nat.mul_le_mul_left f.block hpow)
    rw [two_mul_block hp, show 2 * f.block * 2 ^ k * den = f.block * 2 ^ (k + 1) * den by ring] at h
    exact absurd (hle.trans hbig) (Nat.not_le.mpr h)
  rw [units_nearest_eq hp]
  generalize f.shiftOf (num * 2 ^ f.scale / den) = e at hshift ⊢
  have hhalf := two_mul_gap_halfEven_le (num * 2 ^ f.scale)
    (Nat.mul_pos hden (Nat.two_pow_pos e))
  rw [show halfEven (num * 2 ^ f.scale) (den * 2 ^ e) * 2 ^ e * den =
    den * 2 ^ e * halfEven (num * 2 ^ f.scale) (den * 2 ^ e) by ring]
  exact hhalf.trans (Nat.mul_le_mul_left den (Nat.pow_le_pow_right two_pos hshift))

/-- **A fraction within half a unit of a value** is rounded to it. -/
theorem nearest_of_gap_lt (hp : 0 < f.precision) (hden : 0 < den) (hlow : f.block < m)
    (hhigh : m < 2 * f.block) (h : 2 * gap (num * 2 ^ f.scale) (m * 2 ^ k * den) < 2 ^ k * den) :
    f.nearest num den = k * f.block + m := by
  have hd : 0 < den * 2 ^ k := Nat.mul_pos hden (Nat.two_pow_pos k)
  have hfirst := Nat.mul_le_mul_right (den * 2 ^ k) hlow
  have hlast := Nat.mul_le_mul_right (den * 2 ^ k) hhigh
  rw [show m * 2 ^ k * den = m * (den * 2 ^ k) by ring, Nat.mul_comm (2 ^ k)] at h
  unfold gap at h
  rw [Nat.succ_mul] at hfirst hlast
  have hhalf : halfEven (num * 2 ^ f.scale) (den * 2 ^ k) = m := by
    have hup := two_mul_halfEven_le (a := num * 2 ^ f.scale) hd
    have hdown := le_two_mul_halfEven (a := num * 2 ^ f.scale) hd
    by_contra hne
    rcases Nat.lt_or_gt_of_ne hne with hlt | hgt
    · have := Nat.mul_le_mul_right (den * 2 ^ k) hlt
      rw [Nat.succ_mul, Nat.mul_comm (halfEven _ _)] at this
      omega
    · have := Nat.mul_le_mul_right (den * 2 ^ k) hgt
      rw [Nat.succ_mul, Nat.mul_comm (halfEven _ _)] at this
      omega
  rw [nearest_of_bounds hp hden (k := k), hhalf]
  · rw [show f.block * 2 ^ k * den = f.block * (den * 2 ^ k) by ring]
    omega
  · rw [two_mul_block hp, show 2 * f.block * 2 ^ k * den = 2 * f.block * (den * 2 ^ k) by ring]
    omega

end Format

namespace Binary

/-- Two errors together: half of `10 ^ (-6)` for the decimal, and half of `2 ^ (-29)` for the number
of 64 bits, are less than half of `2 ^ (-19)`. -/
theorem gap_lt_of_gaps {n u v t d e : Nat} (htd : 0 < t * d) (he : t ≤ e)
    (hdecimal : 2 * gap (2 ^ 19 * t * n) (u * 1000000) ≤ 2 ^ 19 * t)
    (hdouble : 2 * gap (v * 1000000) (n * (2 ^ 29 * d)) ≤ 1000000 * d) :
    2 * gap (v * (2 ^ 19 * t)) (u * (2 ^ 29 * d)) < e * (2 ^ 29 * d) := by
  unfold gap at *
  have hup := Nat.mul_le_mul_right d
    (show 2 * (2 ^ 19 * t * n) ≤ 2 * (u * 1000000) + 2 ^ 19 * t by omega)
  have hdown := Nat.mul_le_mul_right d
    (show 2 * (u * 1000000) ≤ 2 * (2 ^ 19 * t * n) + 2 ^ 19 * t by omega)
  have hup' := Nat.mul_le_mul_right t
    (show 2 * (v * 1000000) ≤ 2 * (n * (2 ^ 29 * d)) + 1000000 * d by omega)
  have hdown' := Nat.mul_le_mul_right t
    (show 2 * (n * (2 ^ 29 * d)) ≤ 2 * (v * 1000000) + 1000000 * d by omega)
  have hed := Nat.mul_le_mul_right d he
  have hover : 2 * (v * (2 ^ 19 * t)) < 2 * (u * (2 ^ 29 * d)) + e * (2 ^ 29 * d) := by linarith
  have hunder : 2 * (u * (2 ^ 29 * d)) < 2 * (v * (2 ^ 19 * t)) + e * (2 ^ 29 * d) := by linarith
  omega

/-- **The decimal of a large fraction is close enough**: at 16 and above, a number that is not whole
has its exponent `k - 149` between `-19` and `-1`, so that its decimal, rounded to 64 bits, is
within half a unit of it. -/
theorem narrow?_decimal {x : Binary .single} (hx : x.isInfinite = false)
    (hlarge : 16 * 2 ^ Format.single.scale ≤ x.units)
    (hpart : x.units % 2 ^ Format.single.scale ≠ 0) :
    (ofRatio .double x.negative
      (halfEven (x.units * 10 ^ printedPlaces) (2 ^ Format.single.scale))
      (10 ^ printedPlaces)).narrow? = some x := by
  have hscale : Format.single.scale = 149 := rfl
  have hblock : Format.single.block = 2 ^ 23 := rfl
  have hplaces : 10 ^ printedPlaces = 1000000 := rfl
  rw [hscale] at hlarge hpart ⊢
  rw [hplaces]
  obtain ⟨k, m, hlow, hhigh, hrank⟩ : ∃ k m, Format.single.block ≤ m ∧ m < 2 * Format.single.block ∧
      x.rank = k * Format.single.block + m := by
    refine exists_block (Nat.not_lt.mp fun hlt => ?_)
    rw [units, units_of_lt (by omega), hblock] at *
    omega
  have hunits : x.units = m * 2 ^ k := by rw [units, hrank, units_of_block hlow hhigh]
  rw [hblock] at hlow hhigh hrank
  have hsmall : k < 149 := by
    by_contra hle
    refine hpart ?_
    rw [hunits, ← Nat.sub_add_cancel (Nat.not_lt.mp hle), Nat.pow_add, ← Nat.mul_assoc,
      Nat.mul_mod_left]
  have hbig : 130 ≤ k := by
    by_contra hlt
    have hpow := Nat.pow_le_pow_right two_pos (show k ≤ 129 by omega)
    have := Nat.mul_lt_mul_of_lt_of_le hhigh hpow (Nat.two_pow_pos _)
    omega
  have hfirst : 2 ^ 23 < m := by
    refine lt_of_le_of_ne hlow fun heq => hpart ?_
    rw [hunits, ← heq, ← Nat.pow_add,
      ← Nat.sub_add_cancel (show 149 ≤ 23 + k by omega), Nat.pow_add,
      Nat.mul_mod_left]
  generalize hn : halfEven (x.units * 1000000) (2 ^ 149) = n
  have hlt : n ≤ 2 ^ 23 * 1000000 := by
    have hpow := Nat.pow_le_pow_right two_pos (show k ≤ 148 by omega)
    have := Nat.mul_lt_mul_of_lt_of_le hhigh hpow (Nat.two_pow_pos _)
    have hup := two_mul_halfEven_le (a := x.units * 1000000) (Nat.two_pow_pos 149)
    rw [hn] at hup
    omega
  have hfinite : double.nearest n 1000000 < double.infinity := by
    have hinfinite := Literal.isInfinite_toDouble_iff ⟨x.negative, n, 6, true⟩
    rw [Literal.toDouble, isInfinite_ofRatio] at hinfinite
    refine Nat.not_le.mp fun hle => absurd (hinfinite.mp hle) (Nat.not_le.mpr ?_)
    exact hlt.trans_lt (show 2 ^ 23 * 1000000 < (2 ^ 1024 - 2 ^ 970) * 10 ^ 6 by decide +kernel)
  have hdouble : 2 * gap (double.units (double.nearest n 1000000) * 1000000)
      (n * 2 ^ double.scale) ≤ 1000000 * 2 ^ (double.scale - 29) := by
    refine two_mul_gap_nearest_le (by decide) (by decide) ?_
    have := Nat.mul_le_mul_right (2 ^ double.scale) hlt
    exact this.trans_lt (by decide +kernel)
  have hwide : 2 ^ double.scale = 2 ^ 29 * 2 ^ (double.scale - 29) := by
    rw [← Nat.pow_add, Nat.add_sub_cancel' (by decide)]
  have hsingle : 2 ^ 149 = 2 ^ 19 * 2 ^ 130 := by decide +kernel
  refine narrow?_eq_some ?_ hx rfl ?_
  · rw [Bool.eq_false_iff, ne_eq, isInfinite_ofRatio]
    exact Nat.not_le.mpr hfinite
  · have hrank' : (ofRatio .double x.negative n 1000000).rank = double.nearest n 1000000 :=
      Nat.min_eq_left hfinite.le
    rw [units, hrank', hrank]
    refine nearest_of_gap_lt (by decide) (Nat.two_pow_pos _) hfirst hhigh ?_
    rw [hscale, ← hunits, hwide, hsingle]
    rw [hwide] at hdouble
    refine gap_lt_of_gaps (n := n) (by positivity) (Nat.pow_le_pow_right two_pos hbig) ?_ hdouble
    rw [← hsingle, ← hn]
    exact two_mul_gap_halfEven_le _ (Nat.two_pow_pos _)

theorem abs_value {f : Format} (x : Binary f) : |x.value| = x.units / 2 ^ f.scale := by
  rw [value, abs_mul, abs_sign, one_mul, abs_of_nonneg (by positivity)]

/-- A number of whole value is that of the integer, with the same sign unless it is zero. -/
theorem narrow?_integer {x : Binary .single} {n : Int} (hx : x.isInfinite = false)
    (hn : x.value = n) (hzero : n = 0 → x.negative = false) :
    (ofRatio .double (decide (n < 0)) n.natAbs 1).narrow? = some x := by
  have hunits : x.units = n.natAbs * 2 ^ Format.single.scale := by
    have habs := x.abs_value
    rw [hn, eq_div_iff (by positivity)] at habs
    have hcast : ((n.natAbs * 2 ^ Format.single.scale : Nat) : ℚ) = x.units := by
      rw [Nat.cast_mul, Nat.cast_natAbs, Int.cast_abs, ← habs]
      push_cast
      rfl
    exact_mod_cast hcast.symm
  have hsign : x.negative = decide (n < 0) := by
    have hmagnitude : (0 : ℚ) ≤ x.units / 2 ^ Format.single.scale := by positivity
    rw [value, sign] at hn
    cases hneg : x.negative with
    | true =>
      have hle : (n : ℚ) ≤ 0 := by simpa [← hn, hneg] using hmagnitude
      have hle' : n ≤ 0 := by exact_mod_cast hle
      have hne : n ≠ 0 := fun h => absurd (hzero h) (by simp [hneg])
      exact (decide_eq_true (by omega)).symm
    | false =>
      have hle : 0 ≤ (n : ℚ) := by simpa [← hn, hneg] using hmagnitude
      have hle' : 0 ≤ n := by exact_mod_cast hle
      exact (decide_eq_false (by omega)).symm
  have hrank : double.nearest n.natAbs 1 = (x.convert .double).rank := by
    rw [(rank_convert_double hx).1, hunits, ← Nat.one_mul (2 ^ Format.single.scale),
      ← Nat.mul_assoc, Nat.mul_one, nearest_mul_right (Nat.two_pow_pos _)]
  have hsame : ofRatio .double (decide (n < 0)) n.natAbs 1 = x.convert .double := by
    refine eq_of_rank (hsign.symm.trans (negative_convert .double x).symm) ?_
    exact (congrArg (min · double.infinity) hrank).trans
      (Nat.min_eq_left (x.convert .double).rank_le)
  rw [hsame, narrow?_convert]

end Binary

end Number

open Number Number.Format Lexicon Vocabulary

variable {text : String} {w : List Char}

/-! ### Numbers as tokens -/

/-- A number is a word of its class: it has a digit in it, and no character that strings and
comments begin with. -/
theorem names_of_isNumber (h : IsNumber w) : Names vocabulary w (.token .number) := by
  have hsolid := List.all_eq_true.mp (all_isSolid_of_isNumber h)
  obtain ⟨c, hc, hdigit⟩ : ∃ c ∈ w, isDigit c = true := by
    obtain ⟨sign, whole, part, -, hwhole, -, rfl⟩ := h
    obtain ⟨c, hc⟩ := List.exists_mem_of_ne_nil _ hwhole.1
    exact ⟨c, by simp [hc], hwhole.2 c hc⟩
  have hfixed : ∀ u : List Char, u.all (!isDigit ·) = true → w ≠ u := by
    rintro u hu rfl
    simpa [hdigit] using List.all_eq_true.mp hu c hc
  have hmark : ∀ cls, ¬ Names (marks.map ofMark) w cls := fun cls hnames => by
    obtain ⟨_, hs, -, hword⟩ := hnames.exists_spelling
    obtain ⟨m, -, rfl⟩ := List.mem_map.mp hs
    exact hfixed m.text.toList (by cases m <;> decide) hword
  refine names_append_iff.mpr
    (.inr ⟨hmark, .inr ⟨?_, .inr ⟨?_, .inr ⟨?_, .inr ⟨?_, .inl ⟨h, rfl⟩⟩⟩⟩⟩⟩)
  · rintro ⟨body, -, rfl⟩
    exact absurd (hsolid '\'' (by simp)) (by decide)
  · rintro ⟨u, hu, heq⟩
    have hall : ∀ u ∈ ["EQ", "==", "NE", "!=", "LT", "<", "GT", ">", "LE", "<=", "GE", ">="],
        (String.toList u).all (!isDigit ·) = true := by decide
    exact hfixed _ (hall u hu) heq
  · rintro ⟨body, -, rfl⟩
    exact absurd (hsolid '/' (by simp)) (by decide)
  · rintro ⟨body, -, rfl⟩
    exact absurd (hsolid '/' (by simp)) (by decide)

theorem script_of_number (h : IsNumber text.toList) :
    (Script.ofText text).tokens = [⟨.number, text, .start, 0, text.length⟩] ∧
      (Script.ofText text).errors = [] := by
  have hcut : Cut .start 0 (text.toList ++ []) _ := .token (names_of_isNumber h) (.inl rfl) .done
  rw [List.append_nil] at hcut
  have hpieces := hcut.unique (cut_piecesFrom _ _ _)
  rw [Script.ofText, pieces, ← hpieces]
  simp [Piece.token?, Piece.error?, String.length_toList]

/-! ### Decimals as literals -/

theorem isDigits_toDigits (n : Nat) : IsDigits (Nat.toDigits 10 n) :=
  ⟨Nat.toDigits_ne_nil, fun c hc =>
    (isDigit_eq c).trans (Nat.isDigit_of_mem_toDigits (by decide) (by decide) hc)⟩

theorem ofDigits_toDigits (n : Nat) : ofDigits (Nat.toDigits 10 n) = n :=
  Nat.ofDigitChars_ten_toDigits

theorem toList_toString_int (n : Int) : (toString n).toList =
    (if decide (n < 0) then ['-'] else []) ++ (Nat.toDigits 10 n.natAbs ++ []) := by
  rw [show toString n = n.repr from rfl, Int.repr_eq_if, List.append_nil]
  by_cases hn : n < 0
  · rw [if_neg (Int.not_le.mpr hn), if_pos (decide_eq_true hn),
      String.toList_append, Nat.toList_repr,
      show (-n).toNat = n.natAbs by omega]
    rfl
  · rw [if_pos (Int.not_lt.mp hn), if_neg (by simpa using hn), Nat.toList_repr,
      show n.toNat = n.natAbs by omega, List.nil_append]

/-- The digits behind the point of a decimal. -/
def placesOf (n : Nat) : List Char :=
  List.replicate (printedPlaces - (Nat.toDigits 10 (n % 10 ^ printedPlaces)).length) '0' ++
    Nat.toDigits 10 (n % 10 ^ printedPlaces)

theorem toList_fixedPoint (n : Nat) : (fixedPoint n).toList =
    Nat.toDigits 10 (n / 10 ^ printedPlaces) ++ '.' :: placesOf n := by
  simp [fixedPoint, placesOf, ← String.length_toList]

theorem length_placesOf (n : Nat) : (placesOf n).length = printedPlaces := by
  have hle : (Nat.toDigits 10 (n % 10 ^ printedPlaces)).length ≤ printedPlaces :=
    (Nat.length_toDigits_le_iff (by decide) (by decide)).mpr (Nat.mod_lt _ (by decide))
  rw [placesOf, List.length_append, List.length_replicate]
  omega

theorem isDigits_placesOf (n : Nat) : IsDigits (placesOf n) := by
  refine ⟨fun hnil => ?_, fun c hc => ?_⟩
  · have := length_placesOf n
    rw [hnil] at this
    cases this
  · rcases List.mem_append.mp hc with hc | hc
    · rw [List.eq_of_mem_replicate hc]
      decide
    · exact (isDigits_toDigits _).2 c hc

theorem ofDigits_decimal (n : Nat) :
    ofDigits (Nat.toDigits 10 (n / 10 ^ printedPlaces) ++ placesOf n) = n := by
  rw [show ofDigits = (Nat.ofDigitChars 10 · 0) from rfl]
  dsimp only
  rw [Nat.ofDigitChars_append, Nat.ofDigitChars_ten_toDigits, Nat.ofDigitChars_eq_ofDigitChars_zero,
    length_placesOf, placesOf, Nat.ofDigitChars_append,
    Nat.ofDigitChars_replicate_zero, Nat.mul_zero,
    Nat.ofDigitChars_ten_toDigits, Nat.div_add_mod]

/-! ### Reading again -/

/-- The decimal of a number is a literal that rounds to the number, through 64 bits. -/
def RereadsAs (x : Binary .single) (text : String) : Prop :=
  IsNumber text.toList ∧ ∃ l, Literal.ofText? text = some l ∧ l.toDouble.narrow? = some x

theorem isNumber_of_sign {negative : Bool} {cs ds : List Char} (hcs : IsDigits cs)
    (hds : ds = [] ∨ ∃ digits, IsDigits digits ∧ ds = '.' :: digits)
    (htext : text.toList = (if negative then ['-'] else []) ++ (cs ++ ds)) :
    IsNumber text.toList := by
  refine ⟨_, cs, ds, ?_, hcs, hds, htext.trans (List.append_assoc ..).symm⟩
  cases negative with
  | true => exact .inr rfl
  | false => exact .inl rfl

theorem ofText?_toString_int (n : Int) : Literal.ofText? (toString n) =
    some ⟨decide (n < 0), n.natAbs, 0, false⟩ := by
  have hdigits := isDigits_toDigits n.natAbs
  rw [ofText?_of_sign hdigits (toList_toString_int n), List.append_nil,
    unsigned?_of_digits _ hdigits,
    ofDigits_toDigits]

theorem rereads_integer {x : Binary .single} {n : Int} (hx : x.isInfinite = false)
    (hn : x.value = n) (hzero : n = 0 → x.negative = false) : RereadsAs x (toString n) := by
  have hnarrow : (Literal.toDouble ⟨decide (n < 0), n.natAbs, 0, false⟩).narrow? = some x := by
    rw [Literal.toDouble, Nat.pow_zero]
    exact Binary.narrow?_integer hx hn hzero
  exact ⟨isNumber_of_sign (isDigits_toDigits _) (.inl rfl) (toList_toString_int n), _,
    ofText?_toString_int n, hnarrow⟩

theorem ofText?_fixedPoint {negative : Bool} {k : Nat}
    (htext : text = if negative then "-" ++ fixedPoint k else fixedPoint k) :
    IsNumber text.toList ∧ Literal.ofText? text = some ⟨negative, k, printedPlaces, true⟩ := by
  have htext : text.toList = (if negative then ['-'] else []) ++
      (Nat.toDigits 10 (k / 10 ^ printedPlaces) ++ '.' :: placesOf k) := by
    rw [htext, ← toList_fixedPoint]
    cases negative <;> simp
  have hwhole := isDigits_toDigits (k / 10 ^ printedPlaces)
  refine ⟨isNumber_of_sign hwhole (.inr ⟨_, isDigits_placesOf k, rfl⟩) htext, ?_⟩
  rw [ofText?_of_sign hwhole htext, unsigned?_of_point _ hwhole (isDigits_placesOf k),
    ofDigits_decimal, length_placesOf]

/-- A number with a fraction and of 16 or more, printed with six places. -/
theorem rereads_decimal {x : Binary .single} (hx : x.isInfinite = false)
    (hlarge : 16 * 2 ^ Format.single.scale ≤ x.units)
    (hpart : x.units % 2 ^ Format.single.scale ≠ 0)
    (hprint : x.print = .ok text) : RereadsAs x text := by
  have hnarrow := Binary.narrow?_decimal hx hlarge hpart
  rw [Binary.print, if_neg (by simp [hx]), if_neg hpart] at hprint
  obtain ⟨hnumber, hl⟩ := ofText?_fixedPoint (Except.ok.inj hprint).symm
  exact ⟨hnumber, _, hl, hnarrow⟩

theorem script_of_rereads {x : Binary .single} (h : RereadsAs x text) :
    (Script.ofText text).tokens = [⟨.number, text, .start, 0, text.length⟩] ∧
      (Script.ofText text).errors = [] ∧
      (realOfText text >>= fun x => encode (.real x)) = .ok (Word.ofBinary x) := by
  obtain ⟨hnumber, l, hl, hx⟩ := h
  obtain ⟨htokens, herrors⟩ := script_of_number hnumber
  refine ⟨htokens, herrors, ?_⟩
  rw [encode_realOfText hl, encode_eq_ok_iff, encode_real_iff, hx]
  rfl

/-- **Finite numbers are read back from their listing**: for a word whose number is whole and not a
negative zero, or is 16 or more in magnitude, the text listed for it is one token, a number, and the
word stored for that token is the word listed, taken as signed. -/
theorem printed_reads_back (b : Int) (x : Binary .single) (hx : Word.toBinary? b = some x)
    (hfinite : x.isInfinite = false)
    (hv : (∃ n : Int, x.value = n) ∧ ¬ (x.negative = true ∧ x.value = 0) ∨ 16 ≤ |x.value|) :
    ∃ text w, (∀ strings, Operand.print? strings ⟨.value, some b⟩ = .ok (some text)) ∧
      (Script.ofText text).tokens = [⟨.number, text, .start, 0, text.length⟩] ∧
      (Script.ofText text).errors = [] ∧
      (realOfText text >>= fun x => encode (.real x)) = .ok w ∧
      -2 ^ 31 ≤ w ∧ w < 2 ^ 31 ∧ w % 2 ^ 32 = b % 2 ^ 32 := by
  suffices h : ∃ text, x.print = .ok text ∧ RereadsAs x text by
    obtain ⟨text, hprint, hreads⟩ := h
    obtain ⟨htokens, herrors, hword⟩ := script_of_rereads hreads
    refine ⟨text, Word.ofBinary x, fun strings => ?_, htokens, herrors, hword, word_of_toBinary? hx⟩
    simp [Operand.print?, printWord, hx, hprint]
  have habs := x.abs_value
  by_cases hpart : x.units % 2 ^ Format.single.scale = 0
  · obtain ⟨n, hn, hprint⟩ := Binary.print_of_dvd hfinite (Nat.dvd_of_mod_eq_zero hpart)
    refine ⟨_, hprint, rereads_integer hfinite hn ?_⟩
    rintro rfl
    rw [Int.cast_zero] at hn
    rcases hv with ⟨-, hv⟩ | hv
    · exact Bool.eq_false_iff.mpr fun hneg => hv ⟨hneg, hn⟩
    · norm_num [hn] at hv
  · obtain ⟨text, hprint⟩ := Binary.exists_print hfinite
    refine ⟨text, hprint, rereads_decimal hfinite ?_ hpart hprint⟩
    rcases hv with ⟨⟨n, hn⟩, -⟩ | hv
    · -- A whole value has whole units.
      refine absurd ?_ hpart
      rw [hn, eq_div_iff (by positivity)] at habs
      have hunits : (n.natAbs * 2 ^ Format.single.scale : Nat) = x.units := by
        rw [← Int.cast_abs, ← Nat.cast_natAbs] at habs
        exact_mod_cast habs
      rw [← hunits, Nat.mul_mod_left]
    · rw [habs, le_div_iff₀ (by positivity)] at hv
      exact_mod_cast hv

theorem seventeen_and_a_half_reads_back : ∃ text w,
    (∀ strings, Operand.print? strings ⟨.value, some 1099694080⟩ = .ok (some text)) ∧
      (Script.ofText text).tokens = [⟨.number, text, .start, 0, text.length⟩] ∧
      (Script.ofText text).errors = [] ∧
      (realOfText text >>= fun x => encode (.real x)) = .ok w ∧
      -2 ^ 31 ≤ w ∧ w < 2 ^ 31 ∧ w % 2 ^ 32 = 1099694080 % 2 ^ 32 :=
  printed_reads_back 1099694080 ⟨false, 1099694080, by decide⟩ (by decide +kernel)
    (by decide +kernel) (.inr (by
      rw [Binary.abs_value]
      have hunits : 35 * 2 ^ 148 = (⟨false, 1099694080, by decide⟩ : Binary .single).units := by
        decide +kernel
      rw [← hunits, show Format.single.scale = 149 from rfl]
      norm_num))

end EvScript
