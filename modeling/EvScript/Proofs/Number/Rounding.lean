import Mathlib.Algebra.Order.Group.Nat
import Mathlib.Order.Monotone.Basic
import Mathlib.Tactic.Common
import Mathlib.Tactic.Ring
import EvScript.Number.Rounding

/-!
# The Order of Ranks

Rounding to a format respects the order of numbers, and so does going back from ranks to values. The
one place where this takes an argument is the change from one exponent to the next, where the unit
doubles: the fractions below round to at most the first rank of the next exponent, and those above
to no less. For a fraction with a known exponent the rank is given outright.
-/

namespace EvScript.Number

/-! ### Rounding a quotient -/

variable {a b c d : Nat}

theorem div_le_halfEven (a d : Nat) : a / d ≤ halfEven a d := by
  simp only [halfEven]
  split_ifs <;> omega

theorem halfEven_le_succ (a d : Nat) : halfEven a d ≤ a / d + 1 := by
  simp only [halfEven]
  split_ifs <;> omega

theorem two_mul_halfEven_le (hd : 0 < d) : 2 * (d * halfEven a d) ≤ 2 * a + d := by
  have hdiv := Nat.div_add_mod a d
  have hmod := Nat.mod_lt a hd
  have heven := Nat.mod_lt (a / d) two_pos
  have hcases : a / d % 2 = 0 ∨ a / d % 2 = 1 := by omega
  simp only [halfEven]
  split
  · omega
  · split
    · rcases hcases with h | h <;> rw [h] <;> simp only [Nat.mul_add, Nat.mul_one] <;> omega
    · rw [Nat.mul_add, Nat.mul_one]
      omega

theorem le_two_mul_halfEven (hd : 0 < d) : 2 * a ≤ 2 * (d * halfEven a d) + d := by
  have hdiv := Nat.div_add_mod a d
  have hmod := Nat.mod_lt a hd
  have hle := Nat.mul_le_mul_left d (div_le_halfEven a d)
  by_cases hpart : 2 * (a % d) ≤ d
  · omega
  · rw [halfEven, if_neg (by omega), if_neg (by omega), Nat.mul_add, Nat.mul_one]
    omega

theorem halfEven_mono (d : Nat) (h : a ≤ b) : halfEven a d ≤ halfEven b d := by
  rcases Nat.lt_or_eq_of_le (Nat.div_le_div_right (c := d) h) with hlt | heq
  · calc halfEven a d ≤ a / d + 1 := halfEven_le_succ a d
      _ ≤ b / d := hlt
      _ ≤ halfEven b d := div_le_halfEven b d
  · have ha := Nat.div_add_mod a d
    have hb := Nat.div_add_mod b d
    rw [heq] at ha
    have hmod : a % d ≤ b % d := by omega
    have heven := Nat.mod_lt (b / d) two_pos
    simp only [halfEven, heq]
    split_ifs <;> omega

/-- A common factor does not matter. -/
theorem halfEven_mul_left (hc : 0 < c) : halfEven (c * a) (c * b) = halfEven a b := by
  have hcomm : 2 * (c * (a % b)) = c * (2 * (a % b)) := by ring
  simp only [halfEven, Nat.mul_div_mul_left _ _ hc, Nat.mul_mod_mul_left, hcomm,
    Nat.mul_lt_mul_left hc, Nat.mul_right_inj hc.ne']

/-- A quotient without a remainder is kept. -/
theorem halfEven_mul_self (hd : 0 < d) : halfEven (d * a) d = a := by
  simp [halfEven, hd]

/-! ### Ranks and their exponents -/

namespace Format

variable {f : Format} {num num' den whole k m rank rank' : Nat}

/-- The exponent, counted from the least one, at which a number of units is rounded. -/
def shiftOf (f : Format) (whole : Nat) : Nat :=
  if whole < 2 ^ f.precision then 0 else whole.log2 + 1 - f.precision

theorem nearest_eq (f : Format) (num den : Nat) : f.nearest num den =
    f.shiftOf (num * 2 ^ f.scale / den) * f.block +
      halfEven (num * 2 ^ f.scale) (den * 2 ^ f.shiftOf (num * 2 ^ f.scale / den)) := rfl

theorem block_pos (f : Format) : 0 < f.block := Nat.two_pow_pos _

theorem two_mul_block (hp : 0 < f.precision) : 2 ^ f.precision = 2 * f.block := by
  rw [block, ← Nat.pow_succ', Nat.succ_eq_add_one, Nat.sub_add_cancel hp]

theorem shiftOf_of_bounds (hp : 0 < f.precision) (hlow : f.block * 2 ^ k ≤ whole)
    (hhigh : whole < 2 ^ f.precision * 2 ^ k) : f.shiftOf whole = k := by
  rw [block, ← Nat.pow_add] at hlow
  rw [← Nat.pow_add] at hhigh
  cases k with
  | zero => exact if_pos hhigh
  | succ k =>
    have hbig : 2 ^ f.precision ≤ whole :=
      (Nat.pow_le_pow_right two_pos (by omega)).trans hlow
    have hlog : whole.log2 = f.precision + k := by
      have hne : whole ≠ 0 := (Nat.two_pow_pos _ |>.trans_le hbig).ne'
      rw [Nat.log2_eq_iff hne]
      exact ⟨(Nat.pow_le_pow_right two_pos (by omega)).trans hlow, hhigh⟩
    rw [shiftOf, if_neg (by omega), hlog]
    omega

theorem lt_of_shiftOf (f : Format) (whole : Nat) :
    whole < 2 ^ f.precision * 2 ^ f.shiftOf whole := by
  rw [shiftOf]
  split
  · rwa [Nat.pow_zero, Nat.mul_one]
  · rename_i h
    have hne : whole ≠ 0 := by
      have := Nat.two_pow_pos f.precision
      omega
    have hlog : f.precision ≤ whole.log2 := (Nat.le_log2 hne).mpr (by omega)
    rw [← Nat.pow_add, Nat.add_sub_cancel' (by omega)]
    exact Nat.lt_log2_self

theorem le_of_shiftOf_pos (hp : 0 < f.precision) (h : 0 < f.shiftOf whole) :
    f.block * 2 ^ f.shiftOf whole ≤ whole := by
  rw [shiftOf] at h ⊢
  split at h
  · omega
  · rename_i hbig
    have hne : whole ≠ 0 := by
      have := Nat.two_pow_pos f.precision
      omega
    rw [if_neg hbig, block, ← Nat.pow_add,
      show f.precision - 1 + (whole.log2 + 1 - f.precision) = whole.log2 by omega]
    exact Nat.log2_self_le hne

theorem shiftOf_mono (f : Format) {whole whole' : Nat} (h : whole ≤ whole') :
    f.shiftOf whole ≤ f.shiftOf whole' := by
  rw [shiftOf, shiftOf]
  split
  · omega
  · rename_i hbig
    have hne : whole ≠ 0 := by
      have := Nat.two_pow_pos f.precision
      omega
    have hlog : whole.log2 ≤ whole'.log2 :=
      (Nat.le_log2 (by omega)).mpr ((Nat.log2_self_le hne).trans h)
    rw [if_neg (by omega)]
    omega

theorem nearest_of_bounds (hp : 0 < f.precision) (hden : 0 < den)
    (hlow : f.block * 2 ^ k * den ≤ num * 2 ^ f.scale)
    (hhigh : num * 2 ^ f.scale < 2 ^ f.precision * 2 ^ k * den) :
    f.nearest num den = k * f.block + halfEven (num * 2 ^ f.scale) (den * 2 ^ k) := by
  have hk : f.shiftOf (num * 2 ^ f.scale / den) = k :=
    shiftOf_of_bounds hp ((Nat.le_div_iff_mul_le hden).mpr hlow)
      ((Nat.div_lt_iff_lt_mul hden).mpr hhigh)
  rw [nearest_eq, hk]

/-! ### The order of ranks -/

theorem nearest_le (hp : 0 < f.precision) :
    f.nearest num den ≤ (f.shiftOf (num * 2 ^ f.scale / den) + 2) * f.block := by
  have hlt := f.lt_of_shiftOf (num * 2 ^ f.scale / den)
  rw [nearest_eq]
  generalize f.shiftOf (num * 2 ^ f.scale / den) = k at hlt ⊢
  have hquot : num * 2 ^ f.scale / (den * 2 ^ k) < 2 * f.block := by
    rw [← Nat.div_div_eq_div_mul, ← two_mul_block hp]
    exact (Nat.div_lt_iff_lt_mul (Nat.two_pow_pos k)).mpr hlt
  have hround := halfEven_le_succ (num * 2 ^ f.scale) (den * 2 ^ k)
  rw [Nat.add_mul]
  omega

/-- A fraction with an exponent of its own does not round below the first rank of it. -/
theorem le_nearest (hp : 0 < f.precision) (h : 0 < f.shiftOf (num * 2 ^ f.scale / den)) :
    (f.shiftOf (num * 2 ^ f.scale / den) + 1) * f.block ≤ f.nearest num den := by
  have hle := le_of_shiftOf_pos hp h
  rw [nearest_eq]
  generalize f.shiftOf (num * 2 ^ f.scale / den) = k at hle ⊢
  have hquot : f.block ≤ num * 2 ^ f.scale / (den * 2 ^ k) := by
    rw [← Nat.div_div_eq_div_mul]
    exact (Nat.le_div_iff_mul_le (Nat.two_pow_pos k)).mpr hle
  have hround := div_le_halfEven (num * 2 ^ f.scale) (den * 2 ^ k)
  rw [Nat.add_mul]
  omega

/-- **Rounding respects the order.** -/
theorem nearest_mono (hp : 0 < f.precision) (den : Nat) (h : num ≤ num') :
    f.nearest num den ≤ f.nearest num' den := by
  have hscaled : num * 2 ^ f.scale ≤ num' * 2 ^ f.scale := Nat.mul_le_mul_right _ h
  have hshift := f.shiftOf_mono (Nat.div_le_div_right (c := den) hscaled)
  rcases Nat.lt_or_eq_of_le hshift with hlt | heq
  · -- the exponents differ: the next exponent begins between the two
    calc f.nearest num den
        ≤ (f.shiftOf (num * 2 ^ f.scale / den) + 2) * f.block := nearest_le hp
      _ ≤ (f.shiftOf (num' * 2 ^ f.scale / den) + 1) * f.block :=
          Nat.mul_le_mul_right _ (by omega)
      _ ≤ f.nearest num' den := le_nearest hp (by omega)
  · rw [nearest_eq, nearest_eq, heq]
    exact Nat.add_le_add_left (halfEven_mono _ hscaled) _

/-- The value of a rank whose exponent is known. -/
theorem units_of_block (hlow : f.block ≤ m) (hhigh : m < 2 * f.block) :
    f.units (k * f.block + m) = m * 2 ^ k := by
  have hdiv : m / f.block = 1 := Nat.div_eq_of_lt_le (by omega) (by omega)
  have hexp : f.exponent (k * f.block + m) = k := by
    rw [exponent, Nat.add_comm, Nat.add_mul_div_right _ _ f.block_pos, hdiv]
    omega
  rw [units, hexp, Nat.add_sub_cancel_left]

/-- The values of the first ranks. -/
theorem units_of_lt (h : rank < 2 * f.block) : f.units rank = rank := by
  have hdiv : rank / f.block < 2 := (Nat.div_lt_iff_lt_mul f.block_pos).mpr h
  have hexp : f.exponent rank = 0 := by
    rw [exponent]
    omega
  rw [units, hexp]
  simp

theorem exists_block (h : f.block ≤ rank) :
    ∃ k m, f.block ≤ m ∧ m < 2 * f.block ∧ rank = k * f.block + m := by
  have hdiv : 0 < rank / f.block := Nat.div_pos h f.block_pos
  have hmod := Nat.mod_lt rank f.block_pos
  refine ⟨rank / f.block - 1, f.block + rank % f.block, by omega, by omega, ?_⟩
  calc rank = f.block * (rank / f.block) + rank % f.block := (Nat.div_add_mod _ _).symm
    _ = (rank / f.block - 1 + 1) * f.block + rank % f.block := by
        rw [Nat.sub_add_cancel hdiv, Nat.mul_comm]
    _ = (rank / f.block - 1) * f.block + (f.block + rank % f.block) := by ring

theorem units_of_le (hlow : f.block ≤ m ∨ k = 0) (hhigh : m ≤ 2 * f.block) :
    f.units (k * f.block + m) = m * 2 ^ k := by
  rcases Nat.lt_or_eq_of_le hhigh with hlt | rfl
  · rcases hlow with hlow | rfl
    · exact units_of_block hlow hlt
    · simpa using units_of_lt hlt
  · -- the digits are used up: this is the first rank of the next exponent
    rw [show k * f.block + 2 * f.block = (k + 1) * f.block + f.block by ring,
      units_of_block le_rfl (by have := f.block_pos; omega), Nat.pow_succ]
    ring

theorem units_nearest_eq (hp : 0 < f.precision) (num den : Nat) : f.units (f.nearest num den) =
      halfEven (num * 2 ^ f.scale) (den * 2 ^ f.shiftOf (num * 2 ^ f.scale / den)) *
        2 ^ f.shiftOf (num * 2 ^ f.scale / den) := by
  have hle : f.nearest num den ≤ _ := nearest_le hp
  have hge : 0 < f.shiftOf (num * 2 ^ f.scale / den) → _ := le_nearest hp
  rw [nearest_eq] at hle hge ⊢
  refine units_of_le ?_ ?_
  · rcases Nat.eq_zero_or_pos (f.shiftOf (num * 2 ^ f.scale / den)) with hzero | hpos
    · exact .inr hzero
    · have := hge hpos
      rw [Nat.add_mul] at this
      exact .inl (by omega)
  · rw [Nat.add_mul] at hle
    omega

/-- The exponent of a number of units with few enough digits divides it. -/
theorem two_pow_shiftOf_dvd (hp : 0 < f.precision) (hm : m ≤ 2 * f.block) :
    2 ^ f.shiftOf (m * 2 ^ k) ∣ m * 2 ^ k := by
  by_cases hle : f.shiftOf (m * 2 ^ k) ≤ k
  · exact (Nat.pow_dvd_pow 2 hle).mul_left m
  · -- one exponent more is needed only if the digits are used up
    have hbig : _ ≤ m * 2 ^ k := le_of_shiftOf_pos hp (by omega)
    have hnext := Nat.pow_le_pow_right two_pos (Nat.not_le.mp hle)
    have hsame : m * 2 ^ k = f.block * 2 ^ f.shiftOf (m * 2 ^ k) := by
      refine Nat.le_antisymm ?_ hbig
      calc m * 2 ^ k ≤ 2 * f.block * 2 ^ k := Nat.mul_le_mul_right _ hm
        _ = f.block * 2 ^ (k + 1) := by ring
        _ ≤ _ := Nat.mul_le_mul_left _ hnext
    exact ⟨f.block, hsame.trans (Nat.mul_comm _ _)⟩

/-- A fraction that needs no more digits than the format has keeps its value. -/
theorem units_nearest (hp : 0 < f.precision) (hden : 0 < den) (hm : m ≤ 2 * f.block)
    (h : num * 2 ^ f.scale = m * 2 ^ k * den) : f.units (f.nearest num den) = m * 2 ^ k := by
  obtain ⟨q, hq⟩ := two_pow_shiftOf_dvd (k := k) hp hm
  rw [units_nearest_eq hp, h, Nat.mul_div_cancel _ hden]
  generalize f.shiftOf (m * 2 ^ k) = e at hq ⊢
  rw [hq, Nat.mul_comm _ den, ← Nat.mul_assoc,
    halfEven_mul_self (Nat.mul_pos hden (Nat.two_pow_pos e)), Nat.mul_comm]

theorem units_lt_succ (r : Nat) : f.units r < f.units (r + 1) := by
  have hpos := f.block_pos
  by_cases hsmall : r < f.block
  · rw [units_of_lt (by omega), units_of_lt (by omega)]
    omega
  · obtain ⟨k, m, hlow, hhigh, rfl⟩ := exists_block (Nat.not_lt.mp hsmall)
    rw [units_of_block hlow hhigh, Nat.add_assoc, units_of_le (.inl (by omega)) hhigh]
    exact Nat.mul_lt_mul_of_pos_right (Nat.lt_succ_self m) (Nat.two_pow_pos k)

/-- **Values are ordered as ranks are.** -/
theorem units_strictMono (f : Format) : StrictMono f.units :=
  strictMono_nat_of_lt_succ units_lt_succ

theorem nearest_mul_right (hc : 0 < c) : f.nearest (num * c) (den * c) = f.nearest num den := by
  simp only [nearest_eq]
  rw [Nat.mul_right_comm num, Nat.mul_div_mul_right _ _ hc, Nat.mul_right_comm den,
    Nat.mul_comm _ c, Nat.mul_comm _ c, halfEven_mul_left hc]

theorem exists_units (f : Format) (rank : Nat) :
    ∃ m k, m < 2 * f.block ∧ f.units rank = m * 2 ^ k := by
  by_cases hsmall : rank < f.block
  · exact ⟨rank, 0, by omega, by rw [units_of_lt (by omega)]; simp⟩
  · obtain ⟨k, m, hlow, hhigh, rfl⟩ := exists_block (Nat.not_lt.mp hsmall)
    exact ⟨m, k, hhigh, units_of_block hlow hhigh⟩

/-- **The value of a rank is rounded to that rank.** -/
theorem nearest_units (hp : 0 < f.precision) (rank : Nat) :
    f.nearest (f.units rank) (2 ^ f.scale) = rank := by
  obtain ⟨m, k, hm, hunits⟩ := f.exists_units rank
  refine f.units_strictMono.injective ?_
  rw [hunits]
  exact units_nearest hp (Nat.two_pow_pos _) hm.le rfl

/-- A format with more digits and smaller units has the values of another one. -/
theorem units_nearest_units {f g : Format} (hp : 0 < g.precision) (hblock : f.block ≤ g.block)
    (hscale : f.scale ≤ g.scale) (rank : Nat) :
    g.units (g.nearest (f.units rank) (2 ^ f.scale)) = f.units rank * 2 ^ (g.scale - f.scale) := by
  obtain ⟨m, k, hm, hunits⟩ := f.exists_units rank
  rw [hunits, Nat.mul_assoc, ← Nat.pow_add]
  refine units_nearest hp (Nat.two_pow_pos _) (by omega) ?_
  rw [Nat.mul_assoc, Nat.mul_assoc, ← Nat.pow_add, ← Nat.pow_add]
  congr 2
  omega

end Format

end EvScript.Number
