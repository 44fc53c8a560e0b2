import EvScript.Proofs.Number.Words

/-!
# Printed Words

A stored word is printed as a decimal if it is that of a finite number, as the word of an integer
always is. A literal that is read as a fraction and too large for 64 bits becomes infinite, and only
printing refuses it; literals that are finite in 64 bits but not in 32 are refused when stored.
-/

namespace EvScript.Number

variable {n w : Int} {c : Char}

/-! ### Fractions that are rounded to infinity -/

theorem le_halfEven_iff {a d m : Nat} (hd : 0 < d) (hm : 0 < m) (heven : m % 2 = 0) :
    m ≤ halfEven a d ↔ (2 * m - 1) * d ≤ 2 * a := by
  have hhalf : (2 * m - 1) * d + d = 2 * (d * m) := by
    rw [← Nat.succ_mul, Nat.succ_eq_add_one, Nat.sub_add_cancel (by omega)]
    ring
  constructor
  · intro h
    have hup := two_mul_halfEven_le (a := a) hd
    have hle := Nat.mul_le_mul_left d h
    omega
  · intro h
    by_contra hlt
    have hlow := le_two_mul_halfEven (a := a) hd
    have hle := Nat.mul_le_mul_left d (show halfEven a d ≤ m - 1 by omega)
    rw [Nat.mul_sub, Nat.mul_one] at hle
    have hdm := Nat.le_mul_of_pos_right d hm
    -- only the fraction halfway between the two numbers is left, and a tie goes to the even one
    have hdiv : a / d = m - 1 := by
      refine Nat.div_eq_of_lt_le ?_ ?_
      · rw [Nat.mul_comm, Nat.mul_sub, Nat.mul_one]
        omega
      · rw [Nat.sub_add_cancel hm, Nat.mul_comm]
        omega
    have hsplit := Nat.div_add_mod a d
    rw [hdiv, Nat.mul_sub, Nat.mul_one] at hsplit
    rw [halfEven, hdiv, if_neg (by omega), if_pos (by omega)] at hlt
    omega

namespace Format

variable {f : Format} {num den k : Nat}

/-- **The fractions that are rounded to infinity** are those from halfway between the last finite
value and the value that would come next. -/
theorem infinity_le_nearest_iff (hp : 0 < f.precision) (hden : 0 < den)
    (hk : f.exponents = k + 3) : f.infinity ≤ f.nearest num den ↔
      (4 * f.block - 1) * 2 ^ k * den ≤ num * 2 ^ f.scale := by
  have hpos := f.block_pos
  have hblock : 0 < 2 ^ k * den := Nat.mul_pos (Nat.two_pow_pos k) hden
  have hlast : (4 * f.block - 1) * 2 ^ k * den + 2 ^ k * den = 4 * f.block * (2 ^ k * den) := by
    rw [Nat.mul_assoc, ← Nat.succ_mul, Nat.succ_eq_add_one, Nat.sub_add_cancel (by omega)]
  have hinf : f.infinity = (k + 3) * f.block := by rw [infinity, hk]
  have hup := f.lt_of_shiftOf (num * 2 ^ f.scale / den)
  rw [Nat.div_lt_iff_lt_mul hden, two_mul_block hp] at hup
  rcases Nat.lt_trichotomy (f.shiftOf (num * 2 ^ f.scale / den)) (k + 1) with hlt | heq | hgt
  · -- the last exponent is not reached
    have hle : f.nearest num den ≤ (f.shiftOf (num * 2 ^ f.scale / den) + 2) * f.block :=
      nearest_le hp
    have hrank := Nat.mul_le_mul_right f.block
      (show f.shiftOf (num * 2 ^ f.scale / den) + 2 ≤ k + 2 by omega)
    rw [Nat.add_mul k] at hrank
    have hpow := Nat.pow_le_pow_right two_pos (Nat.le_of_lt_succ hlt)
    have hbound := Nat.mul_le_mul_right den (Nat.mul_le_mul_left (2 * f.block) hpow)
    rw [Nat.mul_assoc _ (2 ^ k)] at hbound
    have hone := Nat.le_mul_of_pos_left (2 ^ k * den) hpos
    have hdouble : 4 * f.block * (2 ^ k * den) =
        2 * f.block * (2 ^ k * den) + 2 * (f.block * (2 ^ k * den)) := by ring
    rw [hinf, Nat.add_mul k]
    omega
  · -- in the last exponent, rounding up to the next one is what counts
    have hnearest : f.nearest num den =
        (k + 1) * f.block + halfEven (num * 2 ^ f.scale) (den * 2 ^ (k + 1)) := by
      rw [nearest_eq, heq]
    have hround := le_halfEven_iff (a := num * 2 ^ f.scale)
      (Nat.mul_pos hden (Nat.two_pow_pos (k + 1))) (show 0 < 2 * f.block by omega) (by omega)
    have hcomm : (2 * (2 * f.block) - 1) * (den * 2 ^ (k + 1)) =
        2 * ((4 * f.block - 1) * 2 ^ k * den) := by
      rw [← Nat.mul_assoc 2 2, Nat.pow_succ]
      ring
    rw [hcomm] at hround
    rw [hnearest, hinf, Nat.add_mul k, Nat.add_mul k]
    omega
  · have hle : (f.shiftOf (num * 2 ^ f.scale / den) + 1) * f.block ≤ f.nearest num den :=
      le_nearest hp (by omega)
    have hrank := Nat.mul_le_mul_right f.block
      (show k + 3 ≤ f.shiftOf (num * 2 ^ f.scale / den) + 1 by omega)
    have hunits : f.block * 2 ^ f.shiftOf (num * 2 ^ f.scale / den) ≤ num * 2 ^ f.scale / den :=
      le_of_shiftOf_pos hp (by omega)
    rw [Nat.le_div_iff_mul_le hden] at hunits
    have hpow := Nat.pow_le_pow_right two_pos
      (show k + 2 ≤ f.shiftOf (num * 2 ^ f.scale / den) by omega)
    have hbound := Nat.mul_le_mul_right den (Nat.mul_le_mul_left f.block hpow)
    have hfour : f.block * 2 ^ (k + 2) * den = 4 * f.block * (2 ^ k * den) := by ring
    rw [hinf]
    omega

end Format

open Format

/-- **The literals that are infinite** in 64 bits. -/
theorem Literal.isInfinite_toDouble_iff (l : Literal) :
    l.toDouble.isInfinite = true ↔ (2 ^ 1024 - 2 ^ 970) * 10 ^ l.places ≤ l.digits := by
  have hlast : (4 * double.block - 1) * 2 ^ 2044 = (2 ^ 1024 - 2 ^ 970) * 2 ^ double.scale := by
    decide +kernel
  rw [toDouble, isInfinite_ofRatio,
    infinity_le_nearest_iff (by decide) (Nat.pow_pos (by decide))
      (show double.exponents = 2044 + 3 from rfl), hlast,
    Nat.mul_right_comm, Nat.mul_le_mul_right_iff (Nat.two_pow_pos _)]

/-! ### Words and the numbers they store -/

theorem Binary.rank_lt (x : Binary .single) : x.rank < 2 ^ 31 :=
  Nat.lt_of_le_of_lt x.rank_le (by decide)

/-- **A word gives back the number that it stores.** -/
theorem toBinary?_ofBinary (x : Binary .single) : Word.toBinary? (Word.ofBinary x) = some x := by
  have hlt := x.rank_lt
  have hbits : (Word.ofBinary x % 2 ^ 32).toNat = x.rank + if x.negative then 2 ^ 31 else 0 := by
    rw [Word.ofBinary]
    split <;> omega
  have hrank : (Word.ofBinary x % 2 ^ 32).toNat % 2 ^ 31 = x.rank := by
    rw [hbits]
    split <;> omega
  have hsign : decide (2 ^ 31 ≤ (Word.ofBinary x % 2 ^ 32).toNat) = x.negative := by
    rw [hbits]
    cases x.negative
    · simpa using hlt
    · simp
  simp only [Word.toBinary?, hrank, hsign, x.rank_le, dite_true]

theorem printWord_ofBinary (x : Binary .single) : printWord (Word.ofBinary x) = x.print := by
  rw [printWord, toBinary?_ofBinary]

theorem Binary.print_of_isInfinite {x : Binary .single} (h : x.isInfinite = true) :
    x.print = .error .infinite := by
  rw [print, if_pos h]

theorem Binary.exists_print {x : Binary .single} (h : x.isInfinite = false) :
    ∃ text, x.print = .ok text := by
  rw [print, if_neg (by simp [h])]
  split <;> exact ⟨_, rfl⟩

/-- Going down to 32 bits, infinite numbers stay infinite and finite ones finite. -/
theorem Binary.isInfinite_of_narrow? {x : Binary .double} {y : Binary .single}
    (h : x.narrow? = some y) : y.isInfinite = x.isInfinite := by
  simp only [narrow?] at h
  split at h
  · cases h
  · rename_i hkept
    rw [← Option.some.inj h]
    cases hx : x.isInfinite with
    | true =>
      rw [convert, if_pos hx]
      exact beq_self_eq_true _
    | false => simpa [hx] using hkept

/-- What storing a 64-bit number gives: the word of a number that is infinite if it is. -/
theorem exists_of_encode_real {x : Binary .double} (h : (Quantity.real x).encode = .ok w) :
    ∃ y : Binary .single, y.isInfinite = x.isInfinite ∧ w = Word.ofBinary y := by
  obtain ⟨y, hy, rfl⟩ := Option.map_eq_some_iff.mp (encode_real_iff.mp h)
  exact ⟨y, Binary.isInfinite_of_narrow? hy, rfl⟩

/-- **The word of a 64-bit number** is printed if the number is finite. -/
theorem printWord_of_encode_real {x : Binary .double} (h : (Quantity.real x).encode = .ok w) :
    (∃ text, printWord w = .ok text) ↔ x.isInfinite = false := by
  obtain ⟨y, hy, rfl⟩ := exists_of_encode_real h
  rw [printWord_ofBinary, ← hy]
  constructor
  · rintro ⟨text, htext⟩
    by_contra hinf
    rw [Binary.print_of_isInfinite (by simpa using hinf)] at htext
    cases htext
  · exact Binary.exists_print

/-- **The word of an integer is printed.** -/
theorem printWord_of_encode_int (h : (Quantity.int n).encode = .ok w) :
    ∃ text, printWord w = .ok text := by
  obtain ⟨x, hx, hw⟩ := encode_int_eq_ok_iff.mp h
  refine (printWord_of_encode_real hw).mpr ?_
  obtain ⟨hlt, rfl⟩ := ofInt?_eq_some_iff.mp hx
  rw [Bool.eq_false_iff, ne_eq, isInfinite_ofRatio]
  exact Nat.not_le.mpr hlt

/-- A word that stores a number is refused by printing only if the number is infinite. -/
theorem printError_of_encode {q : Quantity} {e : PrintError} (h : q.encode = .ok w)
    (he : printWord w = .error e) : e = .infinite := by
  obtain ⟨x, hx⟩ : ∃ x, (Quantity.real x).encode = .ok w := by
    cases q with
    | int n =>
      obtain ⟨x, -, hx⟩ := encode_int_eq_ok_iff.mp h
      exact ⟨x, hx⟩
    | real x => exact ⟨x, h⟩
  obtain ⟨y, -, rfl⟩ := exists_of_encode_real hx
  rw [printWord_ofBinary] at he
  cases hinf : y.isInfinite with
  | true =>
    rw [Binary.print_of_isInfinite hinf] at he
    cases he
    rfl
  | false =>
    obtain ⟨text, htext⟩ := Binary.exists_print hinf
    rw [htext] at he
    cases he

/-! ### The characters of printed numbers -/

theorem isDigit_of_mem_repr {k : Nat} (hc : c ∈ k.repr.toList) : c.isDigit = true :=
  Nat.isDigit_of_mem_toDigits (by decide) (by decide) (Nat.toList_repr ▸ hc)

theorem mem_toString_int (hc : c ∈ (toString n).toList) : c.isDigit = true ∨ c = '-' := by
  rw [show toString n = n.repr from rfl, Int.repr_eq_if] at hc
  split at hc
  · exact .inl (isDigit_of_mem_repr hc)
  · rw [String.toList_append, List.mem_append] at hc
    exact hc.symm.imp isDigit_of_mem_repr fun h => by simpa using h

theorem toString_int_ne_nil (n : Int) : (toString n).toList ≠ [] := by
  rw [show toString n = n.repr from rfl, Int.repr_eq_if]
  split
  · rw [Nat.toList_repr]
    exact Nat.toDigits_ne_nil
  · simp

theorem repr_nat_inj {m n : Nat} (h : m.repr = n.repr) : m = n := by
  have hdigits := congrArg (fun s => Nat.ofDigitChars 10 (String.toList s) 0) h
  simpa only [Nat.toList_repr, Nat.ofDigitChars_toDigits (show 1 < 10 by omega) (Nat.le_refl 10)]
    using hdigits

theorem toString_int_inj {m : Int} (h : toString m = toString n) : m = n := by
  have hminus : ∀ (i j : Nat), i.repr ≠ "-" ++ j.repr := by
    intro i j heq
    have hdigit := isDigit_of_mem_repr (k := i) (c := '-') (by rw [heq]; simp)
    cases hdigit
  rw [show toString m = m.repr from rfl, show toString n = n.repr from rfl, Int.repr_eq_if,
    Int.repr_eq_if] at h
  split at h <;> split at h
  · have := repr_nat_inj h
    omega
  · exact absurd h (hminus _ _)
  · exact absurd h.symm (hminus _ _)
  · have hlist := congrArg String.toList h
    rw [String.toList_append, String.toList_append, List.append_cancel_left_eq] at hlist
    have := repr_nat_inj (String.toList_inj.mp hlist)
    omega

/-- A digit, a minus or a point. -/
def IsNumeric (c : Char) : Prop := c.isDigit = true ∨ c = '-' ∨ c = '.'

theorem isNumeric_of_mem_fixedPoint {n : Nat} (hc : c ∈ (fixedPoint n).toList) : IsNumeric c := by
  simp only [fixedPoint, String.toList_append, String.toList_ofList, List.mem_append] at hc
  rcases hc with ((hc | hc) | hc) | hc
  · exact .inl (isDigit_of_mem_repr hc)
  · exact .inr (.inr (by simpa using hc))
  · obtain rfl := List.eq_of_mem_replicate hc
    exact .inl (by decide)
  · exact .inl (isDigit_of_mem_repr hc)

theorem fixedPoint_ne_nil (n : Nat) : (fixedPoint n).toList ≠ [] := by
  simp [fixedPoint]

/-- A magnitude with a sign in front of it or not. -/
theorem isNumeric_of_signed {negative : Bool} {magnitude : String} (hne : magnitude.toList ≠ [])
    (hall : ∀ c ∈ magnitude.toList, IsNumeric c) :
    (if negative then "-" ++ magnitude else magnitude).toList ≠ [] ∧
      ∀ c ∈ (if negative then "-" ++ magnitude else magnitude).toList, IsNumeric c := by
  cases negative with
  | false => exact ⟨hne, hall⟩
  | true =>
    refine ⟨by simp, fun c hc => ?_⟩
    rw [if_pos rfl, String.toList_append, List.mem_append] at hc
    exact hc.elim (fun h => .inr (.inl (by simpa using h))) (hall c)

/-- **A word is printed with digits**, perhaps a minus and a point, and not as nothing. -/
theorem isNumeric_of_printWord {text : String} (h : printWord w = .ok text) :
    text.toList ≠ [] ∧ ∀ c ∈ text.toList, IsNumeric c := by
  rw [printWord] at h
  split at h
  · rename_i x hx
    rw [Binary.print] at h
    split at h
    · cases h
    · split at h
      · obtain rfl := Except.ok.inj h
        exact ⟨toString_int_ne_nil _, fun c hc => (mem_toString_int hc).imp_right .inl⟩
      · obtain rfl := Except.ok.inj h
        exact isNumeric_of_signed (fixedPoint_ne_nil _) fun c hc => isNumeric_of_mem_fixedPoint hc
  · cases h

end EvScript.Number
