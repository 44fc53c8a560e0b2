import Mathlib.Data.List.TakeWhile
import EvScript.Proofs.Compile.Constants
import EvScript.Proofs.Number.Nearest
import EvScript.Proofs.Token.Vocabulary

/-!
# Literals without a Point

A literal without a point can be read as an integer or as a fraction. Both readings round to 64 bits
and then to 32, so they store words of the same rank; only the sign of zero is kept by one and not
by the other, and zero is printed without a sign. Where one of them fails and the other does not, it
is the integer that fails.

## Main results

* `readings_agree` — the two readings agree where both have a word.
-/

namespace EvScript

open Number Number.Format Lexicon Vocabulary

variable {text : String} {w v : Int}

theorem isDigit_eq (c : Char) : isDigit c = c.isDigit := by
  simp [isDigit, Char.isDigit, Char.le_def]

theorem all_isDigit {cs : List Char} (h : IsDigits cs) : ∀ c ∈ cs, c.isDigit = true := fun c hc =>
  isDigit_eq c ▸ h.2 c hc

theorem unsigned?_of_digits (negative : Bool) {cs : List Char} (h : IsDigits cs) :
    Literal.unsigned? negative cs = some ⟨negative, ofDigits cs, 0, false⟩ := by
  unfold Literal.unsigned?
  rw [List.takeWhile_eq_self_iff.mpr (all_isDigit h), List.dropWhile_eq_nil_iff.mpr (all_isDigit h)]
  cases cs with
  | nil => exact absurd rfl h.1
  | cons c cs => rfl

theorem unsigned?_of_point (negative : Bool) {cs ds : List Char} (hcs : IsDigits cs)
    (hds : IsDigits ds) : Literal.unsigned? negative (cs ++ '.' :: ds) =
      some ⟨negative, ofDigits (cs ++ ds), ds.length, true⟩ := by
  unfold Literal.unsigned?
  rw [List.takeWhile_append_of_pos (all_isDigit hcs),
    List.dropWhile_append_of_pos (all_isDigit hcs),
    List.takeWhile_cons_of_neg (by decide), List.dropWhile_cons_of_neg (by decide), List.append_nil]
  cases cs with
  | nil => exact absurd rfl hcs.1
  | cons c cs =>
    refine if_pos ?_
    rw [List.all_eq_true.mpr (all_isDigit hds), Bool.and_true, Bool.not_eq_true',
      List.isEmpty_eq_false_iff]
    exact hds.1

theorem ofText?_of_sign {negative : Bool} {cs ds : List Char} (hcs : IsDigits cs)
    (htext : text.toList = (if negative then ['-'] else []) ++ (cs ++ ds)) :
    Literal.ofText? text = Literal.unsigned? negative (cs ++ ds) := by
  obtain ⟨c, cs, rfl⟩ := List.exists_cons_of_ne_nil hcs.1
  have hc : c ≠ '-' := by
    rintro rfl
    exact absurd (hcs.2 '-' List.mem_cons_self) (by decide)
  unfold Literal.ofText?
  rw [htext]
  cases negative with
  | true => rfl
  | false => simp [hc]

/-- **A number is a literal**, with a point if it has one. -/
theorem exists_literal_of_number (h : IsNumber text.toList) :
    ∃ l, Literal.ofText? text = some l ∧ (l.pointed = true ↔ '.' ∈ text.toList) := by
  obtain ⟨sign, whole, part, hsign, hwhole, hpart, htext⟩ := h
  obtain ⟨negative, rfl⟩ : ∃ negative : Bool, sign = if negative then ['-'] else [] :=
    hsign.elim (⟨false, ·⟩) (⟨true, ·⟩)
  have hmem : ∀ cs, IsDigits cs → '.' ∉ cs := fun cs hcs h => absurd (hcs.2 _ h) (by decide)
  rw [List.append_assoc] at htext
  rw [ofText?_of_sign hwhole htext, htext]
  rcases hpart with rfl | ⟨digits, hdigits, rfl⟩
  · rw [List.append_nil, unsigned?_of_digits negative hwhole]
    refine ⟨_, rfl, nofun, fun h => ?_⟩
    rcases List.mem_append.mp h with h | h
    · cases negative <;> simp at h
    · exact absurd h (hmem _ hwhole)
  · rw [unsigned?_of_point negative hwhole hdigits]
    exact ⟨_, rfl, fun _ => by simp, fun _ => rfl⟩

theorem encode_realOfText {l : Literal} (h : Literal.ofText? text = some l) :
    (realOfText text >>= fun x => encode (.real x)) = encode (.real l.toDouble) := by
  rw [realOfText, h]
  exact pure_bind (m := Except Fault) _ _

/-- Words of the same rank with the same sign, or of zero, are read as the same number and printed
alike. -/
theorem words_alike {x y : Binary .single} (hx : x.isInfinite = false) (hrank : y.rank = x.rank)
    (hsign : y.negative = x.negative ∨ x.rank = 0) :
    y.isInfinite = false ∧ x.value = y.value ∧ x.print = y.print := by
  have hfinite : y.isInfinite = false := by
    rw [Binary.isInfinite, hrank]
    exact hx
  refine ⟨hfinite, ?_⟩
  rcases hsign with hsign | hzero
  · rw [Binary.eq_of_rank hsign hrank]
    exact ⟨rfl, rfl⟩
  · have hunits : ∀ z : Binary .single, z.rank = 0 → z.units = 0 := fun z hz => by
      rw [Binary.units, hz]
      decide +kernel
    simp [Binary.value, Binary.print, hx, hfinite, hunits x hzero, hunits y (hrank.trans hzero)]

/-- Where the integer has a word, the fraction has one of the same rank and, unless both are zero,
of the same sign. -/
theorem exists_words {l : Literal} (hl : Literal.ofText? text = some l)
    (hpointed : l.pointed = false) (hw : (intOfText text >>= fun n => encode (.int n)) = .ok w) :
    ∃ x y : Binary .single, w = Word.ofBinary x ∧
      encode (.real l.toDouble) = .ok (Word.ofBinary y) ∧ x.isInfinite = false ∧
      y.rank = x.rank ∧ (y.negative = x.negative ∨ x.rank = 0) := by
  obtain ⟨n, hn, hword⟩ := bind_eq_ok_iff.mp hw
  obtain ⟨l', hl', hln⟩ := exists_literal_of_intOfText hn
  obtain rfl : l' = l := Option.some.inj (hl'.symm.trans hl)
  rw [encode_eq_ok_iff] at hword
  obtain ⟨-, hs, rfl⟩ := encode_int_iff.mp hword
  have hreal := Literal.encode_toDouble (Literal.places_of_ofText? hl hpointed) hln hword
  have hn := (Literal.toInt?_eq_some_iff.mp hln).2
  have hdigits : l'.digits = n.natAbs := by
    split at hn <;> omega
  rw [hdigits] at hreal
  refine ⟨⟨decide (n < 0), singleRank n.natAbs, hs.le⟩, ⟨l'.negative, singleRank n.natAbs, hs.le⟩,
    rfl, encode_eq_ok_iff.mpr hreal, by simp [Binary.isInfinite, hs.ne], rfl, ?_⟩
  rcases Int.lt_trichotomy n 0 with hneg | rfl | hpos
  · left
    cases hsign : l'.negative <;> rw [hsign] at hn <;> simp at hn ⊢ <;> omega
  · exact .inr (singleRank_eq_zero_iff.mpr rfl)
  · left
    cases hsign : l'.negative <;> rw [hsign] at hn <;> simp at hn ⊢ <;> omega

/-- **Both readings of a literal without a point agree.** Where both have a word, the words are read
as numbers of the same value and listed as the same decimal. Where the reading as a fraction fails,
so does the reading as an integer. -/
theorem readings_agree (text : String) (htext : number.Matches text.toList)
    (hpoint : '.' ∉ text.toList) :
    (∀ w v, (intOfText text >>= fun n => encode (.int n)) = .ok w →
      (realOfText text >>= fun x => encode (.real x)) = .ok v →
      (∃ x y, Word.toDouble? w = some x ∧ Word.toDouble? v = some y ∧ x.isInfinite = false ∧
        y.isInfinite = false ∧ x.value = y.value) ∧
      ∃ decimal, ∀ strings, Operand.print? strings ⟨.value, some w⟩ = .ok (some decimal) ∧
        Operand.print? strings ⟨.value, some v⟩ = .ok (some decimal)) ∧
    ∀ e, (realOfText text >>= fun x => encode (.real x)) = .error e →
      ∃ e', (intOfText text >>= fun n => encode (.int n)) = .error e' := by
  obtain ⟨l, hl, hiff⟩ := exists_literal_of_number (matches_number_iff.mp htext)
  have hpointed : l.pointed = false := Bool.eq_false_iff.mpr (mt hiff.mp hpoint)
  rw [encode_realOfText hl]
  refine ⟨fun w v hw hv => ?_, fun e he => ?_⟩
  · obtain ⟨x, y, rfl, hword, hx, hrank, hsign⟩ := exists_words hl hpointed hw
    obtain rfl : Word.ofBinary y = v := Except.ok.inj (hword.symm.trans hv)
    obtain ⟨hy, hvalue, hprint⟩ := words_alike hx hrank hsign
    obtain ⟨decimal, hdecimal⟩ := Binary.exists_print hx
    refine ⟨⟨x.convert .double, y.convert .double, ?_, ?_, (Binary.rank_convert_double hx).2,
      (Binary.rank_convert_double hy).2, ?_⟩, decimal, fun strings => ?_⟩
    · rw [Word.toDouble?, toBinary?_ofBinary]
      rfl
    · rw [Word.toDouble?, toBinary?_ofBinary]
      rfl
    · rw [Binary.value_convert_double hx, Binary.value_convert_double hy, hvalue]
    · simp only [Operand.print?, printWord_ofBinary, ← hprint, hdecimal, and_self]
  · cases hint : intOfText text >>= fun n => encode (.int n) with
    | error e' => exact ⟨e', rfl⟩
    | ok w =>
      obtain ⟨_, _, -, hok, -⟩ := exists_words hl hpointed hint
      cases hok.symm.trans he

/-- The two readings of zero with a sign have different words, which are listed alike. -/
theorem signed_zero_agrees : number.Matches "-00".toList ∧ '.' ∉ "-00".toList ∧
    (intOfText "-00" >>= fun n => encode (.int n)) = .ok 0 ∧
    (realOfText "-00" >>= fun x => encode (.real x)) = .ok (-2 ^ 31) ∧
    ∃ decimal, Operand.print? [] ⟨.value, some 0⟩ = .ok (some decimal) ∧
      Operand.print? [] ⟨.value, some (-2 ^ 31)⟩ = .ok (some decimal) := by
  have htext : number.Matches "-00".toList := matches_number_iff.mpr
    ⟨['-'], ['0', '0'], [], .inr rfl, ⟨by decide, by simp [isDigit]⟩, .inl rfl, rfl⟩
  have hok : ∀ {x : Except Fault Int} {a : Int}, x.toOption = some a → x = .ok a := by
    intro x a h
    cases x with
    | error e => cases h
    | ok b => exact congrArg _ (Option.some.inj h)
  have hint : (intOfText "-00" >>= fun n => encode (.int n)) = .ok 0 := hok (by decide +kernel)
  have hreal : (realOfText "-00" >>= fun x => encode (.real x)) = .ok (-2 ^ 31) :=
    hok (by decide +kernel)
  obtain ⟨-, decimal, hlisted⟩ := (readings_agree "-00" htext (by decide)).1 _ _ hint hreal
  exact ⟨htext, by decide, hint, hreal, decimal, hlisted []⟩

end EvScript
