import EvScript.Proofs.Compile.Literals

/-!
# Literals Beyond What Can Be Stored

Arguments and what is compared with are read as fractions; what is assigned, constants and labels of
cases are read as integers. Both readings refuse a literal that 64 bits have a number for and 32
bits have none for. From `2 ^ 1024 - 2 ^ 970` on the reading as an integer still refuses it, but the
reading as a fraction takes it for infinite, and an infinite number has a word.

## Main results

* `refused_above_overflow` — up to where a larger number is refused with a smaller one.
-/

namespace EvScript

open Number Number.Format Lexicon Vocabulary CompileM

namespace Number

/-- The magnitude of a literal. -/
def Literal.magnitude (l : Literal) : ℚ := l.digits / 10 ^ l.places

variable {l l' : Literal}

theorem Literal.magnitude_le_iff :
    l.magnitude ≤ l'.magnitude ↔ l.digits * 10 ^ l'.places ≤ l'.digits * 10 ^ l.places := by
  rw [magnitude, magnitude, div_le_div_iff₀ (by positivity) (by positivity)]
  exact_mod_cast Iff.rfl

theorem Literal.isInfinite_iff_magnitude :
    l.toDouble.isInfinite = true ↔ 2 ^ 1024 - 2 ^ 970 ≤ l.magnitude := by
  have hcast : ∀ a b : Nat, b ≤ a → ((2 ^ a - 2 ^ b : Nat) : ℚ) = 2 ^ a - 2 ^ b := fun a b h => by
    rw [Nat.cast_sub (Nat.pow_le_pow_right two_pos h), Nat.cast_pow, Nat.cast_pow, Nat.cast_two]
  rw [isInfinite_toDouble_iff, magnitude, le_div_iff₀ (by positivity), ← hcast _ _ (by decide)]
  exact_mod_cast Iff.rfl

theorem Literal.rank_toDouble_mono (h : l.magnitude ≤ l'.magnitude) :
    l.toDouble.rank ≤ l'.toDouble.rank := by
  have hpow : ∀ k, 0 < 10 ^ k := fun k => Nat.pow_pos (by decide)
  refine min_le_min_right _ ?_
  have hle := nearest_mono (f := double) (by decide) (10 ^ l.places * 10 ^ l'.places)
    (magnitude_le_iff.mp h)
  rwa [nearest_mul_right (hpow l'.places), Nat.mul_comm (10 ^ l.places),
    nearest_mul_right (hpow l.places)] at hle

theorem Binary.narrow?_eq_none_iff {x : Binary .double} : x.narrow? = none ↔
    x.isInfinite = false ∧
      Format.single.infinity ≤ Format.single.nearest x.units (2 ^ double.scale) := by
  cases hx : x.isInfinite with
  | true => simp [narrow?, hx]
  | false => simp [narrow?, convert, hx, isInfinite_ofRatio]

/-- **Above a number that is too large for 32 bits** all are, but for those that are infinite. -/
theorem Binary.narrow?_eq_none_mono {x y : Binary .double} (h : x.narrow? = none)
    (hle : x.rank ≤ y.rank) : y.narrow? = none ↔ y.isInfinite = false := by
  rw [narrow?_eq_none_iff] at h ⊢
  exact and_iff_left (h.2.trans (nearest_mono (by decide) _ (double.units_strictMono.monotone hle)))

/-- The word that stores infinity. -/
def Word.infinite (negative : Bool) : Int :=
  Word.ofBinary ⟨negative, Format.single.infinity, Nat.le_refl _⟩

theorem Binary.narrow?_of_isInfinite {x : Binary .double} (h : x.isInfinite = true) :
    x.narrow?.map Word.ofBinary = some (Word.infinite x.negative) := by
  simp [narrow?, convert, h, Word.infinite]

end Number

variable {x y : String} {lx ly : Literal} {cause : Overflow}

/-! ### The two readings -/

/-- The word of a text, read as an integer or as a fraction. -/
def readNumber (asInteger : Bool) (text : String) : Except Fault Int :=
  if asInteger then intOfText text >>= fun n => encode (.int n)
  else realOfText text >>= fun r => encode (.real r)

theorem encode_real_eq (r : Binary .double) : encode (.real r) =
    (r.narrow?.map Word.ofBinary).elim (.error (.overflow .single)) .ok := by
  show (Quantity.real r).encode.mapError Fault.overflow = _
  rw [Number.encode_real]
  cases r.narrow? <;> rfl

theorem readNumber_fraction (hl : Literal.ofText? x = some lx) : readNumber false x =
    (lx.toDouble.narrow?.map Word.ofBinary).elim (.error (.overflow .single)) .ok := by
  rw [← encode_real_eq]
  exact encode_realOfText hl

theorem exists_of_overflow (h : readNumber true x = .error (.overflow cause)) :
    ∃ n, intOfText x = .ok n := by
  rw [readNumber, if_pos rfl] at h
  cases hn : intOfText x with
  | ok n => exact ⟨n, rfl⟩
  | error e =>
    rw [hn] at h
    cases h
    unfold intOfText at hn
    split at hn
    · cases hn
    · dsimp only at hn
      split at hn <;> cases hn

/-- Above what the reading as an integer finds too large, it refuses everything. -/
theorem readNumber_integer_mono (hlx : Literal.ofText? x = some lx)
    (hly : Literal.ofText? y = some ly) (hle : lx.magnitude ≤ ly.magnitude)
    (hx : readNumber true x = .error (.overflow cause)) : ∃ e, readNumber true y = .error e := by
  cases hy : readNumber true y with
  | error e => exact ⟨e, rfl⟩
  | ok w =>
    have hdigits : ∀ {text l m}, Literal.ofText? text = some l → intOfText text = .ok m →
        l.places = 0 ∧ l.digits = m.natAbs := by
      intro text l m hl hm
      obtain ⟨_, hl', hint⟩ := exists_literal_of_intOfText hm
      obtain rfl := Option.some.inj (hl.symm.trans hl')
      obtain ⟨hpointed, hm⟩ := Literal.toInt?_eq_some_iff.mp hint
      exact ⟨Literal.places_of_ofText? hl hpointed, by split at hm <;> omega⟩
    obtain ⟨n, hn, hword⟩ := bind_eq_ok_iff.mp hy
    obtain ⟨hdouble, hsingle, -⟩ := encode_int_iff.mp (encode_eq_ok_iff.mp hword)
    obtain ⟨m, hm⟩ := exists_of_overflow hx
    obtain ⟨hplaces, hdx⟩ := hdigits hlx hm
    obtain ⟨hplaces', hdy⟩ := hdigits hly hn
    have hnat : m.natAbs ≤ n.natAbs := by
      have := Literal.magnitude_le_iff.mp hle
      rwa [hplaces, hplaces', hdx, hdy, Nat.mul_le_mul_right_iff (by decide)] at this
    have hstored := encode_int_iff.mpr ⟨(nearest_mono (by decide) _ hnat).trans_lt hdouble,
      (singleRank_mono hnat).trans_lt hsingle, rfl⟩
    rw [readNumber, if_pos rfl, bind_eq_ok_iff.mpr ⟨m, hm, encode_eq_ok_iff.mpr hstored⟩] at hx
    cases hx

/-- **Above a literal that is too large**, each literal is refused, unless it is read as a fraction
and too large for 64 bits; then it has the word of infinity. -/
theorem readNumber_mono (asInteger : Bool) (hlx : Literal.ofText? x = some lx)
    (hly : Literal.ofText? y = some ly) (hle : lx.magnitude ≤ ly.magnitude)
    (hx : readNumber asInteger x = .error (.overflow cause)) :
    if asInteger = true ∨ ly.magnitude < 2 ^ 1024 - 2 ^ 970 then
      ∃ e, readNumber asInteger y = .error e
    else readNumber asInteger y = .ok (Word.infinite ly.negative) := by
  cases asInteger with
  | true =>
    rw [if_pos (.inl rfl)]
    exact readNumber_integer_mono hlx hly hle hx
  | false =>
    have hnone : lx.toDouble.narrow? = none := by
      rw [readNumber_fraction hlx] at hx
      cases h : lx.toDouble.narrow? with
      | none => rfl
      | some z =>
        rw [h] at hx
        cases hx
    have hiff := Binary.narrow?_eq_none_mono hnone (Literal.rank_toDouble_mono hle)
    rw [readNumber_fraction hly]
    split
    · rename_i h
      rw [hiff.mpr (Bool.eq_false_iff.mpr (mt Literal.isInfinite_iff_magnitude.mp
        (not_le.mpr (h.resolve_left Bool.false_ne_true))))]
      exact ⟨_, rfl⟩
    · rename_i h
      rw [Binary.narrow?_of_isInfinite (Literal.isInfinite_iff_magnitude.mpr
        (not_lt.mp fun hlt => h (.inr hlt)))]
      rfl

/-! ### Places of numbers -/

/-- A place of a number that is stored. -/
inductive NumberPlace where
  /-- An argument of a call. -/
  | argument (call pos : Pos)
  /-- The right side of a comparison. -/
  | comparand (left : Compared) (comparator : Option String) (destination : LabelId)
  /-- What a variable is given. -/
  | assigned (type : ValueType) (storage : Option Int) (pos : Pos)
  /-- The value of a constant. -/
  | constant (type : ValueType) (pos : Pos)
  /-- The label of a case. -/
  | label (parent after : LabelId) (name : Option String)

namespace NumberPlace

/-- Whether numbers are read as integers there. -/
def asInteger : NumberPlace → Bool
  | argument .. | comparand .. => false
  | assigned .. | constant .. | label .. => true

/-- Whether the number becomes an operand there. Something that is not in a register is compared
without code, a constant has none, and that of a label is with the cases. -/
def isOperand : NumberPlace → Bool
  | argument .. | assigned .. => true
  | comparand left .. => left.value.any (·.1.inRegister)
  | constant .. | label .. => false

/-- Compile a number in its place. The result are the operands of the code. -/
def compile (n : Numeral) : NumberPlace → CompileM (List Operand)
  | argument call pos => return [← Operand.ofArgument call (← evaluate ⟨.number n, pos⟩)]
  | comparand left comparator destination => do
    return (← compileComparison left comparator (some ⟨some n⟩) destination).flatMap (·.operands)
  | assigned type storage pos => return (← compileAssigned ⟨.number n, pos⟩ type storage).operands
  | constant type pos => do
    let _ ← constantOf ⟨.number n, pos⟩ type
    return []
  | label parent after name => do
    compileCase parent after (.labelled (some n) name .absent)
    return []

end NumberPlace

namespace NumberPlace

variable {p : NumberPlace} {s : CompileState}

/-- How the compilation of a text in a place ends, begun in a state. -/
def outcome (p : NumberPlace) (s : CompileState) (text : String) : Except Fault (List Operand) :=
  (ending (p.compile ⟨text, some text⟩) s).1

/-- The place is at fault, whatever the number in it. -/
def AtFault (p : NumberPlace) (s : CompileState) : Prop :=
  ∃ e, (∀ cause, e ≠ .overflow cause) ∧ ∀ text, p.outcome s text = .error e

/-- What becomes of a text is told by the word it is read as. -/
def Follows (p : NumberPlace) (s : CompileState) : Prop :=
  ∀ text, (∀ e, readNumber p.asInteger text = .error e → p.outcome s text = .error e) ∧
    ∀ w, readNumber p.asInteger text = .ok w →
      ∃ os, p.outcome s text = .ok os ∧ (p.isOperand = true → ⟨.value, some w⟩ ∈ os)

/-- A place where the text is read in some state, and nothing fails behind that. -/
theorem follows_of (t : CompileState) (k : Int → CompileM (List Operand))
    (hread : ∀ text, p.outcome s text =
      (ending (lift id (readNumber p.asInteger text) >>= k) t).1)
    (hk : ∀ w, ∃ os, (ending (k w) t).1 = .ok os ∧
      (p.isOperand = true → ⟨.value, some w⟩ ∈ os)) : p.Follows s := by
  intro text
  rw [hread]
  refine ⟨fun e he => ?_, fun w hw => ?_⟩
  · rw [he]
    rfl
  · rw [hw]
    exact hk w

theorem follows_argument (call pos : Pos) : (argument call pos).Follows s := by
  refine follows_of s (fun w => pure [⟨.value, some w⟩]) (fun text => ?_)
    fun w => ⟨_, rfl, fun _ => List.mem_singleton_self _⟩
  have heval : evaluate ⟨.number ⟨text, some text⟩, pos⟩ =
    lift id (realOfText text) >>= fun r => pure (.number (.real r)) := rfl
  have hread : readNumber false text = realOfText text >>= fun r => encode (.real r) := rfl
  rw [asInteger, hread, outcome, compile, heval]
  cases realOfText text with
  | error e => rfl
  | ok r =>
    show (ending (Operand.ofArgument call (.number (.real r)) >>= _) s).1 =
      (ending (lift id (encode (.real r)) >>= _) s).1
    rw [Operand.ofArgument]
    cases encode (.real r) <;> rfl

/-- What is left of a comparison once its number is read. -/
def comparisonOperands (left : Compared) (index : Nat) (destination : LabelId) (word : Int) :
    CompileM (List Operand) := do
  let instrs ← match left.value with
    | some (type, storage) =>
      if type.inRegister then
        let there ← target destination
        pure (left.instrs ++ [⟨some Registry.Opcode.compareJump,
          [⟨.work, storage⟩, .ofString index, ⟨.value, some word⟩, there]⟩])
      else pure left.instrs
    | none => pure left.instrs
  return instrs.flatMap (·.operands)

theorem outcome_comparand {left : Compared} {c word : String} {destination : LabelId} {index : Nat}
    {t : CompileState} (hc : comparatorWord c = some word) (hindex : Yields (intern word) s index t)
    (text : String) : (comparand left (some c) destination).outcome s text =
      (ending (lift id (readNumber false text) >>=
        comparisonOperands left index destination) t).1 := by
  have hread : Numeral.toReal ⟨text, some text⟩ >>= (fun r => encode (.real r)) =
    readNumber false text := rfl
  rw [outcome, compile, compileComparison]
  simp only [need, pure_bind, hc, hread]
  rw [CompileM.ending_bind, hindex.ending_bind, ← CompileM.ending_bind]
  cases readNumber false text with
  | error e => rfl
  | ok w =>
    obtain ⟨instrs, _ | ⟨type, storage⟩⟩ := left
    · rfl
    · cases type <;> rfl

theorem comparand_cases (left : Compared) (comparator : Option String) (destination : LabelId) :
    (comparand left comparator destination).AtFault s ∨
      (comparand left comparator destination).Follows s := by
  cases hword : comparator.bind comparatorWord with
  | none =>
    refine .inl ⟨.absent .word, fun _ => Fault.noConfusion, fun text => ?_⟩
    cases comparator with
    | none => rfl
    | some c =>
      have hc : comparatorWord c = none := hword
      rw [outcome, compile, compileComparison]
      simp only [need, pure_bind, hc]
      rfl
  | some word =>
    obtain ⟨c, rfl, hc⟩ := Option.bind_eq_some_iff.mp hword
    obtain ⟨index, t, hindex⟩ : ∃ index t, Yields (intern word) s index t := ⟨_, _, rfl⟩
    refine .inr (follows_of t _ (outcome_comparand hc hindex) fun w => ?_)
    obtain ⟨instrs, _ | ⟨type, storage⟩⟩ := left
    · exact ⟨_, rfl, fun h => by cases h⟩
    · cases hregister : type.inRegister with
      | true =>
        refine ⟨_, by simp only [comparisonOperands, hregister]; rfl, fun _ => ?_⟩
        simp
      | false =>
        refine ⟨_, by simp only [comparisonOperands, hregister]; rfl, fun h => ?_⟩
        exact absurd (hregister.symm.trans h) Bool.false_ne_true

theorem assigned_cases (type : ValueType) (storage : Option Int) (pos : Pos) :
    (assigned type storage pos).AtFault s ∨ (assigned type storage pos).Follows s := by
  by_cases htype : type = .integer
  · subst htype
    refine .inr (follows_of s (fun w => pure [⟨.work, storage⟩, ⟨.value, some w⟩]) (fun text => ?_)
      fun w => ⟨_, rfl, fun _ => by simp⟩)
    show (ending ((lift id (readNumber true text) >>= fun w =>
      pure (⟨some Registry.Opcode.loadValue,
      [⟨.work, storage⟩, ⟨.value, some w⟩]⟩ : Instr)) >>= _) s).1 = _
    rw [asInteger]
    cases readNumber true text <;> rfl
  · refine .inl ⟨.numberForOther, nofun, fun text => ?_⟩
    rw [outcome, compile, compileAssigned]
    simp only [if_neg htype]
    rfl

theorem constant_cases (type : ValueType) (pos : Pos) :
    (constant type pos).AtFault s ∨ (constant type pos).Follows s := by
  by_cases htype : type = .integer
  · subst htype
    refine .inr (follows_of s (fun _ => pure []) (fun text => ?_) fun w => ⟨_, rfl, nofun⟩)
    show (ending (lift id (readNumber true text) >>= _) s).1 = _
    rw [asInteger]
  · refine .inl ⟨.numberForOther, nofun, fun text => ?_⟩
    rw [outcome, compile, constantOf]
    simp only [if_neg htype]
    rfl

theorem readNumber_of_intOfText {n : Int} (h : intOfText x = .ok n) :
    readNumber true x = encode (.int n) := by
  rw [readNumber, if_pos rfl, h]
  exact pure_bind (m := Except Fault) _ _

theorem outcome_label {parent after : LabelId} {name : Option String} {n : Int}
    (h : intOfText x = .ok n) : (label parent after name).outcome s x =
      (ending (lift id (encode (.int n)) >>= fun _ => pure []) s).1 := by
  have hint : optionalInt (some ⟨x, some x⟩) = .ok (some n) := by
    rw [show optionalInt (some ⟨x, some x⟩) = (intOfText x).map some from rfl, h]
    rfl
  have hlift : lift id (.ok (some n) : Except Fault _) = pure (some n) := rfl
  have hword : caseWord (some n) name = lift id (encode (.int n)) >>= fun w => pure (some w) := by
    rw [caseWord]
  -- The word is made a variable before the rest is evaluated.
  rw [outcome, compile, compileCase, hint, hlift]
  simp only [pure_bind, hword]
  generalize encode (.int n) = r
  cases r <;> rfl

theorem follows_label (parent after : LabelId) (name : Option String) :
    (label parent after name).Follows s := by
  refine follows_of s (fun _ => pure []) (fun text => ?_) fun w => ⟨_, rfl, nofun⟩
  rw [asInteger]
  cases h : intOfText text with
  | ok n => rw [outcome_label h, readNumber_of_intOfText h]
  | error e =>
    have hint : optionalInt (some ⟨text, some text⟩) = .error e := by
      rw [show optionalInt (some ⟨text, some text⟩) = (intOfText text).map some from rfl, h]
      rfl
    rw [outcome, compile, compileCase, hint, readNumber, if_pos rfl, h]
    rfl

/-- **What becomes of a number in its place**: it follows the reading, unless the place is at fault
without it. -/
theorem atFault_or_follows (p : NumberPlace) (s : CompileState) : p.AtFault s ∨ p.Follows s := by
  cases p with
  | argument call pos => exact .inr (follows_argument call pos)
  | comparand left comparator destination => exact comparand_cases left comparator destination
  | assigned type storage pos => exact assigned_cases type storage pos
  | constant type pos => exact constant_cases type pos
  | label parent after name => exact .inr (follows_label parent after name)

end NumberPlace

/-- **Detection of overflow stops at infinity**: of two numbers, if the smaller one is refused in a
place because it is too large, the larger one is refused there exactly if the place reads integers
or the number is below `2 ^ 1024 - 2 ^ 970`. From there on a place that reads fractions takes it,
and its operand is the word of infinity. -/
theorem refused_above_overflow (x y : String) (hx : number.Matches x.toList)
    (hy : number.Matches y.toList) : ∃ lx ly, Literal.ofText? x = some lx ∧
      Literal.ofText? y = some ly ∧ (lx.magnitude ≤ ly.magnitude → ∀ (p : NumberPlace) s cause,
        p.outcome s x = .error (.overflow cause) →
        ((∃ e, p.outcome s y = .error e) ↔
          p.asInteger = true ∨ ly.magnitude < 2 ^ 1024 - 2 ^ 970) ∧
        (p.asInteger = false → 2 ^ 1024 - 2 ^ 970 ≤ ly.magnitude →
          ∃ os, p.outcome s y = .ok os ∧ (p.isOperand = true →
            ⟨.value, some (Word.infinite ly.negative)⟩ ∈ os))) := by
  obtain ⟨lx, hlx, -⟩ := exists_literal_of_number (matches_number_iff.mp hx)
  obtain ⟨ly, hly, -⟩ := exists_literal_of_number (matches_number_iff.mp hy)
  refine ⟨lx, ly, hlx, hly, fun hle p s cause hover => ?_⟩
  have hfollows : p.Follows s := (p.atFault_or_follows s).resolve_left fun ⟨e, he, hall⟩ =>
    he cause (Except.error.inj ((hall x).symm.trans hover))
  have hread : readNumber p.asInteger x = .error (.overflow cause) := by
    cases h : readNumber p.asInteger x with
    | error e =>
      obtain rfl := Except.error.inj (((hfollows x).1 e h).symm.trans hover)
      rfl
    | ok w =>
      obtain ⟨os, hos, -⟩ := (hfollows x).2 w h
      cases hos.symm.trans hover
  have hmono := readNumber_mono p.asInteger hlx hly hle hread
  split at hmono
  · rename_i hrefused
    obtain ⟨e, he⟩ := hmono
    refine ⟨iff_of_true ⟨e, (hfollows y).1 e he⟩ hrefused, fun hfraction hlarge => ?_⟩
    rcases hrefused with hinteger | hsmall
    · exact absurd (hinteger.symm.trans hfraction) nofun
    · exact absurd hlarge (not_le.mpr hsmall)
  · rename_i htaken
    obtain ⟨os, hos, hoperand⟩ := (hfollows y).2 _ hmono
    refine ⟨iff_of_false (fun ⟨e, he⟩ => ?_) htaken, fun _ _ => ⟨os, hos, hoperand⟩⟩
    cases hos.symm.trans he

/-- A power of ten, written out. -/
def powerOfTen (k : Nat) : String := String.ofList ('1' :: List.replicate k '0')

theorem toList_powerOfTen (k : Nat) : (powerOfTen k).toList = '1' :: List.replicate k '0' :=
  String.toList_ofList

theorem isDigits_powerOfTen (k : Nat) : IsDigits ('1' :: List.replicate k '0') := by
  refine ⟨List.cons_ne_nil _ _, fun c hc => ?_⟩
  rcases List.mem_cons.mp hc with rfl | hc
  · decide
  · rw [List.eq_of_mem_replicate hc]
    decide

theorem ofText?_powerOfTen (k : Nat) :
    Literal.ofText? (powerOfTen k) = some ⟨false, 10 ^ k, 0, false⟩ := by
  have hdigits := isDigits_powerOfTen k
  have hvalue : ofDigits ('1' :: List.replicate k '0') = 10 ^ k := by
    rw [show ofDigits = (Nat.ofDigitChars 10 · 0) from rfl]
    dsimp only
    rw [Nat.ofDigitChars_cons, Nat.ofDigitChars_replicate_zero]
    exact Nat.mul_one _
  have htext : (powerOfTen k).toList = (if false then ['-'] else []) ++
      ('1' :: List.replicate k '0' ++ []) := by
    rw [toList_powerOfTen, List.append_nil]
    rfl
  rw [ofText?_of_sign hdigits htext, List.append_nil, unsigned?_of_digits _ hdigits, hvalue]

/-- As an argument, a one with 39 zeros is refused and a one with 309 zeros is not. -/
theorem infinite_argument_taken : ∃ os,
    (NumberPlace.argument .start .start).outcome (.start "f.evc") (powerOfTen 39) =
      .error (.overflow .single) ∧
    (NumberPlace.argument .start .start).outcome (.start "f.evc") (powerOfTen 309) = .ok os ∧
    ⟨.value, some 2139095040⟩ ∈ os := by
  have hmatches : ∀ k, number.Matches (powerOfTen k).toList := fun k => by
    refine matches_number_iff.mpr ⟨[], _, [], .inl rfl, isDigits_powerOfTen k, .inl rfl, ?_⟩
    rw [toList_powerOfTen, List.nil_append, List.append_nil]
  have hover : (NumberPlace.argument .start .start).outcome (.start "f.evc") (powerOfTen 39) =
      .error (.overflow .single) := by
    have hnone : (Literal.toDouble ⟨false, 10 ^ 39, 0, false⟩).narrow? = none :=
      Option.isNone_iff_eq_none.mp (by decide +kernel)
    refine (NumberPlace.follows_argument _ _ _).1 _ ?_
    rw [NumberPlace.asInteger, readNumber_fraction (ofText?_powerOfTen 39), hnone]
    rfl
  obtain ⟨lx, ly, hlx, hly, h⟩ := refused_above_overflow (powerOfTen 39) (powerOfTen 309)
    (hmatches _) (hmatches _)
  obtain rfl := Option.some.inj ((ofText?_powerOfTen 39).symm.trans hlx)
  obtain rfl := Option.some.inj ((ofText?_powerOfTen 309).symm.trans hly)
  have hlarge : 2 ^ 1024 - 2 ^ 970 ≤ Literal.magnitude ⟨false, 10 ^ 309, 0, false⟩ :=
    Literal.isInfinite_iff_magnitude.mp
      ((Literal.isInfinite_toDouble_iff _).mpr (by decide +kernel))
  obtain ⟨os, hos, hinf⟩ :=
    (h (Literal.magnitude_le_iff.mpr (by decide +kernel)) _ _ _ hover).2 rfl hlarge
  exact ⟨os, hover, hos, hinf rfl⟩

end EvScript
