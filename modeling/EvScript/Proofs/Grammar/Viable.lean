import EvScript.Proofs.Grammar.Places

/-!
# Viable Rows of Tokens

A row of tokens is **viable** for a remainder if it can be read as far as it goes: it is used up
while there is still something to read, or the remainder ends in front of a token that may stand
there. Viability is computed token by token, but there is one law for each kind of expression. In
particular a rule is as viable as its body, for which the rules that a rule can begin with must not
be nested deeper than the bound up to which they are followed; that is what ranks are for.
-/

namespace EvScript

variable {k : Kind} {r : Rule} {e body : Expr} {c d : Remainder} {es : List Expr}

/-! ### Empty remainders -/

namespace Remainder

@[simp] theorem nullable_nil : nullable [] = true := rfl

@[simp] theorem nullable_cons : nullable (e :: c) = (e.nullable && nullable c) := rfl

@[simp] theorem nullable_append : nullable (c ++ d) = (nullable c && nullable d) := by
  induction c with
  | nil => rfl
  | cons e c ih => rw [List.cons_append, nullable_cons, nullable_cons, ih, Bool.and_assoc]

end Remainder

namespace Expr

@[simp] theorem nullable_tok : (tok k).nullable = false := rfl

@[simp] theorem nullable_oneOf {kinds : List Kind} : (oneOf kinds).nullable = false := rfl

@[simp] theorem nullable_seq : (seq es).nullable = Remainder.nullable es := rfl

@[simp] theorem nullable_opt : (opt body).nullable = true := rfl

@[simp] theorem nullable_many : (many body).nullable = true := rfl

@[simp] theorem nullable_many1 : (many1 body).nullable = body.nullable := rfl

@[simp] theorem nullable_manyAhead : (manyAhead body).nullable = true := rfl

theorem nullable_choice_iff : (choice es).nullable = true ↔ ∃ e ∈ es, e.nullable = true := by
  show anyNullableWith Rule.nullable es = true ↔ _
  induction es with
  | nil => simp [anyNullableWith]
  | cons e es ih =>
    rw [anyNullableWith, Bool.or_eq_true, ih]
    simp [Expr.nullable]

theorem nullable_body (r : Rule) : r.body.nullable = (call r).nullable := by
  revert r
  decide +kernel

end Expr

/-! ### What is left after a token -/

namespace Remainder

theorem after_cons : after k (e :: c) =
    (e.after k).map (· ++ c) ++ if e.nullable then after k c else [] := rfl

theorem after_append : after k (c ++ d) =
    (after k c).map (· ++ d) ++ if nullable c then after k d else [] := by
  induction c with
  | nil => simp [after, seqAfterWith]
  | cons e c ih =>
    rw [List.cons_append, after_cons, after_cons, ih, nullable_cons]
    cases e.nullable <;> simp [Function.comp_def]

end Remainder

/-! ### Rules and their bodies -/

mutual

/-- What is left of an expression depends only on the rules it can begin with. -/
theorem Expr.afterWith_congr {f g : Rule → List Remainder} (k : Kind) (e : Expr) (rest : Remainder)
    (h : ∀ r rest', ⟨.call r, rest', true⟩ ∈ e.places rest true → f r = g r) :
    e.afterWith f k = e.afterWith g k := by
  cases e with
  | tok => rfl
  | oneOf => rfl
  | call r => exact h r rest List.mem_cons_self
  | seq parts => exact seqAfterWith_congr k parts rest h
  | choice alternatives =>
    exact choiceAfterWith_congr k alternatives rest fun r rest' hs =>
      h r rest' (List.mem_cons_of_mem _ hs)
  | opt body =>
    exact body.afterWith_congr k rest fun r rest' hs => h r rest' (List.mem_cons_of_mem _ hs)
  | many body | many1 body | manyAhead body =>
    exact congrArg _ (body.afterWith_congr k _ fun r rest' hs =>
      h r rest' (List.mem_cons_of_mem _ hs))

theorem seqAfterWith_congr {f g : Rule → List Remainder} (k : Kind) (es : List Expr)
    (rest : Remainder)
    (h : ∀ r rest', ⟨.call r, rest', true⟩ ∈ placesOfSeq rest true es → f r = g r) :
    seqAfterWith f k es = seqAfterWith g k es := by
  cases es with
  | nil => rfl
  | cons e es =>
    have he := e.afterWith_congr k (es ++ rest) fun r rest' hs =>
      h r rest' (List.mem_append_left _ hs)
    rw [seqAfterWith, seqAfterWith, he]
    cases hn : e.nullable with
    | false => rfl
    | true =>
      have hes := seqAfterWith_congr k es rest fun r rest' hs =>
        h r rest' (List.mem_append_right _ (by rwa [hn]))
      rw [hes]

theorem choiceAfterWith_congr {f g : Rule → List Remainder} (k : Kind) (es : List Expr)
    (rest : Remainder)
    (h : ∀ r rest', ⟨.call r, rest', true⟩ ∈ placesOfChoice rest true es → f r = g r) :
    choiceAfterWith f k es = choiceAfterWith g k es := by
  cases es with
  | nil => rfl
  | cons e es =>
    rw [choiceAfterWith, choiceAfterWith,
      e.afterWith_congr k rest fun r rest' hs => h r rest' (List.mem_append_left _ hs),
      choiceAfterWith_congr k es rest fun r rest' hs => h r rest' (List.mem_append_right _ hs)]

end

theorem Rule.afterAt_eq {n m : Nat} (hn : r.rank ≤ n) (hm : r.rank ≤ m) :
    r.afterAt k n = r.afterAt k m := by
  induction n generalizing r m with
  | zero =>
    have hpos : 0 < r.rank := by cases r <;> decide
    omega
  | succ n ih =>
    have hpos : 0 < r.rank := by cases r <;> decide
    obtain ⟨m, rfl⟩ : ∃ l, m = l + 1 := ⟨m - 1, by omega⟩
    rw [Rule.afterAt, Rule.afterAt]
    refine Expr.afterWith_congr k _ [] fun r' rest hs => ?_
    have hrank : r'.rank < r.rank := (lawful_of_mem_places r _ hs).1
    exact ih (by omega) (by omega)

theorem Expr.after_body (r : Rule) : r.body.after k = (call r).after k := by
  have hrank : r.rank ≤ ruleDepth := by cases r <;> decide
  exact Rule.afterAt_eq (n := ruleDepth + 1) (by omega) hrank

/-! ### Viability -/

/-- `Viable stop c ts`: the tokens `ts` can be read as far as they go, where `c` is to be read and
then a token of a kind that `stop` admits. -/
def Viable (stop : Kind → Bool) : Remainder → List Token → Prop
  | _, [] => True
  | c, t :: ts => (∃ c' ∈ c.after t.kind, Viable stop c' ts) ∨
      c.nullable = true ∧ stop t.kind = true

variable {stop follow : Kind → Bool} {t : Token} {ts us : List Token} {d' : Remainder}

theorem viable_nil : Viable stop c [] := trivial

/-- Beginnings of viable rows are viable. -/
theorem Viable.of_append (h : Viable stop c (ts ++ us)) : Viable stop c ts := by
  induction ts generalizing c with
  | nil => trivial
  | cons t ts ih => exact h.imp_left fun ⟨c', hc', h⟩ => ⟨c', hc', ih h⟩

theorem Viable.of_isPrefix (h : Viable stop c ts) (hp : us <+: ts) : Viable stop c us := by
  obtain ⟨vs, rfl⟩ := hp
  exact h.of_append

/-- The first token belongs to the first expression, unless that one is empty. -/
theorem viable_cons_cons_iff : Viable stop (e :: c) (t :: ts) ↔
    (∃ d ∈ e.after t.kind, Viable stop (d ++ c) ts) ∨
      e.nullable = true ∧ Viable stop c (t :: ts) := by
  rw [Viable, Viable, Remainder.after_cons, Remainder.nullable_cons]
  cases hn : e.nullable with
  | false => simp
  | true => simp [or_and_right, exists_or, or_assoc]

theorem viable_append_cons_iff : Viable stop (c ++ d) (t :: ts) ↔
    (∃ c' ∈ c.after t.kind, Viable stop (c' ++ d) ts) ∨
      c.nullable = true ∧ Viable stop d (t :: ts) := by
  rw [Viable, Viable, Remainder.after_append, Remainder.nullable_append]
  cases hn : c.nullable with
  | false => simp
  | true => simp [or_and_right, exists_or, or_assoc]

theorem Viable.append_mono (hd : ∀ ts, Viable stop d ts → Viable stop d' ts)
    (h : Viable stop (c ++ d) ts) : Viable stop (c ++ d') ts := by
  induction ts generalizing c with
  | nil => trivial
  | cons t ts ih =>
    rw [viable_append_cons_iff] at h ⊢
    exact h.imp (fun ⟨c', hc', h⟩ => ⟨c', hc', ih h⟩) fun ⟨hn, h⟩ => ⟨hn, hd _ h⟩

/-! ### The laws of viability -/

theorem viable_tok_cons_iff :
    Viable stop (.tok k :: c) (t :: ts) ↔ t.kind = k ∧ Viable stop c ts := by
  have hafter : (Expr.tok k).after t.kind = if k = t.kind then [[]] else [] := rfl
  rw [viable_cons_cons_iff, hafter]
  split
  · next h => simp [h]
  · next h => simp [Ne.symm h]

theorem viable_oneOf_cons_iff {kinds : List Kind} :
    Viable stop (.oneOf kinds :: c) (t :: ts) ↔ t.kind ∈ kinds ∧ Viable stop c ts := by
  have hafter : (Expr.oneOf kinds).after t.kind =
      if kinds.contains t.kind then [[]] else [] := rfl
  rw [viable_cons_cons_iff, hafter]
  split
  · next h => simp [List.contains_iff_mem.mp h]
  · next h => simp [mt List.contains_iff_mem.mpr h]

theorem viable_call_iff : Viable stop (.call r :: c) ts ↔ Viable stop (r.body :: c) ts := by
  cases ts with
  | nil => exact Iff.rfl
  | cons t ts =>
    rw [viable_cons_cons_iff, viable_cons_cons_iff, Expr.after_body, Expr.nullable_body]

theorem viable_seq_iff : Viable stop (.seq es :: c) ts ↔ Viable stop (es ++ c) ts := by
  cases ts with
  | nil => exact Iff.rfl
  | cons t ts =>
    rw [viable_cons_cons_iff, viable_append_cons_iff]
    exact Iff.rfl

theorem after_choice (es : List Expr) : (Expr.choice es).after k = es.flatMap (Expr.after k) := by
  show choiceAfterWith _ _ es = _
  induction es with
  | nil => rfl
  | cons e es ih => rw [choiceAfterWith, ih, List.flatMap_cons, Expr.after]

theorem viable_choice_iff (hne : es ≠ []) :
    Viable stop (.choice es :: c) ts ↔ ∃ e ∈ es, Viable stop (e :: c) ts := by
  cases ts with
  | nil =>
    obtain ⟨e, _, rfl⟩ := List.exists_cons_of_ne_nil hne
    exact ⟨fun _ => ⟨e, List.mem_cons_self, trivial⟩, fun _ => trivial⟩
  | cons t ts =>
    simp only [viable_cons_cons_iff, after_choice, Expr.nullable_choice_iff, List.mem_flatMap]
    constructor
    · rintro (⟨d, ⟨e, he, hd⟩, h⟩ | ⟨⟨e, he, hn⟩, h⟩)
      · exact ⟨e, he, .inl ⟨d, hd, h⟩⟩
      · exact ⟨e, he, .inr ⟨hn, h⟩⟩
    · rintro ⟨e, he, ⟨d, hd, h⟩ | ⟨hn, h⟩⟩
      · exact .inl ⟨d, ⟨e, he, hd⟩, h⟩
      · exact .inr ⟨⟨e, he, hn⟩, h⟩

theorem viable_opt_iff :
    Viable stop (.opt body :: c) ts ↔ Viable stop (body :: c) ts ∨ Viable stop c ts := by
  cases ts with
  | nil => exact ⟨fun _ => .inl trivial, fun _ => trivial⟩
  | cons t ts =>
    have hafter : (Expr.opt body).after t.kind = body.after t.kind := rfl
    rw [viable_cons_cons_iff, viable_cons_cons_iff, hafter, Expr.nullable_opt]
    by_cases hc : Viable stop c (t :: ts) <;> simp [hc]

/-- An expression that after the first token of a body leaves the rest of the body and itself. -/
def Repeats (loop body : Expr) : Prop :=
  loop.nullable = true ∧ ∀ k, loop.after k = (body.after k).map (· ++ [loop])

theorem repeats_many : Repeats (.many body) body := ⟨rfl, fun _ => rfl⟩

theorem repeats_manyAhead : Repeats (.manyAhead body) body := ⟨rfl, fun _ => rfl⟩

theorem Repeats.viable_cons_iff {loop : Expr} (h : Repeats loop body) :
    Viable stop (loop :: c) (t :: ts) ↔
      (∃ d ∈ body.after t.kind, Viable stop (d ++ loop :: c) ts) ∨ Viable stop c (t :: ts) := by
  rw [viable_cons_cons_iff, h.1, h.2]
  simp

theorem Repeats.viable_iff {loop : Expr} (h : Repeats loop body) :
    Viable stop (loop :: c) ts ↔ Viable stop (body :: loop :: c) ts ∨ Viable stop c ts := by
  cases ts with
  | nil => exact ⟨fun _ => .inl trivial, fun _ => trivial⟩
  | cons t ts =>
    rw [viable_cons_cons_iff (e := body), h.viable_cons_iff]
    by_cases hc : Viable stop c (t :: ts) <;> simp [hc]

theorem viable_many1_iff :
    Viable stop (.many1 body :: c) ts ↔ Viable stop (body :: .many body :: c) ts := by
  cases ts with
  | nil => exact Iff.rfl
  | cons t ts =>
    have hmany1 : Viable stop (.many1 body :: c) (t :: ts) ↔
        (∃ d ∈ body.after t.kind, Viable stop (d ++ .many body :: c) ts) ∨
          body.nullable = true ∧ Viable stop c (t :: ts) := by
      have hafter : (Expr.many1 body).after t.kind =
        (body.after t.kind).map (· ++ [.many body]) := rfl
      rw [viable_cons_cons_iff, hafter, Expr.nullable_many1]
      simp
    rw [hmany1, viable_cons_cons_iff, repeats_many.viable_cons_iff]
    by_cases h : ∃ d ∈ body.after t.kind, Viable stop (d ++ .many body :: c) ts <;> simp [h]

/-! ### First tokens -/

/-- A token that begins a viable row can start the expression, if that is not empty. -/
theorem Viable.starts (h : Viable stop (e :: c) (t :: ts)) (he : e.nullable = false) :
    e.starts t.kind = true := by
  rcases viable_cons_cons_iff.mp h with ⟨d, hd, -⟩ | ⟨hn, -⟩
  · rw [Expr.starts, Bool.not_eq_true', List.isEmpty_eq_false_iff]
    exact List.ne_nil_of_mem hd
  · rw [he] at hn
    cases hn

theorem Viable.opens (h : Viable stop (c ++ d) (t :: ts))
    (hd : Viable stop d (t :: ts) → follow t.kind = true) : c.opens follow t.kind = true := by
  rw [Remainder.opens, Bool.or_eq_true, Bool.and_eq_true]
  rcases viable_append_cons_iff.mp h with ⟨c', hc', -⟩ | ⟨hn, h⟩
  · refine .inl ?_
    rw [Remainder.starts, Bool.not_eq_true', List.isEmpty_eq_false_iff]
    exact List.ne_nil_of_mem hc'
  · exact .inr ⟨hn, hd h⟩

end EvScript
