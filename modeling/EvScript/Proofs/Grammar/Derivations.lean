import EvScript.Grammar.Tree
import EvScript.Proofs.Grammar.Viable

/-!
# Derivations and Viability

What has a derivation is viable. And what is viable has a derivation of its continuation: the tokens
are the beginning of a row that has one, or a row that has one is the beginning of the tokens. This
needs that every rule describes something, which is checked like the rest of the grammar.
-/

namespace EvScript

variable {r : Rule}
variable {finish t : Token} {e body : Expr} {c c' d : Remainder} {es : List Expr}
  {ts us vs ws : List Token} {trees : List Tree} {stop : Kind → Bool} {n : Nat}

/-! ### The leaves of a derivation -/

theorem Tree.tokensOfAll_append (as bs : List Tree) :
    tokensOfAll (as ++ bs) = tokensOfAll as ++ tokensOfAll bs := by
  induction as with
  | nil => rfl
  | cons a as ih => rw [List.cons_append, tokensOfAll, tokensOfAll, ih, List.append_assoc]

@[simp] theorem Tree.tokensOfAll_singleton (tree : Tree) : tokensOfAll [tree] = tree.tokens := by
  rw [tokensOfAll, tokensOfAll, List.append_nil]

mutual

/-- **The leaves of a derivation**, followed by the tokens that it leaves, are the tokens it was
made from. -/
theorem Derives.tokens_append : ∀ {e : Expr} {ts us : List Token} {trees : List Tree},
    Derives finish e ts trees us → Tree.tokensOfAll trees ++ us = ts
  | _, _, _, _, .tok => rfl
  | _, _, _, _, .oneOf _ => rfl
  | _, _, _, _, .call h => by
    rw [Tree.tokensOfAll_singleton, Tree.tokens, h.tokens_append]
  | _, _, _, _, .seq h => h.tokens_append
  | _, _, _, _, .choice _ h => h.tokens_append
  | _, _, _, _, .optNone => rfl
  | _, _, _, _, .optSome h | _, _, _, _, .many h | _, _, _, _, .many1 h
  | _, _, _, _, .manyAhead h =>
    h.tokens_append

theorem DerivesAll.tokens_append : ∀ {es : List Expr} {ts us : List Token} {trees : List Tree},
    DerivesAll finish es ts trees us → Tree.tokensOfAll trees ++ us = ts
  | _, _, _, _, .nil => rfl
  | _, _, _, _, .cons h hs => by
    rw [Tree.tokensOfAll_append, List.append_assoc, hs.tokens_append, h.tokens_append]

end

theorem Derives.length_le (h : Derives finish e ts trees us) : us.length ≤ ts.length := by
  rw [← h.tokens_append, List.length_append]
  exact Nat.le_add_left _ _

theorem DerivesAll.length_le (h : DerivesAll finish es ts trees us) : us.length ≤ ts.length := by
  rw [← h.tokens_append, List.length_append]
  exact Nat.le_add_left _ _

mutual

/-- A derivation that reads no token is one of an expression that describes the empty row. -/
theorem Derives.nullable : ∀ {e : Expr} {ts us : List Token} {trees : List Tree},
    Derives finish e ts trees us → ts.length ≤ us.length → e.nullable = true
  | _, _, _, _, .tok, hl => absurd hl (Nat.not_succ_le_self _)
  | _, _, _, _, .oneOf _, hl => absurd hl (Nat.not_succ_le_self _)
  | _, _, _, _, .call h, hl => Expr.nullable_body _ ▸ h.nullable hl
  | _, _, _, _, .seq h, hl => h.nullable hl
  | _, _, _, _, .choice he h, hl => Expr.nullable_choice_iff.mpr ⟨_, he, h.nullable hl⟩
  | _, _, _, _, .optNone, _ => rfl
  | _, _, _, _, .optSome _, _ => rfl
  | _, _, _, _, .many _, _ => rfl
  | _, _, _, _, .many1 h, hl => by
    have hall := h.nullable hl
    rw [List.replicate_succ, Remainder.nullable_cons, Bool.and_eq_true] at hall
    exact hall.1
  | _, _, _, _, .manyAhead _, _ => rfl

theorem DerivesAll.nullable : ∀ {es : List Expr} {ts us : List Token} {trees : List Tree},
    DerivesAll finish es ts trees us → ts.length ≤ us.length → Remainder.nullable es = true
  | _, _, _, _, .nil, _ => rfl
  | _, _, _, _, .cons h hs, hl => by
    have hle := h.length_le
    have hles := hs.length_le
    rw [Remainder.nullable_cons, h.nullable (by omega), hs.nullable (by omega)]
    rfl

end

/-! ### Derivations are viable -/

theorem Repeats.viable_of_replicate {loop : Expr} (h : Repeats loop body)
    (hv : Viable stop (List.replicate n body ++ c) ts) : Viable stop (loop :: c) ts := by
  induction n generalizing ts with
  | zero => exact h.viable_iff.mpr (.inr hv)
  | succ n ih => exact h.viable_iff.mpr (.inl (Viable.append_mono (c := [body]) (fun _ => ih) hv))

mutual

/-- **What has a derivation is viable.** -/
theorem Derives.viable : ∀ {e : Expr} {c : Remainder} {ts us : List Token} {trees : List Tree},
    Derives finish e ts trees us → Viable stop c (us ++ ws) → Viable stop (e :: c) (ts ++ ws)
  | _, _, _, _, _, .tok, hv => viable_tok_cons_iff.mpr ⟨rfl, hv⟩
  | _, _, _, _, _, .oneOf hk, hv => viable_oneOf_cons_iff.mpr ⟨hk, hv⟩
  | _, _, _, _, _, .call h, hv => viable_call_iff.mpr (h.viable hv)
  | _, _, _, _, _, .seq h, hv => viable_seq_iff.mpr (h.viable hv)
  | _, _, _, _, _, .choice he h, hv =>
    (viable_choice_iff (List.ne_nil_of_mem he)).mpr ⟨_, he, h.viable hv⟩
  | _, _, _, _, _, .optNone, hv => viable_opt_iff.mpr (.inr hv)
  | _, _, _, _, _, .optSome h, hv => viable_opt_iff.mpr (.inl (h.viable hv))
  | _, _, _, _, _, .many h, hv => repeats_many.viable_of_replicate (h.viable hv)
  | _, _, _, _, _, .many1 h, hv => viable_many1_iff.mpr <|
      Viable.append_mono (c := [_]) (fun _ => repeats_many.viable_of_replicate) (h.viable hv)
  | _, _, _, _, _, .manyAhead h, hv => repeats_manyAhead.viable_of_replicate (h.viable hv)

theorem DerivesAll.viable : ∀ {es : List Expr} {c : Remainder} {ts us : List Token}
    {trees : List Tree}, DerivesAll finish es ts trees us → Viable stop c (us ++ ws) →
      Viable stop (es ++ c) (ts ++ ws)
  | _, _, _, _, _, .nil, hv => hv
  | _, _, _, _, _, .cons h hs, hv => h.viable (hs.viable hv)

end

/-! ### Tokens with a derivation -/

theorem derivesAll_singleton_iff :
    DerivesAll finish [e] ts trees us ↔ Derives finish e ts trees us := by
  constructor
  · intro h
    cases h with
    | cons h hs =>
      cases hs
      rwa [List.append_nil]
  · intro h
    exact List.append_nil trees ▸ DerivesAll.cons h .nil

theorem derives_many_iff : Derives finish (.many body) ts trees us ↔
    ∃ n, DerivesAll finish (List.replicate n body) ts trees us :=
  ⟨fun | .many h => ⟨_, h⟩, fun ⟨_, h⟩ => .many h⟩

theorem derives_manyAhead_iff : Derives finish (.manyAhead body) ts trees us ↔
    ∃ n, DerivesAll finish (List.replicate n body) ts trees us :=
  ⟨fun | .manyAhead h => ⟨_, h⟩, fun ⟨_, h⟩ => .manyAhead h⟩

/-- Some derivation of the expression leads from `ts` to `us`. -/
def Spans (finish : Token) (e : Expr) (ts us : List Token) : Prop :=
  ∃ trees, Derives finish e ts trees us

/-- Some derivation of the row of expressions leads from `ts` to `us`. -/
def SpansAll (finish : Token) (es : List Expr) (ts us : List Token) : Prop :=
  ∃ trees, DerivesAll finish es ts trees us

theorem spansAll_nil_iff : SpansAll finish [] ts us ↔ ts = us := by
  constructor
  · rintro ⟨_, ⟨⟩⟩
    rfl
  · rintro rfl
    exact ⟨[], .nil⟩

theorem spansAll_cons_iff :
    SpansAll finish (e :: es) ts vs ↔ ∃ us, Spans finish e ts us ∧ SpansAll finish es us vs := by
  constructor
  · rintro ⟨_, h⟩
    cases h with
    | cons h hs => exact ⟨_, ⟨_, h⟩, _, hs⟩
  · rintro ⟨us, ⟨_, h⟩, _, hs⟩
    exact ⟨_, .cons h hs⟩

theorem SpansAll.single (h : SpansAll finish [e] ts us) : Spans finish e ts us :=
  h.imp fun _ => derivesAll_singleton_iff.mp

theorem spansAll_append_iff : SpansAll finish (c ++ d) ts vs ↔
    ∃ us, SpansAll finish c ts us ∧ SpansAll finish d us vs := by
  induction c generalizing ts with
  | nil => simp [spansAll_nil_iff]
  | cons e c ih =>
    simp only [List.cons_append, spansAll_cons_iff, ih]
    constructor
    · rintro ⟨m, he, us, hc, hd⟩
      exact ⟨us, ⟨m, he, hc⟩, hd⟩
    · rintro ⟨us, ⟨m, he, hc⟩, hd⟩
      exact ⟨m, he, us, hc, hd⟩

theorem Spans.call (h : Spans finish r.body ts us) : Spans finish (.call r) ts us :=
  h.elim fun _ h => ⟨_, .call h⟩

theorem SpansAll.seq (h : SpansAll finish es ts us) : Spans finish (.seq es) ts us :=
  h.elim fun _ h => ⟨_, .seq h⟩

theorem Spans.choice (h : Spans finish e ts us) (he : e ∈ es) : Spans finish (.choice es) ts us :=
  h.elim fun _ h => ⟨_, .choice he h⟩

theorem spans_many_iff : Spans finish (.many body) ts us ↔
    ∃ n, SpansAll finish (List.replicate n body) ts us :=
  (exists_congr fun _ => derives_many_iff).trans exists_comm

theorem spans_manyAhead_iff : Spans finish (.manyAhead body) ts us ↔
    ∃ n, SpansAll finish (List.replicate n body) ts us :=
  (exists_congr fun _ => derives_manyAhead_iff).trans exists_comm

theorem spans_many1_of_many (h : Spans finish body ts us) (hs : Spans finish (.many body) us vs) :
    Spans finish (.many1 body) ts vs := by
  obtain ⟨n, hn⟩ := spans_many_iff.mp hs
  obtain ⟨_, hall⟩ := spansAll_cons_iff.mpr ⟨us, h, hn⟩
  exact ⟨_, .many1 (n := n) hall⟩

/-- One more body in front. -/
theorem spansAll_replicate_succ (h : Spans finish body ts us)
    (hs : ∃ n, SpansAll finish (List.replicate n body) us vs) :
    ∃ n, SpansAll finish (List.replicate n body) ts vs :=
  hs.elim fun n hn => ⟨n + 1, spansAll_cons_iff.mpr ⟨us, h, hn⟩⟩

mutual

theorem Derives.spans_append : ∀ {e : Expr} {ts us : List Token} {trees : List Tree},
    Derives finish e ts trees us → ∀ vs, Spans finish e (Tree.tokensOfAll trees ++ vs) vs
  | _, _, _, _, .tok, _ => ⟨_, .tok⟩
  | _, _, _, _, .oneOf hk, _ => ⟨_, .oneOf hk⟩
  | _, _, _, _, .call h, vs => by
    rw [Tree.tokensOfAll_singleton, Tree.tokens]
    exact (h.spans_append vs).call
  | _, _, _, _, .seq h, vs => (h.spans_append vs).seq
  | _, _, _, _, .choice he h, vs => (h.spans_append vs).choice he
  | _, _, _, _, .optNone, _ => ⟨_, .optNone⟩
  | _, _, _, _, .optSome h, vs => (h.spans_append vs).elim fun _ h => ⟨_, .optSome h⟩
  | _, _, _, _, .many h, vs => (h.spans_append vs).elim fun _ h => ⟨_, .many h⟩
  | _, _, _, _, .many1 h, vs => (h.spans_append vs).elim fun _ h => ⟨_, .many1 h⟩
  | _, _, _, _, .manyAhead h, vs => (h.spans_append vs).elim fun _ h => ⟨_, .manyAhead h⟩

theorem DerivesAll.spans_append : ∀ {es : List Expr} {ts us : List Token} {trees : List Tree},
    DerivesAll finish es ts trees us → ∀ vs, SpansAll finish es (Tree.tokensOfAll trees ++ vs) vs
  | _, _, _, _, .nil, _ => ⟨_, .nil⟩
  | _, _, _, _, .cons h hs, vs => by
    rw [Tree.tokensOfAll_append, List.append_assoc]
    exact spansAll_cons_iff.mpr ⟨_, h.spans_append _, hs.spans_append vs⟩

end

mutual

theorem Expr.spans_of_nullableWith {rule : Rule → Bool}
    (hrule : ∀ r, rule r = true → Spans finish (.call r) ts ts) :
    ∀ e : Expr, e.nullableWith rule = true → Spans finish e ts ts
  | .call r, h => hrule r h
  | .seq parts, h => (spans_of_allNullableWith hrule parts h).seq
  | .choice alternatives, h => by
    obtain ⟨e, he, hspans⟩ := spans_of_anyNullableWith hrule alternatives h
    exact hspans.choice he
  | .opt _, _ => ⟨[], .optNone⟩
  | .many _, _ => spans_many_iff.mpr ⟨0, spansAll_nil_iff.mpr rfl⟩
  | .many1 body, h =>
    spans_many1_of_many (Expr.spans_of_nullableWith hrule body h)
      (spans_many_iff.mpr ⟨0, spansAll_nil_iff.mpr rfl⟩)
  | .manyAhead _, _ => spans_manyAhead_iff.mpr ⟨0, spansAll_nil_iff.mpr rfl⟩

theorem spans_of_allNullableWith {rule : Rule → Bool}
    (hrule : ∀ r, rule r = true → Spans finish (.call r) ts ts) :
    ∀ es : List Expr, allNullableWith rule es = true → SpansAll finish es ts ts
  | [], _ => spansAll_nil_iff.mpr rfl
  | e :: es, h => by
    rw [allNullableWith, Bool.and_eq_true] at h
    exact spansAll_cons_iff.mpr ⟨ts, Expr.spans_of_nullableWith hrule e h.1,
      spans_of_allNullableWith hrule es h.2⟩

theorem spans_of_anyNullableWith {rule : Rule → Bool}
    (hrule : ∀ r, rule r = true → Spans finish (.call r) ts ts) :
    ∀ es : List Expr, anyNullableWith rule es = true → ∃ e ∈ es, Spans finish e ts ts
  | [], h => nomatch h
  | e :: es, h => by
    rw [anyNullableWith, Bool.or_eq_true] at h
    rcases h with h | h
    · exact ⟨e, List.mem_cons_self, Expr.spans_of_nullableWith hrule e h⟩
    · obtain ⟨e', he', hspans⟩ := spans_of_anyNullableWith hrule es h
      exact ⟨e', List.mem_cons_of_mem _ he', hspans⟩

end

theorem Rule.spans_of_nullableAt (h : r.nullableAt n = true) : Spans finish (.call r) ts ts := by
  induction n generalizing r with
  | zero => cases h
  | succ n ih => exact (Expr.spans_of_nullableWith (fun _ => ih) r.body h).call

theorem Expr.spans_of_nullable (h : e.nullable = true) : Spans finish e ts ts :=
  Expr.spans_of_nullableWith (fun _ => Rule.spans_of_nullableAt) e h

/-! ### Derivations from what is left after a token -/

/-- Rules have derivations from what they leave after the token `t`. -/
def ReadsBack (finish t : Token) (rule : Rule → List Remainder) : Prop :=
  ∀ r, ∀ c ∈ rule r, ∀ ts us, SpansAll finish c ts us → Spans finish (.call r) (t :: ts) us

mutual

theorem Expr.spans_of_mem_afterWith {rule : Rule → List Remainder}
    (hrule : ReadsBack finish t rule) :
    ∀ {ts us : List Token} (e : Expr), ∀ c ∈ e.afterWith rule t.kind, SpansAll finish c ts us →
      Spans finish e (t :: ts) us
  | _, _, .tok kind, c, hc, h => by
    rw [Expr.afterWith] at hc
    split at hc
    · next hkind =>
        rw [List.mem_singleton.mp hc, spansAll_nil_iff] at h
        rw [h, hkind]
        exact ⟨_, .tok⟩
    · cases hc
  | _, _, .oneOf kinds, c, hc, h => by
    rw [Expr.afterWith] at hc
    split at hc
    · next hkind =>
        rw [List.mem_singleton.mp hc, spansAll_nil_iff] at h
        rw [h]
        exact ⟨_, .oneOf (List.contains_iff_mem.mp hkind)⟩
    · cases hc
  | _, _, .call r, c, hc, h => hrule r c hc _ _ h
  | _, _, .seq parts, c, hc, h => (spans_of_mem_seqAfterWith hrule parts c hc h).seq
  | _, _, .choice alternatives, c, hc, h => by
    obtain ⟨e, he, hspans⟩ := spans_of_mem_choiceAfterWith hrule alternatives c hc h
    exact hspans.choice he
  | _, _, .opt body, c, hc, h =>
    (Expr.spans_of_mem_afterWith hrule body c hc h).elim fun _ h => ⟨_, .optSome h⟩
  | _, _, .many body, c, hc, h => by
    obtain ⟨d, hd, rfl⟩ := List.mem_map.mp hc
    obtain ⟨ms, hfirst, hmore⟩ := spansAll_append_iff.mp h
    have hbody := Expr.spans_of_mem_afterWith hrule body d hd hfirst
    exact spans_many_iff.mpr (spansAll_replicate_succ hbody (spans_many_iff.mp hmore.single))
  | _, _, .many1 body, c, hc, h => by
    obtain ⟨d, hd, rfl⟩ := List.mem_map.mp hc
    obtain ⟨ms, hfirst, hmore⟩ := spansAll_append_iff.mp h
    exact spans_many1_of_many (Expr.spans_of_mem_afterWith hrule body d hd hfirst) hmore.single
  | _, _, .manyAhead body, c, hc, h => by
    obtain ⟨d, hd, rfl⟩ := List.mem_map.mp hc
    obtain ⟨ms, hfirst, hmore⟩ := spansAll_append_iff.mp h
    have hbody := Expr.spans_of_mem_afterWith hrule body d hd hfirst
    exact spans_manyAhead_iff.mpr
      (spansAll_replicate_succ hbody (spans_manyAhead_iff.mp hmore.single))

theorem spans_of_mem_seqAfterWith {rule : Rule → List Remainder} (hrule : ReadsBack finish t rule) :
    ∀ {ts us : List Token} (es : List Expr), ∀ c ∈ seqAfterWith rule t.kind es,
      SpansAll finish c ts us → SpansAll finish es (t :: ts) us
  | _, _, [], c, hc, _ => nomatch hc
  | _, _, e :: es, c, hc, h => by
    rw [seqAfterWith] at hc
    rcases List.mem_append.mp hc with hc | hc
    · obtain ⟨d, hd, rfl⟩ := List.mem_map.mp hc
      obtain ⟨ms, hfirst, hmore⟩ := spansAll_append_iff.mp h
      exact spansAll_cons_iff.mpr ⟨ms, Expr.spans_of_mem_afterWith hrule e d hd hfirst, hmore⟩
    · split at hc
      · next hnull =>
          exact spansAll_cons_iff.mpr ⟨_, Expr.spans_of_nullable hnull,
            spans_of_mem_seqAfterWith hrule es c hc h⟩
      · cases hc

theorem spans_of_mem_choiceAfterWith {rule : Rule → List Remainder}
    (hrule : ReadsBack finish t rule) :
    ∀ {ts us : List Token} (es : List Expr), ∀ c ∈ choiceAfterWith rule t.kind es,
      SpansAll finish c ts us → ∃ e ∈ es, Spans finish e (t :: ts) us
  | _, _, [], c, hc, _ => nomatch hc
  | _, _, e :: es, c, hc, h => by
    rcases List.mem_append.mp hc with hc | hc
    · exact ⟨e, List.mem_cons_self, Expr.spans_of_mem_afterWith hrule e c hc h⟩
    · obtain ⟨e', he', hspans⟩ := spans_of_mem_choiceAfterWith hrule es c hc h
      exact ⟨e', List.mem_cons_of_mem _ he', hspans⟩

end

theorem Rule.readsBack_afterAt (n : Nat) : ReadsBack finish t (Rule.afterAt t.kind n) := by
  induction n with
  | zero => exact fun _ _ hc => absurd hc List.not_mem_nil
  | succ n ih => exact fun r c hc _ _ h => (Expr.spans_of_mem_afterWith ih r.body c hc h).call

theorem SpansAll.of_mem_after (h : SpansAll finish c' ts us) (hc : c' ∈ c.after t.kind) :
    SpansAll finish c (t :: ts) us :=
  spans_of_mem_seqAfterWith (Rule.readsBack_afterAt ruleDepth) c c' hc h

/-! ### Every rule describes something -/

mutual

/-- No choice in the expression is without alternatives. -/
def Expr.filled : Expr → Bool
  | .tok _ => true
  | .oneOf kinds => !kinds.isEmpty
  | .call _ => true
  | .seq parts => allFilled parts
  | .choice alternatives => !alternatives.isEmpty && allFilled alternatives
  | .opt body | .many body | .many1 body | .manyAhead body => body.filled

/-- No choice in the expressions is without alternatives. -/
def allFilled : List Expr → Bool
  | [] => true
  | e :: es => e.filled && allFilled es

end

mutual

/-- Whether the expression describes something, given which rules do. -/
def Expr.producesWith (rule : Rule → Bool) : Expr → Bool
  | .tok _ => true
  | .oneOf kinds => !kinds.isEmpty
  | .call r => rule r
  | .seq parts => allProduceWith rule parts
  | .choice alternatives => someProducesWith rule alternatives
  | .opt _ | .many _ | .manyAhead _ => true
  | .many1 body => body.producesWith rule

/-- Whether all of the expressions describe something. -/
def allProduceWith (rule : Rule → Bool) : List Expr → Bool
  | [] => true
  | e :: es => e.producesWith rule && allProduceWith rule es

/-- Whether some of the expressions describes something. -/
def someProducesWith (rule : Rule → Bool) : List Expr → Bool
  | [] => false
  | e :: es => e.producesWith rule || someProducesWith rule es

end

/-- Whether a rule describes something with rules nested at most `n` deep. -/
def Rule.producesAt : Nat → Rule → Bool
  | 0, _ => false
  | n + 1, r => r.body.producesWith (producesAt n)

/-- Some token of a kind. -/
def Kind.toToken (k : Kind) : Token := ⟨k, "", .start, 0, 0⟩

/-- In front of every row of tokens the expression can be read. -/
def Productive (finish : Token) (e : Expr) : Prop := ∀ us, ∃ ts, Spans finish e (ts ++ us) us

mutual

theorem Expr.productive_of_producesWith {rule : Rule → Bool}
    (hrule : ∀ r, rule r = true → Productive finish (.call r)) :
    ∀ e : Expr, e.producesWith rule = true → Productive finish e
  | .tok k, _, us => ⟨[k.toToken], _, .tok (t := k.toToken)⟩
  | .oneOf (k :: _), _, us => ⟨[k.toToken], _, .oneOf List.mem_cons_self⟩
  | .call r, h, us => hrule r h us
  | .seq parts, h, us =>
    (productive_of_allProduceWith hrule parts h us).imp fun _ h => h.seq
  | .choice alternatives, h, us => by
    obtain ⟨e, he, hproductive⟩ := productive_of_someProducesWith hrule alternatives h
    exact (hproductive us).imp fun _ h => h.choice he
  | .opt _, _, us => ⟨[], _, .optNone⟩
  | .many _, _, us => ⟨[], spans_many_iff.mpr ⟨0, spansAll_nil_iff.mpr rfl⟩⟩
  | .many1 body, h, us =>
    (Expr.productive_of_producesWith hrule body h us).imp fun _ h =>
      spans_many1_of_many h (spans_many_iff.mpr ⟨0, spansAll_nil_iff.mpr rfl⟩)
  | .manyAhead _, _, us => ⟨[], spans_manyAhead_iff.mpr ⟨0, spansAll_nil_iff.mpr rfl⟩⟩

theorem productive_of_allProduceWith {rule : Rule → Bool}
    (hrule : ∀ r, rule r = true → Productive finish (.call r)) :
    ∀ es : List Expr, allProduceWith rule es = true → ∀ us, ∃ ts, SpansAll finish es (ts ++ us) us
  | [], _, us => ⟨[], spansAll_nil_iff.mpr rfl⟩
  | e :: es, h, us => by
    rw [allProduceWith, Bool.and_eq_true] at h
    obtain ⟨vs, hvs⟩ := productive_of_allProduceWith hrule es h.2 us
    obtain ⟨ts, hts⟩ := Expr.productive_of_producesWith hrule e h.1 (vs ++ us)
    exact ⟨ts ++ vs, spansAll_cons_iff.mpr ⟨_, List.append_assoc .. ▸ hts, hvs⟩⟩

theorem productive_of_someProducesWith {rule : Rule → Bool}
    (hrule : ∀ r, rule r = true → Productive finish (.call r)) :
    ∀ es : List Expr, someProducesWith rule es = true → ∃ e ∈ es, Productive finish e
  | [], h => nomatch h
  | e :: es, h => by
    rw [someProducesWith, Bool.or_eq_true] at h
    rcases h with h | h
    · exact ⟨e, List.mem_cons_self, Expr.productive_of_producesWith hrule e h⟩
    · obtain ⟨e', he', hproductive⟩ := productive_of_someProducesWith hrule es h
      exact ⟨e', List.mem_cons_of_mem _ he', hproductive⟩

end

theorem Rule.productive_of_producesAt (h : r.producesAt n = true) :
    Productive finish (.call r) := by
  induction n generalizing r with
  | zero => cases h
  | succ n ih =>
    exact fun us => (Expr.productive_of_producesWith (fun _ => ih) r.body h us).imp
      fun _ h => h.call

/-- Every rule describes something. -/
theorem Rule.productive (r : Rule) : Productive finish (.call r) := by
  have hproduces : ∀ r : Rule, r.producesAt ruleDepth = true := by decide +kernel
  exact Rule.productive_of_producesAt (hproduces r)

mutual

theorem Expr.producesWith_of_filled :
    ∀ e : Expr, e.filled = true → e.producesWith (fun _ => true) = true
  | .tok _, _ => rfl
  | .oneOf _, h => h
  | .call _, _ => rfl
  | .seq parts, h => allProduceWith_of_allFilled parts h
  | .choice (e :: es), h => by
    simp only [Expr.filled, allFilled, Bool.and_eq_true] at h
    simp only [Expr.producesWith, someProducesWith, e.producesWith_of_filled h.2.1, Bool.true_or]
  | .opt _, _ => rfl
  | .many _, _ => rfl
  | .many1 body, h => body.producesWith_of_filled h
  | .manyAhead _, _ => rfl

theorem allProduceWith_of_allFilled :
    ∀ es : List Expr, allFilled es = true → allProduceWith (fun _ => true) es = true
  | [], _ => rfl
  | e :: es, h => by
    rw [allFilled, Bool.and_eq_true] at h
    rw [allProduceWith, e.producesWith_of_filled h.1, allProduceWith_of_allFilled es h.2]
    rfl

end

theorem allFilled_append_iff :
    allFilled (c ++ d) = true ↔ allFilled c = true ∧ allFilled d = true := by
  induction c with
  | nil => simp [allFilled]
  | cons e c ih => simp [allFilled, ih, and_assoc]

theorem allFilled_concat (hd : allFilled d = true) (he : e.filled = true) :
    allFilled (d ++ [e]) = true :=
  allFilled_append_iff.mpr ⟨hd, by rw [allFilled, he]; rfl⟩

mutual

theorem Expr.allFilled_of_mem_afterWith {rule : Rule → List Remainder} {k : Kind}
    (hrule : ∀ r, ∀ c ∈ rule r, allFilled c = true) :
    ∀ e : Expr, e.filled = true → ∀ c ∈ e.afterWith rule k, allFilled c = true
  | .tok _, _, c, hc => by
    rw [Expr.afterWith] at hc
    split at hc
    · rw [List.mem_singleton.mp hc]; rfl
    · cases hc
  | .oneOf _, _, c, hc => by
    rw [Expr.afterWith] at hc
    split at hc
    · rw [List.mem_singleton.mp hc]; rfl
    · cases hc
  | .call r, _, c, hc => hrule r c hc
  | .seq parts, h, c, hc => allFilled_of_mem_seqAfterWith hrule parts h c hc
  | .choice alternatives, h, c, hc => by
    rw [Expr.filled, Bool.and_eq_true] at h
    exact allFilled_of_mem_choiceAfterWith hrule alternatives h.2 c hc
  | .opt body, h, c, hc => body.allFilled_of_mem_afterWith hrule h c hc
  | .many body, h, c, hc => by
    obtain ⟨d, hd, rfl⟩ := List.mem_map.mp hc
    exact allFilled_concat (body.allFilled_of_mem_afterWith hrule h d hd) h
  | .many1 body, h, c, hc => by
    obtain ⟨d, hd, rfl⟩ := List.mem_map.mp hc
    exact allFilled_concat (body.allFilled_of_mem_afterWith hrule h d hd) h
  | .manyAhead body, h, c, hc => by
    obtain ⟨d, hd, rfl⟩ := List.mem_map.mp hc
    exact allFilled_concat (body.allFilled_of_mem_afterWith hrule h d hd) h

theorem allFilled_of_mem_seqAfterWith {rule : Rule → List Remainder} {k : Kind}
    (hrule : ∀ r, ∀ c ∈ rule r, allFilled c = true) :
    ∀ es : List Expr, allFilled es = true → ∀ c ∈ seqAfterWith rule k es, allFilled c = true
  | [], _, c, hc => nomatch hc
  | e :: es, h, c, hc => by
    rw [allFilled, Bool.and_eq_true] at h
    rw [seqAfterWith] at hc
    rcases List.mem_append.mp hc with hc | hc
    · obtain ⟨d, hd, rfl⟩ := List.mem_map.mp hc
      exact allFilled_append_iff.mpr ⟨e.allFilled_of_mem_afterWith hrule h.1 d hd, h.2⟩
    · split at hc
      · exact allFilled_of_mem_seqAfterWith hrule es h.2 c hc
      · cases hc

theorem allFilled_of_mem_choiceAfterWith {rule : Rule → List Remainder} {k : Kind}
    (hrule : ∀ r, ∀ c ∈ rule r, allFilled c = true) :
    ∀ es : List Expr, allFilled es = true → ∀ c ∈ choiceAfterWith rule k es, allFilled c = true
  | [], _, c, hc => nomatch hc
  | e :: es, h, c, hc => by
    rw [allFilled, Bool.and_eq_true] at h
    rcases List.mem_append.mp hc with hc | hc
    · exact e.allFilled_of_mem_afterWith hrule h.1 c hc
    · exact allFilled_of_mem_choiceAfterWith hrule es h.2 c hc

end

theorem Rule.allFilled_of_mem_afterAt {k : Kind} (n : Nat) :
    ∀ r, ∀ c ∈ Rule.afterAt k n r, allFilled c = true := by
  have hbody : ∀ r : Rule, r.body.filled = true := by decide +kernel
  induction n with
  | zero => exact fun _ _ hc => absurd hc List.not_mem_nil
  | succ n ih => exact fun r => r.body.allFilled_of_mem_afterWith ih (hbody r)

/-! ### What is viable has a derivation -/

theorem exists_spansAll (hc : allFilled c = true) : ∃ us, SpansAll finish c us [] := by
  have hproduce := allProduceWith_of_allFilled c hc
  obtain ⟨us, hus⟩ := productive_of_allProduceWith (fun r _ => Rule.productive r) c hproduce []
  exact ⟨us, by simpa using hus⟩

/-- Remainders stay without empty choices. -/
theorem allFilled_of_mem_after (hc : allFilled c = true) {k : Kind} (hc' : c' ∈ c.after k) :
    allFilled c' = true :=
  allFilled_of_mem_seqAfterWith (Rule.allFilled_of_mem_afterAt ruleDepth) c hc c' hc'

/-- **What is viable can be continued** to a row that has a derivation, unless it has come to a
stop already, and then it goes on in any way. -/
theorem Viable.exists_spans (hc : allFilled c = true) (h : Viable stop c ts) :
    (∃ us, SpansAll finish c (ts ++ us) []) ∨ ∀ us, Viable stop c (ts ++ us) := by
  induction ts generalizing c with
  | nil => exact .inl (exists_spansAll hc)
  | cons t ts ih =>
    rcases h with ⟨c', hc', h⟩ | hstop
    · rcases ih (allFilled_of_mem_after hc hc') h with ⟨us, hus⟩ | hall
      · exact .inl ⟨us, hus.of_mem_after hc'⟩
      · exact .inr fun us => .inl ⟨c', hc', hall us⟩
    · exact .inr fun us => .inr hstop

end EvScript
