import EvScript.Grammar.Parser
import EvScript.Proofs.Grammar.Derivations
import EvScript.Proofs.Grammar.Prediction

/-!
# Reading Is Exact

What is read has a derivation, no other derivation lets the rest of the text be read, and where
reading stops, it stops at the first token with which the text cannot go on. All three are one
property of the outcome, `Exact`, and each way of reading keeps it. It is stated for any tokens
behind the rule, since the same rule stands in front of different ones.

Budgets never run out: a rule gets four units for each token ahead and its rank on top, and it calls
others with fewer tokens ahead or of lower rank.
-/

namespace EvScript

variable {budget n : Nat} {rule : Rule}
variable {stop : Kind → Bool} {finish t : Token} {e body loop : Expr}
  {c row row' rest ctx : Remainder} {rows : List Remainder} {es alternatives : List Expr}
  {ts us vs ws : List Token} {trees : List Tree} {R : Reading}

/-! ### Exactness -/

/-- The row was read rightly from `ts`, with `c` to be read behind it: it has a derivation; what
is viable goes on with what is viable behind it; and no other derivation lets the rest be read. -/
structure ReadsTo (stop : Kind → Bool) (finish : Token) (row c : Remainder) (ts : List Token)
    (trees : List Tree) (us : List Token) : Prop where
  derives : DerivesAll finish row ts trees us
  viable_iff : ∀ ws, ws <+: us ++ [finish] →
    (Viable stop (row ++ c) (Tree.tokensOfAll trees ++ ws) ↔ Viable stop c ws)
  unique : ∀ {trees' us'}, DerivesAll finish row ts trees' us' →
    Viable stop c (us' ++ [finish]) → trees' = trees ∧ us' = us

/-- Reading the row from `ts` stopped rightly at the token `t`: up to it the tokens are viable,
with it they are not. -/
def StopsAt (stop : Kind → Bool) (finish : Token) (row c : Remainder) (ts : List Token)
    (t : Token) : Prop :=
  ∃ us vs, ts ++ [finish] = us ++ t :: vs ∧
    Viable stop (row ++ c) us ∧ ¬ Viable stop (row ++ c) (us ++ [t])

/-- The outcome of reading a row is right. -/
def Exact (stop : Kind → Bool) (finish : Token) (row c : Remainder) (ts : List Token) :
    Reading → Prop
  | .ok (trees, us) => ReadsTo stop finish row c ts trees us
  | .error t => StopsAt stop finish row c ts t

/-- The tokens of the trees, and what follows them, stand at the beginning of the text. -/
theorem ReadsTo.isPrefix (h : ReadsTo stop finish row c ts trees us) (hws : ws <+: us ++ [finish]) :
    Tree.tokensOfAll trees ++ ws <+: ts ++ [finish] := by
  rw [← h.derives.tokens_append, List.append_assoc]
  exact (List.prefix_append_right_inj _).mpr hws

theorem exact_nil : Exact stop finish [] c ts (.ok ([], ts)) := by
  refine ⟨.nil, fun ws _ => Iff.rfl, fun h _ => ?_⟩
  cases h
  exact ⟨rfl, rfl⟩

/-- **One expression in front of a row.** -/
theorem Exact.cons {next : List Token → Reading} (h : Exact stop finish [e] (row ++ c) ts R)
    (hnext : ∀ trees us, R = .ok (trees, us) → Exact stop finish row c us (next us)) :
    Exact stop finish (e :: row) c ts (do
      let (first, us) ← R
      let (more, vs) ← next us
      return (first ++ more, vs)) := by
  cases R with
  | error t => exact h
  | ok result =>
    obtain ⟨first, us⟩ := result
    have hfirst : ReadsTo stop finish [e] (row ++ c) ts first us := h
    have hmore := hnext first us rfl
    show Exact stop finish (e :: row) c ts
      (next us >>= fun (more, vs) => pure (first ++ more, vs))
    generalize next us = result at hmore
    cases result with
    | error t =>
      obtain ⟨ws, vs, heq, hv, hnot⟩ := hmore
      have hws : ws ++ [t] <+: us ++ [finish] := ⟨vs, by rw [heq, List.append_assoc]; rfl⟩
      refine (⟨Tree.tokensOfAll first ++ ws, vs, ?_, ?_, ?_⟩ : StopsAt ..)
      · rw [← hfirst.derives.tokens_append, List.append_assoc, List.append_assoc, heq]
      · exact (hfirst.viable_iff ws ((List.prefix_append ws [t]).trans hws)).mpr hv
      · rw [List.append_assoc]
        exact fun h => hnot ((hfirst.viable_iff _ hws).mp h)
    | ok result =>
      obtain ⟨more, vs⟩ := result
      have hmore : ReadsTo stop finish row c us more vs := hmore
      show ReadsTo stop finish (e :: row) c ts (first ++ more) vs
      have hd := derivesAll_singleton_iff.mp hfirst.derives
      refine ⟨.cons hd hmore.derives, fun ws hws => ?_, ?_⟩
      · rw [Tree.tokensOfAll_append, List.append_assoc]
        exact (hfirst.viable_iff _ (hmore.isPrefix hws)).trans (hmore.viable_iff ws hws)
      · rintro trees' vs' (_ | ⟨hd, hd'⟩) hv
        obtain ⟨rfl, rfl⟩ :=
          hfirst.unique (derivesAll_singleton_iff.mpr hd) (hd'.viable hv)
        obtain ⟨rfl, rfl⟩ := hmore.unique hd' hv
        exact ⟨rfl, rfl⟩

/-! ### One of several rows -/

/-- The expression stands for one of the rows. -/
structure Offers (e : Expr) (rows : List Remainder) : Prop where
  viable_iff : ∀ {stop c ts}, Viable stop (e :: c) ts ↔ ∃ row ∈ rows, Viable stop (row ++ c) ts
  derives_iff : ∀ {finish ts trees us}, Derives finish e ts trees us ↔
    ∃ row ∈ rows, DerivesAll finish row ts trees us

/-- **Taking the right row.** -/
theorem Exact.of_takes (ho : Offers e rows) (ht : Takes stop c rows (ts ++ [finish]) row)
    (h : Exact stop finish row c ts R) : Exact stop finish [e] c ts R := by
  have hviable : ∀ ws, ws <+: ts ++ [finish] →
      (Viable stop ([e] ++ c) ws ↔ Viable stop (row ++ c) ws) := by
    intro ws hws
    refine ho.viable_iff.trans ⟨fun ⟨row', hmem, hv⟩ => ht.viable ws hws row' hmem hv,
      fun hv => ⟨row, ht.mem, hv⟩⟩
  cases R with
  | error t =>
    obtain ⟨us, vs, heq, hv, hnot⟩ := h
    have hus : us ++ [t] <+: ts ++ [finish] := ⟨vs, by rw [heq, List.append_assoc]; rfl⟩
    refine ⟨us, vs, heq, (hviable us ((List.prefix_append us [t]).trans hus)).mpr hv, ?_⟩
    exact fun h => hnot ((hviable _ hus).mp h)
  | ok result =>
    obtain ⟨trees, us⟩ := result
    have h : ReadsTo stop finish row c ts trees us := h
    refine ⟨derivesAll_singleton_iff.mpr (ho.derives_iff.mpr ⟨row, ht.mem, h.derives⟩), ?_, ?_⟩
    · exact fun ws hws => (hviable _ (h.isPrefix hws)).trans (h.viable_iff ws hws)
    · intro trees' us' hd hv
      obtain ⟨row', hmem, hd⟩ := ho.derives_iff.mp (derivesAll_singleton_iff.mp hd)
      obtain rfl := ht.unique row' hmem (hd.viable hv)
      exact h.unique hd hv

/-- Stopping where no row can be taken. -/
theorem Exact.of_noneTakes (ho : Offers e rows) (heq : ts ++ [finish] = us ++ t :: vs)
    (h : NoneTakes stop c rows us t) : Exact stop finish [e] c ts (.error t) :=
  ⟨us, vs, heq, ho.viable_iff.mpr h.viable,
    fun hv => (ho.viable_iff.mp hv).elim fun row ⟨hmem, hv⟩ => h.not_viable row hmem hv⟩

theorem takes_single : Takes stop c [row] ts row := by
  refine ⟨List.mem_singleton.mpr rfl, fun ws _ row' hrow' hv => ?_,
    fun row' hrow' _ => List.mem_singleton.mp hrow'⟩
  rwa [← List.mem_singleton.mp hrow']

theorem offers_seq : Offers (.seq es) [es] := by
  refine ⟨by simp [viable_seq_iff], ?_⟩
  simp only [List.mem_singleton, exists_eq_left]
  exact ⟨fun | .seq h => h, .seq⟩

theorem offers_choice (hne : es ≠ []) : Offers (.choice es) (es.map ([·])) := by
  refine ⟨by simp [viable_choice_iff hne], ?_⟩
  simp only [List.mem_map, exists_exists_and_eq_and, derivesAll_singleton_iff]
  exact ⟨fun | .choice he h => ⟨_, he, h⟩, fun ⟨_, he, h⟩ => .choice he h⟩

theorem offers_opt : Offers (.opt body) [[body], []] := by
  refine ⟨by simp [viable_opt_iff], fun {finish ts trees us} => ?_⟩
  simp only [List.mem_cons, List.not_mem_nil, or_false, exists_eq_or_imp, exists_eq_left,
    derivesAll_singleton_iff]
  constructor
  · intro h
    cases h with
    | optNone => exact .inr .nil
    | optSome h => exact .inl h
  · rintro (h | h)
    · exact .optSome h
    · cases h
      exact .optNone

theorem exists_derivesAll_replicate_iff :
    (∃ n, DerivesAll finish (List.replicate n body) ts trees us) ↔
      (∃ n, DerivesAll finish (List.replicate (n + 1) body) ts trees us) ∨
        DerivesAll finish [] ts trees us := by
  constructor
  · rintro ⟨n | n, h⟩
    · exact .inr h
    · exact .inl ⟨n, h⟩
  · rintro (⟨n, h⟩ | h)
    · exact ⟨n + 1, h⟩
    · exact ⟨0, h⟩

theorem derivesAll_body_loop_iff (hloop : ∀ {ts trees us}, Derives finish loop ts trees us ↔
      ∃ n, DerivesAll finish (List.replicate n body) ts trees us) :
    DerivesAll finish [body, loop] ts trees us ↔
      ∃ n, DerivesAll finish (List.replicate (n + 1) body) ts trees us := by
  constructor
  · rintro (_ | ⟨h, hs⟩)
    obtain ⟨n, hs⟩ := hloop.mp (derivesAll_singleton_iff.mp hs)
    exact ⟨n, .cons h hs⟩
  · rintro ⟨n, _ | ⟨h, hs⟩⟩
    exact .cons h (derivesAll_singleton_iff.mpr (hloop.mpr ⟨n, hs⟩))

theorem offers_many : Offers (.many body) [[body, .many body], []] := by
  refine ⟨by simp [repeats_many.viable_iff], ?_⟩
  simp only [List.mem_cons, List.not_mem_nil, or_false, exists_eq_or_imp, exists_eq_left,
    derivesAll_body_loop_iff derives_many_iff, derives_many_iff]
  exact exists_derivesAll_replicate_iff

theorem offers_many1 : Offers (.many1 body) [[body, .many body]] := by
  refine ⟨by simp [viable_many1_iff], ?_⟩
  simp only [List.mem_singleton, exists_eq_left, derivesAll_body_loop_iff derives_many_iff]
  exact ⟨fun | .many1 h => ⟨_, h⟩, fun ⟨_, h⟩ => .many1 h⟩

theorem offers_manyAhead :
    Offers (.manyAhead body) ([.seq [body, .manyAhead body], .seq []].map ([·])) := by
  refine ⟨by simp [viable_seq_iff, repeats_manyAhead.viable_iff], ?_⟩
  simp only [List.map_cons, List.map_nil, List.mem_cons, List.not_mem_nil, or_false,
    exists_eq_or_imp, exists_eq_left, derivesAll_singleton_iff, offers_seq.derives_iff,
    derivesAll_body_loop_iff derives_manyAhead_iff, derives_manyAhead_iff]
  exact exists_derivesAll_replicate_iff

/-! ### Tokens, choices and repetitions -/

/-- The expression describes the single tokens of accepted kinds. -/
structure IsToken (e : Expr) (accepts : Kind → Bool) : Prop where
  viable_iff : ∀ {stop c t ts}, Viable stop (e :: c) (t :: ts) ↔
    accepts t.kind = true ∧ Viable stop c ts
  derives_iff : ∀ {finish ts trees us}, Derives finish e ts trees us ↔
    ∃ t, accepts t.kind = true ∧ ts = t :: us ∧ trees = [.leaf t]

theorem isToken_tok {k : Kind} : IsToken (.tok k) (· == k) := by
  refine ⟨by simp [viable_tok_cons_iff], fun {finish ts trees us} => ⟨?_, ?_⟩⟩
  · intro h
    cases h with
    | tok => exact ⟨_, beq_self_eq_true _, rfl, rfl⟩
  · rintro ⟨t, hk, rfl, rfl⟩
    rw [← beq_iff_eq.mp hk]
    exact .tok

theorem isToken_oneOf {kinds : List Kind} : IsToken (.oneOf kinds) (kinds.contains ·) := by
  refine ⟨by simp [viable_oneOf_cons_iff], fun {finish ts trees us} => ⟨?_, ?_⟩⟩
  · intro h
    cases h with
    | oneOf hk => exact ⟨_, by simpa using hk, rfl, rfl⟩
  · rintro ⟨t, hk, rfl, rfl⟩
    exact .oneOf (by simpa using hk)

/-- Reading a token is exact. -/
theorem IsToken.exact {accepts : Kind → Bool} (h : IsToken e accepts) (r : Reader)
    (hfinish : accepts r.finish.kind = false) :
    Exact stop r.finish [e] c ts (r.token accepts ts) := by
  -- A token that is not accepted is not viable, whether it is one of the text or the last one.
  have hstop : ∀ {t vs}, ts ++ [r.finish] = t :: vs → accepts t.kind = false →
      StopsAt stop r.finish [e] c ts t := by
    intro t vs heq ht
    refine ⟨[], vs, heq, viable_nil, fun hv => ?_⟩
    rw [(h.viable_iff.mp hv).1] at ht
    cases ht
  cases ts with
  | nil => exact hstop rfl hfinish
  | cons t ts =>
    rw [Reader.token]
    split
    · next ht =>
        refine ⟨derivesAll_singleton_iff.mpr (h.derives_iff.mpr ⟨t, ht, rfl, rfl⟩), ?_, ?_⟩
        · exact fun ws _ => h.viable_iff.trans (and_iff_right ht)
        · intro trees' us' hd _
          obtain ⟨t', -, heq, rfl⟩ := h.derives_iff.mp (derivesAll_singleton_iff.mp hd)
          obtain ⟨rfl, rfl⟩ := List.cons.inj heq
          exact ⟨rfl, rfl⟩
    · next ht => exact hstop rfl (Bool.eq_false_iff.mpr ht)

namespace Reader

variable {r : Reader} {follow : Kind → Bool}

theorem append_finish (r : Reader) (ts : List Token) :
    ∃ ws, ts ++ [r.finish] = r.peek ts :: ws := by
  cases ts with
  | nil => exact ⟨[], rfl⟩
  | cons t ts => exact ⟨ts ++ [r.finish], rfl⟩

theorem peekAt_length (h : ts ++ [r.finish] = us ++ t :: ws) : r.peekAt ts us.length = t := by
  induction us generalizing ts with
  | nil =>
    obtain ⟨vs, hvs⟩ := r.append_finish ts
    rw [hvs] at h
    exact (List.cons.inj h).1
  | cons u us ih =>
    cases ts with
    | nil => simp at h
    | cons t' ts => exact ih (List.cons.inj h).2

theorem choose_ok (hd : Decided follow alternatives rest) (hctx : Follows stop follow ctx)
    (hfinish : r.finish.kind = .finish) {j : Nat} (h : r.choose alternatives rest ts = .ok j) :
    ∃ e, alternatives[j]? = some e ∧
      Takes stop (rest ++ ctx) (alternatives.map ([·])) (ts ++ [r.finish]) [e] := by
  refine hd.takes hctx hfinish ?_
  rw [choose] at h
  split at h
  · next i hi => rw [hi, Except.ok.inj h]
  · cases h

/-- If none is chosen, there is none to take. -/
theorem choose_error (ho : Offers e (alternatives.map ([·])))
    (hd : Decided follow alternatives rest) (hctx : Follows stop follow ctx)
    (hfinish : r.finish.kind = .finish) (h : r.choose alternatives rest ts = .error t) :
    Exact stop r.finish [e] (rest ++ ctx) ts (.error t) := by
  rw [choose] at h
  split at h
  · cases h
  · next hnone =>
      obtain ⟨us, t', ws, heq, hlooked, hnt⟩ := hd.noneTakes hctx hfinish hnone
      rw [hlooked, Nat.add_sub_cancel, peekAt_length heq] at h
      exact Except.error.inj h ▸ Exact.of_noneTakes ho heq hnt

end Reader

/-- Whether to go round a repetition again is decided rightly. -/
def Decides (stop : Kind → Bool) (finish : Token) (loop body : Expr) (c : Remainder)
    (ts : List Token) : Except Token Bool → Prop
  | .ok true => ∀ R, Exact stop finish [body, loop] c ts R → Exact stop finish [loop] c ts R
  | .ok false => Exact stop finish [loop] c ts (.ok ([], ts))
  | .error t => Exact stop finish [loop] c ts (.error t)

/-- **Repetitions.** Each turn reads a token, so there are turns enough. -/
theorem exact_repeated {goesOn : List Token → Except Token Bool} {read : List Token → Reading}
    (hbody : body.nullable = false)
    (hgoes : ∀ us, us.length ≤ ts.length → Decides stop finish loop body c us (goesOn us))
    (hread : ∀ us, us.length ≤ ts.length → Exact stop finish [body] (loop :: c) us (read us))
    (hus : us.length ≤ ts.length) (hn : us.length < n) :
    Exact stop finish [loop] c us (Reader.repeated goesOn read n us) := by
  induction n generalizing us with
  | zero => exact absurd hn (Nat.not_lt_zero _)
  | succ n ih =>
    have hdecides := hgoes us hus
    rw [Reader.repeated]
    generalize goesOn us = decision at hdecides
    match decision with
    | .error t => exact hdecides
    | .ok false => exact hdecides
    | .ok true =>
      refine hdecides _ ((hread us hus).cons ?_)
      intro trees vs hok
      have hread := hread us hus
      rw [hok] at hread
      have hlt : vs.length < us.length := by
        rw [← Nat.not_le]
        intro hle
        have hnull := (derivesAll_singleton_iff.mp hread.derives).nullable hle
        rw [hbody] at hnull
        cases hnull
      exact ih (by omega) (by omega)

/-! ### Expressions -/

/-- A reader whose calls are exact, as long as there are few enough tokens ahead. -/
structure Capable (stop : Kind → Bool) (r : Reader) : Prop where
  finish_kind : r.finish.kind = .finish
  call : ∀ {rule : Rule} {ctx : Remainder} {ts : List Token}, Follows stop rule.follow ctx →
    4 * ts.length + rule.rank < r.turns →
    Exact stop r.finish [.call rule] ctx ts (r.call rule ts)

/-- The units that a place of a rule takes on top of those for the tokens ahead: fewer if no token
has been read. -/
def Rule.units (rule : Rule) (lead : Bool) : Nat := if lead then rule.rank else rule.rank + 4

theorem Rule.units_le (rule : Rule) (lead : Bool) : rule.units lead ≤ rule.rank + 4 := by
  cases lead
  · exact Nat.le_refl _
  · exact Nat.le_add_right _ _

theorem Rule.rank_le_units (rule : Rule) (lead : Bool) : rule.rank ≤ rule.units lead := by
  cases lead
  · exact Nat.le_add_right _ _
  · exact Nat.le_refl _

theorem Rule.rank_pos (rule : Rule) : 0 < rule.rank := by cases rule <;> decide

/-- There are more units than tokens ahead, so a repetition has turns enough. -/
theorem Rule.lt_of_units {lead : Bool} (h : 4 * n + rule.units lead ≤ budget) : n < budget := by
  have hpos := rule.rank_pos
  have hrank := rule.rank_le_units lead
  omega

/-- Reading an expression that is not empty pays for the place behind it. -/
theorem units_le_of_reads {lead : Bool}
    (h : Derives finish e ts trees us) (hb : 4 * ts.length + rule.units lead ≤ budget) :
    4 * us.length + rule.units (lead && e.nullable) ≤ budget := by
  have hle := h.length_le
  have hrank := rule.rank_le_units lead
  by_cases hnull : e.nullable = true
  · rw [hnull, Bool.and_true]
    omega
  · have hlt : us.length < ts.length := Nat.not_le.mp fun hge => hnull (h.nullable hge)
    have hunits := rule.units_le (lead && e.nullable)
    omega

section Expressions

variable {r : Reader} {rule : Rule}

/-- Whether to repeat a part that is told apart is decided by the next token. -/
theorem Apart.decides (h : Apart rule.follow body rest) (hctx : Follows stop rule.follow ctx) :
    Decides stop r.finish (.many body) body (rest ++ ctx) ts (.ok (r.startsHere body ts)) := by
  obtain ⟨ws, hws⟩ := r.append_finish ts
  cases hstarts : r.startsHere body ts with
  | true =>
    refine fun R hR => hR.of_takes offers_many ?_
    rw [hws]
    exact h.takes_body hctx hstarts [.many body]
  | false =>
    refine exact_nil.of_takes offers_many ?_
    rw [hws]
    exact h.takes_nil hstarts [.many body]

theorem Decided.decides (h : Decided rule.follow [.seq [body, .manyAhead body], .seq []] rest)
    (hctx : Follows stop rule.follow ctx) (hfinish : r.finish.kind = .finish) :
    Decides stop r.finish (.manyAhead body) body (rest ++ ctx) ts
      ((r.choose [.seq [body, .manyAhead body], .seq []] rest ts).map (· == 0)) := by
  cases hchoose : r.choose [.seq [body, .manyAhead body], .seq []] rest ts with
  | error t => exact Reader.choose_error offers_manyAhead h hctx hfinish hchoose
  | ok j =>
    obtain ⟨e, he, htakes⟩ := Reader.choose_ok h hctx hfinish hchoose
    match j with
    | 0 =>
      obtain rfl := Option.some.inj he
      exact fun R hR => (hR.of_takes offers_seq takes_single).of_takes offers_manyAhead htakes
    | 1 =>
      obtain rfl := Option.some.inj he
      exact (exact_nil.of_takes offers_seq takes_single).of_takes offers_manyAhead htakes
    | _ + 2 => cases he

mutual

/-- **Reading an expression is exact** at a place where everything is lawful. -/
theorem Expr.exact_read (hr : Capable stop r) (hctx : Follows stop rule.follow ctx) :
    ∀ (e : Expr) {rest : Remainder} {lead : Bool} {ts : List Token},
      (∀ s ∈ e.places rest lead, s.Lawful rule) → 4 * ts.length + rule.units lead ≤ r.turns →
      Exact stop r.finish [e] (rest ++ ctx) ts (e.read r rest ts)
  | .tok k, rest, lead, ts, hs, _ => by
    have hk : k ≠ .finish := hs _ List.mem_cons_self
    refine isToken_tok.exact r ?_
    rw [hr.finish_kind]
    exact beq_eq_false_iff_ne.mpr hk.symm
  | .oneOf kinds, rest, lead, ts, hs, _ => by
    have hk : .finish ∉ kinds := hs _ List.mem_cons_self
    refine isToken_oneOf.exact r ?_
    rw [hr.finish_kind]
    simpa using hk
  | .call rule', rest, lead, ts, hs, hb => by
    have ⟨hrank, hfollow⟩ : Place.Lawful rule ⟨.call rule', rest, lead⟩ := hs _ List.mem_cons_self
    -- The rank goes down, or a token has been read since the rule was begun.
    have hunits : rule'.rank < rule.units lead := hrank
    refine hr.call (fun t ts hv => hfollow _ (hv.opens (hctx t ts))) ?_
    omega
  | .seq parts, rest, lead, ts, hs, hb =>
    (exact_readSeq hr hctx parts hs hb).of_takes offers_seq takes_single
  | .choice alternatives, rest, lead, ts, hs, hb => by
    obtain ⟨hhere, hs⟩ := List.forall_mem_cons.mp hs
    have hd : Decided rule.follow alternatives rest := hhere
    have ho := offers_choice (List.isEmpty_eq_false_iff.mp hd.1)
    rw [Expr.read]
    cases hchoose : r.choose alternatives rest ts with
    | error t => exact Reader.choose_error ho hd hctx hr.finish_kind hchoose
    | ok j =>
      obtain ⟨e, he, htakes⟩ := Reader.choose_ok hd hctx hr.finish_kind hchoose
      exact (exact_readChoice hr hctx alternatives hs hb he).of_takes ho htakes
  | .opt body, rest, lead, ts, hs, hb => by
    obtain ⟨hhere, hs⟩ := List.forall_mem_cons.mp hs
    have ha : Apart rule.follow body rest := hhere
    obtain ⟨ws, hws⟩ := r.append_finish ts
    rw [Expr.read]
    split
    · next hstarts =>
        refine (body.exact_read hr hctx hs hb).of_takes offers_opt ?_
        rw [hws]
        exact ha.takes_body hctx hstarts []
    · next hstarts =>
        refine exact_nil.of_takes offers_opt ?_
        rw [hws]
        exact ha.takes_nil (Bool.eq_false_iff.mpr hstarts) []
  | .many body, rest, lead, ts, hs, hb => by
    obtain ⟨hhere, hs⟩ := List.forall_mem_cons.mp hs
    have ha : Apart rule.follow body rest := hhere
    exact exact_repeated ha.1 (fun us _ => ha.decides hctx)
      (fun us hus => body.exact_read hr hctx hs (by omega))
      (Nat.le_refl _) (Rule.lt_of_units hb)
  | .many1 body, rest, lead, ts, hs, hb => by
    obtain ⟨hhere, hs⟩ := List.forall_mem_cons.mp hs
    have ha : Apart rule.follow body rest := hhere
    have hbody : ∀ us : List Token, us.length ≤ ts.length →
        Exact stop r.finish [body] (.many body :: (rest ++ ctx)) us
          (body.read r (.many body :: rest) us) :=
      fun us hus => body.exact_read hr hctx hs (by omega)
    -- The first body is not decided about; behind it the repetition goes on as any other.
    refine Exact.of_takes offers_many1 takes_single
      ((hbody ts (Nat.le_refl _)).cons ?_)
    intro trees us hok
    have hfirst := hbody ts (Nat.le_refl _)
    rw [hok] at hfirst
    have hle := hfirst.derives.length_le
    exact exact_repeated ha.1 (fun us _ => ha.decides hctx) hbody hle
      (Nat.lt_of_le_of_lt hle (Rule.lt_of_units hb))
  | .manyAhead body, rest, lead, ts, hs, hb => by
    obtain ⟨⟨hbody, hd⟩, hs⟩ := List.forall_mem_cons.mp hs
    exact exact_repeated hbody (fun us _ => hd.decides hctx hr.finish_kind)
      (fun us hus => body.exact_read hr hctx hs (by omega))
      (Nat.le_refl _) (Rule.lt_of_units hb)

theorem exact_readSeq (hr : Capable stop r) (hctx : Follows stop rule.follow ctx) :
    ∀ (es : List Expr) {rest : Remainder} {lead : Bool} {ts : List Token},
      (∀ s ∈ placesOfSeq rest lead es, s.Lawful rule) → 4 * ts.length + rule.units lead ≤ r.turns →
      Exact stop r.finish es (rest ++ ctx) ts (readSeq r rest es ts)
  | [], _, _, _, _, _ => exact_nil
  | e :: es, rest, lead, ts, hs, hb => by
    obtain ⟨hfront, hs⟩ := List.forall_mem_append.mp hs
    have hfirst := e.exact_read hr hctx hfront hb
    rw [List.append_assoc] at hfirst
    refine hfirst.cons fun trees us hok => ?_
    rw [hok] at hfirst
    exact exact_readSeq hr hctx es hs
      (units_le_of_reads (derivesAll_singleton_iff.mp hfirst.derives) hb)

theorem exact_readChoice (hr : Capable stop r) (hctx : Follows stop rule.follow ctx) :
    ∀ (es : List Expr) {rest : Remainder} {lead : Bool} {ts : List Token},
      (∀ s ∈ placesOfChoice rest lead es, s.Lawful rule) →
      4 * ts.length + rule.units lead ≤ r.turns → ∀ {j : Nat} {e : Expr}, es[j]? = some e →
      Exact stop r.finish [e] (rest ++ ctx) ts (readChoice r rest es j ts)
  | [], _, _, _, _, _, _, _, he => nomatch he
  | e :: es, rest, lead, ts, hs, hb, 0, _, he => by
    obtain rfl := Option.some.inj he
    exact e.exact_read hr hctx (List.forall_mem_append.mp hs).1 hb
  | e :: es, rest, lead, ts, hs, hb, j + 1, _, he =>
    exact_readChoice hr hctx es (List.forall_mem_append.mp hs).2 hb he

end

end Expressions

/-! ### Rules -/

theorem Exact.call (h : Exact stop finish [rule.body] c ts R) :
    Exact stop finish [.call rule] c ts (do
      let (children, us) ← R
      return ([.node rule (posAhead finish ts) children], us)) := by
  have hviable : ∀ ws, Viable stop ([.call rule] ++ c) ws ↔ Viable stop ([rule.body] ++ c) ws :=
    fun ws => viable_call_iff
  cases R with
  | error t =>
    obtain ⟨us, vs, heq, hv, hnot⟩ := h
    exact ⟨us, vs, heq, (hviable us).mpr hv, fun hv => hnot ((hviable _).mp hv)⟩
  | ok result =>
    obtain ⟨children, us⟩ := result
    have h : ReadsTo stop finish [rule.body] c ts children us := h
    show ReadsTo stop finish [.call rule] c ts [.node rule (posAhead finish ts) children] us
    have hd := derivesAll_singleton_iff.mp h.derives
    refine ⟨derivesAll_singleton_iff.mpr (.call hd), fun ws hws => ?_, ?_⟩
    · rw [Tree.tokensOfAll_singleton, Tree.tokens, hviable]
      exact h.viable_iff ws hws
    · intro trees' us' hd' hv
      cases derivesAll_singleton_iff.mp hd' with
      | call hd' =>
        obtain ⟨rfl, rfl⟩ := h.unique (derivesAll_singleton_iff.mpr hd') hv
        exact ⟨rfl, rfl⟩

/-- **Reading a rule is exact**, with a budget for the tokens ahead and its rank. -/
theorem Rule.exact_read (hfinish : finish.kind = .finish)
    (hctx : Follows stop rule.follow ctx) (hn : 4 * ts.length + rule.rank < n) :
    Exact stop finish [.call rule] ctx ts (Rule.read finish n rule ts) := by
  induction n generalizing rule ctx ts with
  | zero => exact absurd hn (Nat.not_lt_zero _)
  | succ n ih =>
    have hcapable : Capable stop ⟨finish, n, Rule.read finish n⟩ := ⟨hfinish, ih⟩
    exact (Expr.exact_read hcapable hctx rule.body (lawful_of_mem_places rule)
      (Nat.lt_succ_iff.mp hn)).call

end EvScript
