import EvScript.Proofs.Grammar.Viable

/-!
# Looking Ahead Is Right

A choice follows all its alternatives at once, and is settled at the first token that leaves only
one of them, or none. For a choice that is `Decided`, the alternative that is taken can read all
that any alternative can read of the tokens ahead. If none is taken, the token at which the choice
is stuck is the first that no alternative can read. The argument goes through the states of the
choice, from the last one back.
-/

namespace EvScript

variable {stop follow : Kind → Bool} {ctx rest : Remainder} {threads : List Thread}
  {S : List (List Thread)} {i j : Nat} {finish t : Token} {ts us ws : List Token}
  {alternatives : List Expr}

/-- Behind the rule comes `ctx`, and the tokens that this can begin with are those that `follow`
admits. -/
def Follows (stop follow : Kind → Bool) (ctx : Remainder) : Prop :=
  ∀ t ts, Viable stop ctx (t :: ts) → follow t.kind = true

/-- Some thread of the alternative `i` can read the tokens `ts`. -/
def Carries (stop : Kind → Bool) (ctx : Remainder) (threads : List Thread) (i : Nat)
    (ts : List Token) : Prop :=
  ∃ th ∈ threads, th.alternative = i ∧ Viable stop (th.remainder ++ ctx) ts

/-- A thread reads a token inside the rule, or it has come to the end of the rule. -/
theorem carries_cons_iff : Carries stop ctx threads i (t :: ts) ↔
    Carries stop ctx (advance t.kind threads) i ts ∨
      ∃ th ∈ threads, th.alternative = i ∧ th.remainder.nullable = true ∧
        Viable stop ctx (t :: ts) := by
  have hadvance : ∀ th, th ∈ advance t.kind threads ↔ ∃ th₀ ∈ threads,
      th.remainder ∈ th₀.remainder.after t.kind ∧ th.alternative = th₀.alternative := by
    intro th
    simp only [advance, List.mem_flatMap, Thread.after, List.mem_map]
    refine exists_congr fun th₀ => and_congr_right fun _ => ?_
    constructor
    · rintro ⟨c, hc, rfl⟩
      exact ⟨hc, rfl⟩
    · rintro ⟨hc, halt⟩
      exact ⟨_, hc, by rw [← halt]⟩
  constructor
  · rintro ⟨th, hth, halt, h⟩
    rcases viable_append_cons_iff.mp h with ⟨c, hc, h⟩ | ⟨hnull, h⟩
    · exact .inl ⟨⟨th.alternative, c⟩, (hadvance _).mpr ⟨th, hth, hc, rfl⟩, halt, h⟩
    · exact .inr ⟨th, hth, halt, hnull, h⟩
  · rintro (⟨th, hth, halt, h⟩ | ⟨th, hth, halt, hnull, h⟩)
    · obtain ⟨th₀, hth₀, hc, halt₀⟩ := (hadvance th).mp hth
      exact ⟨th₀, hth₀, halt₀ ▸ halt, viable_append_cons_iff.mpr (.inl ⟨_, hc, h⟩)⟩
    · exact ⟨th, hth, halt, viable_append_cons_iff.mpr (.inr ⟨hnull, h⟩)⟩

/-- Of the tokens `ts`, the alternative `j` can read all that any alternative can read, and it is
the only one that can read all of them. -/
structure Settles (stop : Kind → Bool) (ctx : Remainder) (threads : List Thread) (ts : List Token)
    (j : Nat) : Prop where
  present : ∃ th ∈ threads, th.alternative = j
  carries : ∀ ws, ws <+: ts → ∀ i, Carries stop ctx threads i ws → Carries stop ctx threads j ws
  unique : ∀ i, Carries stop ctx threads i ts → i = j

/-- Some alternative can read the tokens `us`, but none can read a further `t`. -/
def Stuck (stop : Kind → Bool) (ctx : Remainder) (threads : List Thread) (us : List Token)
    (t : Token) : Prop :=
  (∃ i, Carries stop ctx threads i us) ∧ ∀ i, ¬ Carries stop ctx threads i (us ++ [t])

theorem carries_nil_iff : Carries stop ctx threads i [] ↔ ∃ th ∈ threads, th.alternative = i := by
  simp [Carries, viable_nil]

/-! ### One token -/

/-- While some thread goes on, none comes to the end of the rule in front of what follows it. -/
theorem Unmistaken.carries_cons_iff (hU : Unmistaken follow threads)
    (hctx : Follows stop follow ctx) (hnext : advance t.kind threads ≠ []) :
    Carries stop ctx threads i (t :: ts) ↔ Carries stop ctx (advance t.kind threads) i ts := by
  rw [EvScript.carries_cons_iff, or_iff_left]
  rintro ⟨th, hth, -, hnull, h⟩
  rcases hU.2.1 t.kind (hctx t ts h) with hempty | hall
  · exact hnext (List.isEmpty_iff.mp hempty)
  · have := List.all_eq_true.mp hall th hth
    rw [hnull] at this
    cases this

theorem carries_cons_iff_of_nil (hnext : advance t.kind threads = []) :
    Carries stop ctx threads i (t :: ts) ↔
      ∃ th ∈ threads, th.alternative = i ∧ th.remainder.nullable = true ∧
        Viable stop ctx (t :: ts) := by
  rw [carries_cons_iff, hnext]
  simp [Carries]

theorem alternative_eq_of_settled {th th' : Thread} (h : settled threads = true)
    (hth : th ∈ threads) (hth' : th' ∈ threads) : th.alternative = th'.alternative := by
  cases threads with
  | nil => cases hth
  | cons th₀ ths =>
    have hfirst : ∀ th ∈ th₀ :: ths, th.alternative = th₀.alternative := by
      intro th hth
      rcases List.mem_cons.mp hth with rfl | hth
      · rfl
      · exact beq_iff_eq.mp (List.all_eq_true.mp h th hth)
    rw [hfirst th hth, hfirst th' hth']

theorem settles_of_settled {th : Thread} (h : settled threads = true) (hth : th ∈ threads) :
    Settles stop ctx threads ts th.alternative := by
  have hunique : ∀ ws i, Carries stop ctx threads i ws → i = th.alternative :=
    fun ws i ⟨th', hth', halt, _⟩ => halt ▸ alternative_eq_of_settled h hth' hth
  exact ⟨⟨th, hth, rfl⟩, fun ws _ i hi => hunique ws i hi ▸ hi, hunique ts⟩

theorem Settles.cons (hU : Unmistaken follow threads) (hctx : Follows stop follow ctx)
    (hnext : advance t.kind threads ≠ [])
    (h : Settles stop ctx (advance t.kind threads) ts j) :
    Settles stop ctx threads (t :: ts) j := by
  have hpresent : ∃ th ∈ threads, th.alternative = j := by
    have hj := (hU.carries_cons_iff hctx hnext).mpr (carries_nil_iff.mpr h.present)
    exact hj.imp fun th hth => ⟨hth.1, hth.2.1⟩
  refine ⟨hpresent, fun ws hws i hi => ?_,
    fun i hi => h.unique i ((hU.carries_cons_iff hctx hnext).mp hi)⟩
  cases ws with
  | nil => exact carries_nil_iff.mpr hpresent
  | cons t' ws =>
    obtain ⟨rfl, htail⟩ := List.cons_prefix_cons.mp hws
    rw [hU.carries_cons_iff hctx hnext] at hi ⊢
    exact h.carries ws htail i hi

/-- If no thread goes on, the first that is at the end of the rule is right. -/
theorem settles_of_nil {th : Thread} (hU : Unmistaken follow threads)
    (hnext : advance t.kind threads = [])
    (hfind : threads.find? (·.remainder.nullable) = some th) :
    Settles stop ctx threads (t :: ts) th.alternative := by
  have hth := List.mem_of_find?_eq_some hfind
  have hnull := List.find?_some hfind
  have hunique : ∀ ws i, Carries stop ctx threads i (t :: ws) → i = th.alternative := by
    intro ws i hi
    obtain ⟨th', hth', rfl, hnull', -⟩ := (carries_cons_iff_of_nil hnext).mp hi
    exact alternative_eq_of_settled hU.2.2 (List.mem_filter.mpr ⟨hth', hnull'⟩)
      (List.mem_filter.mpr ⟨hth, hnull⟩)
  refine ⟨⟨th, hth, rfl⟩, fun ws hws i hi => ?_, hunique ts⟩
  cases ws with
  | nil => exact carries_nil_iff.mpr ⟨th, hth, rfl⟩
  | cons t' ws =>
    obtain ⟨rfl, hws⟩ := List.cons_prefix_cons.mp hws
    exact hunique ws i hi ▸ hi

/-- If no thread goes on and none is at the end of the rule, the choice is stuck. -/
theorem stuck_of_nil (hne : threads ≠ []) (hnext : advance t.kind threads = [])
    (hfind : threads.find? (·.remainder.nullable) = none) : Stuck stop ctx threads [] t := by
  obtain ⟨th, ths, rfl⟩ := List.exists_cons_of_ne_nil hne
  refine ⟨⟨_, carries_nil_iff.mpr ⟨th, List.mem_cons_self, rfl⟩⟩, fun i hi => ?_⟩
  obtain ⟨th', hth', -, hnull, -⟩ := (carries_cons_iff_of_nil hnext).mp hi
  exact List.find?_eq_none.mp hfind th' hth' hnull

theorem Stuck.cons {t' : Token} (hU : Unmistaken follow threads) (hctx : Follows stop follow ctx)
    (hnext : advance t.kind threads ≠ []) (h : Stuck stop ctx (advance t.kind threads) us t') :
    Stuck stop ctx threads (t :: us) t' :=
  ⟨h.1.imp fun _ hi => (hU.carries_cons_iff hctx hnext).mpr hi,
    fun i hi => h.2 i ((hU.carries_cons_iff hctx hnext).mp hi)⟩

/-! ### All tokens -/

theorem predictFrom_cons (looked : Nat) : predictFrom threads looked (t :: ts) =
    match advance t.kind threads with
    | [] => predictFrom.ended threads looked
    | th :: ths => if settled (th :: ths) then ⟨some th.alternative, looked + 1⟩
        else predictFrom (th :: ths) (looked + 1) ts := rfl

theorem Sealed.advance_finish (hS : Sealed follow S) (hfinish : finish.kind = .finish)
    (hmem : threads ∈ S) : advance finish.kind threads = [] := by
  rw [hfinish]
  exact List.isEmpty_iff.mp (hS threads hmem).1.1

theorem Sealed.mem_of_not_settled (hS : Sealed follow S) {k : Kind} (hmem : threads ∈ S)
    (h : settled (advance k threads) = false) : advance k threads ∈ S := by
  rcases (hS threads hmem).2 k with hsettled | ⟨s, hs, hsame⟩
  · rw [h] at hsettled
    cases hsettled
  · exact eq_of_sameThreads hsame ▸ hs

/-- **The alternative that is predicted is right.** -/
theorem predictFrom_settles (hS : Sealed follow S) (hctx : Follows stop follow ctx)
    (hfinish : finish.kind = .finish) (hmem : threads ∈ S) {looked : Nat}
    (h : (predictFrom threads looked ts).alternative = some j) :
    Settles stop ctx threads (ts ++ [finish]) j := by
  have hended : ∀ {t ws} {threads : List Thread} {looked : Nat}, threads ∈ S →
      advance t.kind threads = [] → (predictFrom.ended threads looked).alternative = some j →
      Settles stop ctx threads (t :: ws) j := by
    intro t ws threads looked hmem hnext h
    obtain ⟨th, hfind, rfl⟩ := Option.map_eq_some_iff.mp h
    exact settles_of_nil (hS threads hmem).1 hnext hfind
  induction ts generalizing threads looked with
  | nil => exact hended hmem (hS.advance_finish hfinish hmem) h
  | cons t ts ih =>
    rw [predictFrom_cons] at h
    cases hnext : advance t.kind threads with
    | nil =>
      rw [hnext] at h
      exact hended hmem hnext h
    | cons th ths =>
      refine Settles.cons (hS threads hmem).1 hctx (by simp [hnext]) ?_
      rw [hnext] at h ⊢
      dsimp only at h
      split at h
      · next hsettled =>
          obtain rfl := Option.some.inj h
          exact settles_of_settled hsettled List.mem_cons_self
      · next hsettled =>
          refine ih (hnext ▸ hS.mem_of_not_settled hmem ?_) h
          rw [hnext]
          simpa using hsettled

/-- **A stuck prediction is stuck at the right token.** -/
theorem predictFrom_stuck (hS : Sealed follow S) (hctx : Follows stop follow ctx)
    (hfinish : finish.kind = .finish) (hmem : threads ∈ S) (hne : threads ≠ []) {looked : Nat}
    (h : (predictFrom threads looked ts).alternative = none) :
    ∃ us t ws, ts ++ [finish] = us ++ t :: ws ∧ Stuck stop ctx threads us t ∧
      (predictFrom threads looked ts).looked = looked + us.length + 1 := by
  induction ts generalizing threads looked with
  | nil =>
    exact ⟨[], finish, [], rfl,
      stuck_of_nil hne (hS.advance_finish hfinish hmem) (Option.map_eq_none_iff.mp h), rfl⟩
  | cons t ts ih =>
    rw [predictFrom_cons] at h ⊢
    cases hnext : advance t.kind threads with
    | nil =>
      rw [hnext] at h
      exact ⟨[], t, ts ++ [finish], rfl, stuck_of_nil hne hnext (Option.map_eq_none_iff.mp h),
        rfl⟩
    | cons th ths =>
      rw [hnext] at h
      dsimp only at h ⊢
      split at h
      · cases h
      · next hsettled =>
          have hgo : advance t.kind threads ≠ [] := by simp [hnext]
          have hin : advance t.kind threads ∈ S :=
            hS.mem_of_not_settled hmem (by rw [hnext]; simpa using hsettled)
          rw [← hnext] at h
          obtain ⟨us, t', ws, heq, hstuck, hlooked⟩ := ih hin hgo h
          refine ⟨t :: us, t', ws, by rw [List.cons_append, heq]; rfl,
            hstuck.cons (hS threads hmem).1 hctx hgo, ?_⟩
          rw [if_neg hsettled, ← hnext, hlooked, List.length_cons]
          omega

/-! ### Rows to choose from -/

/-- Of the tokens `ts`, the row can read all that any of the rows can read, each with `c` behind
it, and it is the only one that can read all of them. -/
structure Takes (stop : Kind → Bool) (c : Remainder) (rows : List Remainder) (ts : List Token)
    (row : Remainder) : Prop where
  mem : row ∈ rows
  viable : ∀ ws, ws <+: ts → ∀ row' ∈ rows, Viable stop (row' ++ c) ws → Viable stop (row ++ c) ws
  unique : ∀ row' ∈ rows, Viable stop (row' ++ c) ts → row' = row

/-- None of the rows can read the token `t` behind `us`, but some can read `us`. -/
structure NoneTakes (stop : Kind → Bool) (c : Remainder) (rows : List Remainder) (us : List Token)
    (t : Token) : Prop where
  viable : ∃ row ∈ rows, Viable stop (row ++ c) us
  not_viable : ∀ row ∈ rows, ¬ Viable stop (row ++ c) (us ++ [t])

theorem carries_startThreads_iff : Carries stop ctx (startThreads alternatives rest) i ts ↔
    ∃ e, alternatives[i]? = some e ∧ Viable stop ([e] ++ (rest ++ ctx)) ts := by
  simp only [Carries, startThreads, List.mem_mapIdx, List.getElem?_eq_some_iff]
  constructor
  · rintro ⟨_, ⟨i', hi, rfl⟩, rfl, h⟩
    exact ⟨_, ⟨hi, rfl⟩, h⟩
  · rintro ⟨_, ⟨hi, rfl⟩, h⟩
    exact ⟨_, ⟨i, hi, rfl⟩, rfl, h⟩

theorem takes_of_head {c row : Remainder} {rows : List Remainder} (hmem : row ∈ rows)
    (h : ∀ row' ∈ rows, ∀ ws, Viable stop (row' ++ c) (t :: ws) → row' = row) :
    Takes stop c rows (t :: ts) row := by
  refine ⟨hmem, fun ws hws row' hrow' hv => ?_, fun row' hrow' => h row' hrow' ts⟩
  cases ws with
  | nil => exact viable_nil
  | cons t' ws =>
    obtain ⟨rfl, -⟩ := List.cons_prefix_cons.mp hws
    exact h row' hrow' ws hv ▸ hv

/-- A part that is told apart is taken if it can start with the next token. -/
theorem Apart.takes_body {e : Expr} (h : Apart follow e rest) (hctx : Follows stop follow ctx)
    (hstarts : e.starts t.kind = true) (loop : Remainder) :
    Takes stop (rest ++ ctx) [e :: loop, []] (t :: ts) (e :: loop) := by
  refine takes_of_head List.mem_cons_self fun row' hrow' ws hv => ?_
  simp only [List.mem_cons, List.not_mem_nil, or_false] at hrow'
  rcases hrow' with rfl | rfl
  · rfl
  · have hopens := Viable.opens (c := rest) hv (hctx t ws)
    rw [h.2 t.kind hstarts] at hopens
    cases hopens

theorem Apart.takes_nil {e : Expr} (h : Apart follow e rest) (hstarts : e.starts t.kind = false)
    (loop : Remainder) : Takes stop (rest ++ ctx) [e :: loop, []] (t :: ts) [] := by
  refine takes_of_head (by simp) fun row' hrow' ws hv => ?_
  simp only [List.mem_cons, List.not_mem_nil, or_false] at hrow'
  rcases hrow' with rfl | rfl
  · have := Viable.starts hv h.1
    rw [hstarts] at this
    cases this
  · rfl

theorem Decided.startThreads_mem (h : Decided follow alternatives rest) :
    startThreads alternatives rest ∈ states alternatives rest :=
  h.2.1.elim fun _ ⟨hs, hsame⟩ => eq_of_sameThreads hsame ▸ hs

/-- **The alternative that a choice takes is right.** -/
theorem Decided.takes (h : Decided follow alternatives rest) (hctx : Follows stop follow ctx)
    (hfinish : finish.kind = .finish)
    (hpredict : (predict alternatives rest ts).alternative = some j) :
    ∃ e, alternatives[j]? = some e ∧
      Takes stop (rest ++ ctx) (alternatives.map ([·])) (ts ++ [finish]) [e] := by
  have hsettles := predictFrom_settles h.2.2 hctx hfinish h.startThreads_mem hpredict
  have hpresent : Carries stop ctx (startThreads alternatives rest) j [] :=
    carries_nil_iff.mpr hsettles.present
  obtain ⟨e, he, -⟩ := carries_startThreads_iff.mp hpresent
  refine ⟨e, he, List.mem_map_of_mem (List.mem_of_getElem? he), fun ws hws row' hrow' hv => ?_,
    fun row' hrow' hv => ?_⟩
  all_goals
    obtain ⟨e', he', rfl⟩ := List.mem_map.mp hrow'
    obtain ⟨i, hi⟩ := List.mem_iff_getElem?.mp he'
    have hcarried := carries_startThreads_iff.mpr ⟨e', hi, hv⟩
  · obtain ⟨e'', he'', hv⟩ := carries_startThreads_iff.mp (hsettles.carries ws hws i hcarried)
    rw [he] at he''
    exact Option.some.inj he'' ▸ hv
  · rw [hsettles.unique i hcarried, he] at hi
    rw [Option.some.inj hi]

/-- **A stuck choice is stuck at the right token.** -/
theorem Decided.noneTakes (h : Decided follow alternatives rest) (hctx : Follows stop follow ctx)
    (hfinish : finish.kind = .finish)
    (hpredict : (predict alternatives rest ts).alternative = none) :
    ∃ us t ws, ts ++ [finish] = us ++ t :: ws ∧
      (predict alternatives rest ts).looked = us.length + 1 ∧
      NoneTakes stop (rest ++ ctx) (alternatives.map ([·])) us t := by
  have hne : startThreads alternatives rest ≠ [] := by
    rw [startThreads, Ne, List.mapIdx_eq_nil_iff]
    exact List.isEmpty_eq_false_iff.mp h.1
  obtain ⟨us, t, ws, heq, ⟨⟨i, hi⟩, hnone⟩, hlooked⟩ :=
    predictFrom_stuck h.2.2 hctx hfinish h.startThreads_mem hne hpredict
  refine ⟨us, t, ws, heq, by rw [predict, ← startThreads, hlooked]; omega, ?_, ?_⟩
  · obtain ⟨e, he, hv⟩ := carries_startThreads_iff.mp hi
    exact ⟨[e], List.mem_map_of_mem (List.mem_of_getElem? he), hv⟩
  · rintro row hrow hv
    obtain ⟨e, he, rfl⟩ := List.mem_map.mp hrow
    obtain ⟨i, hi⟩ := List.mem_iff_getElem?.mp he
    exact hnone i (carries_startThreads_iff.mpr ⟨e, hi, hv⟩)

end EvScript
