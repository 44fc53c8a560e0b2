import EvScript.Proofs.Grammar.Reading

/-!
# Programs and Syntax Errors

A **sentence** is a row of tokens that the grammar describes as a program. Reading a script finds
its only derivation, up to a token with which no further entry can begin; and it fails at the first
token with which no sentence goes on. Both are `Rule.exact_read` for the rule of programs.

## Main results

* `read_accepts_exactly` — reading finds the only derivation there is.
* `syntax_error_located` — it fails at the first token that no sentence goes on with.
-/

namespace EvScript

variable {finish t : Token} {e : Expr} {ts us ws : List Token} {tree : Tree}

/-- The tokens are a program. -/
def Sentence (finish : Token) (ts : List Token) : Prop := Spans finish (.call .program) ts []

/-- The expression describes a row of tokens that begins with `t`. -/
def CanStart (finish : Token) (e : Expr) (t : Token) : Prop := ∃ ws, Spans finish e (t :: ws) []

/-- The tree is a derivation of a program, its leaves and the tokens `us` are the tokens `ts`, and
no entry can begin with what follows. -/
structure IsProgram (finish : Token) (ts : List Token) (tree : Tree) (us : List Token) : Prop where
  derives : Derives finish (.call .program) ts [tree] us
  tokens_append : tree.tokens ++ us = ts
  ends : ∀ t ∈ us.head?, ¬ CanStart finish (.call .entry) t

/-! ### Beginnings -/

theorem viable_nil_cons_iff {stop : Kind → Bool} :
    Viable stop [] (t :: ts) ↔ stop t.kind = true := by
  simp [Viable, Remainder.after, seqAfterWith]

/-- **The tokens with which an expression can begin** are those that looking ahead finds. -/
theorem canStart_iff (he : e.filled = true) : CanStart finish e t ↔ e.starts t.kind = true := by
  have hfilled : allFilled [e] = true := by rw [allFilled, he]; rfl
  have hstarts : e.starts t.kind = true ↔ Remainder.after t.kind [e] ≠ [] := by
    rw [Remainder.after_cons, Remainder.after, seqAfterWith]
    simp [Expr.starts]
  rw [hstarts]
  constructor
  · rintro ⟨ws, trees, hd⟩
    have hv : Viable (fun _ => false) [e] (t :: ws ++ []) := hd.viable viable_nil
    rcases hv with ⟨c, hc, -⟩ | ⟨-, hstop⟩
    · exact List.ne_nil_of_mem hc
    · cases hstop
  · intro hne
    obtain ⟨c, hc⟩ := List.exists_mem_of_ne_nil _ hne
    obtain ⟨ws, hws⟩ : ∃ ws, SpansAll finish c ws [] :=
      exists_spansAll (allFilled_of_mem_after hfilled hc)
    exact ⟨ws, (hws.of_mem_after hc).single⟩

theorem canStart_entry_iff :
    CanStart finish (.call .entry) t ↔ (Expr.call .entry).starts t.kind = true :=
  canStart_iff rfl

/-- Behind a program stands what begins no entry. -/
theorem program_follow_iff :
    Rule.program.follow t.kind = true ↔ ¬ CanStart finish (.call .entry) t := by
  rw [canStart_entry_iff, Bool.not_eq_true, Rule.follow, Bool.not_eq_true']

/-! ### Sentences -/

/-- A derivation of a program, without what it leaves, is one of a sentence. -/
theorem sentence_of_derives (h : Derives finish (.call .program) ts [tree] us) :
    Sentence finish tree.tokens := by
  simpa [Sentence] using h.spans_append []

/-- A sentence can be read in front of any tokens. -/
theorem Sentence.exists_derives (h : Sentence finish ts) (us : List Token) :
    ∃ tree, Derives finish (.call .program) (ts ++ us) [tree] us := by
  obtain ⟨trees, hd⟩ := h
  have htokens := hd.tokens_append
  obtain ⟨trees', hd'⟩ := hd.spans_append us
  rw [List.append_nil] at htokens
  rw [htokens] at hd'
  cases hd' with
  | call hbody => exact ⟨_, .call hbody⟩

/-- A sentence goes on with an entry. -/
theorem Sentence.append_entry (h : Sentence finish ts) (he : Spans finish (.call .entry) us []) :
    Sentence finish (ts ++ us) := by
  obtain ⟨tree, hd⟩ := h.exists_derives us
  cases hd with
  | call hbody =>
    cases hbody with
    | many1 hall =>
      -- The new entry goes behind the others.
      have hrow : SpansAll finish (List.replicate _ (.call .entry) ++ [.call .entry])
          (ts ++ us) [] :=
        spansAll_append_iff.mpr ⟨us, ⟨_, hall⟩,
          spansAll_cons_iff.mpr ⟨[], he, spansAll_nil_iff.mpr rfl⟩⟩
      rw [← List.replicate_succ'] at hrow
      obtain ⟨_, hrow⟩ := hrow
      exact ⟨_, .call (.many1 hrow)⟩

theorem Sentence.viable (h : Sentence finish ts) (hfinish : finish.kind = .finish) :
    Viable Rule.program.follow [.call .program] (ts ++ [finish]) := by
  obtain ⟨trees, hd⟩ := h
  refine hd.viable (viable_nil_cons_iff.mpr ?_)
  rw [hfinish]
  decide +kernel

/-! ### Reading programs -/

/-- Reading a program is exact. -/
theorem exact_program (hfinish : finish.kind = .finish) (ts : List Token) :
    Exact Rule.program.follow finish [.call .program] [] ts
      (Rule.read finish (readingBudget ts) .program ts) := by
  have hrank : Rule.program.rank < 40 := by decide
  refine Rule.exact_read hfinish (fun t ts hv => viable_nil_cons_iff.mp hv) ?_
  rw [readingBudget]
  omega

theorem isProgram_of_derives (h : Derives finish (.call .program) ts [tree] us)
    (hends : ∀ t ∈ us.head?, ¬ CanStart finish (.call .entry) t) :
    IsProgram finish ts tree us :=
  ⟨h, by simpa using h.tokens_append, hends⟩

theorem ReadsTo.ends (hfinish : finish.kind = .finish)
    (h : ReadsTo Rule.program.follow finish [.call .program] [] ts [tree] us) :
    ∀ t ∈ us.head?, ¬ CanStart finish (.call .entry) t := by
  rintro t ht ⟨ws, hspans⟩
  obtain ⟨us, rfl⟩ := List.head?_eq_some_iff.mp ht
  have hsentence := sentence_of_derives (derivesAll_singleton_iff.mp h.derives)
  -- With a further entry the program would go on, so the token is viable behind it.
  have hv : Viable Rule.program.follow [.call .program] (tree.tokens ++ [t]) := by
    refine ((hsentence.append_entry hspans).viable hfinish).of_isPrefix ⟨ws ++ [finish], ?_⟩
    simp
  have hviable := h.viable_iff [t] ⟨us ++ [finish], rfl⟩
  rw [Tree.tokensOfAll_singleton] at hviable
  have hfollow := viable_nil_cons_iff.mp (hviable.mp hv)
  exact program_follow_iff.mp hfollow ⟨ws, hspans⟩

/-- **Reading finds exactly the programs** at the beginning of the tokens. -/
theorem read_program_iff (hfinish : finish.kind = .finish) :
    Rule.read finish (readingBudget ts) .program ts = .ok ([tree], us) ↔
      IsProgram finish ts tree us := by
  have hexact := exact_program hfinish ts
  constructor
  · intro h
    rw [h] at hexact
    have hreads : ReadsTo Rule.program.follow finish [.call .program] [] ts [tree] us := hexact
    exact isProgram_of_derives (derivesAll_singleton_iff.mp hreads.derives) (hreads.ends hfinish)
  · intro h
    have hstop : Viable Rule.program.follow [] (us ++ [finish]) := by
      cases us with
      | nil =>
        rw [List.nil_append, viable_nil_cons_iff, hfinish]
        decide +kernel
      | cons t us => exact viable_nil_cons_iff.mpr (program_follow_iff.mpr (h.ends t rfl))
    cases hread : Rule.read finish (readingBudget ts) .program ts with
    | error t =>
      rw [hread] at hexact
      obtain ⟨vs, ws, heq, -, hnot⟩ := hexact
      refine absurd ((h.derives.viable hstop).of_isPrefix ⟨ws, ?_⟩) hnot
      rw [heq, List.append_assoc]
      rfl
    | ok result =>
      obtain ⟨trees, vs⟩ := result
      rw [hread] at hexact
      obtain ⟨rfl, rfl⟩ :=
        ReadsTo.unique hexact (derivesAll_singleton_iff.mpr h.derives) hstop
      rfl

theorem IsProgram.unique (hfinish : finish.kind = .finish) {tree' : Tree} {us' : List Token}
    (h : IsProgram finish ts tree us) (h' : IsProgram finish ts tree' us') :
    tree = tree' ∧ us = us' := by
  have hread := (read_program_iff hfinish).mpr h
  rw [(read_program_iff hfinish).mpr h'] at hread
  obtain ⟨htree, hus⟩ := Prod.mk.inj (Except.ok.inj hread)
  exact ⟨(List.cons.inj htree).1.symm, hus.symm⟩

/-- Reading a program yields one tree. -/
theorem exists_tree_of_read {trees : List Tree} (hfinish : finish.kind = .finish)
    (h : Rule.read finish (readingBudget ts) .program ts = .ok (trees, us)) :
    ∃ tree, trees = [tree] := by
  have hexact := exact_program hfinish ts
  rw [h] at hexact
  cases derivesAll_singleton_iff.mp hexact.derives with
  | call _ => exact ⟨_, rfl⟩

theorem readProgram_ok_iff {s : Script} (hfinish : s.finish.kind = .finish) {next : Token} :
    readProgram s = .ok ⟨tree, next⟩ ↔
      ∃ us, IsProgram s.finish s.tokens tree us ∧ next = us.headD s.finish := by
  simp only [← read_program_iff hfinish]
  rw [readProgram]
  cases hread : Rule.read s.finish (readingBudget s.tokens) .program s.tokens with
  | error t => simp [bind, Except.bind]
  | ok result =>
    obtain ⟨trees, us⟩ := result
    obtain ⟨tree', rfl⟩ := exists_tree_of_read hfinish hread
    constructor
    · intro h
      obtain ⟨rfl, rfl⟩ := Program.mk.inj (Except.ok.inj h)
      exact ⟨us, rfl, rfl⟩
    · rintro ⟨us', h, rfl⟩
      obtain ⟨htree, rfl⟩ := Prod.mk.inj (Except.ok.inj h)
      obtain ⟨rfl, -⟩ := List.cons.inj htree
      rfl

theorem readProgram_error_iff {s : Script} (hfinish : s.finish.kind = .finish) :
    readProgram s = .error t ↔
      Rule.read s.finish (readingBudget s.tokens) .program s.tokens = .error t := by
  rw [readProgram]
  cases hread : Rule.read s.finish (readingBudget s.tokens) .program s.tokens with
  | error t' =>
    constructor
    · intro h
      rw [Except.error.inj h]
    · intro h
      rw [Except.error.inj h]
      rfl
  | ok result =>
    obtain ⟨trees, us⟩ := result
    obtain ⟨tree', rfl⟩ := exists_tree_of_read hfinish hread
    constructor <;> intro h <;> cases h

/-- **Reading accepts exactly the grammar**, and the grammar is unambiguous: a tree and the tokens
behind it are the outcome of reading if and only if they are a program, and there is at most one
such pair. -/
theorem read_accepts_exactly (s : Script) (hfinish : s.finish.kind = .finish) (tree : Tree) :
    (∀ us, Rule.read s.finish (readingBudget s.tokens) .program s.tokens = .ok ([tree], us) ↔
      IsProgram s.finish s.tokens tree us) ∧
    (∀ next, readProgram s = .ok ⟨tree, next⟩ ↔
      ∃ us, IsProgram s.finish s.tokens tree us ∧ next = us.headD s.finish) ∧
    ∀ us tree' us', IsProgram s.finish s.tokens tree us → IsProgram s.finish s.tokens tree' us' →
      tree = tree' ∧ us = us' :=
  ⟨fun _ => read_program_iff hfinish, fun _ => readProgram_ok_iff hfinish,
    fun _ _ _ h h' => h.unique hfinish h'⟩

/-- A script in which a call is the left side of a comparison, with a mark behind its function. -/
def comparingScript : Script :=
  .ofText "int v:9;function f()\x7bif(c(1,2)==3)\x7bc(v);\x7delse\x7bc(1);\x7d\x7d;int w:8;"

set_option maxRecDepth 100000 in
/-- The comparison is read, and what stands behind the mark is left. -/
theorem comparingScript_read_exactly : comparingScript.finish.kind = .finish ∧ ∃ tree us,
    us.map (·.text) = [";", "int", "w", ":", "8", ";"] ∧
    Rule.read comparingScript.finish (readingBudget comparingScript.tokens) .program
      comparingScript.tokens = .ok ([tree], us) ∧
    IsProgram comparingScript.finish comparingScript.tokens tree us ∧
    ∀ tree' us', IsProgram comparingScript.finish comparingScript.tokens tree' us' →
      tree = tree' ∧ us = us' := by
  have hcheck : (Rule.read comparingScript.finish (readingBudget comparingScript.tokens)
      .program comparingScript.tokens).toOption.any (fun r => r.1.length == 1 &&
        r.2.map (·.text) == [";", "int", "w", ":", "8", ";"]) = true := by
    decide +kernel
  cases hread : Rule.read comparingScript.finish (readingBudget comparingScript.tokens)
      .program comparingScript.tokens with
  | error e =>
    rw [hread] at hcheck
    cases hcheck
  | ok r =>
    obtain ⟨trees, us⟩ := r
    rw [hread, Except.toOption, Option.any_some, Bool.and_eq_true, beq_iff_eq, beq_iff_eq] at hcheck
    obtain ⟨tree, rfl⟩ := List.length_eq_one_iff.mp hcheck.1
    obtain ⟨hiff, -, hunique⟩ := read_accepts_exactly comparingScript rfl tree
    have hprogram := (hiff us).mp hread
    exact ⟨rfl, tree, us, hcheck.2, rfl, hprogram, fun tree' us' =>
      hunique us tree' us' hprogram⟩

/-! ### Syntax errors -/

/-- **Syntax errors are located exactly.** The tokens in front of the one that is reported begin
some sentence, and with it they begin none, the end of the text counting as a token. -/
theorem syntax_error_located (s : Script) (hfinish : s.finish.kind = .finish) (t : Token)
    (h : readProgram s = .error t) :
    ∃ i, i ≤ s.tokens.length ∧ (s.tokens ++ [s.finish])[i]? = some t ∧
      (∃ u, Sentence s.finish u ∧ s.tokens.take i <+: u) ∧
      ∀ u, Sentence s.finish u → ¬ (s.tokens ++ [s.finish]).take (i + 1) <+: u ++ [s.finish] := by
  have hexact := exact_program hfinish s.tokens
  rw [(readProgram_error_iff hfinish).mp h] at hexact
  obtain ⟨us, vs, heq, hv, hnot⟩ := hexact
  have hlength : us.length ≤ s.tokens.length := by
    have := congrArg List.length heq
    simp only [List.length_append, List.length_cons, List.length_nil] at this
    omega
  have htake : s.tokens.take us.length = us := by
    rw [← List.take_append_of_le_length hlength, heq, List.take_left']
    rfl
  refine ⟨us.length, hlength, by simp [heq], ?_, fun u hu hbegins => hnot ?_⟩
  · have hspans : (∃ ws, SpansAll s.finish [.call .program] (us ++ ws) []) ∨
        ∀ ws, Viable Rule.program.follow [.call .program] (us ++ ws) := hv.exists_spans rfl
    rcases hspans with ⟨ws, hspans⟩ | hall
    · exact ⟨us ++ ws, hspans.single, by rw [htake]; exact List.prefix_append us ws⟩
    · exact absurd (hall [t]) hnot
  · rw [heq, List.take_length_add_append] at hbegins
    exact (hu.viable hfinish).of_isPrefix hbegins

/-- A script with a call in a condition and a number where only a comparison can go on. -/
def brokenScript : Script := .ofText "function f()\x7bif(c(1,2)3)\x7bc(1);\x7d\x7d"

set_option maxRecDepth 100000 in
/-- The choice of a condition looks past the whole call, and the number is reported. -/
theorem brokenScript_located : brokenScript.finish.kind = .finish ∧ ∃ t,
    readProgram brokenScript = .error t ∧ t.text = "3" ∧
    ∃ i, i ≤ brokenScript.tokens.length ∧
      (brokenScript.tokens ++ [brokenScript.finish])[i]? = some t ∧
      (∃ u, Sentence brokenScript.finish u ∧ brokenScript.tokens.take i <+: u) ∧
      ∀ u, Sentence brokenScript.finish u →
        ¬ (brokenScript.tokens ++ [brokenScript.finish]).take (i + 1) <+:
          u ++ [brokenScript.finish] := by
  have hcheck : (match readProgram brokenScript with
      | .error t => t.text == "3"
      | .ok _ => false) = true := by
    decide +kernel
  split at hcheck
  · next t hread =>
      exact ⟨rfl, t, hread, beq_iff_eq.mp hcheck, syntax_error_located brokenScript rfl t hread⟩
  · cases hcheck

end EvScript
