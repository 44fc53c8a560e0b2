import EvScript.Proofs.Grammar.Programs
import EvScript.Proofs.Syntax.Bare
import EvScript.Proofs.Token.Tiling

/-!
# The Tokens That Reading Heeds

Reading a script comes to an end at one token: the first one behind the program, or the one with
which no program goes on. What stands behind it is never looked at, and of the tokens in front only
kinds and texts matter: scripts that agree in these are read alike. A derivation can be moved to
such tokens, and since the grammar is unambiguous, the tree that is moved is the tree that is read.
-/

namespace EvScript

/-! ### The order of tokens -/

theorem Tiles.first_lt {a b : Nat} {ss : List Span} (h : Tiles a ss b) :
    ∀ s ∈ ss, a ≤ s.first ∧ s.first < b := by
  induction ss generalizing a with
  | nil => exact fun s hs => absurd hs List.not_mem_nil
  | cons s ss ih =>
    obtain ⟨rfl, hlt, hrest⟩ := h
    have hle := hrest.le
    refine List.forall_mem_cons.mpr ⟨by omega, fun s' hs' => ?_⟩
    have := ih hrest s' hs'
    omega

theorem Tiles.pairwise_first {a b : Nat} {ss : List Span} (h : Tiles a ss b) :
    ss.Pairwise (·.first < ·.first) := by
  induction ss generalizing a with
  | nil => exact .nil
  | cons s ss ih =>
    obtain ⟨rfl, hlt, hrest⟩ := h
    refine .cons (fun s' hs' => ?_) (ih hrest)
    have := hrest.first_lt s' hs'
    omega

namespace Script

theorem pairwise_offset (text : String) :
    ((ofText text).tokens ++ [(ofText text).finish]).Pairwise (·.offset < ·.offset) := by
  have hcut : Cut .start 0 text.toList (pieces text.toList) := cut_piecesFrom _ _ _
  have htiles := hcut.tiles
  rw [Nat.zero_add] at htiles
  refine List.pairwise_append.mpr ⟨?_, List.pairwise_singleton _ _, fun t ht u hu => ?_⟩
  · have hpieces := List.pairwise_map.mp htiles.pairwise_first
    refine List.Pairwise.filterMap _ (fun p q hlt t ht u hu => ?_) hpieces
    have htspan := (Piece.span_of_token? ht).1
    have huspan := (Piece.span_of_token? hu).1
    rw [← htspan, ← huspan] at hlt
    exact hlt
  · obtain ⟨p, hp, htoken⟩ := List.mem_filterMap.mp ht
    have hlt := (htiles.first_lt p.span (List.mem_map_of_mem hp)).2
    rw [← (Piece.span_of_token? htoken).1] at hlt
    rw [List.mem_singleton.mp hu]
    exact hlt

/-! ### The end of reading -/

/-- The token at which reading a script as a program comes to an end: the first one behind the
program, or the one with which no program goes on. -/
def halt (s : Script) : Token :=
  match readProgram s with
  | .ok p => p.next
  | .error t => t

/-- The tokens in front of the one at which reading comes to an end. -/
def heeded (s : Script) : List Token :=
  (s.tokens ++ [s.finish]).filter (·.offset < s.halt.offset)

theorem exists_eq_append_halt {s : Script} (hfinish : s.finish.kind = .finish) :
    ∃ us vs, s.tokens ++ [s.finish] = us ++ s.halt :: vs ∧
      (∀ p, readProgram s = .ok p → p.tree.tokens = us) ∧
      ∀ t, readProgram s = .error t →
        ¬ Viable Rule.program.follow [.call .program] (us ++ [t]) := by
  unfold halt
  cases hread : readProgram s with
  | error t =>
    have hexact := exact_program hfinish s.tokens
    rw [(readProgram_error_iff hfinish).mp hread] at hexact
    obtain ⟨us, vs, heq, -, hnot⟩ := hexact
    refine ⟨us, vs, heq, fun p hp => (nomatch hp), fun u hu => ?_⟩
    rw [← Except.error.inj hu]
    exact hnot
  | ok p =>
    obtain ⟨us, hprogram, hnext⟩ := (readProgram_ok_iff hfinish).mp hread
    refine ⟨p.tree.tokens, (us ++ [s.finish]).drop 1, ?_, fun q hq => by cases hq; rfl,
      fun t ht => (nomatch ht)⟩
    rw [← hprogram.tokens_append, List.append_assoc]
    show _ ++ (us ++ _) = _ ++ p.next :: _
    rw [hnext]
    cases us <;> rfl

/-- The tokens that are heeded are those in front of the end of reading. -/
theorem heeded_eq {text : String} {us vs : List Token}
    (h : (ofText text).tokens ++ [(ofText text).finish] = us ++ (ofText text).halt :: vs) :
    (ofText text).heeded = us := by
  have hsorted := pairwise_offset text
  rw [h, List.pairwise_append, List.pairwise_cons] at hsorted
  obtain ⟨-, ⟨hbehind, -⟩, hfront⟩ := hsorted
  rw [heeded, h, List.filter_append, List.filter_cons_of_neg (by simp),
    List.filter_eq_self.mpr, List.filter_eq_nil_iff.mpr, List.append_nil]
  · intro t ht
    simpa using Nat.le_of_lt (hbehind t ht)
  · intro t ht
    simpa using hfront t ht _ List.mem_cons_self

end Script

/-! ### Derivations and places -/

variable {finish finish' : Token}

theorem Tree.bareAll_append (as bs : List Tree) :
    Tree.bareAll (as ++ bs) = Tree.bareAll as ++ Tree.bareAll bs := by
  simp only [Tree.bareAll_eq_map, List.map_append]

mutual

/-- **A derivation depends on kinds and texts only**: it can be moved to other tokens that agree
with its own in these, whatever stands behind them. -/
theorem Derives.relabel : ∀ {e : Expr} {ts us : List Token} {trees : List Tree},
    Derives finish e ts trees us → ∀ {ws : List Token} (vs : List Token),
    ws.map Token.bare = (Tree.tokensOfAll trees).map Token.bare →
    ∃ trees', Derives finish' e (ws ++ vs) trees' vs ∧
      Tree.bareAll trees' = Tree.bareAll trees
  | _, _, _, _, .tok (t := t), ws, vs, hws => by
    obtain ⟨u, rfl, hu⟩ : ∃ u, ws = [u] ∧ u.bare = t.bare := by
      simpa [Tree.tokensOfAll, Tree.tokens, List.map_eq_cons_iff] using hws
    have hkind := (Token.bare_eq_iff.mp hu).1
    rw [← hkind]
    exact ⟨[.leaf u], .tok, by simp only [Tree.bareAll, Tree.bare, hu]⟩
  | _, _, _, _, .oneOf (t := t) hk, ws, vs, hws => by
    obtain ⟨u, rfl, hu⟩ : ∃ u, ws = [u] ∧ u.bare = t.bare := by
      simpa [Tree.tokensOfAll, Tree.tokens, List.map_eq_cons_iff] using hws
    have hkind := (Token.bare_eq_iff.mp hu).1
    exact ⟨[.leaf u], .oneOf (hkind ▸ hk), by simp only [Tree.bareAll, Tree.bare, hu]⟩
  | _, _, _, _, .call h, ws, vs, hws => by
    rw [Tree.tokensOfAll_singleton, Tree.tokens] at hws
    obtain ⟨trees', hd, hbare⟩ := h.relabel vs hws
    exact ⟨_, .call hd, by simp only [Tree.bareAll, Tree.bare, hbare]⟩
  | _, _, _, _, .seq h, _, vs, hws =>
    (h.relabel vs hws).imp fun _ => .imp_left .seq
  | _, _, _, _, .choice he h, _, vs, hws =>
    (h.relabel vs hws).imp fun _ => .imp_left (.choice he)
  | _, _, _, _, .optNone, ws, vs, hws => by
    obtain rfl : ws = [] := by simpa [Tree.tokensOfAll] using hws
    exact ⟨[], .optNone, rfl⟩
  | _, _, _, _, .optSome h, _, vs, hws =>
    (h.relabel vs hws).imp fun _ => .imp_left .optSome
  | _, _, _, _, .many h, _, vs, hws =>
    (h.relabel vs hws).imp fun _ => .imp_left .many
  | _, _, _, _, .many1 h, _, vs, hws =>
    (h.relabel vs hws).imp fun _ => .imp_left .many1
  | _, _, _, _, .manyAhead h, _, vs, hws =>
    (h.relabel vs hws).imp fun _ => .imp_left .manyAhead

theorem DerivesAll.relabel : ∀ {es : List Expr} {ts us : List Token} {trees : List Tree},
    DerivesAll finish es ts trees us → ∀ {ws : List Token} (vs : List Token),
    ws.map Token.bare = (Tree.tokensOfAll trees).map Token.bare →
    ∃ trees', DerivesAll finish' es (ws ++ vs) trees' vs ∧
      Tree.bareAll trees' = Tree.bareAll trees
  | _, _, _, _, .nil, ws, vs, hws => by
    obtain rfl : ws = [] := by simpa [Tree.tokensOfAll] using hws
    exact ⟨[], .nil, rfl⟩
  | _, _, _, _, .cons h hs, ws, vs, hws => by
    rw [Tree.tokensOfAll_append, List.map_append, List.map_eq_append_iff] at hws
    obtain ⟨front, back, rfl, hfront, hback⟩ := hws
    obtain ⟨more, hmore, hmoreBare⟩ := hs.relabel vs hback
    obtain ⟨first, hfirst, hfirstBare⟩ := h.relabel (back ++ vs) hfront
    refine ⟨first ++ more, ?_, ?_⟩
    · rw [List.append_assoc]
      exact .cons hfirst hmore
    · rw [Tree.bareAll_append, Tree.bareAll_append, hfirstBare, hmoreBare]

end

/-! ### Reading -/

/-- The tokens of a sentence may be replaced by others of the same kinds and texts. -/
theorem Sentence.relabel {ts ws : List Token} (h : Sentence finish ts)
    (hws : ws.map Token.bare = ts.map Token.bare) : Sentence finish' ws := by
  obtain ⟨trees, hd⟩ := h
  have htokens := hd.tokens_append
  rw [List.append_nil] at htokens
  rw [← htokens] at hws
  obtain ⟨trees', hd', -⟩ : ∃ trees', Derives finish' _ (ws ++ []) trees' [] ∧ _ :=
    hd.relabel [] hws
  rw [List.append_nil] at hd'
  exact ⟨trees', hd'⟩

/-- **Any token may stand behind a program**: it begins one more entry, or the program ends in front
of it. -/
theorem Sentence.viable_concat {ts : List Token} (h : Sentence finish ts)
    (hfinish : finish.kind = .finish) (t : Token) :
    Viable Rule.program.follow [.call .program] (ts ++ [t]) := by
  by_cases hstart : CanStart finish (.call .entry) t
  · obtain ⟨ws, hws⟩ := hstart
    have hviable := (h.append_entry hws).viable hfinish
    rw [List.append_assoc, List.cons_append, List.append_cons] at hviable
    exact hviable.of_append
  · obtain ⟨trees, hd⟩ := h
    exact hd.viable (viable_nil_cons_iff.mpr (program_follow_iff.mpr hstart))

/-- Programs that are read from tokens of the same kinds and texts differ in places only. -/
theorem bare_eq_of_readProgram {s s' : Script} (hfinish : s.finish.kind = .finish)
    (hfinish' : s'.finish.kind = .finish) {p p' : Program} (h : readProgram s = .ok p)
    (h' : readProgram s' = .ok p')
    (htokens : p'.tree.tokens.map Token.bare = p.tree.tokens.map Token.bare) :
    p'.tree.bare = p.tree.bare := by
  obtain ⟨us, hprogram, -⟩ := (readProgram_ok_iff hfinish).mp h
  obtain ⟨us', hprogram', -⟩ := (readProgram_ok_iff hfinish').mp h'
  obtain ⟨trees, hd, hbare⟩ : ∃ trees, Derives s'.finish (.call .program)
      (p'.tree.tokens ++ us') trees us' ∧ Tree.bareAll trees = Tree.bareAll [p.tree] :=
    hprogram.derives.relabel us' (by rwa [Tree.tokensOfAll_singleton])
  rw [hprogram'.tokens_append] at hd
  cases hd with
  | call hbody =>
    have hmoved := isProgram_of_derives (.call hbody) hprogram'.ends
    rw [(hprogram'.unique hfinish' hmoved).1]
    exact (List.cons.inj hbare).1

/-- **Reading depends on what it heeds only.** Two texts whose tokens in front of the end of reading
have the same kinds and texts are both read as programs, with trees that differ in places only, or
reading both fails. -/
theorem readProgram_of_heeded {text text' : String}
    (h : (Script.ofText text').heeded.map Token.bare =
      (Script.ofText text).heeded.map Token.bare) :
    (∃ p p', readProgram (.ofText text) = .ok p ∧ readProgram (.ofText text') = .ok p' ∧
      p'.tree.bare = p.tree.bare) ∨
    (readProgram (.ofText text) = .error (Script.ofText text).halt ∧
      readProgram (.ofText text') = .error (Script.ofText text').halt) := by
  obtain ⟨us, vs, heq, htree, hnot⟩ := Script.exists_eq_append_halt (s := .ofText text) rfl
  obtain ⟨us', vs', heq', htree', hnot'⟩ := Script.exists_eq_append_halt (s := .ofText text') rfl
  rw [Script.heeded_eq heq, Script.heeded_eq heq'] at h
  have hsentence : ∀ {s : Script} {p}, s.finish.kind = .finish → readProgram s = .ok p →
      Sentence s.finish p.tree.tokens := fun hfinish hread => by
    obtain ⟨_, hprogram, -⟩ := (readProgram_ok_iff hfinish).mp hread
    exact sentence_of_derives hprogram.derives
  -- A program in one text is one in the other, and reading does not fail behind it.
  cases hread : readProgram (.ofText text) with
  | ok p =>
    obtain rfl := htree p hread
    cases hread' : readProgram (.ofText text') with
    | ok p' =>
      rw [← htree' p' hread'] at h
      exact .inl ⟨p, p', rfl, rfl, bare_eq_of_readProgram rfl rfl hread hread' h⟩
    | error t' =>
      have hmoved : Sentence (Script.ofText text').finish us' :=
        (hsentence rfl hread).relabel h
      exact absurd (hmoved.viable_concat rfl t') (hnot' t' hread')
  | error t =>
    cases hread' : readProgram (.ofText text') with
    | ok p' =>
      obtain rfl := htree' p' hread'
      have hmoved : Sentence (Script.ofText text).finish us :=
        (hsentence rfl hread').relabel h.symm
      exact absurd (hmoved.viable_concat rfl t) (hnot t hread)
    | error t' =>
      rw [Script.halt, Script.halt, hread, hread']
      exact .inr ⟨rfl, rfl⟩

end EvScript
