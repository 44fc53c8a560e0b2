import EvScript.Proofs.Grammar.Heeded

/-!
# Adding an Import to a Program

`import m;` goes between two entries of the program or of a namespace, in front of all of them or
behind them. Since the grammar is unambiguous, the program that is read has the entries of the old
one with the import added to them.
-/

namespace EvScript

open Phrase

variable {s s' : Script}

/-! ### Entries -/

/-- `Inserts e es es'`: the entries `es'` are `es` with `e` added, among them or in a namespace. -/
inductive Inserts (e : Entry) : List Entry → List Entry → Prop where
  | here {es : List Entry} : Inserts e es (e :: es)
  | later {d : Entry} {es es' : List Entry} : Inserts e es es' → Inserts e (d :: es) (d :: es')
  | inside {name : Option String} {es es' rest : List Entry} : Inserts e es es' →
      Inserts e (.space name es :: rest) (.space name es' :: rest)

theorem Inserts.append {e : Entry} {es es' : List Entry} (h : Inserts e es es')
    (ds : List Entry) : Inserts e (ds ++ es) (ds ++ es') := by
  induction ds with
  | nil => exact h
  | cons d ds ih => exact .later ih

/-! ### Rows of entries -/

variable {finish finish' : Token} {ts us vs ws : List Token} {ds es : List Entry}

/-- The meaning of trees that are read for a row of entries, without places. -/
def entriesOfTrees (trees : List Tree) : List Entry := entriesOf (phrasesOf (Tree.bareAll trees))

/-- The tokens are a row of entries, and these are `es` up to places. -/
def Spells (ts : List Token) (es : List Entry) : Prop :=
  ∃ finish n trees, DerivesAll finish (List.replicate n (.call .entry)) ts trees [] ∧
    entriesOfTrees trees = es

/-- The tokens are a row of entries. -/
def EntryRow (ts : List Token) : Prop := ∃ es, Spells ts es

theorem phrasesOf_append (as bs : List Tree) :
    phrasesOf (as ++ bs) = phrasesOf as ++ phrasesOf bs := by
  induction as with
  | nil => rfl
  | cons a as ih => rw [List.cons_append, phrasesOf, phrasesOf, ih, List.cons_append]

theorem entriesOfTrees_append (as bs : List Tree) :
    entriesOfTrees (as ++ bs) = entriesOfTrees as ++ entriesOfTrees bs := by
  rw [entriesOfTrees, Tree.bareAll_append, phrasesOf_append, entriesOf, List.filterMap_append]
  rfl

theorem DerivesAll.append {c d : List Expr} {as bs : List Tree}
    (h : DerivesAll finish c ts as us) (h' : DerivesAll finish d us bs vs) :
    DerivesAll finish (c ++ d) ts (as ++ bs) vs := by
  induction c generalizing ts as with
  | nil =>
    cases h
    exact h'
  | cons e c ih =>
    cases h with
    | cons hfirst hmore =>
      rw [List.append_assoc]
      exact .cons hfirst (ih hmore)

theorem derives_tok {t : Token} {kind : Kind} (h : t.kind = kind) :
    Derives finish (.tok kind) (t :: ts) [.leaf t] ts :=
  h ▸ .tok

namespace Spells

/-- A row of entries can be read from tokens of the same kinds and texts, in front of any others. -/
theorem derives (h : Spells ts es) (hws : ws.map Token.bare = ts.map Token.bare)
    (vs : List Token) (finish : Token) :
    ∃ n trees, DerivesAll finish (List.replicate n (.call .entry)) (ws ++ vs) trees vs ∧
      entriesOfTrees trees = es := by
  obtain ⟨_, n, trees, hd, rfl⟩ := h
  have htokens := hd.tokens_append
  rw [List.append_nil] at htokens
  rw [← htokens] at hws
  obtain ⟨trees', hd', hbare⟩ : ∃ trees', DerivesAll finish _ (ws ++ vs) trees' vs ∧ _ :=
    hd.relabel vs hws
  exact ⟨n, trees', hd', by rw [entriesOfTrees, hbare, entriesOfTrees]⟩

/-- Tokens that are there are at least one entry. -/
theorem derives_many1 (h : Spells ts es) (hts : ts ≠ [])
    (hws : ws.map Token.bare = ts.map Token.bare) (vs : List Token) (finish : Token) :
    ∃ trees, Derives finish (.many1 (.call .entry)) (ws ++ vs) trees vs ∧
      entriesOfTrees trees = es := by
  obtain ⟨n, trees, hd, hes⟩ := h.derives hws vs finish
  cases n with
  | zero =>
    have hnil : ws = [] := List.append_left_eq_self.mp (spansAll_nil_iff.mp ⟨_, hd⟩)
    rw [hnil, List.map_nil, eq_comm, List.map_eq_nil_iff] at hws
    exact absurd hws hts
  | succ n => exact ⟨trees, .many1 hd, hes⟩

theorem append (h : Spells us ds) (h' : Spells vs es) : Spells (us ++ vs) (ds ++ es) := by
  obtain ⟨finish, n', bs, hd', rfl⟩ := h'
  obtain ⟨n, as, hd, rfl⟩ := h.derives rfl vs finish
  refine ⟨finish, n + n', as ++ bs, ?_, entriesOfTrees_append as bs⟩
  rw [← List.replicate_append_replicate]
  exact hd.append hd'

/-- What is read for one entry. -/
theorem single {tree : Tree} {e : Entry} (h : Derives finish Rule.entry.body ts [tree] [])
    (he : tree.bare.phrase = .entry e) : Spells ts [e] := by
  refine ⟨finish, 1, _, derivesAll_singleton_iff.mpr (.call h), ?_⟩
  simp only [entriesOfTrees, Tree.bareAll, Tree.bare, phrasesOf, Tree.phrase, he, ofNode, entryOf,
    entriesOf, List.findSome?_cons, List.filterMap_cons, List.filterMap_nil, Option.getD_some]

/-- An import. -/
theorem importAll {k n c : Token} (hk : k.kind = .keyword .importKw) (hn : n.kind = .name)
    (hc : c.kind = .mark .semicolon) :
    Spells [k, n, c] [.importAll (some n.text) .start] := by
  have hd : Derives k (.call .importAll) [k, n, c] _ [] :=
    .call (.seq (.cons (derives_tok hk) (.cons (derives_tok hn) (.cons (derives_tok hc) .nil))))
  refine single (.choice ?_ hd) ?_
  · simp
  · simp [Tree.bare, Tree.bareAll, Tree.phrase, phrasesOf, ofNode, plainName?, word?, Token.bare,
      hk, hn]

/-- A namespace with entries in it. -/
theorem space {k n o c : Token} (hk : k.kind = .keyword .namespaceKw) (hn : n.kind = .name)
    (ho : o.kind = .mark .openBrace) (hc : c.kind = .mark .closeBrace) (h : Spells ts es)
    (hts : ts ≠ []) :
    Spells (k :: n :: o :: ts ++ [c]) [.space (some n.text) es] := by
  obtain ⟨trees, hentries, rfl⟩ := h.derives_many1 hts rfl [c] k
  have hd : Derives k (.call .namespaceBlock) (k :: n :: o :: ts ++ [c]) _ [] :=
    .call (.seq (.cons (derives_tok hk) (.cons (derives_tok hn) (.cons (derives_tok ho)
      (.cons hentries (.cons (derives_tok hc) .nil))))))
  refine single (.choice ?_ hd) ?_
  · simp
  · simp [Tree.bare, Tree.bareAll, Tree.bareAll_append, Tree.phrase, phrasesOf, phrasesOf_append,
      ofNode, plainName?, word?, Token.bare, entriesOfTrees, entriesOf, hk, hn]

end Spells

/-! ### Adding an import -/

/-- The tokens of `import m;`, without places. -/
def importTokens (m : String) : List Token :=
  [⟨.keyword .importKw, "import", .start, 0, 0⟩, ⟨.name, m, .start, 0, 0⟩,
    ⟨.mark .semicolon, ";", .start, 0, 0⟩]

/-- `AddsImport m ts ts'`: the tokens `ts` are a row of entries, and `ts'` are these tokens with
those of `import m;` between two entries of the row, at one of its ends, or in the same way in a
namespace of the row. -/
inductive AddsImport (m : String) : List Token → List Token → Prop where
  | here {us vs : List Token} : EntryRow us → EntryRow vs →
      AddsImport m (us ++ vs) (us ++ (importTokens m ++ vs))
  | inside {us vs ts ts' : List Token} {k n o c : Token} : EntryRow us → EntryRow vs →
      k.kind = .keyword .namespaceKw → n.kind = .name → o.kind = .mark .openBrace →
      c.kind = .mark .closeBrace → ts ≠ [] → AddsImport m ts ts' →
      AddsImport m (us ++ ((k :: n :: o :: ts ++ [c]) ++ vs))
        (us ++ ((k :: n :: o :: ts' ++ [c]) ++ vs))

namespace AddsImport

variable {m : String} {ts' : List Token}

theorem ne_nil (h : AddsImport m ts ts') : ts' ≠ [] := by
  cases h <;> simp [importTokens]

/-- **An import that is added to the tokens is added to the entries.** -/
theorem spells (h : AddsImport m ts ts') : ∃ es es', Spells ts es ∧ Spells ts' es' ∧
    Inserts (.importAll (some m) .start) es es' := by
  induction h with
  | here hus hvs =>
    obtain ⟨ds, hds⟩ := hus
    obtain ⟨es, hes⟩ := hvs
    have himport : Spells (importTokens m) [.importAll (some m) .start] :=
      .importAll rfl rfl rfl
    exact ⟨_, _, hds.append hes, hds.append (himport.append hes), Inserts.here.append ds⟩
  | inside hus hvs hk hn ho hc hts h ih =>
    obtain ⟨ds, hds⟩ := hus
    obtain ⟨fs, hfs⟩ := hvs
    obtain ⟨es, es', hes, hes', hinserts⟩ := ih
    exact ⟨_, _, hds.append ((hes.space hk hn ho hc hts).append hfs),
      hds.append ((hes'.space hk hn ho hc h.ne_nil).append hfs), hinserts.inside.append ds⟩

end AddsImport

/-! ### Programs -/

theorem Spells.isProgram (h : Spells ts es) (hts : ts ≠ [])
    (hws : ws.map Token.bare = ts.map Token.bare)
    (hends : ∀ t ∈ us.head?, ¬ CanStart finish (.call .entry) t) :
    ∃ tree, IsProgram finish (ws ++ us) tree us ∧ bareEntries tree.entries = es := by
  obtain ⟨trees, hd, rfl⟩ := h.derives_many1 hts hws us finish
  refine ⟨_, isProgram_of_derives (.call hd) hends, ?_⟩
  rw [← Tree.entries_bare]
  rfl

/-- A sentence is a row of entries. -/
theorem Sentence.entryRow (h : Sentence finish ts) : EntryRow ts := by
  obtain ⟨_, hd⟩ := h
  cases hd with
  | call hbody =>
    cases hbody with
    | many1 hall => exact ⟨_, finish, _, _, hall, rfl⟩

theorem Script.exists_isProgram (hfinish : s.finish.kind = .finish)
    (h : (Rule.read s.finish (readingBudget s.tokens) .program s.tokens).toOption.map (·.2) =
      some []) : ∃ tree, IsProgram s.finish s.tokens tree [] := by
  cases hread : Rule.read s.finish (readingBudget s.tokens) .program s.tokens with
  | error t =>
    rw [hread] at h
    cases h
  | ok result =>
    obtain ⟨trees, us⟩ := result
    rw [hread] at h
    obtain rfl : us = [] := Option.some.inj h
    obtain ⟨tree, rfl⟩ := exists_tree_of_read hfinish hread
    exact ⟨tree, (read_program_iff hfinish).mp hread⟩

/-- The tokens of a script that is read to its last token are a row of entries. -/
theorem Script.entryRow (hfinish : s.finish.kind = .finish)
    (h : (Rule.read s.finish (readingBudget s.tokens) .program s.tokens).toOption.map (·.2) =
      some []) : EntryRow (s.tokens.map Token.bare) := by
  obtain ⟨tree, hprogram⟩ := Script.exists_isProgram hfinish h
  have htokens := hprogram.tokens_append
  rw [List.append_nil] at htokens
  rw [← htokens]
  have hsentence : Sentence s.finish (tree.tokens.map Token.bare) :=
    (sentence_of_derives hprogram.derives).relabel (Token.map_bare_bare _)
  exact hsentence.entryRow

/-- A program has tokens. -/
theorem IsProgram.tokens_ne_nil {tree : Tree} (h : IsProgram finish ts tree us) :
    tree.tokens ≠ [] := by
  intro hnil
  have htokens := h.tokens_append
  rw [hnil, List.nil_append] at htokens
  have hnullable := h.derives.nullable (Nat.le_of_eq (congrArg List.length htokens).symm)
  revert hnullable
  decide

/-- The program of the script `s` is read, and `s'` is `s` with `import m;` added to it; what stands
behind the program is the same. -/
def Script.AddsImport (m : String) (s s' : Script) : Prop :=
  ∃ tree us ts, IsProgram s.finish s.tokens tree us ∧
    EvScript.AddsImport m (tree.tokens.map Token.bare) ts ∧
    s'.tokens.map Token.bare = ts ++ us.map Token.bare

/-- An import is added to a script that is a program to its last token. -/
theorem AddsImport.script {m : String} (hs : s.tokens ≠ [])
    (h : AddsImport m (s.tokens.map Token.bare) (s'.tokens.map Token.bare)) :
    s.AddsImport m s' := by
  obtain ⟨es, -, hes, -, -⟩ := h.spells
  obtain ⟨tree, hprogram, -⟩ : ∃ tree, IsProgram s.finish (s.tokens ++ []) tree [] ∧ _ :=
    hes.isProgram (mt List.map_eq_nil_iff.mp hs) (Token.map_bare_bare _).symm fun _ ht =>
      nomatch ht
  rw [List.append_nil] at hprogram
  have htokens := hprogram.tokens_append
  rw [List.append_nil] at htokens
  refine ⟨tree, [], s'.tokens.map Token.bare, hprogram, ?_, (List.append_nil _).symm⟩
  rwa [htokens]

/-- **Both scripts are read, and their entries differ by the import.** -/
theorem Script.AddsImport.readProgram {m : String} (h : s.AddsImport m s')
    (hfinish : s.finish.kind = .finish) (hfinish' : s'.finish.kind = .finish) :
    ∃ p p', EvScript.readProgram s = .ok p ∧ EvScript.readProgram s' = .ok p' ∧
      Inserts (.importAll (some m) .start) (bareEntries p.tree.entries)
        (bareEntries p'.tree.entries) := by
  obtain ⟨tree, us, ts, hprogram, hadds, htokens⟩ := h
  obtain ⟨es, es', hes, hes', hinserts⟩ := hadds.spells
  -- the old program
  obtain ⟨tree₀, hprogram₀, rfl⟩ := hes.isProgram (by simpa using hprogram.tokens_ne_nil)
    (Token.map_bare_bare _).symm hprogram.ends
  rw [hprogram.tokens_append] at hprogram₀
  obtain ⟨rfl, -⟩ := hprogram.unique hfinish hprogram₀
  -- the new one
  obtain ⟨front, us', hsplit, rfl, hus⟩ := List.map_eq_append_iff.mp htokens
  have hends : ∀ t ∈ us'.head?, ¬ CanStart s'.finish (.call .entry) t := by
    intro t ht
    have hhead : us.head?.map Token.bare = some t.bare := by
      rw [← List.head?_map, ← hus, List.head?_map, Option.mem_def.mp ht]
      rfl
    obtain ⟨u, hu, hbare⟩ := Option.map_eq_some_iff.mp hhead
    have hnot := hprogram.ends u hu
    rwa [canStart_entry_iff, (Token.bare_eq_iff.mp hbare).1, ← canStart_entry_iff] at hnot
  obtain ⟨tree', hprogram', rfl⟩ :=
    hes'.isProgram hadds.ne_nil (Token.map_bare_bare _).symm hends
  rw [← hsplit] at hprogram'
  exact ⟨_, _, (readProgram_ok_iff hfinish).mpr ⟨us, hprogram, rfl⟩,
    (readProgram_ok_iff hfinish').mpr ⟨us', hprogram', rfl⟩, hinserts⟩

end EvScript
