import EvScript.Proofs.Grammar.Shapes
import EvScript.Proofs.Token.Munch

/-!
# The Words of Trees

However a script is read, the leaves of its tree are tokens of the script or placeholders for tokens
that should have been there. So a leaf has a text that the vocabulary has under its kind, or the
placeholder of the kind. With repair this is an invariant of the reader.
-/

namespace EvScript

variable {text : String}

/-! ### Words -/

/-- The kind and text of a token. -/
def Token.word (t : Token) : Kind × String := (t.kind, t.text)

mutual

/-- The kinds and texts of the leaves of a tree, from left to right. -/
def Tree.words : Tree → List (Kind × String)
  | .leaf t => [t.word]
  | .skipped t => [t.word]
  | .missing k _ => [(k, k.placeholder)]
  | .node _ _ children => wordsOfAll children

/-- The kinds and texts of the leaves of several trees. -/
def wordsOfAll : List Tree → List (Kind × String)
  | [] => []
  | t :: ts => t.words ++ wordsOfAll ts

end

theorem wordsOfAll_eq (ts : List Tree) : wordsOfAll ts = ts.flatMap Tree.words := by
  induction ts with
  | nil => rfl
  | cons t ts ih => rw [wordsOfAll, ih, List.flatMap_cons]

theorem mem_wordsOfAll {ts : List Tree} {w : Kind × String} :
    w ∈ wordsOfAll ts ↔ ∃ t ∈ ts, w ∈ t.words := by
  rw [wordsOfAll_eq, List.mem_flatMap]

/-- The text is one of the kind in the vocabulary, or the placeholder of the kind; the token at the
end of a text has no text of its own. -/
def Spelt (w : Kind × String) : Prop :=
  w.2 = w.1.placeholder ∨ w.1 = .finish ∨ Names vocabulary w.2.toList (.token w.1)

theorem Cut.names {pos : Pos} {offset : Nat} {cs : List Char} {ps : List Piece}
    (h : Cut pos offset cs ps) {p : Piece} (hp : p ∈ ps) {cls : LexClass}
    (hform : p.form = .taken cls) : Names vocabulary p.text cls := by
  induction h with
  | done => cases hp
  | piece _ hf _ ih =>
    rcases List.mem_cons.mp hp with rfl | hp
    · obtain rfl := hform
      exact hf.2.2.1
    · exact ih hp

/-- **Tokens have texts of their kinds.** -/
theorem names_of_mem_tokens {t : Token} (h : t ∈ (Script.ofText text).tokens) :
    Names vocabulary t.text.toList (.token t.kind) := by
  obtain ⟨p, hp, ht⟩ := List.mem_filterMap.mp h
  rw [Piece.token?] at ht
  split at ht
  · rename_i kind hform
    cases ht
    rw [String.toList_ofList]
    exact (cut_piecesFrom _ _ _).names hp hform
  · cases ht

theorem spelt_word {t : Token} (h : t ∈ (Script.ofText text).tokens) : Spelt t.word :=
  .inr (.inr (names_of_mem_tokens h))

/-! ### Trees that are read without repair -/

theorem wordsOfAll_append (ts us : List Tree) :
    wordsOfAll (ts ++ us) = wordsOfAll ts ++ wordsOfAll us := by
  simp only [wordsOfAll_eq, List.flatMap_append]

variable {finish : Token}

mutual

/-- **The words of a derivation are its tokens.** -/
theorem Derives.words_eq : ∀ {e : Expr} {us vs : List Token} {ts : List Tree},
    Derives finish e us ts vs → wordsOfAll ts = (Tree.tokensOfAll ts).map Token.word
  | _, _, _, _, .tok => rfl
  | _, _, _, _, .oneOf _ => rfl
  | _, _, _, _, .call h => by
    rw [Tree.tokensOfAll_singleton, Tree.tokens, ← h.words_eq, wordsOfAll, wordsOfAll, Tree.words,
      List.append_nil]
  | _, _, _, _, .seq h => h.words_eq
  | _, _, _, _, .choice _ h => h.words_eq
  | _, _, _, _, .optNone => rfl
  | _, _, _, _, .optSome h | _, _, _, _, .many h | _, _, _, _, .many1 h
  | _, _, _, _, .manyAhead h =>
    h.words_eq

theorem DerivesAll.words_eq : ∀ {es : List Expr} {us vs : List Token} {ts : List Tree},
    DerivesAll finish es us ts vs → wordsOfAll ts = (Tree.tokensOfAll ts).map Token.word
  | _, _, _, _, .nil => rfl
  | _, _, _, _, .cons h hs => by
    rw [wordsOfAll_append, h.words_eq, hs.words_eq, Tree.tokensOfAll_append, List.map_append]

end

theorem spelt_of_readProgram {p : Program}
    (h : readProgram (.ofText text) = .ok p) : ∀ w ∈ p.tree.words, Spelt w := by
  obtain ⟨us, hprogram, -⟩ := (readProgram_ok_iff rfl).mp h
  intro w hw
  have hwords := hprogram.derives.words_eq
  rw [wordsOfAll, wordsOfAll, List.append_nil, Tree.tokensOfAll_singleton] at hwords
  rw [hwords] at hw
  obtain ⟨t, ht, rfl⟩ := List.mem_map.mp hw
  have hmem : t ∈ (Script.ofText text).tokens := by
    rw [← hprogram.tokens_append]
    exact List.mem_append_left us ht
  exact spelt_word hmem

/-! ### Trees that are read with repair -/

namespace Repair

variable {α β : Type} {P : Kind × String → Prop} {m : RepairM α}

/-- The tokens that are left, the token at the end and the trees so far have only words with a
property. -/
structure Spells (P : Kind × String → Prop) (s : Repair) : Prop where
  ahead : ∀ t ∈ s.ahead, P t.word
  finish : P s.finish.word
  trees : ∀ w ∈ wordsOfAll s.trees, P w

/-- However the step ends, the state has only words with the property if it had so before. -/
def Steady (P : Kind × String → Prop) (m : RepairM α) : Prop :=
  ∀ s, Spells P s → Spells P (outcome m s).2

theorem Spells.tokenAt {s : Repair} (h : s.Spells P) (n : Nat) : P (s.tokenAt n).word := by
  rw [Repair.tokenAt]
  cases hdrop : s.ahead.drop n with
  | nil => exact h.finish
  | cons t ts => exact h.ahead t (List.mem_of_mem_drop (hdrop ▸ List.mem_cons_self))

namespace Steady

theorem pure (a : α) : Steady P (Pure.pure a : RepairM α) := fun _ h => h

theorem throw (e : Failure) : Steady P (throw e : RepairM α) := fun _ h => h

theorem bind {k : α → RepairM β} (hm : Steady P m) (hk : ∀ a, Steady P (k a)) :
    Steady P (m >>= k) := by
  intro s hs
  have hfirst := hm s hs
  rw [outcome_bind]
  generalize outcome m s = r at hfirst
  obtain ⟨e | a, t⟩ := r
  · exact hfirst
  · exact hk a t hfirst

theorem tryCatch {k : Failure → RepairM α} (hm : Steady P m) (hk : ∀ e, Steady P (k e)) :
    Steady P (tryCatch m k) := by
  intro s hs
  have hfirst := hm s hs
  rw [outcome_tryCatch]
  generalize outcome m s = r at hfirst
  obtain ⟨e | a, t⟩ := r
  · exact hk e t hfirst
  · exact hfirst

theorem get_bind {k : Repair → RepairM α} (hk : ∀ s, Steady P (k s)) : Steady P (get >>= k) :=
  fun s => hk s s

theorem modify {f : Repair → Repair} (hf : ∀ s, Spells P s → Spells P (f s)) :
    Steady P (modify f : RepairM Unit) :=
  hf

end Steady

theorem steady_look (n : Nat) : Steady P (look n) := fun _ h => ⟨h.ahead, h.finish, h.trees⟩

theorem steady_push {t : Tree} (h : ∀ w ∈ t.words, P w) : Steady P (push t) :=
  fun _ hs => ⟨hs.ahead, hs.finish, fun w hw => (List.mem_append.mp hw).elim (h w) (hs.trees w)⟩

/-- The token at hand is one of those that are left, or the one at the end. -/
theorem Steady.current_bind {k : Token → RepairM α} (hk : ∀ t, P t.word → Steady P (k t)) :
    Steady P (current >>= k) :=
  fun s hs => hk (s.tokenAt 0) (hs.tokenAt 0) _ (steady_look 0 s hs)

theorem steady_take : Steady P take := by
  refine .current_bind fun t ht => .get_bind fun u => ?_
  refine Steady.bind (steady_push fun w hw => ?_) fun _ => .modify fun s hs => ?_
  · have hsingle : w = t.word := by split at hw <;> exact List.mem_singleton.mp hw
    exact hsingle ▸ ht
  · split
    · exact hs
    · rename_i first rest hahead
      refine ⟨fun t ht => hs.ahead t ?_, hs.finish, hs.trees⟩
      rw [hahead]
      exact List.mem_cons_of_mem _ ht

theorem steady_report (t : Token) : Steady P (report t) := by
  refine .modify fun s h => ?_
  split
  · exact h
  · exact ⟨h.ahead, h.finish, h.trees⟩

theorem movesOrFails_steady (hmissing : ∀ k : Kind, P (k, k.placeholder)) :
    MovesOrFails (Steady P) where
  pure := .pure
  bind := .bind
  get_bind := .get_bind
  look := steady_look
  take := steady_take
  settle := .modify fun _ h => ⟨h.ahead, h.finish, h.trees⟩
  report := steady_report
  note _ := .modify fun _ h => ⟨h.ahead, h.finish, h.trees⟩
  throw := .throw
  pushMissing kind := (steady_look 0).bind fun _ => .get_bind fun _ => steady_push fun w hw => by
    rw [List.mem_singleton.mp hw]
    exact hmissing kind

end Repair

open Repair

variable {P : Kind × String → Prop}

/-- **Reading a rule with repair is steady.** -/
theorem Rule.steady_mend (hmissing : ∀ k : Kind, P (k, k.placeholder)) (n : Nat)
    (callers : List Remainder) (rule : Rule) : Steady P (rule.mend n callers) := by
  -- the induction is on how deep rules may still call each other
  induction n generalizing callers rule with
  | zero => exact .pure ()
  | succ n ih =>
    rw [Rule.mend]
    refine (steady_look 0).bind fun start => ?_
    intro s hs
    -- the trees outside are put aside while the rule is read
    have hbody : Steady P (tryCatch (rule.body.mend ⟨callers, n, fun r rest =>
        r.mend n (rest :: callers)⟩ ⟨rule, []⟩ []) (recover callers)) :=
      ((movesOrFails_steady hmissing).mends.mend
        (fun r rest => ih (rest :: callers) r) _ _ _).tryCatch
        ((movesOrFails_steady hmissing).recover callers)
    have hinside : Spells P { s with trees := [] } := ⟨hs.ahead, hs.finish, by simp [wordsOfAll]⟩
    refine Steady.bind hbody (fun _ => .modify fun u hu => ?_) _ hinside
    refine ⟨hu.ahead, hu.finish, fun w hw => ?_⟩
    rcases List.mem_append.mp hw with hw | hw
    · rw [Tree.words, mem_wordsOfAll] at hw
      obtain ⟨t, ht, hw⟩ := hw
      exact hu.trees w (mem_wordsOfAll.mpr ⟨t, List.mem_reverse.mp ht, hw⟩)
    · exact hs.trees w hw

theorem spelt_of_mendRule (rule : Rule) (text : String) :
    ∀ w ∈ (mendRule rule (.ofText text)).tree.words, Spelt w := by
  have hstart : Spells Spelt (Script.ofText text).mending :=
    ⟨fun t ht => spelt_word ht, .inr (.inl rfl), by simp [Script.mending, wordsOfAll]⟩
  have hend := Rule.steady_mend (fun k => .inl rfl) (4 * (Script.ofText text).tokens.length + 40) []
    rule _ hstart
  intro w hw
  rw [mendRule_tree] at hw
  cases htrees : (outcome (rule.mend (4 * (Script.ofText text).tokens.length + 40) [])
      (Script.ofText text).mending).2.trees with
  | nil =>
    rw [htrees] at hw
    cases hw
  | cons t ts =>
    rw [htrees] at hw
    exact hend.trees w (htrees ▸ List.mem_append_left _ hw)

end EvScript
