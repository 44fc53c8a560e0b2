import EvScript.Proofs.Token.Vocabulary
import EvScript.Token.Lexer

/-!
# Longest Match

At each place of a text the longest beginning that is a word is taken, under the class that the
vocabulary names for it. Where no beginning is a word, the shortest one that no word begins with is
dropped, or all that is left. `Foremost` says this of one place, and `Cut` of a whole text. The
argument follows the entries that are still alive: what they describe of the text ahead are the
rests of the words, and the longest match so far is remembered beside them.

## Main results

* `script_of_cut` — the only cut of a text, and the script it makes.
-/

namespace EvScript

variable {r : LexRule}
variable {V V' : List Spelling} {cs : List Char} {form form' : PieceForm} {n n' : Nat}

/-- Some word begins with the text. -/
def Begins (V : List Spelling) (w : List Char) : Prop := ∃ v cls, Names V (w ++ v) cls

/-- `Foremost V cs form n`: the piece at the front of `cs` has the form `form` and `n`
characters. -/
def Foremost (V : List Spelling) (cs : List Char) : PieceForm → Nat → Prop
  | .taken cls, n => 0 < n ∧ n ≤ cs.length ∧ Names V (cs.take n) cls ∧
      ∀ m, n < m → m ≤ cs.length → ∀ c, ¬ Names V (cs.take m) c
  | .dropped, n => (∀ m, 0 < m → m ≤ cs.length → ∀ c, ¬ Names V (cs.take m) c) ∧
      n ≤ cs.length ∧ (∀ m, m < n → Begins V (cs.take m)) ∧
      (Begins V (cs.take n) → n = cs.length)

/-- There is only one foremost piece. -/
theorem Foremost.unique (h : Foremost V cs form n) (h' : Foremost V cs form' n') :
    form = form' ∧ n = n' := by
  cases form with
  | taken cls =>
    obtain ⟨hpos, hle, hname, hlongest⟩ := h
    cases form' with
    | taken cls' =>
      obtain ⟨hpos', hle', hname', hlongest'⟩ := h'
      rcases Nat.lt_trichotomy n n' with hlt | rfl | hlt
      · exact absurd hname' (hlongest n' hlt hle' cls')
      · exact ⟨by rw [hname.unique hname'], rfl⟩
      · exact absurd hname (hlongest' n hlt hle cls)
    | dropped => exact absurd hname (h'.1 n hpos hle cls)
  | dropped =>
    obtain ⟨hnone, hle, hbegins, hend⟩ := h
    cases form' with
    | taken cls => exact absurd h'.2.2.1 (hnone n' h'.1 h'.2.1 cls)
    | dropped =>
      obtain ⟨-, hle', hbegins', hend'⟩ := h'
      rcases Nat.lt_trichotomy n n' with hlt | rfl | hlt
      · have := hend (hbegins' n hlt)
        omega
      · exact ⟨rfl, rfl⟩
      · have := hend' (hbegins n' hlt)
        omega

theorem Foremost.congr (h : Alike V V') (hf : Foremost V cs form n) : Foremost V' cs form n := by
  cases form with
  | taken cls => simpa only [Foremost, h _] using hf
  | dropped => simpa only [Foremost, Begins, h _] using hf

/-! ### One character

What is foremost in a text follows from what is foremost behind its first character, where the
rests of the words count. -/

/-- The words of `V'` are the rests of those of `V` behind a first `c`. -/
def Rests (c : Char) (V V' : List Spelling) : Prop :=
  ∀ w cls, Names V' w cls ↔ Names V (c :: w) cls

variable {c : Char} {cls : LexClass}

theorem Rests.begins_iff (h : Rests c V V') {w : List Char} : Begins V' w ↔ Begins V (c :: w) :=
  exists_congr fun v => exists_congr fun cls => h (w ++ v) cls

/-- No beginning of `c :: cs` longer than `n + 1` is a word if none of `cs` longer than `n` is. -/
theorem Rests.none_longer (h : Rests c V V')
    (hnone : ∀ m, n < m → m ≤ cs.length → ∀ k, ¬ Names V' (cs.take m) k) :
    ∀ m, n + 1 < m → m ≤ (c :: cs).length → ∀ k, ¬ Names V ((c :: cs).take m) k := by
  intro m hm hle k hk
  obtain ⟨m, rfl⟩ : ∃ l, m = l + 1 := ⟨m - 1, by omega⟩
  exact hnone m (by omega) (Nat.le_of_succ_le_succ hle) k ((h _ k).mpr hk)

theorem Rests.taken (h : Rests c V V') (hf : Foremost V' cs (.taken cls) n) :
    Foremost V (c :: cs) (.taken cls) (n + 1) := by
  obtain ⟨-, hle, hname, hlongest⟩ := hf
  exact ⟨n.succ_pos, Nat.succ_le_succ hle, (h _ cls).mp hname, h.none_longer hlongest⟩

theorem Rests.taken_one (h : Rests c V V') (hf : Foremost V' cs .dropped n)
    (hname : Names V' [] cls) : Foremost V (c :: cs) (.taken cls) 1 :=
  ⟨Nat.one_pos, Nat.succ_le_succ cs.length.zero_le, (h [] cls).mp hname, h.none_longer hf.1⟩

theorem Rests.dropped (h : Rests c V V') (hf : Foremost V' cs .dropped n)
    (hnone : ∀ k, ¬ Names V' [] k) (hnil : Begins V []) :
    Foremost V (c :: cs) .dropped (n + 1) := by
  obtain ⟨hnames, hle, hbegins, hend⟩ := hf
  refine ⟨fun m hm hmle k hk => ?_, Nat.succ_le_succ hle, fun m hm => ?_, fun hb => ?_⟩
  · rcases Nat.lt_or_ge 1 m with hlt | hge
    · exact h.none_longer hnames m hlt hmle k hk
    · obtain rfl : m = 1 := by omega
      exact hnone k ((h [] k).mpr hk)
  · cases m with
    | zero => exact hnil
    | succ m => exact h.begins_iff.mp (hbegins m (Nat.lt_of_succ_lt_succ hm))
  · rw [List.length_cons, hend (h.begins_iff.mpr hb)]

theorem foremost_nil (cs : List Char) : Foremost [] cs .dropped 0 :=
  ⟨fun _ _ _ _ => id, Nat.zero_le _, fun _ h => absurd h (Nat.not_lt_zero _),
    fun ⟨_, _, h⟩ => h.elim⟩

/-! ### The entries after a character -/

variable {live : List LexRule} {w : List Char}

theorem step?_of_none (h : r.pattern.deriv c = .none) : r.step? c = none := by
  simp [LexRule.step?, h, Pattern.isNone]

theorem step?_of_ne_none (h : r.pattern.deriv c ≠ .none) :
    r.step? c = some ⟨r.cls, r.pattern.deriv c⟩ := by
  simp [LexRule.step?, mt Pattern.isNone_iff.mp h]

/-- The entries after a character have the rests of the words that begin with it. -/
theorem rests_step (live : List LexRule) (c : Char) : Rests c (live.map LexRule.spelling)
      ((live.filterMap (·.step? c)).map LexRule.spelling) := by
  intro w cls
  induction live with
  | nil => rfl
  | cons r live ih =>
    have hword : r.spelling.IsWord (c :: w) ↔ (r.pattern.deriv c).Matches w :=
      Pattern.matches_deriv_iff.symm
    by_cases hnone : r.pattern.deriv c = .none
    · rw [List.filterMap_cons_none (step?_of_none hnone), ih, List.map_cons, Names, hword, hnone]
      simp [Pattern.not_matches_none]
    · rw [List.filterMap_cons_some (step?_of_ne_none hnone), List.map_cons, List.map_cons, Names,
        Names, hword, ih]
      rfl

theorem live_step (h : ∀ r ∈ live, r.pattern.Live) :
    ∀ r ∈ live.filterMap (·.step? c), r.pattern.Live := by
  intro r hr
  obtain ⟨r₀, hr₀, hstep⟩ := List.mem_filterMap.mp hr
  rcases (h r₀ hr₀).deriv c with hnone | hlive
  · rw [step?_of_none hnone] at hstep
    cases hstep
  · have hne : r₀.pattern.deriv c ≠ .none := fun hnone => (hnone ▸ hlive : Pattern.Live .none)
    rw [step?_of_ne_none hne] at hstep
    obtain rfl := Option.some.inj hstep
    exact hlive

theorem names_nil_of_find? (h : live.find? (·.pattern.nullable) = some r) :
    Names (live.map LexRule.spelling) [] r.cls := by
  induction live with
  | nil => cases h
  | cons r₀ live ih =>
    rw [List.map_cons, Names]
    cases hnull : r₀.pattern.nullable with
    | true =>
      rw [List.find?_cons, hnull] at h
      obtain rfl := Option.some.inj h
      exact .inl ⟨Pattern.nullable_iff.mp hnull, rfl⟩
    | false =>
      rw [List.find?_cons, hnull] at h
      refine .inr ⟨fun hword => ?_, ih h⟩
      rw [Pattern.nullable_iff.mpr hword] at hnull
      cases hnull

theorem not_names_nil_of_find? (h : live.find? (·.pattern.nullable) = none) :
    ¬ Names (live.map LexRule.spelling) [] cls := by
  intro hname
  obtain ⟨_, hs, -, hword⟩ := hname.exists_spelling
  obtain ⟨r, hr, rfl⟩ := List.mem_map.mp hs
  exact List.find?_eq_none.mp h r hr (Pattern.nullable_iff.mpr hword)

/-- Live entries have words. -/
theorem begins_nil (h : ∀ r ∈ live, r.pattern.Live) (hne : live ≠ []) :
    Begins (live.map LexRule.spelling) [] := by
  obtain ⟨r, rest, rfl⟩ := List.exists_cons_of_ne_nil hne
  obtain ⟨w, hw⟩ := (h r List.mem_cons_self).exists_matches
  exact ⟨w, r.cls, .inl ⟨hw, rfl⟩⟩

/-! ### The piece at the front -/

/-- **Following the entries that are alive.** Either they have a word at the front of the text, and
the longest one is taken; or they have none, and what has been remembered settles the matter. -/
theorem munchFrom_foremost (h : ∀ r ∈ live, r.pattern.Live) (hne : live ≠ [])
    (best : Option (LexClass × Nat)) (taken : Nat) (cs : List Char) :
    (∃ cls n, Foremost (live.map LexRule.spelling) cs (.taken cls) n ∧
      munchFrom live best taken cs = (.taken cls, taken + n)) ∨
    (∃ n, Foremost (live.map LexRule.spelling) cs .dropped n ∧
      munchFrom live best taken cs = munchFrom.settle best (taken + n)) := by
  induction cs generalizing live best taken with
  | nil =>
    refine .inr ⟨0, ⟨fun m hm hle => ?_, Nat.le_refl 0, fun m hm => by omega, fun _ => rfl⟩, rfl⟩
    simp only [List.length_nil] at hle
    omega
  | cons c cs ih =>
    have hrests := rests_step live c
    have hnil := begins_nil h hne
    have hlive := live_step (c := c) h
    cases hnext : live.filterMap (·.step? c) with
    | nil =>
      rw [hnext] at hrests
      refine .inr ⟨1, hrests.dropped (foremost_nil cs) (fun _ => id) hnil, ?_⟩
      rw [munchFrom, hnext]
    | cons r next =>
      rw [hnext] at hrests hlive
      have hstep : munchFrom live best taken (c :: cs) = munchFrom (r :: next)
          ((((r :: next).find? (·.pattern.nullable)).map fun r => (r.cls, taken + 1)).or best)
          (taken + 1) cs := by
        rw [munchFrom, hnext]
        dsimp only
        cases (r :: next).find? (·.pattern.nullable) <;> rfl
      rw [hstep]
      rcases ih hlive (List.cons_ne_nil _ _) _ (taken + 1) with
        ⟨cls, n, hf, heq⟩ | ⟨n, hf, heq⟩
      · exact .inl ⟨cls, n + 1, hrests.taken hf, by rw [heq, Nat.add_assoc, Nat.add_comm 1]⟩
      · rw [heq]
        cases hfind : (r :: next).find? (·.pattern.nullable) with
        | some r' => exact .inl ⟨r'.cls, 1, hrests.taken_one hf (names_nil_of_find? hfind), rfl⟩
        | none =>
          refine .inr ⟨n + 1,
            hrests.dropped hf (fun _ => not_names_nil_of_find? hfind) hnil, ?_⟩
          show munchFrom.settle best (taken + 1 + n) = _
          rw [Nat.add_assoc, Nat.add_comm 1]

/-! ### The lexicon -/

/-- No entry of the lexicon has a dead part. -/
theorem live_lexicon : ∀ r ∈ lexicon, r.pattern.Live := by
  have hdigit : ∃ c, Lexicon.isDigit c = true := ⟨'0', rfl⟩
  have hstart : ∃ c, Lexicon.isNameStart c = true := ⟨'a', rfl⟩
  have hname : Lexicon.name.Live := ⟨hstart, 'a', rfl⟩
  have hcomparator : Lexicon.comparator.Live := by
    refine (Pattern.live_anyOf fun p hp => ?_).resolve_left nofun
    obtain ⟨text, -, rfl⟩ := List.mem_map.mp hp
    exact Pattern.live_literal text
  intro r hr
  simp only [lexicon, List.mem_append, List.mem_map, List.mem_cons, List.not_mem_nil,
    or_false] at hr
  rcases hr with ((⟨m, -, rfl⟩ | (rfl | rfl | rfl | rfl | rfl | rfl)) | ⟨k, -, rfl⟩) | (rfl | rfl)
  · exact Pattern.live_literal _
  · exact ⟨⟨'\'', rfl⟩, ⟨'a', rfl⟩, '\'', rfl⟩
  · exact hcomparator
  · exact ⟨Pattern.live_literal _, 'a', rfl⟩
  · exact ⟨Pattern.live_literal _,
      ⟨⟨'a', rfl⟩, .inr ⟨⟨Pattern.live_char _, Pattern.live_char _⟩, 'a', rfl⟩⟩,
      ⟨Pattern.live_char _, Pattern.live_char _⟩, Pattern.live_char _⟩
  · exact ⟨⟨Pattern.live_char _, .inr trivial⟩, ⟨hdigit, hdigit⟩,
      ⟨Pattern.live_char _, hdigit, hdigit⟩, .inr trivial⟩
  · exact ⟨' ', rfl⟩
  · exact Pattern.live_literal _
  · exact ⟨hname, ⟨Pattern.live_literal _, hname⟩, Pattern.live_literal _, hname⟩
  · exact hname

/-- **`munch` finds the foremost piece.** -/
theorem foremost_iff_munch : Foremost vocabulary cs form n ↔ munch cs = (form, n) := by
  have hfound : Foremost vocabulary cs (munch cs).1 (munch cs).2 := by
    refine Foremost.congr names_lexicon_iff ?_
    rcases munchFrom_foremost live_lexicon (by simp [lexicon]) none 0 cs with
      ⟨cls, n, hf, heq⟩ | ⟨n, hf, heq⟩
    · rw [munch, heq, Nat.zero_add]
      exact hf
    · rw [munch, heq, Nat.zero_add]
      exact hf
  constructor
  · intro h
    obtain ⟨hform, hn⟩ := hfound.unique h
    exact Prod.ext hform hn
  · intro h
    rw [h] at hfound
    exact hfound

/-! ### Whole texts -/

/-- `Cut pos offset cs ps`: the text `cs`, which starts at the given place, has the pieces `ps`. -/
inductive Cut : Pos → Nat → List Char → List Piece → Prop where
  | done {pos : Pos} {offset : Nat} : Cut pos offset [] []
  | piece {pos : Pos} {offset : Nat} {cs : List Char} {form : PieceForm} {n : Nat}
      {ps : List Piece} : cs ≠ [] → Foremost vocabulary cs form n →
      Cut ((cs.take n).foldl Pos.next pos) (offset + n) (cs.drop n) ps →
      Cut pos offset cs (⟨form, cs.take n, pos, offset⟩ :: ps)

/-- A text has one cut. -/
theorem Cut.unique {pos : Pos} {offset : Nat} {ps ps' : List Piece} (h : Cut pos offset cs ps)
    (h' : Cut pos offset cs ps') : ps = ps' := by
  induction h generalizing ps' with
  | done =>
    cases h' with
    | done => rfl
    | piece hne _ _ => exact absurd rfl hne
  | piece hne hf _ ih =>
    cases h' with
    | done => exact absurd rfl hne
    | piece _ hf' hrest =>
      obtain ⟨rfl, rfl⟩ := hf.unique hf'
      rw [ih hrest]

theorem Foremost.pos (h : Foremost vocabulary cs form n) (hne : cs ≠ []) : 0 < n := by
  cases form with
  | taken cls => exact h.1
  | dropped =>
    refine Nat.pos_of_ne_zero fun hn => hne (List.length_eq_zero_iff.mp ?_)
    have hsemicolon : Begins vocabulary [] := ⟨[';'], _, .inl ⟨rfl, rfl⟩⟩
    rw [← h.2.2.2 (by rw [hn]; exact hsemicolon), hn]

theorem Foremost.le_length (h : Foremost V cs form n) : n ≤ cs.length := by
  cases form with
  | taken cls => exact h.2.1
  | dropped => exact h.2.1

/-- Characters that belong to a piece already listed only move the place on. -/
theorem piecesFrom_skip (pos : Pos) (offset : Nat) (hn : n ≤ cs.length) :
    piecesFrom pos offset n cs =
      piecesFrom ((cs.take n).foldl Pos.next pos) (offset + n) 0 (cs.drop n) := by
  induction cs generalizing pos offset n with
  | nil =>
    obtain rfl : n = 0 := Nat.le_zero.mp hn
    rfl
  | cons c cs ih =>
    cases n with
    | zero => rfl
    | succ n =>
      rw [piecesFrom, ih _ _ (Nat.le_of_succ_le_succ hn), List.take_succ_cons, List.foldl_cons,
        List.drop_succ_cons, Nat.add_assoc, Nat.add_comm 1]

theorem piecesFrom_of_munch (pos : Pos) (offset : Nat) (h : munch (c :: cs) = (form, n + 1))
    (hn : n + 1 ≤ (c :: cs).length) :
    piecesFrom pos offset 0 (c :: cs) = ⟨form, (c :: cs).take (n + 1), pos, offset⟩ ::
      piecesFrom (((c :: cs).take (n + 1)).foldl Pos.next pos) (offset + (n + 1)) 0
        ((c :: cs).drop (n + 1)) := by
  simp only [piecesFrom, h, Nat.add_sub_cancel]
  rw [piecesFrom_skip _ _ (Nat.le_of_succ_le_succ hn), List.take_succ_cons, List.foldl_cons,
    List.drop_succ_cons, Nat.add_assoc, Nat.add_comm 1]

/-- **The pieces are the cut** of the text. The induction is on the length of the text, which each
piece shortens. -/
theorem cut_piecesFrom (pos : Pos) (offset : Nat) (cs : List Char) :
    Cut pos offset cs (piecesFrom pos offset 0 cs) := by
  induction hl : cs.length using Nat.strongRecOn generalizing pos offset cs with
  | ind l ih =>
    cases cs with
    | nil => exact .done
    | cons c cs =>
      obtain ⟨form, n, hmunch⟩ : ∃ form n, munch (c :: cs) = (form, n) := ⟨_, _, rfl⟩
      have hf := foremost_iff_munch.mpr hmunch
      have hle := hf.le_length
      have hpos := hf.pos (List.cons_ne_nil c cs)
      obtain ⟨n, rfl⟩ : ∃ m, n = m + 1 := ⟨n - 1, by omega⟩
      rw [piecesFrom_of_munch pos offset hmunch hle]
      refine .piece (List.cons_ne_nil _ _) hf (ih _ ?_ _ _ _ rfl)
      rw [← hl, List.length_drop, List.length_cons]
      omega

/-- **Longest match with precedence.** Every text has exactly one cut into pieces, by the words of
the vocabulary alone: at each place the longest beginning that is a word, under the class of the
first entry that has it, or else a dropped text. The tokens are the pieces of token classes, in
order, and the errors the dropped pieces, one for each, at the place where it starts. -/
theorem script_of_cut (text : String) : ∃ ps, (∀ ps', Cut .start 0 text.toList ps' ↔ ps' = ps) ∧
    (Script.ofText text).tokens = ps.filterMap Piece.token? ∧
    (Script.ofText text).errors = ps.filterMap Piece.error? := by
  refine ⟨pieces text.toList, fun ps' => ⟨fun h => ?_, fun h => ?_⟩, rfl, rfl⟩
  · exact h.unique (cut_piecesFrom _ _ _)
  · exact h ▸ cut_piecesFrom _ _ _

end EvScript
