import EvScript.Proofs.Grammar.Words

/-!
# Tokens Written Again

The tokens of a text, written one behind the other with a space between each two, are cut into the
same tokens, and nothing is dropped. The words with a space in them are strings and comments. These
begin with an apostrophe or a slash, no other token has one of these characters in it, and a string
ends at its second apostrophe. So no word goes on behind a token and a space.

## Main results

* `tokens_spaced` — tokens with spaces between them are cut again.
-/

namespace EvScript

open Vocabulary

variable {w v : List Char} {c : Char} {kind : Kind} {cls : LexClass}

/-! ### Words and spaces -/

/-- The character is no space, and words with spaces in them do not begin with it. -/
def isSolid (c : Char) : Bool := c != ' ' && c != '\'' && c != '/'

theorem isSolid_of_name (h : Lexicon.isNameStart c = true ∨ Lexicon.isDigit c = true) :
    isSolid c = true := by
  simp only [isSolid, Bool.and_eq_true, bne_iff_ne]
  refine ⟨⟨?_, ?_⟩, ?_⟩
  all_goals
    rintro rfl
    exact absurd h (by decide)

theorem all_isSolid_of_isName (h : IsName w) : w.all isSolid = true := by
  obtain ⟨c, cs, rfl, hc, hcs⟩ := h
  refine List.all_eq_true.mpr (List.forall_mem_cons.mpr ⟨isSolid_of_name (.inl hc), ?_⟩)
  exact fun d hd => isSolid_of_name (hcs d hd)

theorem all_isSolid_of_isDigits (h : IsDigits w) : w.all isSolid = true :=
  List.all_eq_true.mpr fun c hc => isSolid_of_name (.inr (h.2 c hc))

theorem all_isSolid_of_isNumber (h : IsNumber w) : w.all isSolid = true := by
  obtain ⟨sign, whole, part, hsign, hwhole, hpart, rfl⟩ := h
  rw [List.all_append, List.all_append, all_isSolid_of_isDigits hwhole]
  have hfront : sign.all isSolid = true := by
    rcases hsign with rfl | rfl <;> rfl
  have hback : part.all isSolid = true := by
    rcases hpart with rfl | ⟨digits, hdigits, rfl⟩
    · rfl
    · rw [List.all_cons, all_isSolid_of_isDigits hdigits]
      rfl
  rw [hfront, hback]
  rfl

theorem all_isSolid_of_isScopedName (h : IsScopedName w) : w.all isSolid = true := by
  obtain ⟨first, more, hfirst, -, hmore, rfl⟩ := h
  rw [List.all_append, all_isSolid_of_isName hfirst, List.all_flatMap, Bool.true_and]
  refine List.all_eq_true.mpr fun n hn => ?_
  rw [List.all_cons, List.all_cons, all_isSolid_of_isName (hmore n hn)]
  rfl

/-- **What words with spaces look like.** -/
theorem shape_of_names (h : Names vocabulary w cls) : IsString w ∨ w.all isSolid = true ∨
    cls = .blank ∧ (w.head? = some '/' ∨ w.length = 1) := by
  obtain ⟨s, hs, rfl, hword⟩ := h.exists_spelling
  simp only [vocabulary, List.mem_append, List.mem_map, List.mem_cons, List.not_mem_nil,
    or_false] at hs
  rcases hs with ⟨m, -, rfl⟩ | ((rfl | rfl | rfl | rfl | rfl | rfl | rfl) | ⟨k, -, rfl⟩) | rfl |
    ⟨k, -, rfl⟩ | rfl | rfl
  · obtain rfl : w = m.text.toList := hword
    cases m <;> exact .inr (.inl (by decide))
  · exact .inl hword
  · obtain ⟨text, htext, rfl⟩ := hword
    have hall : ∀ text ∈ ["EQ", "==", "NE", "!=", "LT", "<", "GT", ">", "LE", "<=", "GE", ">="],
        (String.toList text).all isSolid = true := by decide
    exact .inr (.inl (hall text htext))
  · obtain ⟨body, -, rfl⟩ := hword
    exact .inr (.inr ⟨rfl, .inl rfl⟩)
  · obtain ⟨body, -, rfl⟩ := hword
    exact .inr (.inr ⟨rfl, .inl rfl⟩)
  · exact .inr (.inl (all_isSolid_of_isNumber hword))
  · rcases hword with rfl | rfl <;> exact .inr (.inr ⟨rfl, .inr rfl⟩)
  · rcases hword with rfl | rfl <;> exact .inr (.inr ⟨rfl, .inr rfl⟩)
  · obtain rfl : w = k.text.toList := hword
    cases k <;> exact .inr (.inl (by decide))
  · obtain rfl : w = _ := hword
    exact .inr (.inl (by decide))
  · obtain rfl : w = k.text.toList := hword
    cases k <;> exact .inr (.inl (by decide))
  · exact .inr (.inl (all_isSolid_of_isScopedName hword))
  · exact .inr (.inl (all_isSolid_of_isName hword))

theorem not_names_nil : ¬ Names vocabulary [] cls := fun h =>
  have hnull : lexicon.find? (·.pattern.nullable) = none := rfl
  not_names_nil_of_find? hnull ((names_lexicon_iff _ _).mpr h)

theorem count_of_isString (h : IsString w) : w.count '\'' = 2 := by
  obtain ⟨body, hbody, rfl⟩ := h
  simp [List.count_eq_zero_of_not_mem hbody]

/-- No string goes on behind a string and a space: its apostrophes are used up. -/
theorem not_isString_of_isString (hw : IsString w) : ¬ IsString (w ++ ' ' :: v) := by
  intro h
  have hcount := count_of_isString h
  rw [List.count_append, count_of_isString hw, List.count_cons_of_ne (by decide)] at hcount
  obtain ⟨body, -, heq⟩ := h
  have hlast := congrArg List.getLast? heq
  rw [List.getLast?_append, List.getLast?_concat, List.getLast?_cons, Option.some_or] at hlast
  have hmem : '\'' ∈ v := by
    cases hv : v.getLast? with
    | none => simp [hv] at hlast
    | some c => exact List.mem_of_getLast? (by simpa [hv] using hlast)
  have := List.count_pos_iff.mpr hmem
  omega

/-- **No word goes on behind a token and a space.** -/
theorem not_names_of_space (hw : Names vocabulary w (.token kind)) :
    ¬ Names vocabulary (w ++ ' ' :: v) cls := by
  intro h
  obtain ⟨c, cs, rfl⟩ : ∃ c cs, w = c :: cs := List.exists_cons_of_ne_nil fun hnil =>
    not_names_nil (hnil ▸ hw)
  have hfirst : isSolid c = true ∨ IsString (c :: cs) := by
    rcases shape_of_names hw with hstring | hsolid | ⟨hblank, -⟩
    · exact .inr hstring
    · rw [List.all_cons, Bool.and_eq_true] at hsolid
      exact .inl hsolid.1
    · cases hblank
  rcases shape_of_names h with hstring | hsolid | ⟨-, hslash | hone⟩
  · refine hfirst.elim (fun hc => ?_) fun hw => not_isString_of_isString hw hstring
    obtain ⟨body, -, heq⟩ := hstring
    obtain rfl : c = '\'' := (List.cons.inj heq).1
    cases hc
  · simp [isSolid] at hsolid
  · obtain rfl : c = '/' := by simpa using hslash
    rcases hfirst with hc | ⟨body, -, heq⟩
    · cases hc
    · exact absurd (List.cons.inj heq).1 (by decide)
  · simp at hone

/-! ### Pieces -/

/-- A token at the end of a text or in front of a space is the foremost piece. -/
theorem foremost_token (hw : Names vocabulary w (.token kind))
    (hv : v = [] ∨ ∃ u, v = ' ' :: u) :
    Foremost vocabulary (w ++ v) (.taken (.token kind)) w.length := by
  have hpos : 0 < w.length := List.length_pos_iff.mpr fun hnil => not_names_nil (hnil ▸ hw)
  refine ⟨hpos, by simp, by rwa [List.take_left], fun m hm hle k hk => ?_⟩
  rcases hv with rfl | ⟨u, rfl⟩
  · simp only [List.append_nil] at hle
    omega
  · obtain ⟨i, hi⟩ : ∃ i, m - w.length = i + 1 := ⟨m - w.length - 1, by omega⟩
    rw [List.take_append, List.take_of_length_le (Nat.le_of_lt hm), hi, List.take_succ_cons] at hk
    exact not_names_of_space hw hk

theorem foremost_space (v : List Char) : Foremost vocabulary (' ' :: v) (.taken .blank) 1 := by
  have hspace : Foremost vocabulary [' '] (.taken .blank) 1 := foremost_iff_munch.mpr (by decide)
  refine ⟨Nat.one_pos, by simp, hspace.2.2.1, fun m hm _ k hk => ?_⟩
  obtain ⟨i, rfl⟩ : ∃ i, m = i + 1 := ⟨m - 1, by omega⟩
  rw [List.take_succ_cons] at hk
  rcases shape_of_names hk with ⟨body, -, heq⟩ | hsolid | ⟨-, hslash | hone⟩
  · exact absurd (List.cons.inj heq).1 (by decide)
  · cases hsolid
  · exact absurd (Option.some.inj hslash) (by decide)
  · rename_i hle
    simp only [List.length_cons, List.length_take] at hone hle
    omega

variable {ts : List Token} {ps : List Piece} {pos : Pos} {offset : Nat}

theorem Cut.token (hw : Names vocabulary w (.token kind)) (hv : v = [] ∨ ∃ u, v = ' ' :: u)
    (h : Cut (w.foldl Pos.next pos) (offset + w.length) v ps) :
    Cut pos offset (w ++ v) (⟨.taken (.token kind), w, pos, offset⟩ :: ps) := by
  have hne : w ++ v ≠ [] := fun hnil => not_names_nil ((List.append_eq_nil_iff.mp hnil).1 ▸ hw)
  have htake : (w ++ v).take w.length = w := List.take_left
  have hdrop : (w ++ v).drop w.length = v := List.drop_left
  rw [← htake, ← hdrop] at h
  have hcut := Cut.piece hne (foremost_token hw hv) (by simpa using h)
  rwa [htake] at hcut

/-- The text of tokens with a space between each two. -/
def spaced (ts : List Token) : String := " ".intercalate (ts.map (·.text))

/-- The pieces are the tokens `ts`, apart from their places, and blanks. -/
def Amounts (ps : List Piece) (ts : List Token) : Prop :=
  (ps.filterMap Piece.token?).map Token.word = ts.map Token.word ∧ ps.filterMap Piece.error? = []

theorem Amounts.cons {t : Token} (h : Amounts ps ts) :
    Amounts (⟨.taken (.token t.kind), t.text.toList, pos, offset⟩ :: ps) (t :: ts) := by
  refine ⟨?_, h.2⟩
  simp only [List.filterMap_cons, Piece.token?, String.ofList_toList, List.map_cons, h.1]
  rfl

/-- **Tokens with spaces between them** are cut into these tokens. -/
theorem exists_cut_spaced (h : ∀ t ∈ ts, Names vocabulary t.text.toList (.token t.kind))
    (pos : Pos) (offset : Nat) : ∃ ps, Cut pos offset (spaced ts).toList ps ∧ Amounts ps ts := by
  rw [spaced, String.toList_intercalate]
  induction ts generalizing pos offset with
  | nil => exact ⟨[], .done, rfl, rfl⟩
  | cons t ts ih =>
    obtain ⟨ht, hts⟩ := List.forall_mem_cons.mp h
    cases ts with
    | nil =>
      have hcut : Cut pos offset (t.text.toList ++ []) _ := .token ht (.inl rfl) .done
      exact ⟨_, by simpa using hcut, .cons ⟨rfl, rfl⟩⟩
    | cons u ts =>
      obtain ⟨ps, hcut, hps⟩ := ih hts (.next (t.text.toList.foldl Pos.next pos) ' ')
        (offset + t.text.toList.length + 1)
      have hspace := Cut.piece (List.cons_ne_nil _ _) (foremost_space _) hcut
      have hall := Cut.token ht (.inr ⟨_, rfl⟩) hspace
      simp only [List.map_cons, List.intercalate_cons_cons, List.append_assoc]
      exact ⟨_, hall, Amounts.cons (show Amounts (_ :: ps) (u :: ts) from hps)⟩

/-- **Tokens can be written and cut again.** If the tokens of a text are written with a space
between each two, whatever stood between them, then the new text has tokens of the same kinds with
the same texts, in the same order, and nothing in it is dropped. -/
theorem tokens_spaced (text : String) :
    (Script.ofText (spaced (Script.ofText text).tokens)).tokens.map Token.word =
        (Script.ofText text).tokens.map Token.word ∧
      (Script.ofText (spaced (Script.ofText text).tokens)).errors = [] := by
  obtain ⟨ps, hcut, hps⟩ := exists_cut_spaced (fun t ht => names_of_mem_tokens ht) .start 0
  obtain rfl := hcut.unique (cut_piecesFrom _ _ _)
  exact hps

end EvScript
