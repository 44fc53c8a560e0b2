import EvScript.Proofs.Token.Language
import EvScript.Token.Lexicon

/-!
# The Vocabulary

The vocabulary says what the words of a script are without speaking of patterns: each entry has a
class and the texts that belong to it, and of several entries with the same text the first one names
its class. The lexicon has the same words under the same classes. It has one entry for all single
blanks, and the star among the other marks, which does not matter because no other entry has it.
-/

namespace EvScript

/-- A class and the texts that belong to it. -/
structure Spelling where
  cls : LexClass
  IsWord : List Char → Prop

/-- `Names entries w cls`: the first entry that has `w` as a word has the class `cls`. -/
def Names : List Spelling → List Char → LexClass → Prop
  | [], _, _ => False
  | s :: entries, w, cls => s.IsWord w ∧ s.cls = cls ∨ ¬ s.IsWord w ∧ Names entries w cls

/-- An entry of the lexicon with the texts that its pattern describes. -/
def LexRule.spelling (r : LexRule) : Spelling := ⟨r.cls, r.pattern.Matches⟩

/-! ### The words -/

namespace Vocabulary

open Lexicon (isDigit isNameStart)

/-- A letter or `_`, then letters, digits and `_`. -/
def IsName (w : List Char) : Prop :=
  ∃ c cs, w = c :: cs ∧ isNameStart c = true ∧
    ∀ d ∈ cs, isNameStart d = true ∨ isDigit d = true

/-- A name, then further names with `::` in front of each, at least one. -/
def IsScopedName (w : List Char) : Prop :=
  ∃ (first : List Char) (more : List (List Char)), IsName first ∧ more ≠ [] ∧
    (∀ n ∈ more, IsName n) ∧ w = first ++ more.flatMap (':' :: ':' :: ·)

/-- Some digits, at least one. -/
def IsDigits (w : List Char) : Prop := w ≠ [] ∧ ∀ c ∈ w, isDigit c = true

/-- Digits, with a minus in front or not, with a point and digits behind or not. -/
def IsNumber (w : List Char) : Prop :=
  ∃ sign whole part, (sign = [] ∨ sign = ['-']) ∧ IsDigits whole ∧
    (part = [] ∨ ∃ digits, IsDigits digits ∧ part = '.' :: digits) ∧ w = sign ++ whole ++ part

/-- Two apostrophes with none between them. -/
def IsString (w : List Char) : Prop := ∃ body, '\'' ∉ body ∧ w = '\'' :: body ++ ['\'']

/-- One of the twelve comparators. -/
def IsComparator (w : List Char) : Prop :=
  ∃ text ∈ ["EQ", "==", "NE", "!=", "LT", "<", "GT", ">", "LE", "<=", "GE", ">="],
    w = String.toList text

/-- Two slashes and what follows on the line. -/
def IsLineComment (w : List Char) : Prop :=
  ∃ body, (∀ c ∈ body, c ≠ '\r' ∧ c ≠ '\n') ∧ w = '/' :: '/' :: body

/-- `/*` and all that follows, up to and including the first `*/`. -/
def IsBlockComment (w : List Char) : Prop :=
  ∃ body, ¬ ['*', '/'] <:+: body ∧ w = '/' :: '*' :: body ++ ['*', '/']

/-- A single character that ends a line. -/
def IsLineEnd (w : List Char) : Prop := w = ['\r'] ∨ w = ['\n']

/-- A single blank inside a line. -/
def IsSpace (w : List Char) : Prop := w = [' '] ∨ w = ['\t']

/-- A mark has one text. -/
def ofMark (m : Mark) : Spelling := ⟨.token (.mark m), (· = m.text.toList)⟩

/-- A keyword has one text. -/
def ofKeyword (k : Keyword) : Spelling := ⟨.token (.keyword k), (· = k.text.toList)⟩

/-- The marks that come first. -/
def marks : List Mark :=
  [.semicolon, .openBrace, .comma, .closeBrace, .colon, .equals, .openParen, .closeParen, .arrow,
   .plusEquals, .minusEquals]

/-- The keywords in front of the star. -/
def keywords : List Keyword :=
  [.aliasKw, .animationKw, .boolKw, .breakKw, .caseKw, .commandKw, .commonKw, .constKw, .defaultKw,
   .elseKw, .enumKw, .entryKw, .falseKw, .flagKw, .floatKw, .forKw, .fromKw, .functionKw, .ifKw,
   .importKw, .intKw, .lockKw, .namespaceKw, .strKw, .sysflagKw, .switchKw, .returnKw, .talkKw,
   .trueKw, .unlessKw]

/-- The keywords behind the star. -/
def lateKeywords : List Keyword := [.withKw, .whileKw]

end Vocabulary

open Vocabulary in
/-- The vocabulary, in order of precedence. -/
def vocabulary : List Spelling :=
  marks.map ofMark ++
  ([⟨.token .string, IsString⟩,
    ⟨.token .comparator, IsComparator⟩,
    ⟨.blank, IsLineComment⟩,
    ⟨.blank, IsBlockComment⟩,
    ⟨.token .number, IsNumber⟩,
    ⟨.blank, IsLineEnd⟩,
    ⟨.blank, IsSpace⟩] ++
   keywords.map ofKeyword ++
   ofMark .star ::
   (lateKeywords.map ofKeyword ++
    [⟨.token .scopedName, IsScopedName⟩,
     ⟨.token .name, IsName⟩]))

/-! ### The texts of the patterns -/

namespace Lexicon

open Pattern Vocabulary

variable {w t b : List Char}

theorem matches_name_iff : Matches name w ↔ IsName w := by
  rw [name, matches_seq_iff]
  simp only [matches_one_iff, matches_many_one_iff, Bool.or_eq_true]
  constructor
  · rintro ⟨_, v, ⟨c, hc, rfl⟩, hv, rfl⟩
    exact ⟨c, v, rfl, hc, hv⟩
  · rintro ⟨c, v, rfl, hc, hv⟩
    exact ⟨[c], v, ⟨c, hc, rfl⟩, hv, rfl⟩

theorem matches_colonName_iff :
    Matches (.seq (literal "::") name) w ↔ ∃ n, IsName n ∧ w = ':' :: ':' :: n := by
  rw [matches_seq_iff]
  simp only [matches_literal_iff, matches_name_iff]
  constructor
  · rintro ⟨_, n, rfl, hn, rfl⟩
    exact ⟨n, hn, rfl⟩
  · rintro ⟨n, hn, rfl⟩
    exact ⟨_, n, rfl, hn, rfl⟩

theorem matches_scopedName_iff : Matches scopedName w ↔ IsScopedName w := by
  rw [scopedName, many1, matches_seq_iff]
  simp only [matches_name_iff]
  constructor
  · rintro ⟨first, _, hfirst, htail, rfl⟩
    obtain ⟨u, v, hu, hv, rfl⟩ := matches_seq_iff.mp htail
    obtain ⟨second, hsecond, rfl⟩ := matches_colonName_iff.mp hu
    obtain ⟨parts, hparts, rfl⟩ := matches_many_iff.mp hv
    have hmore : ∃ more : List (List Char), (∀ n ∈ more, IsName n) ∧
        parts.flatten = more.flatMap (':' :: ':' :: ·) := by
      clear hv htail
      induction parts with
      | nil => exact ⟨[], by simp, rfl⟩
      | cons u parts ih =>
        obtain ⟨hfront, hrest⟩ := List.forall_mem_cons.mp hparts
        obtain ⟨n, hn, rfl⟩ := matches_colonName_iff.mp hfront
        obtain ⟨more, hmore, heq⟩ := ih hrest
        exact ⟨n :: more, List.forall_mem_cons.mpr ⟨hn, hmore⟩, by simp [heq]⟩
    obtain ⟨more, hmore, heq⟩ := hmore
    exact ⟨first, second :: more, hfirst, by simp,
      List.forall_mem_cons.mpr ⟨hsecond, hmore⟩, by simp [heq]⟩
  · rintro ⟨first, more, hfirst, hne, hmore, rfl⟩
    obtain ⟨second, more, rfl⟩ := List.exists_cons_of_ne_nil hne
    obtain ⟨hsecond, hmore⟩ := List.forall_mem_cons.mp hmore
    refine ⟨first, _, hfirst, .seq (matches_colonName_iff.mpr ⟨second, hsecond, rfl⟩)
      (matches_many_iff.mpr ⟨more.map (':' :: ':' :: ·), fun u hu => ?_, rfl⟩),
      by simp [List.flatMap]⟩
    obtain ⟨n, hn, rfl⟩ := List.mem_map.mp hu
    exact matches_colonName_iff.mpr ⟨n, hmore n hn, rfl⟩

theorem matches_number_iff : Matches number w ↔ IsNumber w := by
  rw [number, matches_seq_iff]
  constructor
  · rintro ⟨sign, v, hsign, hv, rfl⟩
    obtain ⟨whole, part, hwhole, hpart, rfl⟩ := matches_seq_iff.mp hv
    refine ⟨sign, whole, part, ?_, matches_many1_one_iff.mp hwhole, ?_, by simp⟩
    · exact (matches_optional_iff.mp hsign).imp_right matches_char_iff.mp
    · refine (matches_optional_iff.mp hpart).imp_right fun h => ?_
      obtain ⟨dot, digits, hdot, hdigits, rfl⟩ := matches_seq_iff.mp h
      rw [matches_char_iff.mp hdot]
      exact ⟨digits, matches_many1_one_iff.mp hdigits, rfl⟩
  · rintro ⟨sign, whole, part, hsign, hwhole, hpart, rfl⟩
    refine ⟨sign, whole ++ part, matches_optional_iff.mpr (hsign.imp_right matches_char_iff.mpr),
      .seq (matches_many1_one_iff.mpr hwhole) (matches_optional_iff.mpr ?_), by simp⟩
    refine hpart.imp_right fun ⟨digits, hdigits, h⟩ => ?_
    rw [h]
    exact .seq (matches_char_iff.mpr rfl) (matches_many1_one_iff.mpr hdigits)

theorem matches_string_iff : Matches string w ↔ IsString w := by
  simp only [string, matches_seq_iff, matches_one_iff, matches_many_one_iff]
  constructor
  · rintro ⟨_, _, ⟨c, hc, rfl⟩, ⟨body, _, hbody, ⟨d, hd, rfl⟩, rfl⟩, rfl⟩
    refine ⟨body, fun h => ?_, ?_⟩
    · simpa using hbody _ h
    · simp [beq_iff_eq.mp hc, beq_iff_eq.mp hd]
  · rintro ⟨body, hbody, rfl⟩
    refine ⟨_, _, ⟨'\'', rfl, rfl⟩, ⟨body, _, fun c hc => ?_, ⟨'\'', rfl, rfl⟩, rfl⟩, rfl⟩
    exact bne_iff_ne.mpr fun h => hbody (h ▸ hc)

theorem matches_comparator_iff : Matches comparator w ↔ IsComparator w := by
  simp only [comparator, matches_anyOf_iff, List.mem_map]
  constructor
  · rintro ⟨_, ⟨text, htext, rfl⟩, hw⟩
    exact ⟨text, htext, matches_literal_iff.mp hw⟩
  · rintro ⟨text, htext, hw⟩
    exact ⟨_, ⟨text, htext, rfl⟩, matches_literal_iff.mpr hw⟩

theorem matches_lineComment_iff : Matches lineComment w ↔ IsLineComment w := by
  rw [lineComment, matches_seq_iff]
  simp only [matches_literal_iff, matches_many_one_iff, Bool.and_eq_true, bne_iff_ne]
  constructor
  · rintro ⟨_, body, rfl, hbody, rfl⟩
    exact ⟨body, hbody, rfl⟩
  · rintro ⟨body, hbody, rfl⟩
    exact ⟨_, body, rfl, hbody, rfl⟩

theorem matches_blank_iff : Matches blank w ↔ IsLineEnd w ∨ IsSpace w := by
  simp only [blank, matches_one_iff, Bool.or_eq_true, beq_iff_eq]
  constructor
  · rintro ⟨c, ((rfl | rfl) | rfl) | rfl, rfl⟩
    · exact .inl (.inl rfl)
    · exact .inl (.inr rfl)
    · exact .inr (.inl rfl)
    · exact .inr (.inr rfl)
  · rintro ((rfl | rfl) | (rfl | rfl)) <;> exact ⟨_, by simp, rfl⟩

/-! ### Block comments

The pattern takes runs of stars apart from other characters. A run inside the comment goes with
the character behind it, which is no slash; so the only `*/` is made by the last run. -/

/-- What stands inside a block comment in front of its last run of stars: a character that is no
star, or a run of stars with the character behind it. -/
def chunk : Pattern :=
  .alt (.one (· != '*')) (.seq (many1 (char '*')) (.one fun c => c != '*' && c != '/'))

theorem not_infix_cons_iff {c : Char} :
    ¬ ['*', '/'] <:+: c :: t ↔ ¬ ['*', '/'] <:+: t ∧ ¬ (c = '*' ∧ ∃ u, t = '/' :: u) := by
  rw [List.infix_cons_iff, List.prefix_cons_iff, not_or, and_comm]
  refine and_congr_right fun _ => not_congr ?_
  constructor
  · rintro (h | ⟨u, h, v, rfl⟩)
    · cases h
    · obtain ⟨rfl, rfl⟩ := List.cons.inj h
      exact ⟨rfl, v, rfl⟩
  · rintro ⟨rfl, u, rfl⟩
    exact .inr ⟨['/'], rfl, u, rfl⟩

theorem matches_stars_iff : Matches (many1 (char '*')) w ↔ ∃ n, w = List.replicate (n + 1) '*' := by
  rw [char, matches_many1_one_iff]
  constructor
  · rintro ⟨hne, hw⟩
    obtain ⟨c, v, rfl⟩ := List.exists_cons_of_ne_nil hne
    exact ⟨v.length, List.eq_replicate_iff.mpr ⟨rfl, fun d hd => beq_iff_eq.mp (hw d hd)⟩⟩
  · rintro ⟨n, rfl⟩
    exact ⟨by simp, fun c hc => beq_iff_eq.mpr (List.eq_of_mem_replicate hc)⟩

/-- Stars in front of a text without `*/` make one only if the text begins with a slash. -/
theorem not_infix_stars_append (n : Nat) (ht : ¬ ['*', '/'] <:+: t) (hslash : ∀ u, t ≠ '/' :: u) :
    ¬ ['*', '/'] <:+: List.replicate n '*' ++ t := by
  induction n with
  | zero => exact ht
  | succ n ih =>
    rw [List.replicate_succ, List.cons_append, not_infix_cons_iff]
    refine ⟨ih, fun ⟨_, u, hu⟩ => ?_⟩
    cases n with
    | zero => exact hslash u hu
    | succ n => cases hu

theorem not_infix_of_chunk (hw : Matches chunk w) (ht : ¬ ['*', '/'] <:+: t) :
    ¬ ['*', '/'] <:+: w ++ t := by
  rcases matches_alt_iff.mp hw with h | h
  · obtain ⟨c, hc, rfl⟩ := matches_one_iff.mp h
    exact not_infix_cons_iff.mpr ⟨ht, fun h => bne_iff_ne.mp hc h.1⟩
  · obtain ⟨stars, _, hstars, hlast, rfl⟩ := matches_seq_iff.mp h
    obtain ⟨n, rfl⟩ := matches_stars_iff.mp hstars
    obtain ⟨c, hc, rfl⟩ := matches_one_iff.mp hlast
    simp only [Bool.and_eq_true, bne_iff_ne] at hc
    rw [List.append_assoc]
    refine not_infix_stars_append _ (not_infix_cons_iff.mpr ⟨ht, fun h => hc.1 h.1⟩) fun u hu => ?_
    exact hc.2 (List.cons.inj hu).1

theorem not_infix_of_chunks (hb : Matches (.many chunk) b) (ht : ¬ ['*', '/'] <:+: t) :
    ¬ ['*', '/'] <:+: b ++ t := by
  obtain ⟨parts, hparts, rfl⟩ := matches_many_iff.mp hb
  clear hb
  induction parts with
  | nil => exact ht
  | cons u parts ih =>
    obtain ⟨hu, hparts⟩ := List.forall_mem_cons.mp hparts
    rw [List.flatten_cons, List.append_assoc]
    exact not_infix_of_chunk hu (ih hparts)

/-- A text without `*/` comes apart into chunks and a last run of stars. The induction is on the
text behind the stars that have been met last. -/
theorem exists_chunks (n : Nat) (h : ¬ ['*', '/'] <:+: List.replicate n '*' ++ w) :
    ∃ u m, Matches (.many chunk) u ∧ List.replicate n '*' ++ w = u ++ List.replicate m '*' := by
  induction w generalizing n with
  | nil => exact ⟨[], n, .done, by simp⟩
  | cons c w ih =>
    by_cases hc : c = '*'
    · -- One more star.
      have hmore : List.replicate n '*' ++ c :: w = List.replicate (n + 1) '*' ++ w := by
        rw [hc, List.replicate_succ', List.append_assoc]
        rfl
      rw [hmore] at h ⊢
      exact ih (n + 1) h
    · -- A chunk ends here, and the stars begin anew.
      have hw : ¬ ['*', '/'] <:+: List.replicate 0 '*' ++ w := fun hw =>
        h (hw.trans ⟨List.replicate n '*' ++ [c], [], by simp⟩)
      obtain ⟨u, m, hu, hrest⟩ := ih 0 hw
      rw [List.replicate_zero, List.nil_append] at hrest
      have hchunk : Matches chunk (List.replicate n '*' ++ [c]) := by
        cases n with
        | zero => exact .left (.one (bne_iff_ne.mpr hc))
        | succ n =>
          refine .right (.seq (matches_stars_iff.mpr ⟨n, rfl⟩) (.one ?_))
          rw [Bool.and_eq_true, bne_iff_ne, bne_iff_ne]
          refine ⟨hc, fun hslash => h ⟨List.replicate n '*', w, ?_⟩⟩
          rw [hslash, List.replicate_succ']
          simp
      exact ⟨_, m, .more hchunk hu, by simp [hrest]⟩

theorem matches_blockComment_iff : Matches blockComment w ↔ IsBlockComment w := by
  have hpattern : blockComment = .seq (literal "/*")
      (.seq (.many chunk) (.seq (many1 (char '*')) (char '/'))) := rfl
  rw [hpattern]
  simp only [matches_seq_iff, matches_literal_iff, matches_char_iff]
  constructor
  · rintro ⟨_, _, rfl, ⟨b, _, hb, ⟨stars, _, hstars, rfl, rfl⟩, rfl⟩, rfl⟩
    obtain ⟨n, rfl⟩ := matches_stars_iff.mp hstars
    refine ⟨b ++ List.replicate n '*', not_infix_of_chunks hb ?_, by simp [List.replicate_succ']⟩
    exact List.append_nil (List.replicate n '*') ▸ not_infix_stars_append n (by simp) (by simp)
  · rintro ⟨body, hbody, rfl⟩
    obtain ⟨u, m, hu, hsplit⟩ := exists_chunks 0 hbody
    rw [List.replicate_zero, List.nil_append] at hsplit
    refine ⟨_, _, rfl, ⟨u, _, hu, ⟨_, _, matches_stars_iff.mpr ⟨m, rfl⟩, rfl, rfl⟩, rfl⟩, ?_⟩
    simp [hsplit, List.replicate_succ']

end Lexicon

/-! ### The same classes -/

variable {s : Spelling} {l l' m m' : List Spelling} {w : List Char} {cls cls' : LexClass}

/-- A text has one class. -/
theorem Names.unique (h : Names l w cls) (h' : Names l w cls') : cls = cls' := by
  induction l with
  | nil => exact h.elim
  | cons s l ih =>
    rcases h with ⟨hw, rfl⟩ | ⟨hw, h⟩
    · rcases h' with ⟨-, rfl⟩ | ⟨hw', -⟩
      · rfl
      · exact absurd hw hw'
    · rcases h' with ⟨hw', -⟩ | ⟨-, h'⟩
      · exact absurd hw' hw
      · exact ih h h'

theorem names_append_iff :
    Names (l ++ m) w cls ↔ Names l w cls ∨ (∀ c, ¬ Names l w c) ∧ Names m w cls := by
  induction l with
  | nil => simp [Names]
  | cons s l ih =>
    rw [List.cons_append, Names, Names, ih]
    by_cases hw : s.IsWord w
    · simp [Names, hw]
    · simp [Names, hw]

/-- Two rows of entries that name the same classes. -/
def Alike (l l' : List Spelling) : Prop := ∀ w cls, Names l w cls ↔ Names l' w cls

theorem Alike.append (hl : Alike l l') (hm : Alike m m') : Alike (l ++ m) (l' ++ m') := by
  intro w cls
  simp only [names_append_iff, hl w, hm w]

theorem alike_nil : Alike [] [] := fun _ _ => Iff.rfl

theorem alike_cons {s' : Spelling} (hcls : s.cls = s'.cls) (hword : ∀ w, s.IsWord w ↔ s'.IsWord w)
    (hl : Alike l l') : Alike (s :: l) (s' :: l') := by
  intro w cls
  rw [Names, Names, hcls, hword, hl]

theorem alike_map {α : Type} {f g : α → Spelling} (hcls : ∀ a, (f a).cls = (g a).cls)
    (hword : ∀ a w, (f a).IsWord w ↔ (g a).IsWord w) (as : List α) :
    Alike (as.map f) (as.map g) := by
  induction as with
  | nil => exact alike_nil
  | cons a as ih => exact alike_cons (hcls a) (hword a) ih

/-- An entry may be moved back over entries that have no word in common with it. -/
theorem names_move_iff (h : s.IsWord w → ∀ c, ¬ Names l w c) :
    Names (s :: l ++ m) w cls ↔ Names (l ++ s :: m) w cls := by
  rw [List.cons_append, Names, names_append_iff, names_append_iff, Names]
  by_cases hw : s.IsWord w
  · simp [hw, h hw]
  · simp [hw]

theorem Names.exists_spelling (h : Names l w cls) : ∃ s ∈ l, s.cls = cls ∧ s.IsWord w := by
  induction l with
  | nil => exact h.elim
  | cons s l ih =>
    rcases h with ⟨hword, hcls⟩ | ⟨-, h⟩
    · exact ⟨s, List.mem_cons_self, hcls, hword⟩
    · obtain ⟨s, hs, hrest⟩ := ih h
      exact ⟨s, List.mem_cons_of_mem _ hs, hrest⟩

namespace Lexicon

open Pattern Vocabulary

/-- The entry of a mark. -/
def ofMark (m : Mark) : LexRule := ⟨.token (.mark m), .literal m.text⟩

/-- The entry of a keyword. -/
def ofKeyword (k : Keyword) : LexRule := ⟨.token (.keyword k), .literal k.text⟩

/-- The entries that the star stands in front of in the lexicon and behind in the vocabulary. -/
def passed : List LexRule :=
  [⟨.token .string, string⟩, ⟨.token .comparator, comparator⟩, ⟨.blank, lineComment⟩,
   ⟨.blank, blockComment⟩, ⟨.token .number, number⟩, ⟨.blank, blank⟩] ++ keywords.map ofKeyword

theorem not_names_passed (w : List Char) (hw : (ofMark .star).spelling.IsWord w) (cls : LexClass) :
    ¬ Names (passed.map LexRule.spelling) w cls := by
  intro h
  obtain rfl : w = ['*'] := matches_literal_iff.mp hw
  obtain ⟨_, hs, -, hword⟩ := h.exists_spelling
  obtain ⟨r, hr, rfl⟩ := List.mem_map.mp hs
  have hnot : passed.all (fun r => !(r.pattern.deriv '*').nullable) = true := by decide
  have hnull := List.all_eq_true.mp hnot r hr
  rw [nullable_iff.mpr (matches_deriv_iff.mpr hword)] at hnull
  cases hnull

theorem alike_marks (ms : List Mark) :
    Alike ((ms.map ofMark).map LexRule.spelling) (ms.map Vocabulary.ofMark) := by
  rw [List.map_map]
  exact alike_map (f := LexRule.spelling ∘ ofMark) (g := Vocabulary.ofMark) (fun _ => rfl)
    (fun _ _ => matches_literal_iff) ms

theorem alike_keywords (ks : List Keyword) :
    Alike ((ks.map ofKeyword).map LexRule.spelling) (ks.map Vocabulary.ofKeyword) := by
  rw [List.map_map]
  exact alike_map (f := LexRule.spelling ∘ ofKeyword) (g := Vocabulary.ofKeyword) (fun _ => rfl)
    (fun _ _ => matches_literal_iff) ks

/-- The one entry for blanks stands for two. -/
theorem alike_blank : Alike [⟨.blank, blank.Matches⟩] [⟨.blank, IsLineEnd⟩, ⟨.blank, IsSpace⟩] := by
  intro w cls
  simp only [Names, matches_blank_iff]
  by_cases h : IsLineEnd w <;> simp [h]

end Lexicon

open Lexicon Pattern in
/-- **Lexicon and vocabulary name the same classes.** -/
theorem names_lexicon_iff (w : List Char) (cls : LexClass) :
    Names (lexicon.map LexRule.spelling) w cls ↔ Names vocabulary w cls := by
  have hlexicon : lexicon.map LexRule.spelling =
      (Vocabulary.marks.map ofMark).map LexRule.spelling ++
      ((ofMark .star).spelling :: passed.map LexRule.spelling ++
      ((Vocabulary.lateKeywords.map ofKeyword).map LexRule.spelling ++
        [⟨.token .scopedName, scopedName.Matches⟩, ⟨.token .name, name.Matches⟩])) := rfl
  have hpassed : passed.map LexRule.spelling =
      [⟨.token .string, string.Matches⟩, ⟨.token .comparator, comparator.Matches⟩,
       ⟨.blank, lineComment.Matches⟩, ⟨.blank, blockComment.Matches⟩,
       ⟨.token .number, number.Matches⟩, ⟨.blank, blank.Matches⟩] ++
      (Vocabulary.keywords.map ofKeyword).map LexRule.spelling := rfl
  rw [hlexicon, names_append_iff, names_move_iff (not_names_passed w), ← names_append_iff, hpassed]
  refine (alike_marks _).append ((Alike.append ?_ (alike_keywords _)).append ?_) w cls
  · exact alike_cons rfl (fun _ => matches_string_iff) <|
      alike_cons rfl (fun _ => matches_comparator_iff) <|
      alike_cons rfl (fun _ => matches_lineComment_iff) <|
      alike_cons rfl (fun _ => matches_blockComment_iff) <|
      alike_cons rfl (fun _ => matches_number_iff) alike_blank
  · refine alike_cons rfl (fun _ => matches_literal_iff) ((alike_keywords _).append ?_)
    exact alike_cons rfl (fun _ => matches_scopedName_iff) <|
      alike_cons rfl (fun _ => matches_name_iff) alike_nil

end EvScript
