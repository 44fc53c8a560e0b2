import Mathlib.Data.List.Induction
import EvScript.Proofs.Token.Munch

/-!
# Every Character Is Accounted for

The pieces of a text are its tokens, the comments and blanks between them, and the texts that were
dropped. They lie side by side, from the beginning of the text to its end, and none is empty. The
lines and columns that are counted along are said here of the text alone: the line is one more than
the number of line feeds in front, the column the number of characters behind the last of them.

## Main results

* `script_tiles_text` — the pieces of a text lie side by side and cover it.
-/

namespace EvScript

/-! ### Spans -/

/-- A stretch of a text: from the offset `first` up to the offset `past`, which is not in it. -/
structure Span where
  first : Nat
  past : Nat
  deriving DecidableEq, Repr

/-- The offset lies in the span. -/
def Span.covers (s : Span) (i : Nat) : Bool := s.first ≤ i && i < s.past

/-- `Tiles a spans b`: the spans are not empty and lie side by side, in order, from `a` to `b`. -/
def Tiles : Nat → List Span → Nat → Prop
  | a, [], b => a = b
  | a, s :: ss, b => s.first = a ∧ s.first < s.past ∧ Tiles s.past ss b

variable {a b i : Nat} {ss : List Span}

theorem Tiles.le (h : Tiles a ss b) : a ≤ b := by
  induction ss generalizing a with
  | nil => exact Nat.le_of_eq h
  | cons s ss ih =>
    obtain ⟨rfl, hlt, hrest⟩ := h
    have := ih hrest
    omega

/-- **Without gap or overlap**: one span covers an offset between the ends, and none covers
another. -/
theorem Tiles.countP_covers (h : Tiles a ss b) (i : Nat) :
    ss.countP (·.covers i) = if a ≤ i ∧ i < b then 1 else 0 := by
  induction ss generalizing a with
  | nil =>
    obtain rfl : a = b := h
    rw [List.countP_nil, if_neg (by omega)]
  | cons s ss ih =>
    obtain ⟨rfl, hlt, hrest⟩ := h
    have hle := hrest.le
    rw [List.countP_cons, ih hrest]
    simp only [Span.covers, Bool.and_eq_true, decide_eq_true_eq]
    split <;> split <;> split <;> omega

/-- The characters of a span. -/
def slice (cs : List Char) (s : Span) : List Char := (cs.drop s.first).take (s.past - s.first)

/-- The span of a piece. -/
def Piece.span (p : Piece) : Span := ⟨p.offset, p.offset + p.text.length⟩

/-- The span of a token. -/
def Token.span (t : Token) : Span := ⟨t.offset, t.offset + t.size⟩

/-- The span of a dropped text. -/
def LexError.span (e : LexError) : Span := ⟨e.offset, e.offset + e.text.length⟩

/-! ### Places -/

/-- The place of an offset in a text: one line more than there are line feeds in front of it, and as
many columns as there are characters behind the last of these. -/
def Pos.ofOffset (cs : List Char) (n : Nat) : Pos :=
  ⟨1 + (cs.take n).count '\n', ((cs.take n).reverse.takeWhile (· != '\n')).length⟩

/-- Counting along a text comes to the place behind it. The induction takes the last character off:
it alone decides whether the column starts again. -/
theorem foldl_next_start (cs : List Char) :
    cs.foldl Pos.next .start = ⟨1 + cs.count '\n', (cs.reverse.takeWhile (· != '\n')).length⟩ := by
  induction cs using List.reverseRecOn with
  | nil => rfl
  | append_singleton cs c ih =>
    rw [List.foldl_append, ih, List.foldl_cons, List.foldl_nil, List.count_append,
      List.reverse_append, List.reverse_singleton, List.singleton_append]
    by_cases hc : c = '\n'
    · simp [Pos.next, hc, Nat.add_assoc]
    · simp [Pos.next, hc]

theorem Pos.ofOffset_append (u cs : List Char) :
    Pos.ofOffset (u ++ cs) u.length = u.foldl Pos.next .start := by
  rw [foldl_next_start, Pos.ofOffset, List.take_left]

/-! ### The pieces of a cut -/

variable {pos : Pos} {offset : Nat} {cs : List Char} {ps : List Piece}

/-- The pieces of a cut lie side by side. -/
theorem Cut.tiles (h : Cut pos offset cs ps) :
    Tiles offset (ps.map Piece.span) (offset + cs.length) := by
  induction h with
  | done => exact rfl
  | @piece pos offset cs form n ps hne hf _ ih =>
    have hpos := hf.pos hne
    have hle := hf.le_length
    have hsize : (cs.take n).length = n := List.length_take_of_le hle
    refine ⟨rfl, ?_, ?_⟩
    · simp only [Piece.span, hsize]
      omega
    · have hend : offset + n + (cs.drop n).length = offset + cs.length := by
        rw [List.length_drop]
        omega
      rw [hend] at ih
      simpa only [Piece.span, hsize] using ih

/-- The piece is made of the characters of the text that it spans and tells the place where it
starts; if it was passed over, it is a word of a blank entry. -/
structure Piece.Fits (cs : List Char) (p : Piece) : Prop where
  text : p.text = slice cs p.span
  pos : p.pos = .ofOffset cs p.offset
  blank : p.form = .taken .blank → Names vocabulary p.text .blank

/-- **Each piece of a cut is where it says it is**, in the whole text: what was cut before is
`u`. -/
theorem Cut.fits {u : List Char} (h : Cut (u.foldl Pos.next .start) u.length cs ps) :
    ∀ p ∈ ps, p.Fits (u ++ cs) := by
  obtain ⟨pos, hpos⟩ : ∃ pos, pos = u.foldl Pos.next .start := ⟨_, rfl⟩
  obtain ⟨offset, hoffset⟩ : ∃ offset, offset = u.length := ⟨_, rfl⟩
  rw [← hpos, ← hoffset] at h
  induction h generalizing u with
  | done => exact fun p hp => absurd hp List.not_mem_nil
  | @piece pos offset cs form n ps hne hf _ ih =>
    subst hpos hoffset
    have hsize : (cs.take n).length = n := List.length_take_of_le hf.le_length
    refine List.forall_mem_cons.mpr ⟨⟨?_, ?_, ?_⟩, ?_⟩
    · simp only [slice, Piece.span, List.drop_left, Nat.add_sub_cancel_left, hsize]
    · exact (Pos.ofOffset_append u cs).symm
    · rintro rfl
      exact hf.2.2.1
    · have hrest := ih (u := u ++ cs.take n) (List.foldl_append ..).symm
        (by rw [List.length_append, hsize])
      rwa [List.append_assoc, List.take_append_drop] at hrest

/-! ### Tokens, blanks and dropped texts -/

/-- The piece is a comment or a blank. -/
def Piece.isBlank (p : Piece) : Bool := p.form = .taken .blank

/-- The comments and blanks of a text. -/
def skipped (cs : List Char) : List Piece := (pieces cs).filter Piece.isBlank

theorem Piece.span_of_token? {p : Piece} {t : Token} (h : p.token? = some t) :
    t.span = p.span ∧ t.pos = p.pos ∧ t.text = String.ofList p.text := by
  unfold token? at h
  split at h
  · cases h
    exact ⟨rfl, rfl, rfl⟩
  · cases h

theorem Piece.span_of_error? {p : Piece} {e : LexError} (h : p.error? = some e) :
    e.span = p.span ∧ e.pos = p.pos ∧ e.text = p.text := by
  unfold error? at h
  split at h
  · cases h
    exact ⟨rfl, rfl, rfl⟩
  · cases h

/-- Every piece is of one of the three kinds. -/
theorem perm_spans (ps : List Piece) : (ps.map Piece.span).Perm
    ((ps.filterMap Piece.token?).map Token.span ++ (ps.filter Piece.isBlank).map Piece.span ++
      (ps.filterMap Piece.error?).map LexError.span) := by
  induction ps with
  | nil => exact .refl _
  | cons p ps ih =>
    obtain ⟨form, text, pos, offset⟩ := p
    rcases form with ⟨kind | _⟩ | _
    · exact ih.cons _
    · refine (ih.cons _).trans ?_
      rw [List.append_assoc, List.append_assoc]
      exact List.perm_middle.symm
    · exact (ih.cons _).trans List.perm_middle.symm

/-- **Every character is accounted for.** The spans of the tokens, of the comments and blanks and of
the dropped texts of a text, in order of position, lie side by side from 0 to its length `n`, none
is empty, and every offset below `n` is covered by exactly one. Each of them is made of the
characters that it spans; what was passed over is a comment or a blank. The last token is the end
of the text, at `n`. The places of tokens and errors are those of their offsets. -/
theorem script_tiles_text (text : String) : ∃ spans,
    spans.Perm ((Script.ofText text).tokens.map Token.span ++
      (skipped text.toList).map Piece.span ++ (Script.ofText text).errors.map LexError.span) ∧
    Tiles 0 spans text.length ∧
    (∀ i, spans.countP (·.covers i) = if i < text.length then 1 else 0) ∧
    (∀ t ∈ (Script.ofText text).tokens,
      t.text = String.ofList (slice text.toList t.span) ∧ t.pos = .ofOffset text.toList t.offset) ∧
    (∀ p ∈ skipped text.toList,
      p.text = slice text.toList p.span ∧ Names vocabulary p.text .blank) ∧
    (∀ e ∈ (Script.ofText text).errors,
      e.text = slice text.toList e.span ∧ e.pos = .ofOffset text.toList e.offset) ∧
    (Script.ofText text).finish =
      ⟨.finish, "<EOF>", .ofOffset text.toList text.length, text.length, 0⟩ := by
  have hcut : Cut .start 0 text.toList (pieces text.toList) := cut_piecesFrom _ _ _
  have hlength : text.toList.length = text.length := String.length_toList
  have htiles : Tiles 0 ((pieces text.toList).map Piece.span) text.length := by
    have h := hcut.tiles
    rwa [Nat.zero_add, hlength] at h
  have hfits : ∀ p ∈ pieces text.toList, p.Fits text.toList := Cut.fits (u := []) hcut
  refine ⟨_, perm_spans _, htiles, fun i => ?_, fun t ht => ?_, fun p hp => ?_, fun e he => ?_, ?_⟩
  · simpa using htiles.countP_covers i
  · obtain ⟨p, hp, htoken⟩ := List.mem_filterMap.mp ht
    obtain ⟨hspan, hpos, htext⟩ := Piece.span_of_token? htoken
    have hoffset : t.offset = p.offset := congrArg Span.first hspan
    rw [htext, hspan, hpos, hoffset, ← (hfits p hp).text]
    exact ⟨rfl, (hfits p hp).pos⟩
  · obtain ⟨hp, hblank⟩ := List.mem_filter.mp hp
    exact ⟨(hfits p hp).text, (hfits p hp).blank (of_decide_eq_true hblank)⟩
  · obtain ⟨p, hp, herror⟩ := List.mem_filterMap.mp he
    obtain ⟨hspan, hpos, htext⟩ := Piece.span_of_error? herror
    have hoffset : e.offset = p.offset := congrArg Span.first hspan
    rw [htext, hspan, hpos, hoffset]
    exact ⟨(hfits p hp).text, (hfits p hp).pos⟩
  · have hplace : Pos.ofOffset text.toList text.length = text.toList.foldl Pos.next .start := by
      have h := Pos.ofOffset_append text.toList []
      rwa [List.append_nil, hlength] at h
    rw [hplace, ← hlength]
    rfl

end EvScript
