import Mathlib.Tactic.Common
import EvScript.Token.Pattern

/-!
# The Texts of a Pattern

A pattern is nullable exactly if it describes the empty text, and `deriv c p` describes the rests of
the texts of `p` behind a first `c`. A pattern is **live** if no part of it is dead. A live pattern
describes some text, and its derivatives are live or `none`.
-/

namespace EvScript.Pattern

variable {p q : Pattern} {cls : Char → Bool} {c : Char} {w : List Char}

/-! ### Texts of composed patterns -/

theorem not_matches_none : ¬ Matches .none w := nofun

theorem matches_empty_iff : Matches .empty w ↔ w = [] := by
  constructor
  · rintro ⟨⟩
    rfl
  · rintro rfl
    exact .empty

theorem matches_one_iff : Matches (.one cls) w ↔ ∃ c, cls c = true ∧ w = [c] := by
  constructor
  · rintro (_ | hc)
    exact ⟨_, hc, rfl⟩
  · rintro ⟨c, hc, rfl⟩
    exact .one hc

theorem matches_seq_iff : Matches (.seq p q) w ↔ ∃ u v, Matches p u ∧ Matches q v ∧ w = u ++ v := by
  constructor
  · rintro ⟨⟩
    exact ⟨_, _, ‹_›, ‹_›, rfl⟩
  · rintro ⟨u, v, hu, hv, rfl⟩
    exact .seq hu hv

theorem matches_alt_iff : Matches (.alt p q) w ↔ Matches p w ∨ Matches q w := by
  constructor
  · rintro (_ | _ | _ | h | h)
    · exact .inl h
    · exact .inr h
  · rintro (h | h)
    · exact .left h
    · exact .right h

theorem matches_many_iff :
    Matches (.many p) w ↔ ∃ parts : List (List Char), (∀ u ∈ parts, Matches p u) ∧
      w = parts.flatten := by
  constructor
  · intro h
    generalize hm : Pattern.many p = m at h
    induction h with
    | done => exact ⟨[], by simp, rfl⟩
    | more hu _ _ ih =>
      obtain ⟨parts, hparts, rfl⟩ := ih hm
      cases hm
      exact ⟨_ :: parts, List.forall_mem_cons.mpr ⟨hu, hparts⟩, rfl⟩
    | _ => cases hm
  · rintro ⟨parts, hparts, rfl⟩
    induction parts with
    | nil => exact .done
    | cons u parts ih =>
      obtain ⟨hu, hparts⟩ := List.forall_mem_cons.mp hparts
      exact .more hu (ih hparts)

theorem matches_char_iff : Matches (char c) w ↔ w = [c] := by
  simp [char, matches_one_iff]

theorem matches_literal_iff {text : String} : Matches (literal text) w ↔ w = text.toList := by
  unfold literal
  generalize text.toList = cs
  induction cs generalizing w with
  | nil => exact matches_empty_iff
  | cons c cs ih =>
    rw [List.foldr_cons, matches_seq_iff]
    simp only [matches_char_iff, ih]
    constructor
    · rintro ⟨u, v, rfl, rfl, rfl⟩
      rfl
    · rintro rfl
      exact ⟨[c], cs, rfl, rfl, rfl⟩

theorem matches_anyOf_iff {ps : List Pattern} : Matches (anyOf ps) w ↔ ∃ p ∈ ps, Matches p w := by
  induction ps with
  | nil => simp [anyOf, not_matches_none]
  | cons p ps ih => simp [anyOf, matches_alt_iff, ih]

theorem matches_optional_iff : Matches (optional p) w ↔ w = [] ∨ Matches p w := by
  rw [optional, matches_alt_iff, matches_empty_iff, or_comm]

/-- A repeated class describes the texts with all characters in the class. -/
theorem matches_many_one_iff : Matches (.many (.one cls)) w ↔ ∀ c ∈ w, cls c = true := by
  constructor
  · intro h
    obtain ⟨parts, hparts, rfl⟩ := matches_many_iff.mp h
    intro c hc
    obtain ⟨u, hu, hc⟩ := List.mem_flatten.mp hc
    obtain ⟨d, hd, rfl⟩ := matches_one_iff.mp (hparts u hu)
    rwa [List.mem_singleton.mp hc]
  · intro h
    induction w with
    | nil => exact .done
    | cons c w ih =>
      obtain ⟨hc, hw⟩ := List.forall_mem_cons.mp h
      exact .more (.one hc) (ih hw)

theorem matches_many1_one_iff : Matches (many1 (.one cls)) w ↔ w ≠ [] ∧ ∀ c ∈ w, cls c = true := by
  rw [many1, matches_seq_iff]
  simp only [matches_one_iff, matches_many_one_iff]
  constructor
  · rintro ⟨u, v, ⟨c, hc, rfl⟩, hv, rfl⟩
    exact ⟨by simp, List.forall_mem_cons.mpr ⟨hc, hv⟩⟩
  · rintro ⟨hne, hw⟩
    obtain ⟨c, v, rfl⟩ := List.exists_cons_of_ne_nil hne
    obtain ⟨hc, hv⟩ := List.forall_mem_cons.mp hw
    exact ⟨[c], v, ⟨c, hc, rfl⟩, hv, rfl⟩

/-! ### Nullability and derivatives -/

/-- **A pattern is nullable exactly if it describes the empty text.** -/
theorem nullable_iff : p.nullable = true ↔ Matches p [] := by
  induction p with
  | none => simp [nullable, not_matches_none]
  | empty => simp [nullable, matches_empty_iff]
  | one cls => simp [nullable, matches_one_iff]
  | seq p q ihp ihq =>
    rw [nullable, Bool.and_eq_true, ihp, ihq, matches_seq_iff]
    constructor
    · rintro ⟨hp, hq⟩
      exact ⟨[], [], hp, hq, rfl⟩
    · rintro ⟨u, v, hp, hq, huv⟩
      obtain ⟨rfl, rfl⟩ := List.append_eq_nil_iff.mp huv.symm
      exact ⟨hp, hq⟩
  | alt p q ihp ihq => rw [nullable, Bool.or_eq_true, ihp, ihq, matches_alt_iff]
  | many p ih => simp [nullable, Matches.done]

theorem matches_join_iff : Matches (join p q) w ↔ Matches (.seq p q) w := by
  unfold join
  split
  · simp [matches_seq_iff, not_matches_none]
  · simp [matches_seq_iff, not_matches_none]
  · simp [matches_seq_iff, matches_empty_iff]
  · rfl

theorem matches_either_iff : Matches (either p q) w ↔ Matches p w ∨ Matches q w := by
  unfold either
  split
  · simp [not_matches_none]
  · simp [not_matches_none]
  · exact matches_alt_iff

/-- A text of a repetition that begins with `c` begins with a non-empty part. -/
theorem matches_many_cons_iff :
    Matches (.many p) (c :: w) ↔ ∃ u v, Matches p (c :: u) ∧ Matches (.many p) v ∧ w = u ++ v := by
  constructor
  · intro h
    generalize hm : Pattern.many p = m at h
    generalize ht : c :: w = t at h
    induction h with
    | @more p' u v hu hv _ ih =>
      cases hm
      cases u with
      | nil => exact ih rfl ht
      | cons d u =>
        obtain ⟨rfl, rfl⟩ := List.cons.inj ht
        exact ⟨u, v, hu, hv, rfl⟩
    | done => cases ht
    | _ => cases hm
  · rintro ⟨u, v, hu, hv, rfl⟩
    exact .more hu hv

/-- **A derivative describes the rests** of the texts that begin with the character. -/
theorem matches_deriv_iff : Matches (p.deriv c) w ↔ Matches p (c :: w) := by
  induction p generalizing w with
  | none => simp [deriv, not_matches_none]
  | empty => simp [deriv, not_matches_none, matches_empty_iff]
  | one cls =>
    rw [deriv, matches_one_iff]
    split
    · simp_all [matches_empty_iff]
    · simp_all [not_matches_none]
  | seq p q ihp ihq =>
    -- The first character belongs to the first part, unless that part is empty.
    have hjoin : Matches (join (p.deriv c) q) w ↔
        ∃ u v, Matches p (c :: u) ∧ Matches q v ∧ w = u ++ v := by
      rw [matches_join_iff, matches_seq_iff]
      simp only [ihp]
    have hseq : Matches (.seq p q) (c :: w) ↔
        (∃ u v, Matches p (c :: u) ∧ Matches q v ∧ w = u ++ v) ∨
          Matches p [] ∧ Matches q (c :: w) := by
      rw [matches_seq_iff]
      constructor
      · rintro ⟨_ | ⟨d, u⟩, v, hu, hv, h⟩
        · exact .inr ⟨hu, by rwa [h]⟩
        · obtain ⟨rfl, rfl⟩ := List.cons.inj h
          exact .inl ⟨u, v, hu, hv, rfl⟩
      · rintro (⟨u, v, hu, hv, rfl⟩ | ⟨hp, hq⟩)
        · exact ⟨c :: u, v, hu, hv, rfl⟩
        · exact ⟨[], c :: w, hp, hq, rfl⟩
    rw [deriv, hseq, ← nullable_iff]
    split
    · next hp => rw [matches_either_iff, hjoin, ihq]; simp [hp]
    · next hp => rw [hjoin]; simp [hp]
  | alt p q ihp ihq => rw [deriv, matches_either_iff, matches_alt_iff, ihp, ihq]
  | many p ih =>
    rw [deriv, matches_join_iff, matches_seq_iff, matches_many_cons_iff]
    simp only [ih]

/-! ### Live patterns -/

/-- No part of the pattern is dead, but for the end of a row of alternatives. -/
def Live : Pattern → Prop
  | .none => False
  | .empty => True
  | .one cls => ∃ c, cls c = true
  | .seq p q => p.Live ∧ q.Live
  | .alt p q => p.Live ∧ (q = .none ∨ q.Live)
  | .many p => p.Live

theorem live_char (c : Char) : (char c).Live := ⟨c, beq_self_eq_true c⟩

theorem live_literal (text : String) : (literal text).Live := by
  unfold literal
  induction text.toList with
  | nil => trivial
  | cons c cs ih => exact ⟨live_char c, ih⟩

theorem live_anyOf {ps : List Pattern} (h : ∀ p ∈ ps, p.Live) :
    anyOf ps = .none ∨ (anyOf ps).Live := by
  induction ps with
  | nil => exact .inl rfl
  | cons p ps ih =>
    obtain ⟨hp, hps⟩ := List.forall_mem_cons.mp h
    exact .inr ⟨hp, ih hps⟩

theorem Live.exists_matches (h : p.Live) : ∃ w, Matches p w := by
  induction p with
  | none => exact h.elim
  | empty => exact ⟨[], .empty⟩
  | one cls =>
    obtain ⟨c, hc⟩ := h
    exact ⟨[c], .one hc⟩
  | seq p q ihp ihq =>
    obtain ⟨u, hu⟩ := ihp h.1
    obtain ⟨v, hv⟩ := ihq h.2
    exact ⟨u ++ v, .seq hu hv⟩
  | alt p q ihp _ =>
    obtain ⟨u, hu⟩ := ihp h.1
    exact ⟨u, .left hu⟩
  | many p _ => exact ⟨[], .done⟩

theorem live_join (hp : p = .none ∨ p.Live) (hq : q.Live) : join p q = .none ∨ (join p q).Live := by
  unfold join
  split
  · exact .inl rfl
  · exact hq.elim
  · exact .inr hq
  · next hne _ _ => exact .inr ⟨hp.resolve_left hne, hq⟩

theorem live_either (hp : p = .none ∨ p.Live) (hq : q = .none ∨ q.Live) :
    either p q = .none ∨ (either p q).Live := by
  unfold either
  split
  · exact hq
  · exact hp
  · next hnp hnq => exact .inr ⟨hp.resolve_left hnp, hq⟩

theorem Live.deriv (h : p.Live) (c : Char) : p.deriv c = .none ∨ (p.deriv c).Live := by
  induction p with
  | none => exact h.elim
  | empty => exact .inl rfl
  | one cls =>
    rw [Pattern.deriv]
    split
    · exact .inr trivial
    · exact .inl rfl
  | seq p q ihp ihq =>
    rw [Pattern.deriv]
    split
    · exact live_either (live_join (ihp h.1) h.2) (ihq h.2)
    · exact live_join (ihp h.1) h.2
  | alt p q ihp ihq =>
    refine live_either (ihp h.1) ?_
    rcases h.2 with rfl | hq
    · exact .inl rfl
    · exact ihq hq
  | many p ih => exact live_join (ih h) h

theorem isNone_iff : p.isNone = true ↔ p = .none := by
  cases p <;> simp [isNone]

end EvScript.Pattern
