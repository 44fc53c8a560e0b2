import Mathlib.Data.List.Nodup
import Mathlib.Tactic.Common
import EvScript.Code.Listing
import EvScript.Proofs.Number.Printing

/-!
# Names in Listings

Commands, work registers and system flags go by their names in a listing, or by their numbers.
Either way the number can be read off: within a registry no name occurs twice, and no name is a
number.

The registries have some thousands of names. That they differ is checked on numbers that are made
from their bytes, and so that few of them are compared: the list is split by one bit after the
other.
-/

namespace EvScript

open Number

variable {c : Char}

/-! ### Bytes -/

/-- The bytes of a text as numbers. -/
def bytesOf (s : String) : List Nat := s.toByteArray.data.toList.map (·.toNat)

theorem bytesOf_eq (s : String) :
    bytesOf s = (s.toList.flatMap String.utf8EncodeChar).map (·.toNat) := by
  rw [bytesOf, ← String.utf8Encode_toList, List.utf8Encode, List.toList_data_toByteArray]

theorem utf8EncodeChar_of_le (h : c.val.toNat ≤ 127) :
    (String.utf8EncodeChar c).map (·.toNat) = [c.val.toNat] := by
  rw [String.utf8EncodeChar, if_pos h, List.map_singleton, UInt8.toNat_ofNat']
  congr 1
  omega

theorem mem_bytesOf {s : String} (hc : c ∈ s.toList) (h : c.val.toNat ≤ 127) :
    c.val.toNat ∈ bytesOf s := by
  rw [bytesOf_eq, List.map_flatMap]
  exact List.mem_flatMap.mpr ⟨c, hc, utf8EncodeChar_of_le h ▸ List.mem_singleton_self _⟩

theorem exists_of_mem_bytesOf {s : String} (h : ∀ c ∈ s.toList, c.val.toNat ≤ 127) {b : Nat}
    (hb : b ∈ bytesOf s) : ∃ c ∈ s.toList, c.val.toNat = b := by
  rw [bytesOf_eq, List.map_flatMap] at hb
  obtain ⟨c, hc, hb⟩ := List.mem_flatMap.mp hb
  rw [utf8EncodeChar_of_le (h c hc), List.mem_singleton] at hb
  exact ⟨c, hc, hb.symm⟩

/-! ### Telling names apart -/

/-- The elements of the list differ: it is split along the tests, and what has come out alike is
compared. -/
def apart {α : Type} [DecidableEq α] : List (α → Bool) → List α → Bool
  | [], l => decide l.Nodup
  | test :: tests, l => apart tests (l.filter test) && apart tests (l.filter fun a => !test a)

theorem nodup_of_apart {α : Type} [DecidableEq α] {tests : List (α → Bool)} {l : List α}
    (h : apart tests l = true) : l.Nodup := by
  induction tests generalizing l with
  | nil => exact of_decide_eq_true h
  | cons test tests ih =>
    rw [apart, Bool.and_eq_true] at h
    have hperm := List.filter_append_perm test l
    refine hperm.nodup_iff.mp (List.nodup_append.mpr ⟨ih h.1, ih h.2, fun a ha b hb heq => ?_⟩)
    subst heq
    simp only [List.mem_filter, Bool.not_eq_true'] at ha hb
    rw [ha.2] at hb
    cases hb.2

/-- A number for a text. -/
def numberOf (s : String) : Nat := (bytesOf s).foldl (fun n b => n * 257 + b) 1

/-- The names differ, also from the word for no number; they have no marks in them, and something
that is no digit. -/
def wellNamed (names : List String) : Bool :=
  apart ((List.range 10).map fun i n => n.testBit i) (("None" :: names).map numberOf) &&
    names.all fun s => (bytesOf s).all (48 ≤ ·) && (bytesOf s).any (58 ≤ ·)

namespace Registry

/-- The names of a registry are no numbers, have no marks in them and occur once. -/
structure Proper (r : Registry) : Prop where
  nodup : ("None" :: r.members.map (·.2)).Nodup
  unmarked : ∀ m ∈ r.members, ∀ b ∈ bytesOf m.2, 48 ≤ b
  wordy : ∀ m ∈ r.members, ∃ b ∈ bytesOf m.2, 58 ≤ b

theorem proper_of_wellNamed {r : Registry} (h : wellNamed (r.members.map (·.2)) = true) :
    r.Proper := by
  rw [wellNamed, Bool.and_eq_true] at h
  have hall : ∀ m ∈ r.members,
      (bytesOf m.2).all (48 ≤ ·) = true ∧ (bytesOf m.2).any (58 ≤ ·) = true :=
    fun m hm => by
      have hm' := List.all_eq_true.mp h.2 m.2 (List.mem_map_of_mem hm)
      rwa [Bool.and_eq_true] at hm'
  refine ⟨(nodup_of_apart h.1).of_map, fun m hm b hb => ?_, fun m hm => ?_⟩
  · exact of_decide_eq_true (List.all_eq_true.mp (hall m hm).1 b hb)
  · obtain ⟨b, hb, hle⟩ := List.any_eq_true.mp (hall m hm).2
    exact ⟨b, hb, of_decide_eq_true hle⟩

theorem map_snd_numbered (first : Int) (names : List String) :
    (numbered first names).map (·.2) = names := by
  induction names generalizing first with
  | nil => rfl
  | cons name names ih => rw [numbered, List.map_cons, ih]

set_option maxRecDepth 100000 in
theorem command_proper : command.Proper := by
  apply proper_of_wellNamed
  rw [command, List.map_cons, map_snd_numbered]
  decide +kernel

set_option maxRecDepth 100000 in
theorem work_proper : work.Proper := by
  apply proper_of_wellNamed
  rw [work, map_snd_numbered]
  decide +kernel

set_option maxRecDepth 100000 in
theorem sysFlag_proper : sysFlag.Proper := by
  apply proper_of_wellNamed
  rw [sysFlag, map_snd_numbered]
  decide +kernel

/-! ### Names and numbers -/

variable {r : Registry} {m n : Int} {a : String}

theorem mem_of_name? (h : r.name? n = some a) : (n, a) ∈ r.members := by
  obtain ⟨e, he, rfl⟩ := Option.map_eq_some_iff.mp h
  have hn : e.1 = n := by simpa using List.find?_some he
  exact hn ▸ List.mem_of_find?_eq_some he

namespace Proper

/-- **A name gives away its number.** -/
theorem name?_inj (h : r.Proper) (hm : r.name? m = some a) (hn : r.name? n = some a) : m = n :=
  congrArg Prod.fst (List.inj_on_of_nodup_map (List.nodup_cons.mp h.nodup).2 (mem_of_name? hm)
    (mem_of_name? hn) rfl)

theorem ne_none (h : r.Proper) (hn : r.name? n = some a) : a ≠ "None" := by
  rintro rfl
  exact (List.nodup_cons.mp h.nodup).1 (List.mem_map_of_mem (mem_of_name? hn))

theorem le_of_mem (h : r.Proper) (hn : r.name? n = some a) (hc : c ∈ a.toList) :
    48 ≤ c.val.toNat := by
  by_contra hlt
  exact hlt (h.unmarked _ (mem_of_name? hn) _ (mem_bytesOf hc (by omega)))

end Proper

end Registry

/-! ### Names or numbers -/

namespace Registry.Proper

variable {r : Registry} {n : Int} {a : String}

/-- A name is no number. -/
theorem ne_toString (h : r.Proper) (hn : r.name? n = some a) (k : Int) : a ≠ toString k := by
  rintro rfl
  have hsmall : ∀ c ∈ (toString k).toList, c.val.toNat ≤ 57 := by
    intro c hc
    rcases mem_toString_int hc with hdigit | rfl
    · have hle := (Bool.and_eq_true _ _ ▸ hdigit : _ ∧ _).2
      simpa [UInt32.le_iff_toNat_le] using hle
    · decide
  obtain ⟨b, hb, hle⟩ := h.wordy _ (mem_of_name? hn)
  obtain ⟨c, hc, rfl⟩ :=
    exists_of_mem_bytesOf (fun c hc => Nat.le_trans (hsmall c hc) (by decide)) hb
  have := hsmall c hc
  omega

/-- **A register or flag gives away its number** in a listing. -/
theorem nameOrNumber_inj (h : r.Proper) {m n : Option Int}
    (heq : nameOrNumber r m = nameOrNumber r n) : m = n := by
  have hnone : ∀ k : Int, nameOrNumber r (some k) ≠ "None" := by
    intro k hk
    rw [nameOrNumber] at hk
    cases hname : r.name? k with
    | some a =>
      rw [hname] at hk
      exact h.ne_none hname hk
    | none =>
      rw [hname] at hk
      have hletter := mem_toString_int (n := k) (c := 'N') (by
        rw [show toString k = "None" from hk]
        simp)
      revert hletter
      decide
  cases m with
  | none =>
    cases n with
    | none => rfl
    | some n => exact absurd heq.symm (hnone n)
  | some m =>
    cases n with
    | none => exact absurd heq (hnone m)
    | some n =>
      rw [nameOrNumber, nameOrNumber] at heq
      cases hm : r.name? m with
      | some a =>
        cases hn : r.name? n with
        | some b =>
          rw [hm, hn] at heq
          obtain rfl : a = b := heq
          exact congrArg some (h.name?_inj hm hn)
        | none =>
          rw [hm, hn] at heq
          exact absurd heq (h.ne_toString hm n)
      | none =>
        cases hn : r.name? n with
        | some b =>
          rw [hm, hn] at heq
          exact absurd heq.symm (h.ne_toString hn m)
        | none =>
          rw [hm, hn] at heq
          exact congrArg some (toString_int_inj heq)

theorem not_mem_nameOrNumber (h : r.Proper) (n : Option Int)
    (hc : c = ',' ∨ c = ')') : c ∉ (nameOrNumber r n).toList := by
  intro hmem
  cases n with
  | none =>
    rcases hc with rfl | rfl <;> simp [nameOrNumber] at hmem
  | some n =>
    rw [nameOrNumber] at hmem
    cases hname : r.name? n with
    | some a =>
      rw [hname] at hmem
      have hle := h.le_of_mem hname hmem
      rcases hc with rfl | rfl <;> revert hle <;> decide
    | none =>
      rw [hname] at hmem
      rcases hc with rfl | rfl <;> rcases mem_toString_int hmem with hd | hd <;> cases hd

end Registry.Proper

end EvScript
