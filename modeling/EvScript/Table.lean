/-!
# Ordered Tables

A table maps keys to values and remembers the order in which the keys were first put in.
Putting a value under a key that is there already replaces the value and keeps the place.
-/

namespace EvScript

/-- A table from `κ` to `α` in order of first insertion. -/
structure Table (κ α : Type) where
  entries : List (κ × α)
  deriving Repr

namespace Table

variable {κ α : Type} [DecidableEq κ]

/-- The table without entries. -/
def empty : Table κ α := ⟨[]⟩

/-- The value under a key. -/
def find? (t : Table κ α) (key : κ) : Option α :=
  (t.entries.find? fun e => e.1 == key).map (·.2)

/-- Put a value under a key: in the key's place, or behind all others. -/
def insertIn (key : κ) (value : α) : List (κ × α) → List (κ × α)
  | [] => [(key, value)]
  | e :: es => if e.1 = key then (key, value) :: es else e :: insertIn key value es

/-- Put a value under a key. -/
def insert (t : Table κ α) (key : κ) (value : α) : Table κ α :=
  ⟨insertIn key value t.entries⟩

/-- Put all entries of another table into this one, in their order. -/
def merge (t other : Table κ α) : Table κ α :=
  other.entries.foldl (fun t e => t.insert e.1 e.2) t

/-- How many entries there are. -/
def size (t : Table κ α) : Nat := t.entries.length

/-- What stands under a key that was just put in. -/
theorem find?_insert_self (t : Table κ α) (key : κ) (value : α) :
    (t.insert key value).find? key = some value := by
  obtain ⟨es⟩ := t
  simp only [insert, find?]
  induction es with
  | nil => simp [insertIn]
  | cons e es ih =>
    simp only [insertIn]
    split
    · simp
    · rename_i h
      rw [List.find?_cons_of_neg (by simpa using h)]
      exact ih

/-- Other keys keep their values. -/
theorem find?_insert_of_ne (t : Table κ α) {key other : κ} (value : α) (h : other ≠ key) :
    (t.insert key value).find? other = t.find? other := by
  obtain ⟨es⟩ := t
  simp only [insert, find?]
  congr 1
  induction es with
  | nil => simp [insertIn, Ne.symm h]
  | cons e es ih =>
    simp only [insertIn]
    split
    · rename_i he
      subst he
      rw [List.find?_cons_of_neg (by simpa using Ne.symm h),
        List.find?_cons_of_neg (by simpa using Ne.symm h)]
    · by_cases ho : e.1 = other
      · rw [List.find?_cons_of_pos (by simpa using ho),
          List.find?_cons_of_pos (by simpa using ho)]
      · rw [List.find?_cons_of_neg (by simpa using ho),
          List.find?_cons_of_neg (by simpa using ho)]
        exact ih

end Table

end EvScript
