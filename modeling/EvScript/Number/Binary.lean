import EvScript.Number.Rounding

/-!
# Binary Floating-Point Numbers

`Binary f` is a number of the format `f`: a sign and a rank, infinity included, patterns
that are no number left out. This module has the conversions between integers, fractions,
the 64-bit and the 32-bit format, and the 32-bit words in which scripts store values.
-/

namespace EvScript.Number

attribute [local instance (high)] instPowNat

/-- A floating-point number of format `f`: its sign and the rank of its magnitude. -/
structure Binary (f : Format) where
  negative : Bool
  rank : Nat
  rank_le : rank ≤ f.infinity
  deriving DecidableEq

namespace Binary

variable {f : Format}

/-- Whether the number is one of the two infinities. -/
def isInfinite (x : Binary f) : Bool := x.rank == f.infinity

/-- The magnitude of the number, in units of the least positive value of its format. -/
def units (x : Binary f) : Nat := f.units x.rank

/-- The number of the format nearest to `± num / den`; a fraction whose rounding is past the
finite values becomes infinite. -/
def ofRatio (f : Format) (negative : Bool) (num den : Nat) : Binary f where
  negative := negative
  rank := min (f.nearest num den) f.infinity
  rank_le := Nat.min_le_right _ _

/-- The finite number of the format nearest to an integer, if there is one. -/
def ofInt? (f : Format) (n : Int) : Option (Binary f) :=
  let x := ofRatio f (decide (n < 0)) n.natAbs 1
  if x.isInfinite then none else some x

/-- The number as one of another format, infinite when it is past that format's values. -/
def convert (g : Format) (x : Binary f) : Binary g :=
  if x.isInfinite then ⟨x.negative, g.infinity, Nat.le_refl _⟩
  else ofRatio g x.negative x.units (2 ^ f.scale)

/-- A 64-bit number rounded to 32 bits. An infinity stays one; a finite number whose
rounding is not finite is refused. -/
def narrow? (x : Binary .double) : Option (Binary .single) :=
  let y := x.convert .single
  if y.isInfinite && !x.isInfinite then none else some y

end Binary

/-! ### Stored words -/

namespace Word

/-- The word that stores a 32-bit number, read as a signed integer. -/
def ofBinary (x : Binary .single) : Int :=
  if x.negative then (x.rank : Int) - 2 ^ (31 : Nat) else x.rank

/-- The number that the low 32 bits of an integer store, if they store one. -/
def toBinary? (word : Int) : Option (Binary .single) :=
  let bits := (word % 2 ^ (32 : Nat)).toNat
  let rank := bits % 2 ^ (31 : Nat)
  if h : rank ≤ Format.single.infinity then some ⟨decide (2 ^ (31 : Nat) ≤ bits), rank, h⟩
  else none

end Word

/-- The 64-bit pattern of a number, as a natural number. -/
def Binary.pattern (x : Binary .double) : Nat :=
  if x.negative then 2 ^ (63 : Nat) + x.rank else x.rank

end EvScript.Number
