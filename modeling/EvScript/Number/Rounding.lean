/-!
# Rounding to a Binary Format

A binary floating-point format is a grid of non-negative numbers, laid out symmetrically
for the negative ones. The grid points are numbered upwards from zero; the number of a point
is its **rank**. Two facts make the rank convenient:

* the rank, written in binary, is the point's stored pattern (exponent field followed by
  fraction field), so encoding is the identity on ranks;
* ranks and values are ordered alike, so rounding up past a power of two needs no special
  case: the carry runs into the exponent by itself.

Values are measured in **units** of `2 ^ (-scale)`, the least positive value of the format,
so every value of the format is a natural number of units and all arithmetic below is exact.
-/

namespace EvScript.Number

attribute [local instance (high)] instPowNat

/-- The quotient `num / den` rounded to the nearest integer; a tie goes to the even one. -/
def halfEven (num den : Nat) : Nat :=
  let whole := num / den
  let part := 2 * (num % den)
  if part < den then whole
  else if part = den then whole + whole % 2
  else whole + 1

/-- A binary floating-point format: the number of significant bits, the exponent of its
least positive value `2 ^ (-scale)`, and the number of exponents its finite values have. -/
structure Format where
  precision : Nat
  scale : Nat
  exponents : Nat
  deriving DecidableEq, Repr

/-- The 32-bit format: 24 significant bits, least positive value `2 ^ (-149)`. -/
def Format.single : Format := ⟨24, 149, 255⟩

/-- The 64-bit format: 53 significant bits, least positive value `2 ^ (-1074)`. -/
def Format.double : Format := ⟨53, 1074, 2047⟩

namespace Format

/-- How many ranks share one exponent. -/
def block (f : Format) : Nat := 2 ^ (f.precision - 1)

/-- The rank of infinity: the first one past the finite values. -/
def infinity (f : Format) : Nat := f.exponents * f.block

/-- The binary exponent, counted from the least one, that the values at a rank share. -/
def exponent (f : Format) (rank : Nat) : Nat := rank / f.block - 1

/-- The value at a rank, in units. Ranks past infinity go on as if the format had more
exponents, which is what rounding compares an overflowing value with. -/
def units (f : Format) (rank : Nat) : Nat :=
  (rank - f.exponent rank * f.block) * 2 ^ f.exponent rank

/-- The rank nearest to `num / den`, a tie going to the even rank. A result of at least
`f.infinity` means that the fraction is beyond the finite values. -/
def nearest (f : Format) (num den : Nat) : Nat :=
  let scaled := num * 2 ^ f.scale
  let whole := scaled / den
  let shift := if whole < 2 ^ f.precision then 0 else whole.log2 + 1 - f.precision
  shift * f.block + halfEven scaled (den * 2 ^ shift)

end Format

end EvScript.Number
