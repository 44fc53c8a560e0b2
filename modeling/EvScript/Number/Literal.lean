import EvScript.Number.Binary

/-!
# Number Literals

A literal is an optional minus sign, decimal digits and, possibly, a point with more digits.
Scripts read a literal along two paths. The **integer path** takes literals without a point
and keeps the exact integer; the **fraction path** takes all of them and rounds to 64 bits.
Either way the value is then stored as a 32-bit word, and either way it can be too large,
with one error for each of the two roundings.
-/

namespace EvScript.Number

attribute [local instance (high)] instPowNat

/-- A decimal literal: its sign, all its digits read as one number, and how many of them
stand behind the point. `pointed` tells whether there is a point at all. -/
structure Literal where
  negative : Bool
  digits : Nat
  places : Nat
  pointed : Bool
  deriving DecidableEq, Repr

/-- The number that a row of decimal digits stands for. -/
def ofDigits (cs : List Char) : Nat :=
  cs.foldl (fun n c => 10 * n + (c.toNat - '0'.toNat)) 0

namespace Literal

/-- The literal without its sign: digits, and possibly a point and more digits. -/
def unsigned? (negative : Bool) (cs : List Char) : Option Literal :=
  let whole := cs.takeWhile Char.isDigit
  match whole, cs.dropWhile Char.isDigit with
  | [], _ => none
  | _, [] => some ⟨negative, ofDigits whole, 0, false⟩
  | _, '.' :: fraction =>
    if !fraction.isEmpty && fraction.all Char.isDigit then
      some ⟨negative, ofDigits (whole ++ fraction), fraction.length, true⟩
    else none
  | _, _ => none

/-- Read a literal. -/
def ofText? (text : String) : Option Literal :=
  match text.toList with
  | '-' :: cs => unsigned? true cs
  | cs => unsigned? false cs

/-- The integer a literal without a point stands for. -/
def toInt? (l : Literal) : Option Int :=
  if l.pointed then none
  else some (if l.negative then -(l.digits : Int) else l.digits)

/-- The 64-bit number nearest to the literal, infinite when it is too large. -/
def toDouble (l : Literal) : Binary .double :=
  .ofRatio .double l.negative l.digits (10 ^ l.places)

end Literal

/-! ### Storing a value -/

/-- A value on its way into a word: an exact integer or a 64-bit number. -/
inductive Quantity where
  | int (n : Int)
  | real (x : Binary .double)
  deriving DecidableEq

/-- Why a value has no word: an integer past the 64-bit numbers, or a finite 64-bit number
past the 32-bit ones. -/
inductive Overflow where
  | integer
  | single
  deriving DecidableEq, Repr

/-- The value as a 64-bit number. -/
def Quantity.toDouble : Quantity → Except Overflow (Binary .double)
  | .int n => (Binary.ofInt? .double n).elim (.error .integer) .ok
  | .real x => .ok x

/-- The signed word that stores the value: rounded to 64 bits and then to 32. -/
def Quantity.encode (q : Quantity) : Except Overflow Int := do
  match (← q.toDouble).narrow? with
  | some y => .ok (Word.ofBinary y)
  | none => .error .single

/-! ### Printing a word -/

/-- Why a word cannot be printed: it stores no number, or an infinite one. -/
inductive PrintError where
  | notANumber
  | infinite
  deriving DecidableEq, Repr

/-- How many places a value that is no integer is printed with. -/
def printedPlaces : Nat := 6

/-- A decimal with `printedPlaces` places, from its value in units of the last place. -/
def fixedPoint (n : Nat) : String :=
  let fraction := toString (n % 10 ^ printedPlaces)
  toString (n / 10 ^ printedPlaces) ++ "." ++
    String.ofList (List.replicate (printedPlaces - fraction.length) '0') ++ fraction

/-- A number as a decimal: integers without a point, other values rounded half to even to
six places. -/
def Binary.print (x : Binary .single) : Except PrintError String :=
  let one : Nat := 2 ^ Format.single.scale
  if x.isInfinite then .error .infinite
  else if x.units % one = 0 then
    .ok (toString (if x.negative then -(x.units / one : Int) else (x.units / one : Int)))
  else
    let magnitude := fixedPoint (halfEven (x.units * 10 ^ printedPlaces) one)
    .ok (if x.negative then "-" ++ magnitude else magnitude)

/-- A stored word as a decimal. -/
def printWord (word : Int) : Except PrintError String :=
  match Word.toBinary? word with
  | some x => x.print
  | none => .error .notANumber

end EvScript.Number
