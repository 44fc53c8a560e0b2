import EvScript.Grammar.Basic
import EvScript.Token.Lexer

/-!
# Programs

What a program says, without the marks that hold it together. A program that was read with
repair can lack parts, so parts that the grammar requires may be absent here; in a program
that was read without repair all of them are there.

A place is given wherever a message or a declaration may refer to it: it is the place of the
token at hand when the part was begun.
-/

namespace EvScript

/-- The place of a number: all that stands there, and the number if there is one. -/
structure Numeral where
  text : String
  literal : Option String
  deriving DecidableEq, Repr

/-- The place of a type: all that stands there. -/
structure TypeWord where
  text : String
  pos : Pos
  deriving DecidableEq, Repr

/-! ### Declarations -/

/-- Where a parameter is kept: it is the place of the result, or a register. -/
inductive ParamStorage where
  | result
  | register (number : Option Numeral)
  deriving DecidableEq, Repr

/-- A parameter of a command or function. -/
structure Param where
  type : Option TypeWord
  name : Option String
  storage : Option ParamStorage
  pos : Pos
  deriving DecidableEq, Repr

/-- The declaration of a command. -/
structure CommandDecl where
  name : Option String
  number : Option Numeral
  params : Option (List Param)
  result : Option TypeWord
  pos : Pos
  deriving DecidableEq, Repr

/-! ### Calls and values -/

/-- What an argument of a call is. -/
inductive ArgValue where
  | name (name : String)
  | string (literal : Option String)
  | number (number : Numeral)
  | absent
  deriving DecidableEq, Repr

/-- An argument of a call. -/
structure Arg where
  value : ArgValue
  pos : Pos
  deriving DecidableEq, Repr

/-- A call of a command or function. -/
structure Call where
  name : Option String
  args : Option (List Arg)
  pos : Pos
  deriving DecidableEq, Repr

/-- What is given to a variable. -/
inductive AssignedValue where
  | number (number : Numeral)
  | truth (value : Bool)
  | string
  | call (call : Call)
  | absent
  deriving DecidableEq, Repr

/-- What is given to a variable, and where that stands. -/
structure Assigned where
  value : AssignedValue
  pos : Pos
  deriving DecidableEq, Repr

/-- The definition of a variable. -/
structure Definition where
  isConst : Bool
  type : Option TypeWord
  name : Option String
  storage : Option Numeral
  value : Option Assigned
  pos : Pos
  deriving DecidableEq, Repr

/-- An assignment to a variable. -/
structure Assignment where
  name : Option String
  operator : Option String
  value : Option Assigned
  pos : Pos
  deriving DecidableEq, Repr

/-! ### Conditions -/

/-- The left side of a comparison: a call if there is one, else a name. -/
structure LeftOperand where
  call : Option Call
  name : Option String
  pos : Pos
  deriving DecidableEq, Repr

/-- The right side of a comparison; only numbers are compared with. -/
structure RightOperand where
  number : Option Numeral
  deriving DecidableEq, Repr

/-- What a condition is. -/
inductive ConditionForm where
  | comparison (left : LeftOperand) (comparator : Option String) (right : Option RightOperand)
  | call (call : Call)
  | name (name : Option String)
  deriving DecidableEq, Repr

/-- A condition. -/
structure Condition where
  form : ConditionForm
  pos : Pos
  deriving DecidableEq, Repr

/-! ### Statements -/

mutual

/-- A block of statements. -/
inductive Block where
  | absent
  | of (pos : Pos) (statements : List Statement)

/-- A statement. -/
inductive Statement where
  | define (definition : Definition)
  | assign (assignment : Assignment)
  | call (call : Call)
  /-- An `if`, with the conditions behind an `else` and the last `else`. -/
  | branch (condition : Option Condition) (body : Block) (elseIfs : List ElseIf)
      (otherwise : Option Block)
  /-- A `switch`. -/
  | select (subject : Option Condition) (cases : List Case) (pos : Pos)
  /-- A statement without code of its own, by its rule. -/
  | inert (rule : Option Rule)

/-- A condition behind an `else`. -/
inductive ElseIf where
  | of (condition : Option Condition) (body : Block)

/-- A case of a `switch`. -/
inductive Case where
  | default (body : Block)
  | labelled (number : Option Numeral) (name : Option String) (body : Block)

end

/-- The declaration of a function. -/
structure FunctionDecl where
  /-- Whether it is marked, and if so whether as common. -/
  common : Option Bool
  name : Option String
  params : Option (List Param)
  result : Option TypeWord
  body : Block
  pos : Pos

/-! ### Entries -/

/-- What stands at the top of a program or of a namespace. -/
inductive Entry where
  | define (definition : Definition)
  | command (command : CommandDecl)
  | function (function : FunctionDecl)
  | importAll (name : Option String) (pos : Pos)
  /-- An import by names; `everything` tells whether all of them are meant, if it says what
  is to be imported at all. -/
  | importFrom (name : Option String) (everything : Option Bool) (pos : Pos)
  | space (name : Option String) (entries : List Entry)
  /-- An entry without code of its own, by its rule. -/
  | inert (rule : Option Rule)

end EvScript
