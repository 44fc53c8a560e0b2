import EvScript.Number.Literal
import EvScript.Text.Quoted
import EvScript.Token.Lexer

/-!
# Faults

Everything that ends a compilation, a listing or a build is a fault. Most mistakes in a
script are told in the log first, and the fault is then just `stopped`; the others carry
what they are about.
-/

namespace EvScript

/-- What was needed and is not there. -/
inductive Absent where
  /-- The type of a result that is not declared, or of a variable that is not. -/
  | valueType
  /-- The storage of a variable that is not declared. -/
  | storage
  /-- A name to look up. -/
  | name
  /-- A block of statements. -/
  | block
  /-- The condition of an `if`. -/
  | condition
  /-- What a `switch` is about. -/
  | subject
  /-- The list of arguments of a call. -/
  | arguments
  /-- An argument of a call. -/
  | argument
  /-- The right side of a comparison. -/
  | comparand
  /-- A token. -/
  | word
  deriving DecidableEq, Repr

/-- The word that messages use for what is absent. -/
def Absent.label : Absent → String
  | .valueType => "eArgType"
  | .storage => "storage"
  | .name => "split"
  | .block => "blockEntry"
  | .condition => "comparatorLeft"
  | .subject => "functionCall"
  | .arguments => "funcCallArg"
  | .argument => "isConst"
  | .comparand => "number"
  | .word => "getText"

/-- Why something ended early. -/
inductive Fault where
  /-- A mistake that the log tells about. -/
  | stopped
  /-- Something needed is not there. -/
  | absent (what : Absent)
  /-- Conditions behind an `else` have no code. -/
  | elseIf
  /-- A number was given to a variable that is no integer. -/
  | numberForOther
  /-- A truth value was given to a variable that is neither a truth value nor a flag. -/
  | truthForOther
  /-- Names were imported one by one. -/
  | selectiveImport
  /-- Nothing was given to a variable. -/
  | noValue
  /-- A name that a list of names does not have. -/
  | unknownName (name : String)
  /-- A number that a registry does not have. -/
  | notMember (title : String) (number : Option Int)
  /-- A text that is no integer. -/
  | notInteger (text : String)
  /-- A text that is no number. -/
  | notNumber (text : String)
  /-- An integer with more digits than are read. -/
  | tooManyDigits (digits : Nat)
  /-- A number beyond what can be stored. -/
  | overflow (cause : Number.Overflow)
  /-- A stored word that cannot be printed. -/
  | unprintable (cause : Number.PrintError)
  /-- Flags have no names to be listed with. -/
  | flagOperand
  /-- A value operand without a word. -/
  | noWord
  /-- A string operand without an index. -/
  | noIndex
  /-- An index past the end of a table. -/
  | outOfRange
  /-- A file that is not there. -/
  | noFile (path : String)
  /-- A file whose bytes are no text. -/
  | notText
  /-- A file that cannot be read as a program, and the token at which that fails. -/
  | unreadable (path : String) (token : Token)

/-- How many digits of an integer are read at most. -/
def maxDigits : Nat := 4300

/-- The wording of a fault. -/
def Fault.message : Fault → String
  | .stopped => ""
  | .absent what => "'NoneType' object has no attribute '" ++ what.label ++ "'"
  | .elseIf => "'ElseIfBlockContext' object has no attribute 'comparatorLeft'"
  | .numberForOther => "name 'argType' is not defined"
  | .truthForOther => "name 'argTypeIdentifier' is not defined"
  | .selectiveImport => "name 'identifierTkn' is not defined"
  | .noValue => "'NoneType' object is not iterable"
  | .unknownName name => Text.quoted name
  | .notMember title (some n) => toString n ++ " is not a valid " ++ title
  | .notMember title none => "None is not a valid " ++ title
  | .notInteger text => "invalid literal for int() with base 10: " ++ Text.quoted text
  | .notNumber text => "could not convert string to float: " ++ Text.quoted text
  | .tooManyDigits digits =>
    "Exceeds the limit (" ++ toString maxDigits ++
      " digits) for integer string conversion: value has " ++ toString digits ++
      " digits; use sys.set_int_max_str_digits() to increase the limit"
  | .overflow .integer => "int too large to convert to float"
  | .overflow .single => "float too large to pack with f format"
  | .unprintable .notANumber => "cannot convert float NaN to integer"
  | .unprintable .infinite => "cannot convert float infinity to integer"
  | .flagOperand => "name 'EvFlag' is not defined"
  | .noWord =>
    "int() argument must be a string, a bytes-like object or a real number, not 'NoneType'"
  | .noIndex => "list indices must be integers or slices, not NoneType"
  | .outOfRange => "list index out of range"
  | .noFile path => "[Errno 2] No such file or directory: " ++ Text.quoted path
  | .notText => ""
  | .unreadable _ token => token.text

end EvScript
