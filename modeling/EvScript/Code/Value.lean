import EvScript.Registry.Basic

/-!
# Kinds of Value

Three small closed lists: the types that variables, parameters and results have, the kinds
of operand that an instruction has, and the kinds of function. Each member has a number and a
name; together they form a registry like those of the commands and registers.
-/

namespace EvScript

/-- The type of a variable, a parameter or a result. -/
inductive ValueType where
  | flag
  | sysFlag
  | integer
  | float
  | boolean
  | string
  | numberEnum
  deriving DecidableEq, Repr

namespace ValueType

/-- The number of a type. -/
def number : ValueType → Nat
  | .flag => 1
  | .sysFlag => 2
  | .integer => 3
  | .float => 4
  | .boolean => 5
  | .string => 6
  | .numberEnum => 7

/-- The name of a type in the registry. -/
def name : ValueType → String
  | .flag => "Flag"
  | .sysFlag => "SysFlag"
  | .integer => "Integer"
  | .float => "Float"
  | .boolean => "Boolean"
  | .string => "String"
  | .numberEnum => "NumberEnum"

/-- All types. -/
def all : List ValueType :=
  [.flag, .sysFlag, .integer, .float, .boolean, .string, .numberEnum]

/-- The type with a name of the registry. -/
def ofName? (name : String) : Option ValueType := all.find? (·.name == name)

/-- The type that a script writes as the given word. -/
def ofWord? : String → Option ValueType
  | "flag" => some .flag
  | "sysflag" => some .sysFlag
  | "int" => some .integer
  | "float" => some .float
  | "bool" => some .boolean
  | "str" => some .string
  | _ => none

/-- Whether values of the type live in work registers. -/
def inRegister : ValueType → Bool
  | .integer => true
  | .float => true
  | _ => false

/-- The registry of types. -/
def registry : Registry := ⟨"ECommandArgType", all.map fun t => (t.number, t.name)⟩

end ValueType

/-- The kind of an operand: how its number is to be understood. -/
inductive OperandKind where
  | command
  | value
  | work
  | flag
  | sysFlag
  | string
  | macroString
  deriving DecidableEq, Repr

namespace OperandKind

/-- The number of a kind. -/
def number : OperandKind → Nat
  | .command => 0
  | .value => 1
  | .work => 2
  | .flag => 3
  | .sysFlag => 4
  | .string => 5
  | .macroString => 6

/-- The name of a kind in the registry. -/
def name : OperandKind → String
  | .command => "CmdType"
  | .value => "Value"
  | .work => "Work"
  | .flag => "Flag"
  | .sysFlag => "SysFlag"
  | .string => "String"
  | .macroString => "MacroString"

/-- All kinds. -/
def all : List OperandKind :=
  [.command, .value, .work, .flag, .sysFlag, .string, .macroString]

/-- The kind with a number. -/
def ofNumber? (n : Int) : Option OperandKind := all.find? fun k => (k.number : Int) == n

/-- The registry of kinds. -/
def registry : Registry := ⟨"EvArgType", all.map fun k => (k.number, k.name)⟩

end OperandKind

/-- The kind of a function: callable from everywhere, or a place where the engine starts. -/
inductive FunctionKind where
  | common
  | entry
  deriving DecidableEq, Repr

namespace FunctionKind

/-- The number of a kind. -/
def number : FunctionKind → Nat
  | .common => 1
  | .entry => 2

/-- The name of a kind in the registry. -/
def name : FunctionKind → String
  | .common => "Common"
  | .entry => "Entry"

/-- The registry of kinds. -/
def registry : Registry :=
  ⟨"EFunctionSpecifier", [FunctionKind.common, .entry].map fun k => (k.number, k.name)⟩

end FunctionKind

end EvScript
