import EvScript.Code.Assembly
import EvScript.Fault
import EvScript.Registry.SysFlag
import EvScript.Registry.Work

/-!
# Listings

A listing is the text of an assembly: every label with its instructions below, one a line.
Commands, registers and system flags go by their names, registers and system flags without a
name by their numbers; values are printed as decimals and strings between apostrophes.

A listing fails where something cannot be written: a command without a name, a value that is
no finite number, an index past the end of the string table, or any flag operand, because
flags have no names.
-/

namespace EvScript

/-- The entry of a table at an index; a negative index counts from the end. -/
def entryAt (strings : List String) (index : Int) : Except Fault String :=
  let i := if index < 0 then index + strings.length else index
  if i < 0 then .error .outOfRange
  else match strings[i.toNat]? with
    | some s => .ok s
    | none => .error .outOfRange

/-- A number by its name in a registry; one without a name by its digits. -/
def nameOrNumber (r : Registry) : Option Int → String
  | some n => (r.name? n).getD (toString n)
  | none => "None"

/-- An operand in a listing. Two kinds of operand are not listed. -/
def Operand.print? (strings : List String) (o : Operand) : Except Fault (Option String) :=
  match o.kind, o.data with
  | .value, none => .error .noWord
  | .value, some word => match Number.printWord word with
    | .ok s => .ok (some s)
    | .error e => .error (.unprintable e)
  | .work, n => .ok (some ("@" ++ nameOrNumber Registry.work n))
  | .flag, _ => .error .flagOperand
  | .sysFlag, n => .ok (some ("$" ++ nameOrNumber Registry.sysFlag n))
  | .string, none => .error .noIndex
  | .string, some i => do
    let s ← entryAt strings i
    return some ("'" ++ s ++ "'")
  | .command, _ => .ok none
  | .macroString, _ => .ok none

/-- The name of a command; an instruction without a command has an empty name. -/
def commandName : Option Int → Except Fault String
  | none => .ok ""
  | some n => match Registry.command.name? n with
    | some name => .ok name
    | none => .error (.notMember Registry.command.title (some n))

/-- An instruction in a listing. -/
def Instr.print (strings : List String) (i : Instr) : Except Fault String := do
  let operands ← i.operands.mapM (Operand.print? strings)
  let name ← commandName i.command
  return name ++ "(" ++ ", ".intercalate (operands.filterMap id) ++ ")"

/-- A label in a listing, under the name with the given index. -/
def printLabel (strings : List String) (index : Int) (instrs : List Instr) :
    Except Fault String := do
  let lines ← instrs.mapM (Instr.print strings)
  let name ← entryAt strings index
  return name ++ ":\n" ++ "\n".intercalate (lines.map ("\t" ++ ·))

/-- A listing of labels, each given by the index of its name and its instructions. -/
def printListing (strings : List String) (labels : List (Int × List Instr)) :
    Except Fault String := do
  let texts ← labels.mapM fun l => printLabel strings l.1 l.2
  return "\n".intercalate texts

/-- The listing of an assembly. -/
def Assembly.print (a : Assembly) : Except Fault String :=
  printListing a.strings (a.listing.map fun e => (e.1, e.2.instrs))

end EvScript
