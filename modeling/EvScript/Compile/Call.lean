import EvScript.Compile.Declare

/-!
# Calls

A call of a command becomes one instruction: the number of the command and its operands. A
command that returns something gets one more operand, the register for the result. It stands
in front, unless the declaration of the command marks a parameter as the place of the result.

The declaration is looked at only as far as it takes to find that parameter, and never twice:
a later call goes on where an earlier one left off.

Arguments are turned into operands one after the other, so what they print and where they
fail comes in their order.
-/

namespace EvScript

open CompileM

/-! ### Arguments -/

/-- The value of an argument. -/
inductive Argument where
  /-- A number to be stored. -/
  | number (q : Number.Quantity)
  /-- A string, by its index. -/
  | text (index : Int)
  /-- A truth value that has no storage. -/
  | truth
  /-- A constant that commands do not take. -/
  | other
  /-- A variable, by its type and storage. -/
  | stored (type : ValueType) (storage : Option Int)
  deriving DecidableEq

/-- The value of a constant of a type. -/
def Argument.ofConstant (type : ValueType) (q : Number.Quantity) : Argument :=
  match type, q with
  | .integer, q => .number q
  | .float, q => .number q
  | .string, .int index => .text index
  | .boolean, _ => .truth
  | _, _ => .other

/-- An argument as an operand of a call at a place. -/
def Operand.ofArgument (pos : Pos) : Argument → CompileM Operand
  | .number q => return ⟨.value, some (← lift id (encode q))⟩
  | .text index => return ⟨.string, some index⟩
  | .truth => do
    stopWith ("Not possible to pass const bool to command at: " ++ (← place pos) ++
      ". Must use flag/sysflag for storage.")
  | .other => stop "I missed something it seems at: " pos
  | .stored type storage => match type with
    | .integer => return ⟨.work, storage⟩
    | .float => return ⟨.work, storage⟩
    | .flag => return ⟨.flag, storage⟩
    | .sysFlag => return ⟨.sysFlag, storage⟩
    | _ => stop "I missed something it seems at: " pos

/-- A string literal without its quotes. -/
def unquote (literal : String) : String := String.ofList (literal.toList.drop 1).dropLast

/-- The value of an argument. Strings are printed and put into the table. -/
def evaluate (a : Arg) : CompileM Argument :=
  match a.value with
  | .name name => do
    match ← resolveVariable (some name) with
    | none => stop ("Unable to resolve variable name " ++ name ++ " at: ") a.pos
    | some v => match v.constant with
      | some c => return .ofConstant v.type (.int c)
      | none => return .stored v.type v.storage
  | .string literal => do
    let s := unquote (← need .word literal)
    printLine s
    return .text (← intern s)
  | .number n => return .number (.real (← lift id n.toReal))
  | .absent => throw (.absent .argument)

/-! ### Results -/

/-- Put an operand at an index, or at the end if the index is past it. -/
def insertOperand (index : Nat) (o : Operand) (os : List Operand) : List Operand :=
  os.take index ++ o :: os.drop index

/-- Note that the place of the result is marked. -/
def tellMarked : CompileM Unit := tell .info "Using custom return storage"

/-- The index of the first storage that marks the place of the result; 0 if none does. -/
def markedIndex (storages : List (Option Int)) : CompileM Nat := do
  match storages.findIdx? (· = some resultStorage) with
  | some i => do
    tellMarked
    return i
  | none => return 0

/-- Look at the parameters of the command with a serial number, from the `i`-th of those that
are left on, for the one that marks the place of the result. -/
def seekReturn (serial : Nat) (i : Nat) : List Param → CompileM Nat
  | [] => return 0
  | p :: ps => do
    modify fun s => { s with unseen := s.unseen.modify serial fun _ => ps }
    let parameter ← lift id p.read
    if parameter.storage = some resultStorage then
      tellMarked
      return i
    else seekReturn serial (i + 1) ps

/-- The place of the result among the operands of a call of a declared command. -/
def returnIndex (c : Command) : CompileM Nat := do
  seekReturn c.serial 0 ((← get).unseen[c.serial]?.getD [])

/-! ### Calls -/

/-- A call as an instruction. `wanted` is the type that the result has to have, `storage` the
register it has to go to; without one it goes to the answer register. -/
def compileCall {α : Type} (pos : Pos) (number : Option Int) (result : Option ValueType)
    (index : CompileM Nat) (args : List α) (toArgument : α → CompileM Argument)
    (wanted : Option ValueType) (storage : Option Int) : CompileM Instr := do
  if let some w := wanted then
    let r ← need .valueType result
    if w ≠ r then
      stop ("Invalid return type of command (" ++ toString w.number ++ " != " ++
        toString r.number ++ ") for variable at: ") pos
  let operands ← args.mapM fun a => do Operand.ofArgument pos (← toArgument a)
  if result.isSome || storage.isSome then
    let i ← index
    let register : Operand := ⟨.work, some (storage.getD Registry.answerRegister)⟩
    return ⟨number, insertOperand i register operands⟩
  else return ⟨number, operands⟩

/-- What a call calls. -/
inductive Callee where
  | command (c : Command)
  | function (f : Function)

/-- What a call calls, and its arguments. -/
def resolveCall (c : Call) : CompileM (Callee × List Arg) := do
  match c.name with
  | none => stop "Unable to parse function/command name at: " c.pos
  | some name => do
    let args ← need .arguments c.args
    match ← resolve (·.commands) (some name) with
    | some command => return (.command command, args)
    | none => match ← resolve (·.functions) (some name) with
      | some function => return (.function function, args)
      | none => stop ("Unable to resolve function/command name " ++ name ++ " at: ") c.pos

/-- A call of a declared command as an instruction. -/
def compileCommandCall (pos : Pos) (c : Command) (args : List Arg)
    (wanted : Option ValueType) (storage : Option Int) : CompileM Instr :=
  compileCall pos c.number (c.result.map (·.type)) (returnIndex c) args evaluate wanted storage

/-- Calls of functions have no code. -/
def warnFunctionCall (pos : Pos) : CompileM Unit :=
  warn "Function calls aren't currently supported: " pos

end EvScript
