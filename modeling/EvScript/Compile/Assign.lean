import EvScript.Compile.Call

/-!
# Variables

Definitions and assignments. A constant has its value in the scope and no code; a variable
that is given a value loads it, sets or resets its flag, or calls a command that leaves its
result there.
-/

namespace EvScript

open CompileM Registry

/-- The value of a constant of a type. -/
def constantOf (a : Assigned) (type : ValueType) : CompileM Int :=
  match a.value with
  | .number n =>
    if type = .integer then lift id (intOfText n.text >>= fun i => encode (.int i))
    else throw .numberForOther
  | .truth b => match type with
    | .boolean => return if b then 1 else 0
    | .flag => stopWith "No such thing as a constant Flag"
    | .sysFlag => stopWith "No such thing as a constant SysFlag"
    | _ => throw .truthForOther
  | .string => stop "Variable must be mutable to assign from string at: " a.pos
  | .call _ => stop "Variable must be mutable to assign from function call at: " a.pos
  | .absent => stop "Unknown variable declaration at: " a.pos

/-- The instruction that sets or resets a flag. -/
def flagInstr (kind : OperandKind) (set reset : Int) (b : Bool) (storage : Option Int) : Instr :=
  ⟨some (if b then set else reset), [⟨kind, storage⟩]⟩

/-- Give a value to the variable of a type at a storage. -/
def compileAssigned (a : Assigned) (type : ValueType) (storage : Option Int) : CompileM Instr :=
  match a.value with
  | .number n =>
    if type = .integer then do
      let word ← lift id (intOfText n.text >>= fun i => encode (.int i))
      return ⟨some Opcode.loadValue, [⟨.work, storage⟩, ⟨.value, some word⟩]⟩
    else throw .numberForOther
  | .truth b => match type with
    | .boolean => stopWith "No such thing as a mutable bool"
    | .flag => return flagInstr .flag Opcode.flagSet Opcode.flagReset b storage
    | .sysFlag => return flagInstr .sysFlag Opcode.sysFlagSet Opcode.sysFlagReset b storage
    | _ => throw .truthForOther
  | .string => stop "String variables aren't currently supported: " a.pos
  | .call c => do
    match ← resolveCall c with
    | (.function _, _) =>
      stop "Function calls returning a value aren't currently supported: " a.pos
    | (.command command, args) => compileCommandCall a.pos command args (some type) storage
  | .absent => stop "Unknown variable declaration at: " a.pos

/-- Where a definition stands: outside all functions, or in one. -/
inductive Level where
  | top
  | body
  deriving DecidableEq, Repr

/-- A storage for a variable that names none. Outside functions there is none. -/
def allocate (level : Level) (type : ValueType) (pos : Pos) : CompileM (Option Int) :=
  match level with
  | .body => return some (← allocateLocal type pos)
  | .top => do
    tell .error ("Unable to allocate work at this scope at: " ++ (← place pos))
    return none

/-- A definition as a variable and the code that gives it its value. `mutable` tells whether
variables may be given values here. -/
def compileDefinition (level : Level) (mutable : Bool) (d : Definition) :
    CompileM (Variable × List Instr) := do
  let (word, type) ← lift id (typeOf d.type)
  let name ← need .word d.name
  let storage ← lift id (optionalInt d.storage)
  if d.isConst then
    match d.value with
    | some a =>
      let c ← constantOf a type
      return (⟨type, word.text, name, storage, some c, d.pos⟩, [])
    | none => stop "Must specify value for const variable: " d.pos
  else
    let storage ← match storage with
      | some n => pure (some n)
      | none => allocate level type d.pos
    let v : Variable := ⟨type, word.text, name, storage, none, d.pos⟩
    match d.value with
    | some a =>
      if !mutable then stop "Not able to assign mut at this scope at: " d.pos
      return (v, [← compileAssigned a type storage])
    | none => return (v, [])

/-- Define a variable in the current scope; its code is the result. -/
def define (level : Level) (d : Definition) : CompileM (List Instr) := do
  let (v, instrs) ← compileDefinition level true d
  onGraph fun c g => c.addVariable g v
  return instrs

/-- An assignment as code. Only plain assignments have code. -/
def compileAssignment (a : Assignment) : CompileM (List Instr) := do
  let operator ← need .word a.operator
  if operator ≠ "=" then
    warn ("Unable to peform assignment operator " ++ operator ++ " on variable " ++
      a.name.getD "None" ++ " at: ") a.pos
    return []
  let v ← need .storage (← resolveVariable a.name)
  match a.value with
  | some value => return [← compileAssigned value v.type v.storage]
  | none => throw .noValue

end EvScript
