import EvScript.Compile.Assign

/-!
# Blocks and Branches

Statements put their code under a label one after the other. A branch goes on elsewhere: the
inside of an `if` and of a case has a label of its own, a child of the label it branches off;
the statements behind the branch go under another child, the **after** label, to which every
way through the branch jumps. What follows an `else`, and the default of a `switch`, stays
under the label of the branch itself.

Every block is a scope. Statements that repeat, and some others, have no code.
-/

namespace EvScript

open CompileM Registry

/-! ### Conditions -/

/-- The word by which the engine knows a comparator. -/
def comparatorWord : String → Option String
  | "==" => some "EQ"
  | "!=" => some "NE"
  | "<=" => some "LE"
  | ">=" => some "GE"
  | "<" => some "LT"
  | ">" => some "GT"
  | "EQ" => some "EQ"
  | "NE" => some "NE"
  | "LE" => some "LE"
  | "GE" => some "GE"
  | "LT" => some "LT"
  | "GT" => some "GT"
  | _ => none

/-- The left side of a comparison: what to do first, and the type and storage of what is then
compared, if there is something to compare. -/
structure Compared where
  instrs : List Instr
  value : Option (ValueType × Option Int)

/-- The left side of a comparison. -/
def compileLeft (l : LeftOperand) : CompileM Compared := do
  match l.call, l.name with
  | some c, _ => match ← resolveCall c with
    | (.function _, _) => do
      warnFunctionCall l.pos
      return ⟨[], none⟩
    | (.command command, args) => do
      let result ← need .valueType command.result
      let instr ← compileCommandCall l.pos command args none none
      return ⟨[instr], some (result.type, some answerRegister)⟩
  | none, some name => match ← resolveVariable (some name) with
    | none => stop ("Unable to resolve variable with name " ++ name ++ " at: ") l.pos
    | some v =>
      if v.constant.isSome then
        stop ("Variable " ++ name ++ " is const. Unable to perform comparison: ") l.pos
      else return ⟨[], some (v.type, v.storage)⟩
  | none, none => return ⟨[], none⟩

/-- A comparison as a jump to a label. Only numbers are compared with, and only what is in a
register is compared; other comparisons have no code of their own. -/
def compileComparison (left : Compared) (comparator : Option String)
    (right : Option RightOperand) (destination : LabelId) : CompileM (List Instr) := do
  let word ← need .word ((← need .word comparator) |> comparatorWord)
  let index ← intern word
  let right ← need .comparand right
  match right.number with
  | none => return left.instrs
  | some n =>
    let value ← lift id (n.toReal >>= fun x => encode (.real x))
    match left.value with
    | some (type, storage) =>
      if type.inRegister then
        let there ← target destination
        return left.instrs ++
          [⟨some Opcode.compareJump,
            [⟨.work, storage⟩, .ofString index, ⟨.value, some value⟩, there]⟩]
      else return left.instrs
    | none => return left.instrs

/-- A flag as a condition. -/
def flagTest (kind : OperandKind) (storage : Option Int) (there : Operand) : Instr :=
  ⟨some Opcode.flagJump, [⟨kind, storage⟩, there]⟩

/-- A condition as a jump to a label. Calls, and variables that are no flags, have no code. -/
def compileCondition (c : Condition) (destination : LabelId) : CompileM (List Instr) :=
  match c.form with
  | .comparison left comparator right => do
    compileComparison (← compileLeft left) comparator right destination
  | .call _ => return []
  | .name name => do
    match ← resolveVariable name with
    | none => stop ("Unable to resolve variable name " ++ name.getD "None" ++ " at: ") c.pos
    | some v =>
      let there ← target destination
      match v.type with
      | .flag => return [flagTest .flag v.storage there]
      | .sysFlag => return [flagTest .sysFlag v.storage there]
      | _ => return []

/-! ### Switches -/

/-- The instruction that takes the value to be switched on. -/
def switchInstr (storage : Option Int) : Instr :=
  ⟨some Opcode.switch, [⟨.work, storage⟩]⟩

/-- What a switch is about, as code; `pos` is the place of the switch. -/
def compileSubject (subject : Option Condition) (pos : Pos) : CompileM (List Instr) := do
  match (← need .subject subject).form with
  | .call c => match ← resolveCall c with
    | (.function _, _) => do
      warnFunctionCall pos
      return []
    | (.command command, args) => do
      let _ ← need .valueType command.result
      let instr ← compileCommandCall pos command args none none
      return [instr, switchInstr (some answerRegister)]
  | .name name => do
    let v ← need .valueType (← resolveVariable name)
    return [switchInstr v.storage]
  | .comparison _ _ _ => do
    let v ← need .valueType (← resolveVariable none)
    return [switchInstr v.storage]

/-- The word that a case tests for: a number, or an integer constant by name. A case with
another name has none. -/
def caseWord (number : Option Int) (name : Option String) : CompileM (Option Int) :=
  match number with
  | some n => return some (← lift id (encode (.int n)))
  | none => do
    let v ← need .valueType (← resolveVariable name)
    return if v.type = .integer then v.constant else none

/-! ### Statements -/

mutual

/-- A block under a label, in a scope of its own that starts out as given. The result is the
label under which what follows the block goes. -/
def compileBlock (scope : Scope) (label : LabelId) : Block → CompileM LabelId
  | .absent => do
    enterScope scope
    throw (.absent .block)
  | .of pos statements => do
    enterScope scope
    let label ← compileStatements pos label statements
    leaveScope
    return label

/-- Statements of the block that begins at a place, one after the other. -/
def compileStatements (pos : Pos) (label : LabelId) : List Statement → CompileM LabelId
  | [] => return label
  | s :: ss => do
    let label ← compileStatement pos label s
    compileStatements pos label ss

/-- A statement of the block that begins at a place. -/
def compileStatement (pos : Pos) (label : LabelId) : Statement → CompileM LabelId
  | .define d => do
    emit label (← define .body d)
    return label
  | .assign a => do
    emit label (← compileAssignment a)
    return label
  | .call c => do
    match ← resolveCall c with
    | (.function _, _) => warnFunctionCall pos
    | (.command command, args) => emit label [← compileCommandCall pos command args none none]
    return label
  | .branch condition body elseIfs otherwise => do
    let after ← newChild label
    let inside ← newChild label
    emit label (← compileCondition (← need .condition condition) inside)
    compileInside inside after body
    compileElseIfs label elseIfs
    compileElse label after otherwise
    return after
  | .select subject cases switchPos => do
    emit label (← compileSubject subject switchPos)
    let after ← newChild label
    compileCases label after cases
    return after
  | .inert _ => return label

/-- The inside of a branch under a label, and behind it a jump; nothing if there is no
block. -/
def compileInside (label after : LabelId) : Block → CompileM Unit
  | .absent => return ()
  | .of pos statements => do
    enterScope {}
    let last ← compileStatements pos label statements
    leaveScope
    jump last after

/-- The block of an `else`. -/
def compileElse (label after : LabelId) : Option Block → CompileM Unit
  | none => return ()
  | some body => do
    let last ← compileBlock {} label body
    jump last after

/-- Conditions behind an `else` cannot be compiled. -/
def compileElseIfs (label : LabelId) : List ElseIf → CompileM Unit
  | [] => return ()
  | _ :: _ => do
    let _ ← newChild label
    throw .elseIf

/-- The cases of a switch. -/
def compileCases (label after : LabelId) : List Case → CompileM Unit
  | [] => return ()
  | c :: cs => do
    compileCase label after c
    compileCases label after cs

/-- A case of a switch. -/
def compileCase (label after : LabelId) : Case → CompileM Unit
  | .default body => do
    let last ← compileBlock {} label body
    jump last after
  | .labelled number name body => do
    let number ← lift id (optionalInt number)
    let inside ← newChild label
    match ← caseWord number name with
    | none => return ()
    | some word =>
      emit label [⟨some Opcode.caseJump, [⟨.value, some word⟩, ← target inside]⟩]
      compileInside inside after body

end

end EvScript
