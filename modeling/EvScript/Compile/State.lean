import EvScript.Code.Assembly
import EvScript.Fault
import EvScript.Scope.Cursor
import EvScript.Syntax.Basic

/-!
# The State of a Compilation

A run compiles one script and, on the way, the files it imports. All files of a run share the
scopes, the log and what was printed; each file has its own code and its own place in the
scopes. When a compilation ends early, the state at that moment is kept.
-/

namespace EvScript

/-- How serious an entry of the log is. -/
inductive LogLevel where
  | info
  | warning
  | error
  deriving DecidableEq, Repr

/-- The name of a level. -/
def LogLevel.name : LogLevel → String
  | .info => "INFO"
  | .warning => "WARNING"
  | .error => "ERROR"

/-- An entry of the log. -/
structure LogEntry where
  level : LogLevel
  message : String
  deriving DecidableEq, Repr

/-- The state of one file under compilation. -/
structure FileState where
  /-- The path of the file, as messages show it. -/
  path : String
  code : Assembly
  cursor : Cursor
  /-- The registers given out to local variables of the function under way. -/
  locals : List Int

/-- The state of a run. -/
structure CompileState where
  graph : ScopeGraph
  /-- The parameters of each declared command that no call has looked at yet, by serial
  number. -/
  unseen : Array (List Param)
  /-- The lines that were printed. -/
  printed : List String
  log : List LogEntry
  lexErrors : List LexError
  /-- The errors met while reading with repair, each with the path of its file. -/
  syntaxErrors : List (String × Token)
  /-- The file under way. -/
  file : FileState

/-- A run that is about to begin with the file at a path. -/
def CompileState.start (path : String) : CompileState :=
  let (cursor, graph) := Cursor.start .empty
  { graph := graph, unseen := #[], printed := [], log := [], lexErrors := [], syntaxErrors := []
    file := ⟨path, .empty, cursor, []⟩ }

/-- A step of a compilation. -/
abbrev CompileM := ExceptT Fault (StateM CompileState)

namespace CompileM

/-! ### Telling -/

/-- Print a line. -/
def printLine (line : String) : CompileM Unit :=
  modify fun s => { s with printed := s.printed ++ [line] }

/-- Put an entry into the log. -/
def tell (level : LogLevel) (message : String) : CompileM Unit :=
  modify fun s => { s with log := s.log ++ [⟨level, message⟩] }

/-- A place in the file under way, as messages show it. -/
def place (pos : Pos) : CompileM String := do
  let s ← get
  return s.file.path ++ ":" ++ toString pos.line ++ ":" ++ toString pos.column

/-- Warn about a place. -/
def warn (message : String) (pos : Pos) : CompileM Unit := do
  tell .warning (message ++ (← place pos))

/-- Tell about a mistake and end the compilation. -/
def stopWith {α : Type} (message : String) : CompileM α := do
  tell .error message
  throw .stopped

/-- Tell about a mistake at a place and end the compilation. -/
def stop {α : Type} (message : String) (pos : Pos) : CompileM α := do
  stopWith (message ++ (← place pos))

/-- The value, or the fault that there is none. -/
def need {α : Type} (what : Absent) : Option α → CompileM α
  | some a => pure a
  | none => throw (.absent what)

/-- The value of a computation that needs no state. -/
def lift {ε α : Type} (fault : ε → Fault) : Except ε α → CompileM α
  | .ok a => pure a
  | .error e => throw (fault e)

/-! ### Code -/

/-- Change the code of the file under way. -/
def onCode {α : Type} (f : Assembly → α × Assembly) : CompileM α :=
  modifyGet fun s =>
    let (a, code) := f s.file.code
    (a, { s with file := { s.file with code := code } })

/-- The index of a string. -/
def intern (s : String) : CompileM Nat := onCode (·.intern s)

/-- A new label. -/
def newLabel (name : String) : CompileM LabelId := onCode (·.newLabel name)

/-- A new child of a label. -/
def newChild (parent : LabelId) : CompileM LabelId := onCode (·.newChild parent)

/-- Put instructions under a label. -/
def emit (label : LabelId) (instrs : List Instr) : CompileM Unit :=
  onCode fun a => ((), a.emit label instrs)

/-- End a label by going on at another one. -/
def jump (source destination : LabelId) : CompileM Unit :=
  onCode fun a => ((), a.jump source destination)

/-- The operand that names a label. -/
def target (label : LabelId) : CompileM Operand :=
  return (← get).file.code.target label

/-! ### Scopes -/

/-- Change the scopes at the place of the file under way. -/
def onGraph (f : Cursor → ScopeGraph → ScopeGraph) : CompileM Unit :=
  modify fun s => { s with graph := f s.file.cursor s.graph }

/-- Put a new scope into the current one and go into it. -/
def enterScope (scope : Scope) : CompileM Unit :=
  modify fun s =>
    let (cursor, graph) := s.file.cursor.enterNew s.graph scope
    { s with graph := graph, file := { s.file with cursor := cursor } }

/-- Leave the current scope. -/
def leaveScope : CompileM Unit := do
  match (← get).file.cursor.leave with
  | .ok cursor => modify fun s => { s with file := { s.file with cursor := cursor } }
  | .error e => tell .warning e.message

/-- The declaration that a name means. There has to be a name. -/
def resolve {α : Type} (shelf : Shelf α) (name : Option String) : CompileM (Option α) := do
  let name ← need .name name
  let s ← get
  return s.file.cursor.resolve s.graph shelf name

/-- The variable that a name means. -/
def resolveVariable (name : Option String) : CompileM (Option Variable) :=
  resolve (·.vars) name

end CompileM

end EvScript
