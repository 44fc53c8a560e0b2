import EvScript.Code.Listing
import EvScript.Compile.Branch
import EvScript.Compile.Files
import EvScript.Grammar.Parser
import EvScript.Grammar.Repair
import EvScript.Syntax.OfTree

/-!
# Programs and Files

The entries of a program are compiled in order: declarations go into the current scope,
functions get a label and code, namespaces are scopes with a name, and imports compile
another file first.

A file is read as a program either strictly, so that the first error ends the run, or with
repair. An imported file is compiled with code and scopes of its own; only its scopes are
kept. If it ends with a fault, so does the importing file, in the state it was in.

Imports nest no deeper than there are files, unless files import each other in a circle; the
number of files bounds them.
-/

namespace EvScript

open CompileM

/-! ### Declarations -/

/-- Declare a command. -/
def declareCommand (d : CommandDecl) : CompileM Unit := do
  match d.name with
  | none => stop "Invalid name for command at: " d.pos
  | some name =>
    let number ← lift id (optionalInt d.number)
    let result ← lift id (resultOf d.result)
    let serial := (← get).unseen.size
    modify fun s => { s with unseen := s.unseen.push (d.params.getD []) }
    onGraph fun c g => c.addCommand g ⟨name, number, result, serial, d.pos⟩

/-- The name of the label of a function: its own name if it is marked, else with a bar in
front. -/
def functionLabel (kind : Option FunctionKind) (name : String) : String :=
  if kind.isSome then name else "_" ++ name

/-- Declare a function and compile its body. -/
def compileFunction (f : FunctionDecl) : CompileM Unit := do
  match f.name with
  | none => stop "Invalid name for function at: " f.pos
  | some name =>
    let kind := f.common.map fun common => if common then FunctionKind.common else .entry
    let parameters ← lift id (parameterVariables (f.params.getD []) [])
    let result ← lift id (resultOf f.result)
    let label ← newLabel (functionLabel kind name)
    let index := ((← get).file.code.label label).name
    onGraph fun c g => c.addFunction g ⟨kind, index, name, result, f.pos⟩
    modify fun s => { s with file := { s.file with locals := [] } }
    let scope : Scope :=
      { vars := parameters.foldl (fun t v => t.insert v.name v) .empty }
    let _ ← compileBlock scope label f.body

/-! ### Entries -/

/-- How to import a file: given its path, compile it and say where its scopes are. -/
abbrev Importer := String → CompileM Cursor

/-- Import a file by name, for an entry at a place. -/
def importByName (fs : Files) (importer : Importer) (name : Option String) (pos : Pos) :
    CompileM (String × Cursor) := do
  let name ← need .word name
  match findImport fs (← get).file.path name with
  | none => stop ("Unable to resolve import '" ++ name ++ "' at: ") pos
  | some path => return (name, ← importer path)

mutual

/-- Compile an entry of a program. -/
def compileEntry (fs : Files) (importer : Importer) : Entry → CompileM Unit
  | .define d => do
    let _ ← define .top d
  | .command d => declareCommand d
  | .function f => compileFunction f
  | .importAll name pos => do
    let (name, other) ← importByName fs importer name pos
    onGraph fun c g => c.mount g other name
  | .importFrom name everything pos => do
    let (_, other) ← importByName fs importer name pos
    match everything with
    | none => stop "Malformed from ... import \x7b ... \x7d at: " pos
    | some true => onGraph fun c g => c.takeAll g other
    | some false => throw .selectiveImport
  | .space name entries => do
    let name ← need .word name
    enterScope { name := some name }
    compileEntries fs importer entries
    leaveScope
  | .inert _ => return ()

/-- Compile the entries of a program in order. -/
def compileEntries (fs : Files) (importer : Importer) : List Entry → CompileM Unit
  | [] => return ()
  | e :: es => do
    compileEntry fs importer e
    compileEntries fs importer es

end

/-! ### Files -/

/-- How files are read: strictly, or with repair. -/
inductive ReadMode where
  | strict
  | repair
  deriving DecidableEq, Repr

/-- Read a file as a program. -/
def loadProgram (fs : Files) (mode : ReadMode) (path : String) : CompileM Tree := do
  match fs.bytes? path with
  | none => throw (.noFile path)
  | some bytes => match String.fromUTF8? bytes with
    | none => throw .notText
    | some text =>
      let script := Script.ofText text
      match mode with
      | .strict => match readProgram script with
        | .error t => throw (.unreadable path t)
        | .ok p =>
          modify fun s => { s with lexErrors := s.lexErrors ++ script.errorsBefore p.next }
          return p.tree
      | .repair =>
        let m := mendRule .program script
        modify fun s => { s with
          lexErrors := s.lexErrors ++ script.errorsBefore m.furthest
          syntaxErrors := s.syntaxErrors ++ m.errors.map fun t => (path, t) }
        return m.tree

/-- Run a step on a fresh file at a path, and come back to the file under way whatever
happens. The result is where the scopes of the fresh file are. -/
def inFile (path : String) (step : CompileM Unit) : CompileM Cursor := do
  let outer := (← get).file
  modify fun s =>
    let (cursor, graph) := Cursor.start s.graph
    { s with graph := graph, file := ⟨path, .empty, cursor, []⟩ }
  let comeBack : CompileM Cursor :=
    modifyGet fun s => (s.file.cursor, { s with file := outer })
  tryCatch step fun f => do
    let _ ← comeBack
    throw f
  comeBack

/-- The line that announces a file. -/
def announcement (path : String) : String := "Processing file:  " ++ path

/-- Compile the file at a path into the file under way, with imports nested up to `n` deep. -/
def compileFile (fs : Files) (mode : ReadMode) : Nat → String → CompileM Unit
  | 0, path => throw (.noFile path)
  | n + 1, path => do
    let tree ← loadProgram fs mode path
    let importer : Importer := fun path => do
      printLine (announcement path)
      inFile path (compileFile fs mode n path)
    compileEntries fs importer tree.entries

/-- How a compilation ended, and the state it ended in. -/
structure Outcome where
  ended : Except Fault Unit
  state : CompileState

/-- Compile a script from the beginning. -/
def compileScript (fs : Files) (mode : ReadMode) (path : String) : Outcome :=
  let (ended, state) :=
    (compileFile fs mode (fs.entries.length + 1) path).run.run (.start path)
  ⟨ended, state⟩

end EvScript
