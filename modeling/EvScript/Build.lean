import EvScript.Compile.Program

/-!
# Builds

A build compiles all scripts of the source directory, in the order of their paths, and writes
a listing for each into the output directory. It ends with the first script that fails. Files
are read strictly or with repair, as the build is told.

The output file of a script is opened, and so emptied, when its compilation has succeeded and
before its listing is made; a listing that fails leaves it empty.
-/

namespace EvScript

/-- The directory of the scripts. -/
def scriptDirectory : String := "scripts/src"

/-- The directory of the listings. -/
def outputDirectory : String := "output"

/-- Whether a path is that of a script to build: directly in the source directory, with the
right ending, and not hidden. -/
def isScriptPath (path : String) : Bool :=
  let name := String.ofList (lastPart path.toList)
  path == joinPath scriptDirectory name && name.endsWith ".evc" && !name.startsWith "."

/-- The scripts to build, in order. -/
def scriptPaths (fs : Files) : List String :=
  ((fs.entries.map (·.1)).filter isScriptPath).mergeSort fun a b => decide (a ≤ b)

/-- The name of the output file of a script. -/
def outputName (path : String) : String := stem path ++ ".ev"

/-- What a build has done so far. -/
structure Build where
  /-- The lines that were printed. -/
  printed : List String
  log : List LogEntry
  lexErrors : List LexError
  syntaxErrors : List (String × Token)
  /-- The contents of the output directory by file name, if there is such a directory. -/
  output : Option (Table String String)

/-- Write a file into the output directory. -/
def Build.write (b : Build) (name content : String) : Except Fault Build :=
  match b.output with
  | some files => .ok { b with output := some (files.insert name content) }
  | none => .error (.noFile (joinPath outputDirectory name))

/-- Build one script. The build so far is kept also when the script fails. -/
def buildScript (fs : Files) (mode : ReadMode) (path : String) (b : Build) :
    Except Fault Unit × Build :=
  let start := { CompileState.start path with
    printed := b.printed ++ [announcement path], log := b.log
    lexErrors := b.lexErrors, syntaxErrors := b.syntaxErrors }
  let (ended, s) := (compileFile fs mode (fs.entries.length + 1) path).run.run start
  let b := { b with
    printed := s.printed, log := s.log
    lexErrors := s.lexErrors, syntaxErrors := s.syntaxErrors }
  match ended with
  | .error f => (.error f, b)
  | .ok () => match b.write (outputName path) "" with
    | .error f => (.error f, b)
    | .ok opened => match s.file.code.print with
      | .error f => (.error f, opened)
      | .ok text => match opened.write (outputName path) text with
        | .error f => (.error f, opened)
        | .ok written => (.ok (), written)

/-- Build scripts in order, up to the first that fails. -/
def buildScripts (fs : Files) (mode : ReadMode) :
    List String → Build → Except Fault Unit × Build
  | [], b => (.ok (), b)
  | path :: paths, b =>
    match buildScript fs mode path b with
    | (.error f, b) => (.error f, b)
    | (.ok (), b) => buildScripts fs mode paths b

/-- Build all scripts, given what is in the output directory. -/
def buildAll (fs : Files) (mode : ReadMode) (output : Option (Table String String)) :
    Except Fault Unit × Build :=
  buildScripts fs mode (scriptPaths fs) ⟨[], [], [], [], output⟩

end EvScript
