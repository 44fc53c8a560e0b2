import EvScript.Build

/-!
# The Command Line

Run in a directory, the program builds all scripts of `scripts/src`, with repair, and writes
their listings into `output`. Imports are taken from beside a script and from the libraries
below `scripts/lib`. What a build prints goes to the standard output, errors of reading and
warnings and errors of its log to the standard error.
-/

namespace EvScript

/-- The names in a directory; none if there is no such directory. -/
def namesIn (path : String) : IO (List String) := do
  try
    let entries ← ((← IO.currentDir) / path).readDir
    return (entries.map (·.fileName)).toList
  catch _ => return []

/-- The scripts and imports directly in a directory. -/
def loadDirectory (path : String) : IO (List (String × ByteArray)) := do
  let names := (← namesIn path).filter (·.endsWith ".evc")
  names.mapM fun name => do
    let path := joinPath path name
    return (path, ← IO.FS.readBinFile path)

/-- All files that a build can look at. -/
def loadFiles : IO Files := do
  let libraries ← namesIn "scripts/lib"
  let directories := scriptDirectory :: libraries.map (joinPath "scripts/lib")
  return ⟨(← directories.mapM loadDirectory).flatten⟩

/-- Tell about a place in a script. -/
def complain (pos : Pos) (message : String) : IO Unit :=
  IO.eprintln ("line " ++ toString pos.line ++ ":" ++ toString pos.column ++ " " ++ message)

end EvScript

open EvScript in
/-- Build all scripts. A mistake that the log tells about ends the build in good order; any
other fault is told and makes the program fail. -/
def main : IO UInt32 := do
  let files ← loadFiles
  let isThere ← ((← IO.currentDir) / outputDirectory).isDir
  let (ended, build) := buildAll files .repair (if isThere then some .empty else none)
  for line in build.printed do IO.println line
  for e in build.lexErrors do complain e.pos e.message
  for (_, token) in build.syntaxErrors do
    complain token.pos ("syntax error at '" ++ token.text ++ "'")
  for entry in build.log do
    if entry.level ≠ .info then IO.eprintln entry.message
  for (name, content) in (build.output.map (·.entries)).getD [] do
    IO.FS.writeFile (joinPath outputDirectory name) content
  match ended with
  | .ok () => return 0
  | .error .stopped => return 0
  | .error fault => do
    IO.eprintln fault.message
    return 1
