import EvScript.Token.Lexer

/-!
# Files

A compilation sees files by their paths. Paths are relative and their parts are separated by
slashes.
-/

namespace EvScript

/-- The files that are there, with their bytes. -/
structure Files where
  entries : List (String × ByteArray)

namespace Files

/-- The bytes of a file. -/
def bytes? (fs : Files) (path : String) : Option ByteArray :=
  (fs.entries.find? fun e => e.1 == path).map (·.2)

/-- Whether there is a file at a path. -/
def has (fs : Files) (path : String) : Bool := (fs.bytes? path).isSome

end Files

/-- What stands behind the last slash of a path. -/
def lastPart (path : List Char) : List Char :=
  (path.reverse.takeWhile (· != '/')).reverse

/-- What stands in front of the last slash of a path. -/
def directory (path : String) : String :=
  let front := path.toList.take (path.length - (lastPart path.toList).length)
  String.ofList (front.reverse.dropWhile (· == '/')).reverse

/-- A path inside a directory; the empty directory is the one everything is in. -/
def joinPath (dir name : String) : String :=
  if dir.isEmpty then name else dir ++ "/" ++ name

/-- The name of the file at a path, without what stands behind its last dot. Dots in front
belong to the name. -/
def stem (path : String) : String :=
  let name := lastPart path.toList
  let dots := name.takeWhile (· == '.')
  let rest := name.dropWhile (· == '.')
  if rest.contains '.' then
    String.ofList (dots ++ ((rest.reverse.dropWhile (· != '.')).drop 1).reverse)
  else String.ofList name

/-- Where a file that is imported from the file at a path is looked for: beside it, then among
the libraries. -/
def importPaths (path name : String) : List String :=
  [joinPath (directory path) (name ++ ".evc"), "scripts/lib/" ++ name ++ "/lib.evc"]

/-- The path at which an imported file is found. -/
def findImport (fs : Files) (path name : String) : Option String :=
  (importPaths path name).find? fs.has

end EvScript
