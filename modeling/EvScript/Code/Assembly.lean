import EvScript.Code.Value
import EvScript.Registry.Command
import EvScript.Table

/-!
# Assemblies

An assembly is code under construction: a table of strings, and labels with the instructions
that stand under them. Labels are named by strings of the table. A label keeps its handle for
good, but a name means the label that was made last under it, so that an earlier label of the
same name drops out of the listing.

Labels for the inside of a branch are **children** of the label they branch off; their names
are made up from the name of the parent and their number among its children.
-/

namespace EvScript

/-- An operand: its kind and its number, if it has one. -/
structure Operand where
  kind : OperandKind
  data : Option Int
  deriving DecidableEq, Repr

/-- An instruction: the number of a command, if it has one, and its operands. -/
structure Instr where
  command : Option Int
  operands : List Operand
  deriving DecidableEq, Repr

/-- A label: the index of its name, the name indices of its children, and the instructions
under it. -/
structure Label where
  name : Nat
  children : List Nat
  instrs : List Instr
  deriving DecidableEq, Repr

/-- Code under construction. -/
structure Assembly where
  /-- The strings of the table, in order of their indices. -/
  strings : List String
  /-- The labels, in the order in which they were made. -/
  labels : Array Label
  /-- Which label a name index means. -/
  byName : Table Nat Nat

/-- The handle of a label: its number in the order of making. -/
abbrev LabelId := Nat

namespace Operand

/-- A string operand. -/
def ofString (index : Nat) : Operand := ⟨.string, some index⟩

end Operand

namespace Assembly

/-- No code. -/
def empty : Assembly := ⟨[], #[], .empty⟩

/-- The index of a string in the table; a new string is put at the end. -/
def intern (a : Assembly) (s : String) : Nat × Assembly :=
  match a.strings.idxOf? s with
  | some i => (i, a)
  | none => (a.strings.length, { a with strings := a.strings ++ [s] })

/-- The label with a handle. -/
def label (a : Assembly) (id : LabelId) : Label := a.labels[id]?.getD ⟨0, [], []⟩

/-- A new label with the given name. From now on the name means this label. -/
def newLabel (a : Assembly) (name : String) : LabelId × Assembly :=
  let (index, a) := a.intern name
  (a.labels.size,
    { a with
      labels := a.labels.push ⟨index, [], []⟩
      byName := a.byName.insert index a.labels.size })

/-- The name of the `i`-th child of a label. -/
def childName (parent : String) (i : Nat) : String :=
  "__child_" ++ parent ++ "_" ++ toString i

/-- A new child of a label. -/
def newChild (a : Assembly) (parent : LabelId) : LabelId × Assembly :=
  let l := a.label parent
  let (child, a) := a.newLabel (childName (a.strings[l.name]?.getD "") l.children.length)
  let index := (a.label child).name
  (child, { a with
    labels := a.labels.modify parent fun l => { l with children := l.children ++ [index] } })

/-- Put instructions under a label, behind those that are there. -/
def emit (a : Assembly) (id : LabelId) (instrs : List Instr) : Assembly :=
  { a with labels := a.labels.modify id fun l => { l with instrs := l.instrs ++ instrs } }

/-- The operand that names a label. -/
def target (a : Assembly) (id : LabelId) : Operand := .ofString (a.label id).name

/-- End a label by going on at another one. -/
def jump (a : Assembly) (source destination : LabelId) : Assembly :=
  a.emit source [⟨some Registry.Opcode.jump, [a.target destination]⟩]

/-- The labels by name index, in the order in which the names came up. -/
def listing (a : Assembly) : List (Nat × Label) :=
  a.byName.entries.map fun e => (e.1, a.label e.2)

end Assembly

end EvScript
