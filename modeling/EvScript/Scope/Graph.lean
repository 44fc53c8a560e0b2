import EvScript.Code.Value
import EvScript.Table
import EvScript.Token.Lexer

/-!
# Scopes

A scope holds declarations: commands, functions, variables and animations, each by name. A
scope can have a name itself; it then is a namespace, and what it holds is reached from
outside by a qualified name. A scope knows the scope it was put into and those put into it.

One file's scopes form a tree. Importing a file shares its scopes instead of copying them, so
all scopes of a run live in one graph and are referred to by their number in it.
-/

namespace EvScript

/-! ### Declarations -/

/-- The type of a result, as it is declared, and the line it is declared on. -/
structure ResultType where
  type : ValueType
  word : String
  line : Nat
  deriving DecidableEq, Repr

/-- A declared command. `serial` is the number of its declaration in the run. -/
structure Command where
  name : String
  number : Option Int
  result : Option ResultType
  serial : Nat
  pos : Pos
  deriving DecidableEq, Repr

/-- A declared function; `label` is the index of the name of its label. -/
structure Function where
  kind : Option FunctionKind
  label : Nat
  name : String
  result : Option ResultType
  pos : Pos
  deriving DecidableEq, Repr

/-- A declared variable. It is constant if it has a constant value. -/
structure Variable where
  type : ValueType
  word : String
  name : String
  storage : Option Int
  constant : Option Int
  pos : Pos
  deriving DecidableEq, Repr

/-- A declared animation; `label` is the index of the name of its label. -/
structure Animation where
  name : String
  label : Nat
  pos : Pos
  deriving DecidableEq, Repr

/-! ### Scopes -/

/-- The number of a scope in the graph. -/
abbrev ScopeId := Nat

/-- A scope: its name if it is a namespace, its declarations, the scope it was put into last
and the scopes that were put into it. -/
structure Scope where
  name : Option String := none
  animations : Table String Animation := .empty
  commands : Table String Command := .empty
  functions : Table String Function := .empty
  vars : Table String Variable := .empty
  parent : Option ScopeId := none
  children : List ScopeId := []

/-- All scopes of a run. -/
structure ScopeGraph where
  scopes : Array Scope

namespace ScopeGraph

/-- No scopes. -/
def empty : ScopeGraph := ⟨#[]⟩

/-- How many scopes there are. -/
def size (g : ScopeGraph) : Nat := g.scopes.size

/-- The scope with a number. -/
def scope (g : ScopeGraph) (id : ScopeId) : Scope := g.scopes[id]?.getD {}

/-- Add a scope that is not yet put into any other. -/
def add (g : ScopeGraph) (s : Scope) : ScopeId × ScopeGraph := (g.size, ⟨g.scopes.push s⟩)

/-- Change one scope. -/
def modify (g : ScopeGraph) (id : ScopeId) (f : Scope → Scope) : ScopeGraph :=
  ⟨g.scopes.modify id f⟩

/-- Put a scope into another one, behind those that are in it. -/
def adopt (g : ScopeGraph) (parent child : ScopeId) : ScopeGraph :=
  (g.modify child fun s => { s with parent := some parent }).modify parent fun s =>
    { s with children := s.children ++ [child] }

end ScopeGraph

end EvScript
