import EvScript.Scope.Resolve

/-!
# Moving through Scopes

A compilation moves through the graph with a cursor: it enters a new scope for every
namespace and every block and leaves it at the end. Declarations go into the current scope.
Importing a file either puts its global scope, under the name of the file, into the importing
file's global scope, or copies its declarations one level up.
-/

namespace EvScript

/-- Why a scope cannot be left. -/
inductive LeaveError where
  | outermost
  | atTop
  deriving DecidableEq, Repr

/-- The wording of a refusal to leave. -/
def LeaveError.message : LeaveError → String
  | .outermost => "Attempting to popscope without prevScope"
  | .atTop => "Attempting to popScope when at globalScope"

namespace Cursor

/-- A cursor at a new global scope. -/
def start (g : ScopeGraph) : Cursor × ScopeGraph :=
  let (id, g) := g.add {}
  (⟨id, id, []⟩, g)

/-- Put a scope of the graph into the current one and go into it. -/
def enter (c : Cursor) (g : ScopeGraph) (id : ScopeId) : Cursor × ScopeGraph :=
  ({ c with here := id, enclosing := c.here :: c.enclosing }, g.adopt c.here id)

/-- Put a new scope into the current one and go into it. -/
def enterNew (c : Cursor) (g : ScopeGraph) (s : Scope) : Cursor × ScopeGraph :=
  let (id, g) := g.add s
  c.enter g id

/-- Go back to where the current scope was entered from. -/
def leave (c : Cursor) : Except LeaveError Cursor :=
  match c.enclosing with
  | [] => .error .outermost
  | id :: ids =>
      if c.here = c.top then .error .atTop else .ok { c with here := id, enclosing := ids }

/-! ### Declaring -/

/-- Declare a variable in the current scope. -/
def addVariable (c : Cursor) (g : ScopeGraph) (v : Variable) : ScopeGraph :=
  g.modify c.here fun s => { s with vars := s.vars.insert v.name v }

/-- Declare a command in the current scope. -/
def addCommand (c : Cursor) (g : ScopeGraph) (d : Command) : ScopeGraph :=
  g.modify c.here fun s => { s with commands := s.commands.insert d.name d }

/-- Declare a function in the current scope. -/
def addFunction (c : Cursor) (g : ScopeGraph) (f : Function) : ScopeGraph :=
  g.modify c.here fun s => { s with functions := s.functions.insert f.name f }

/-- Declare an animation in the current scope. -/
def addAnimation (c : Cursor) (g : ScopeGraph) (a : Animation) : ScopeGraph :=
  g.modify c.here fun s => { s with animations := s.animations.insert a.name a }

/-- Declare variables in a given scope. -/
def addVariablesAt (g : ScopeGraph) (id : ScopeId) (vs : List Variable) : ScopeGraph :=
  g.modify id fun s =>
    { s with vars := vs.foldl (fun t v => t.insert v.name v) s.vars }

/-! ### Importing -/

/-- Name another file's global scope and put it into this one's. -/
def mount (c : Cursor) (g : ScopeGraph) (other : Cursor) (name : String) : ScopeGraph :=
  (g.modify other.top fun s => { s with name := some name }).adopt c.top other.top

/-- Copy all declarations of another file's global scope into this one's, and share the
scopes inside it. -/
def takeAll (c : Cursor) (g : ScopeGraph) (other : Cursor) : ScopeGraph :=
  let from' := g.scope other.top
  g.modify c.top fun s => { s with
    animations := s.animations.merge from'.animations
    commands := s.commands.merge from'.commands
    functions := s.functions.merge from'.functions
    vars := s.vars.merge from'.vars
    children := s.children ++ from'.children }

/-- Copy one declaration of a scope into another, if there is one under the name. A name that
is declared several times is an animation first, then a command, then a function. -/
def takeName (source : Scope) (name : String) (s : Scope) : Option Scope :=
  match source.animations.find? name with
  | some a => some { s with animations := s.animations.insert name a }
  | none => match source.commands.find? name with
    | some d => some { s with commands := s.commands.insert name d }
    | none => match source.functions.find? name with
      | some f => some { s with functions := s.functions.insert name f }
      | none => match source.vars.find? name with
        | some v => some { s with vars := s.vars.insert name v }
        | none => none

/-- Copy declarations of another file's global scope into the current one by name, one after
the other. The first name that is not declared there ends it with the answer `false`; those in
front of it have been copied. There is no answer if all are declared. -/
def takeNames (c : Cursor) (other : Cursor) :
    List String → ScopeGraph → Option Bool × ScopeGraph
  | [], g => (none, g)
  | name :: names, g =>
    match takeName (g.scope other.top) name (g.scope c.here) with
    | some s => c.takeNames other names (g.modify c.here fun _ => s)
    | none => (some false, g)

end Cursor

end EvScript
