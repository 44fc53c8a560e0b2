import EvScript.Scope.Graph

/-!
# What a Name Means

A plain name is looked up in the global scope first, then in the current scope, then in the
scopes around it as long as these are no namespaces.

A qualified name `p::q::x` is looked up from the global scope downwards, level by level. A
level is searched from left to right: unnamed scopes are passed through, scopes of another
name are left out, and the first scope with the next part of the name ends the level; the
search goes on with what is in that scope alone. Among scopes with the last part of the
name, the first that declares `x` is taken.

Both searches end because a path through the graph is no longer than the graph is large; the
number of scopes bounds them.
-/

namespace EvScript

/-- A place in the graph: the global scope, the current scope, and the scopes to go back to,
innermost first. -/
structure Cursor where
  top : ScopeId
  here : ScopeId
  enclosing : List ScopeId
  deriving DecidableEq, Repr

/-! ### Qualified names -/

/-- The parts of a qualified name: what stands before, between and behind its `::`. -/
def splitQualified : List Char → List (List Char)
  | [] => [[]]
  | ':' :: ':' :: cs => [] :: splitQualified cs
  | c :: cs => match splitQualified cs with
    | [] => [[c]]
    | part :: parts => (c :: part) :: parts

/-- A name taken apart: the parts in front of the last `::`, if there is one, and the last
part. -/
def nameParts (name : String) : List String × String :=
  let parts := (splitQualified name.toList).map String.ofList
  (parts.dropLast, parts.getLast?.getD "")

/-- Which table of a scope to look into. -/
abbrev Shelf (α : Type) := Scope → Table String α

variable {α : Type}

namespace ScopeGraph

/-- Look up a plain name in a scope and then in those around it, up to `n` scopes. -/
def climb (g : ScopeGraph) (top : ScopeId) (shelf : Shelf α) (name : String) :
    Nat → ScopeId → Option α
  | 0, _ => none
  | n + 1, id =>
    let s := g.scope id
    if s.name.isSome then none
    else match (shelf s).find? name with
      | some a => some a
      | none => match s.parent with
        | some parent => if parent = top then none else g.climb top shelf name n parent
        | none => none

/-- What searching one level comes to. -/
inductive Level (α : Type) where
  /-- The declaration was found. -/
  | found (a : α)
  /-- The search goes on one level down, with what is left of the qualified name. -/
  | down (first : String) (more : List String) (next : List ScopeId)

/-- Search one level for `first::more…::leaf`; `below` are the scopes inside the unnamed
scopes met so far. -/
def searchLevel (g : ScopeGraph) (shelf : Shelf α) (first : String) (more : List String)
    (leaf : String) (below : List ScopeId) : List ScopeId → Level α
  | [] => .down first more below
  | id :: ids =>
    let s := g.scope id
    match s.name with
    | none => g.searchLevel shelf first more leaf (below ++ s.children) ids
    | some name =>
      if name = first then
        match more with
        | [] => match (shelf s).find? leaf with
          | some a => .found a
          | none => g.searchLevel shelf first more leaf below ids
        | second :: more => .down second more s.children
      else g.searchLevel shelf first more leaf below ids

/-- Search up to `n` levels for `first::more…::leaf`, starting with the given scopes. -/
def descend (g : ScopeGraph) (shelf : Shelf α) (leaf : String) :
    Nat → String → List String → List ScopeId → Option α
  | 0, _, _, _ => none
  | _ + 1, _, _, [] => none
  | n + 1, first, more, level =>
    match g.searchLevel shelf first more leaf [] level with
    | .found a => some a
    | .down first more next => g.descend shelf leaf n first more next

end ScopeGraph

namespace Cursor

/-- The declaration that a plain name means. -/
def resolvePlain (c : Cursor) (g : ScopeGraph) (shelf : Shelf α) (name : String) : Option α :=
  match (shelf (g.scope c.top)).find? name with
  | some a => some a
  | none => match (shelf (g.scope c.here)).find? name with
    | some a => some a
    | none => match (g.scope c.here).parent with
      | some parent => g.climb c.top shelf name g.size parent
      | none => none

/-- The declaration that a name means, if there is one. -/
def resolve (c : Cursor) (g : ScopeGraph) (shelf : Shelf α) (name : String) : Option α :=
  match nameParts name with
  | (first :: more, leaf) => g.descend shelf leaf (g.size + 1) first more [c.top]
  | ([], _) => c.resolvePlain g shelf name

end Cursor

end EvScript
