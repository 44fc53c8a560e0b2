/-!
# Registries

A registry is a closed list of named numbers: the commands the script engine knows, its work
registers, its system flags. Within one registry a number has one name and a name one number,
so it is looked up from both sides.
-/

namespace EvScript

/-- A closed list of named numbers. The title is how messages call the registry. -/
structure Registry where
  title : String
  members : List (Int × String)

namespace Registry

/-- Consecutive numbers, from `first` on, for a row of names. -/
def numbered (first : Int) : List String → List (Int × String)
  | [] => []
  | name :: names => (first, name) :: numbered (first + 1) names

/-- Names that begin alike. -/
def alike (start : String) (names : List String) : List String := names.map (start ++ ·)

/-- The name of a number. -/
def name? (r : Registry) (number : Int) : Option String :=
  (r.members.find? fun m => m.1 == number).map (·.2)

/-- The number of a name. -/
def number? (r : Registry) (name : String) : Option Int :=
  (r.members.find? fun m => m.2 == name).map (·.1)

/-- How many members there are. -/
def size (r : Registry) : Nat := r.members.length

end Registry

end EvScript
