/-!
# Patterns

A pattern describes a set of texts: regular expressions over single characters. The set is
given by the inductive relation `Matches`; the functions below compute with it one character
at a time, by derivatives.

`deriv c p` describes the texts that `p` describes after a first `c`. It is built with
`join` and `either`, which never leave a dead pattern inside a live one: as long as every
character class is inhabited, a pattern other than `none` describes at least one text, so
"no text can begin like this" is just a comparison with `none`.
-/

namespace EvScript

/-- A regular expression. -/
inductive Pattern where
  /-- No text at all. -/
  | none
  /-- The empty text. -/
  | empty
  /-- One character of a class. -/
  | one (cls : Char → Bool)
  /-- A text of the first followed by a text of the second. -/
  | seq (first second : Pattern)
  /-- A text of either. -/
  | alt (left right : Pattern)
  /-- Any number of texts of the body in a row. -/
  | many (body : Pattern)

namespace Pattern

/-- The texts that a pattern describes. -/
inductive Matches : Pattern → List Char → Prop where
  | empty : Matches .empty []
  | one {cls : Char → Bool} {c : Char} : cls c = true → Matches (.one cls) [c]
  | seq {p q : Pattern} {u v : List Char} :
      Matches p u → Matches q v → Matches (.seq p q) (u ++ v)
  | left {p q : Pattern} {u : List Char} : Matches p u → Matches (.alt p q) u
  | right {p q : Pattern} {u : List Char} : Matches q u → Matches (.alt p q) u
  | done {p : Pattern} : Matches (.many p) []
  | more {p : Pattern} {u v : List Char} :
      Matches p u → Matches (.many p) v → Matches (.many p) (u ++ v)

/-! ### Building patterns -/

/-- Exactly one character. -/
def char (c : Char) : Pattern := .one (· == c)

/-- Exactly one text. -/
def literal (text : String) : Pattern :=
  text.toList.foldr (fun c p => .seq (char c) p) .empty

/-- A text of any of the patterns. -/
def anyOf : List Pattern → Pattern
  | [] => .none
  | p :: ps => .alt p (anyOf ps)

/-- One or more texts of the pattern in a row. -/
def many1 (p : Pattern) : Pattern := .seq p (.many p)

/-- A text of the pattern, or the empty text. -/
def optional (p : Pattern) : Pattern := .alt p .empty

/-! ### Computing with patterns -/

/-- Whether the empty text is described. -/
def nullable : Pattern → Bool
  | .none => false
  | .empty => true
  | .one _ => false
  | .seq p q => p.nullable && q.nullable
  | .alt p q => p.nullable || q.nullable
  | .many _ => true

/-- `seq` that stays `none` when a part is and drops an empty first part. -/
def join : Pattern → Pattern → Pattern
  | .none, _ => .none
  | _, .none => .none
  | .empty, q => q
  | p, q => .seq p q

/-- `alt` without dead alternatives. -/
def either : Pattern → Pattern → Pattern
  | .none, q => q
  | p, .none => p
  | p, q => .alt p q

/-- The texts that the pattern describes after a first character `c`. -/
def deriv (c : Char) : Pattern → Pattern
  | .none => .none
  | .empty => .none
  | .one cls => if cls c then .empty else .none
  | .seq p q =>
    if p.nullable then either (join (p.deriv c) q) (q.deriv c) else join (p.deriv c) q
  | .alt p q => either (p.deriv c) (q.deriv c)
  | .many p => join (p.deriv c) (.many p)

/-- Whether the pattern describes no text; see the module header. -/
def isNone : Pattern → Bool
  | .none => true
  | _ => false

end Pattern

end EvScript
