import EvScript.Token.Kind
import EvScript.Token.Pattern

/-!
# The Lexicon

The lexicon lists what a script is cut into, in order of precedence: of two entries that
describe the same text the earlier one counts, which is how keywords win over names. Some
entries describe tokens, the others (comments and blanks) are passed over.
-/

namespace EvScript

/-- What a piece of a script is: a token of some kind, or a blank between tokens. -/
inductive LexClass where
  | token (kind : Kind)
  | blank
  deriving DecidableEq, Repr

/-- An entry of the lexicon: a class and the texts that belong to it. -/
structure LexRule where
  cls : LexClass
  pattern : Pattern

namespace Lexicon

open Pattern

/-- The decimal digits. -/
def isDigit (c : Char) : Bool := '0' ≤ c && c ≤ '9'

/-- The characters a name can begin with: the letters of the basic alphabet and `_`. -/
def isNameStart (c : Char) : Bool :=
  ('a' ≤ c && c ≤ 'z') || ('A' ≤ c && c ≤ 'Z') || c == '_'

/-- A plain name. -/
def name : Pattern :=
  .seq (.one isNameStart) (.many (.one fun c => isNameStart c || isDigit c))

/-- Two or more names joined by `::`. -/
def scopedName : Pattern := .seq name (many1 (.seq (literal "::") name))

/-- Digits with an optional sign in front and an optional fraction behind. -/
def number : Pattern :=
  .seq (optional (char '-')) <|
    .seq (many1 (.one isDigit)) (optional (.seq (char '.') (many1 (.one isDigit))))

/-- Anything between two apostrophes, line ends included. -/
def string : Pattern :=
  .seq (.one (· == '\'')) (.seq (.many (.one (· != '\''))) (.one (· == '\'')))

/-- The comparators, by letters or by signs. -/
def comparator : Pattern :=
  anyOf (["EQ", "==", "NE", "!=", "LT", "<", "GT", ">", "LE", "<=", "GE", ">="].map literal)

/-- A comment up to the end of the line. -/
def lineComment : Pattern :=
  .seq (literal "//") (.many (.one fun c => c != '\r' && c != '\n'))

/-- A comment from `/*` to the first `*/` behind it: runs of stars are taken apart from other
characters, and only the last run is followed by a slash. -/
def blockComment : Pattern :=
  .seq (literal "/*") <|
    .seq (.many (.alt (.one (· != '*'))
        (.seq (many1 (char '*')) (.one fun c => c != '*' && c != '/'))))
      (.seq (many1 (char '*')) (char '/'))

/-- A blank character. -/
def blank : Pattern := .one fun c => c == '\r' || c == '\n' || c == ' ' || c == '\t'

end Lexicon

open Lexicon in
/-- The lexicon, in order of precedence. -/
def lexicon : List LexRule :=
  (Mark.all.map fun m => ⟨.token (.mark m), .literal m.text⟩) ++
  [⟨.token .string, string⟩,
   ⟨.token .comparator, comparator⟩,
   ⟨.blank, lineComment⟩,
   ⟨.blank, blockComment⟩,
   ⟨.token .number, number⟩,
   ⟨.blank, blank⟩] ++
  (Keyword.all.map fun k => ⟨.token (.keyword k), .literal k.text⟩) ++
  [⟨.token .scopedName, scopedName⟩,
   ⟨.token .name, name⟩]

end EvScript
