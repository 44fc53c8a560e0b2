/-!
# Kinds of Token

Every token has a kind: a mark, a keyword, one of the open classes (names, numbers, strings,
comparators), or the end of the text. Kinds have two names, one for listings and one for the
place of a token that is missing.
-/

namespace EvScript

/-- Marks: the tokens written with punctuation. -/
inductive Mark where
  | semicolon
  | openBrace
  | comma
  | closeBrace
  | colon
  | equals
  | openParen
  | closeParen
  | arrow
  | plusEquals
  | minusEquals
  | star
  deriving DecidableEq, Repr

/-- The text of a mark. -/
def Mark.text : Mark → String
  | .semicolon => ";"
  | .openBrace => "\x7b"
  | .comma => ","
  | .closeBrace => "\x7d"
  | .colon => ":"
  | .equals => "="
  | .openParen => "("
  | .closeParen => ")"
  | .arrow => "->"
  | .plusEquals => "+="
  | .minusEquals => "-="
  | .star => "*"

/-- All marks. -/
def Mark.all : List Mark :=
  [.semicolon, .openBrace, .comma, .closeBrace, .colon, .equals, .openParen, .closeParen,
   .arrow, .plusEquals, .minusEquals, .star]

/-- Keywords: the reserved names. -/
inductive Keyword where
  | aliasKw
  | animationKw
  | boolKw
  | breakKw
  | caseKw
  | commandKw
  | commonKw
  | constKw
  | defaultKw
  | elseKw
  | enumKw
  | entryKw
  | falseKw
  | flagKw
  | floatKw
  | forKw
  | fromKw
  | functionKw
  | ifKw
  | importKw
  | intKw
  | lockKw
  | namespaceKw
  | strKw
  | sysflagKw
  | switchKw
  | returnKw
  | talkKw
  | trueKw
  | unlessKw
  | withKw
  | whileKw
  deriving DecidableEq, Repr

/-- The text of a keyword. -/
def Keyword.text : Keyword → String
  | .aliasKw => "alias"
  | .animationKw => "animation"
  | .boolKw => "bool"
  | .breakKw => "break"
  | .caseKw => "case"
  | .commandKw => "command"
  | .commonKw => "common"
  | .constKw => "const"
  | .defaultKw => "default"
  | .elseKw => "else"
  | .enumKw => "enum"
  | .entryKw => "entry"
  | .falseKw => "false"
  | .flagKw => "flag"
  | .floatKw => "float"
  | .forKw => "for"
  | .fromKw => "from"
  | .functionKw => "function"
  | .ifKw => "if"
  | .importKw => "import"
  | .intKw => "int"
  | .lockKw => "lock"
  | .namespaceKw => "namespace"
  | .strKw => "str"
  | .sysflagKw => "sysflag"
  | .switchKw => "switch"
  | .returnKw => "return"
  | .talkKw => "talk"
  | .trueKw => "true"
  | .unlessKw => "unless"
  | .withKw => "with"
  | .whileKw => "while"

/-- All keywords. -/
def Keyword.all : List Keyword :=
  [.aliasKw, .animationKw, .boolKw, .breakKw, .caseKw, .commandKw, .commonKw, .constKw,
   .defaultKw, .elseKw, .enumKw, .entryKw, .falseKw, .flagKw, .floatKw, .forKw, .fromKw,
   .functionKw, .ifKw, .importKw, .intKw, .lockKw, .namespaceKw, .strKw, .sysflagKw,
   .switchKw, .returnKw, .talkKw, .trueKw, .unlessKw, .withKw, .whileKw]

/-- The kind of a token. -/
inductive Kind where
  | mark (m : Mark)
  | keyword (k : Keyword)
  | string
  | comparator
  | number
  /-- A name with `::` in it. -/
  | scopedName
  /-- A plain name. -/
  | name
  /-- The end of the text. -/
  | finish
  deriving DecidableEq, Repr

namespace Kind

/-- The name of the kind in listings: keywords in capitals, marks in quotes. -/
def label : Kind → String
  | .mark .star => "WILDCARD"
  | .mark m => "'" ++ m.text ++ "'"
  | .keyword k => k.text.toUpper
  | .string => "STRING"
  | .comparator => "Comparator"
  | .number => "NUMBER"
  | .scopedName => "ScopedIdentifier"
  | .name => "Identifier"
  | .finish => "EOF"

/-- What stands in a tree for a missing token of the kind: the token itself in quotes if the
kind has only one, the kind's name for names, and a fixed mark for the other classes. -/
def placeholder : Kind → String
  | .mark m => "<missing '" ++ m.text ++ "'>"
  | .keyword k => "<missing '" ++ k.text ++ "'>"
  | .scopedName => "<missing ScopedIdentifier>"
  | .name => "<missing Identifier>"
  | .finish => "<missing EOF>"
  | .string | .comparator | .number => "<missing <INVALID>>"

end Kind

end EvScript
