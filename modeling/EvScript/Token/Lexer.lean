import EvScript.Token.Lexicon

/-!
# Cutting a Script into Tokens

A script is cut from left to right. At each place the **longest** beginning that some entry
of the lexicon describes is taken, with the first such entry as its class. Where no entry
describes any beginning, the shortest beginning that no entry's texts begin with is dropped
(or all that is left, if there is none) and an error is recorded.

Every character ends up in exactly one piece: a token, a blank or a dropped text.
-/

namespace EvScript

/-! ### Positions -/

/-- A place in a text: lines count from 1, columns from 0. -/
structure Pos where
  line : Nat
  column : Nat
  deriving DecidableEq, Repr

/-- The first place of a text. -/
def Pos.start : Pos := ⟨1, 0⟩

/-- The place behind a character; only a line feed starts a new line. -/
def Pos.next (p : Pos) (c : Char) : Pos :=
  if c = '\n' then ⟨p.line + 1, 0⟩ else ⟨p.line, p.column + 1⟩

/-! ### Pieces -/

/-- What was made of a piece of text: it belongs to a class, or it was dropped. -/
inductive PieceForm where
  | taken (cls : LexClass)
  | dropped
  deriving DecidableEq, Repr

/-- A piece of a text: what it is, its characters, and where it starts. -/
structure Piece where
  form : PieceForm
  text : List Char
  pos : Pos
  offset : Nat
  deriving DecidableEq, Repr

/-- The entry after one character, unless nothing it describes goes on like that. -/
def LexRule.step? (c : Char) (r : LexRule) : Option LexRule :=
  let p := r.pattern.deriv c
  if p.isNone then none else some ⟨r.cls, p⟩

/-- The form and length of the piece at the front of a text. `live` are the entries that can
still go on after the `taken` characters read so far, `best` is the longest match among them. -/
def munchFrom (live : List LexRule) (best : Option (LexClass × Nat)) (taken : Nat) :
    List Char → PieceForm × Nat
  | [] => settle best taken
  | c :: cs =>
    match live.filterMap (·.step? c) with
    | [] => settle best (taken + 1)
    | next =>
      let best := match next.find? (·.pattern.nullable) with
        | some r => some (r.cls, taken + 1)
        | none => best
      munchFrom next best (taken + 1) cs
where
  /-- The longest match if there was one; otherwise all that was read is dropped. -/
  settle : Option (LexClass × Nat) → Nat → PieceForm × Nat
    | some (cls, size), _ => (.taken cls, size)
    | none, read => (.dropped, read)

/-- The form and length of the piece at the front of a text. -/
def munch (cs : List Char) : PieceForm × Nat := munchFrom lexicon none 0 cs

/-- The pieces of a text that starts at the given place; the first `skip` characters belong
to a piece that has been listed already. -/
def piecesFrom (pos : Pos) (offset : Nat) : Nat → List Char → List Piece
  | _, [] => []
  | skip + 1, c :: cs => piecesFrom (pos.next c) (offset + 1) skip cs
  | 0, c :: cs =>
    let (form, size) := munch (c :: cs)
    ⟨form, (c :: cs).take size, pos, offset⟩ ::
      piecesFrom (pos.next c) (offset + 1) (size - 1) cs

/-- The pieces of a text. -/
def pieces (cs : List Char) : List Piece := piecesFrom .start 0 0 cs

/-! ### Tokens -/

/-- A token: kind and text, the place of its first character, and its offset and length in
characters. -/
structure Token where
  kind : Kind
  text : String
  pos : Pos
  offset : Nat
  size : Nat
  deriving DecidableEq, Repr

/-- A text that was dropped. -/
structure LexError where
  text : List Char
  pos : Pos
  offset : Nat
  deriving DecidableEq, Repr

/-- The piece as a token, if it is one. -/
def Piece.token? (p : Piece) : Option Token :=
  match p.form with
  | .taken (.token kind) => some ⟨kind, String.ofList p.text, p.pos, p.offset, p.text.length⟩
  | _ => none

/-- The piece as an error, if it was dropped. -/
def Piece.error? (p : Piece) : Option LexError :=
  match p.form with
  | .dropped => some ⟨p.text, p.pos, p.offset⟩
  | _ => none

/-- Line feeds, tabs and carriage returns are shown as an escape. -/
def showControl : Char → List Char
  | '\n' => ['\\', 'n']
  | '\t' => ['\\', 't']
  | '\r' => ['\\', 'r']
  | c => [c]

/-- The wording of an error. -/
def LexError.message (e : LexError) : String :=
  "token recognition error at: '" ++ String.ofList (e.text.flatMap showControl) ++ "'"

/-- The token at the end of a text. -/
def finishToken (cs : List Char) : Token :=
  ⟨.finish, "<EOF>", cs.foldl Pos.next .start, cs.length, 0⟩

/-- A text after cutting: its tokens, the token at its end, and the errors. -/
structure Script where
  tokens : List Token
  finish : Token
  errors : List LexError
  deriving Repr

/-- Cut a text. -/
def Script.ofText (text : String) : Script :=
  let cs := text.toList
  let ps := pieces cs
  ⟨ps.filterMap Piece.token?, finishToken cs, ps.filterMap Piece.error?⟩

/-- The errors in front of a token. Reading up to a token meets exactly these. -/
def Script.errorsBefore (s : Script) (t : Token) : List LexError :=
  s.errors.filter (·.offset < t.offset)

end EvScript
