import EvScript.Grammar.Lookahead
import EvScript.Grammar.Tree

/-!
# Reading a Program

The plain reader goes through the grammar from left to right and never goes back: the next
token decides about optional parts and repetitions, and choices look ahead (`predict`). It
stops at the first token that cannot be read.

Rules call each other, so reading is bounded by a budget: one step for every rule inside a
rule and for every turn of a repetition. Every turn reads a token, and so does every rule
after a few nested ones, so a budget in proportion to the number of tokens is never used up.
-/

namespace EvScript

/-- What reading yields: the trees that were read and the tokens that are left, or the token
at which it stopped. -/
abbrev Reading := Except Token (List Tree × List Token)

/-- What a reader of an expression has at hand. -/
structure Reader where
  /-- The token behind all others. -/
  finish : Token
  /-- How many turns a repetition may have. -/
  turns : Nat
  /-- How to read a rule. -/
  call : Rule → List Token → Reading

namespace Reader

/-- The token at hand. -/
def peek (r : Reader) : List Token → Token
  | [] => r.finish
  | t :: _ => t

/-- The token that is `n` tokens ahead of the one at hand. -/
def peekAt (r : Reader) (ts : List Token) (n : Nat) : Token := r.peek (ts.drop n)

/-- Read one token of an accepted kind. -/
def token (r : Reader) (accepts : Kind → Bool) : List Token → Reading
  | [] => .error r.finish
  | t :: ts => if accepts t.kind then .ok ([.leaf t], ts) else .error t

/-- Repeat `body` as long as `goesOn` says so. -/
def repeated (goesOn : List Token → Except Token Bool) (body : List Token → Reading) :
    Nat → List Token → Reading
  | 0, ts => .ok ([], ts)
  | n + 1, ts => do
    if ← goesOn ts then
      let (first, ts) ← body ts
      let (more, ts) ← repeated goesOn body n ts
      return (first ++ more, ts)
    else return ([], ts)

/-- Whether the token at hand can start the expression. -/
def startsHere (r : Reader) (e : Expr) (ts : List Token) : Bool := e.starts (r.peek ts).kind

/-- The alternative to take; a stuck choice stops reading where it is stuck. -/
def choose (r : Reader) (alternatives : List Expr) (rest : Remainder) (ts : List Token) :
    Except Token Nat :=
  let p := predict alternatives rest ts
  match p.alternative with
  | some i => .ok i
  | none => .error (r.peekAt ts (p.looked - 1))

end Reader

mutual

/-- Read an expression, where `rest` remains to be read in its rule. -/
def Expr.read (r : Reader) (rest : Remainder) : Expr → List Token → Reading
  | .tok kind, ts => r.token (· == kind) ts
  | .oneOf kinds, ts => r.token (kinds.contains ·) ts
  | .call rule, ts => r.call rule ts
  | .seq parts, ts => readSeq r rest parts ts
  | .choice alternatives, ts => do
    readChoice r rest alternatives (← r.choose alternatives rest ts) ts
  | .opt body, ts => if r.startsHere body ts then body.read r rest ts else .ok ([], ts)
  | .many body, ts =>
    Reader.repeated (fun ts => .ok (r.startsHere body ts)) (body.read r (.many body :: rest))
      r.turns ts
  | .many1 body, ts => do
    let (first, ts) ← body.read r (.many body :: rest) ts
    let (more, ts) ← Reader.repeated (fun ts => .ok (r.startsHere body ts))
      (body.read r (.many body :: rest)) r.turns ts
    return (first ++ more, ts)
  | .manyAhead body, ts =>
    Reader.repeated
      (fun ts => (r.choose [.seq [body, .manyAhead body], .seq []] rest ts).map (· == 0))
      (body.read r (.manyAhead body :: rest)) r.turns ts

/-- Read a row of expressions. -/
def readSeq (r : Reader) (rest : Remainder) : List Expr → List Token → Reading
  | [], ts => .ok ([], ts)
  | e :: es, ts => do
    let (first, ts) ← e.read r (es ++ rest) ts
    let (more, ts) ← readSeq r rest es ts
    return (first ++ more, ts)

/-- Read the alternative with the given number. -/
def readChoice (r : Reader) (rest : Remainder) : List Expr → Nat → List Token → Reading
  | [], _, ts => .error (r.peek ts)
  | e :: _, 0, ts => e.read r rest ts
  | _ :: es, i + 1, ts => readChoice r rest es i ts

end

/-- Read a rule within a budget. -/
def Rule.read (finish : Token) : Nat → Rule → List Token → Reading
  | 0, _, ts => .error (ts.headD finish)
  | n + 1, rule, ts => do
    let (children, us) ← rule.body.read ⟨finish, n, Rule.read finish n⟩ [] ts
    return ([.node rule (posAhead finish ts) children], us)

/-- A budget that no row of tokens uses up. -/
def readingBudget (ts : List Token) : Nat := 4 * ts.length + 40

/-- A script that was read as a program: its tree and the first token behind it. Behind the
last entry of a program anything may stand; it is not looked at. -/
structure Program where
  tree : Tree
  next : Token

/-- Read a script as a program, or tell at which token that fails. -/
def readProgram (s : Script) : Except Token Program := do
  let (trees, ts) ← Rule.read s.finish (readingBudget s.tokens) .program s.tokens
  match trees with
  | [tree] => return ⟨tree, ts.headD s.finish⟩
  | _ => throw (ts.headD s.finish)

end EvScript
