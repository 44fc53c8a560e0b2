import EvScript.Grammar.Lookahead
import EvScript.Grammar.Tree

/-!
# Reading with Repair

This reader never gives up. Where the plain reader would stop, it records the token, mends
the row of tokens as well as it can, and goes on; the tree shows what was done.

* **One token too many.** If the token behind the one at hand is acceptable, the one at hand
  is passed over.
* **One token too few.** If the token at hand could follow the expected one, a placeholder
  takes the place of the expected one.
* **A rule that fails.** Otherwise the rule ends with what it has. Tokens are passed over
  until one that some rule under way can go on with, and the calling rule continues.

From a repair until the next token that is read in its place the reader is **recovering**:
it records no further errors and does not check ahead of choices. If a place of the grammar
fails a second time at the same token while recovering, that token is passed over, so that
reading always gets on.

Places of the grammar at which reading can fail are identified by `Site`s.
-/

namespace EvScript

/-- A place in the grammar: a rule and the way down to a part of its body. -/
structure Site where
  rule : Rule
  path : List Nat
  deriving DecidableEq, Repr

/-- The place one step further down. -/
def Site.down (s : Site) (i : Nat) : Site := ⟨s.rule, i :: s.path⟩

/-- Why a rule failed: the place and the token at which it did. -/
structure Failure where
  site : Site
  token : Token

/-- The state of a reader with repair. -/
structure Repair where
  /-- The tokens that are left. -/
  ahead : List Token
  /-- The token behind all others. -/
  finish : Token
  /-- How many tokens have been read or passed over. -/
  taken : Nat
  /-- How many tokens have been looked at. -/
  looked : Nat
  /-- Whether no token was read in its place since the last error. -/
  recovering : Bool
  /-- The number of tokens taken when a rule last failed, since a token was read in its
  place. -/
  failedAt : Option Nat
  /-- The places at which rules failed since a token was read in its place. -/
  failures : List Site
  /-- The tokens at which errors were recorded, last first. -/
  reports : List Token
  /-- The token that was taken last. -/
  last : Option Token
  /-- The trees of the rule under way, last first. -/
  trees : List Tree

/-- Reading with repair changes the state and may fail the rule under way. -/
abbrev RepairM := ExceptT Failure (StateM Repair)

namespace Repair

/-! ### Looking at tokens -/

/-- The token `n` tokens ahead of the one at hand. -/
def tokenAt (s : Repair) (n : Nat) : Token := (s.ahead.drop n).headD s.finish

/-- The token `n` tokens ahead of the one at hand; all tokens up to it count as looked at. -/
def look (n : Nat) : RepairM Token :=
  modifyGet fun s => (s.tokenAt n, { s with looked := max s.looked (s.taken + n + 1) })

/-- The token at hand. -/
def current : RepairM Token := look 0

/-! ### Taking tokens -/

/-- Put a tree behind those of the rule under way. -/
def push (t : Tree) : RepairM Unit := modify fun s => { s with trees := t :: s.trees }

/-- Take the token at hand: in its place, or passed over while recovering. The token behind
all others is never used up. -/
def take : RepairM Unit := do
  let t ← current
  let recovering := (← get).recovering
  push (if recovering then .skipped t else .leaf t)
  modify fun s => match s.ahead with
    | [] => s
    | _ :: rest => { s with
        ahead := rest, taken := s.taken + 1, last := some t
        looked := max s.looked (s.taken + 2) }

/-- Note that a token is read in its place. -/
def settle : RepairM Unit :=
  modify fun s => { s with recovering := false, failedAt := none, failures := [] }

/-- Take the token at hand in its place. -/
def accept : RepairM Unit := do
  settle
  take

/-- Record an error at a token, unless one is being recovered from. -/
def report (t : Token) : RepairM Unit :=
  modify fun s =>
    if s.recovering then s else { s with recovering := true, reports := t :: s.reports }

/-- Pass over up to `n` tokens, until one of an accepted kind or the end of the text. -/
def skipUntil (accepts : Kind → Bool) : Nat → RepairM Unit
  | 0 => pure ()
  | n + 1 => do
    let t ← current
    if t.kind = .finish || accepts t.kind then pure ()
    else
      take
      skipUntil accepts n

/-- Pass over tokens until one of an accepted kind or the end of the text. -/
def skip (accepts : Kind → Bool) : RepairM Unit := do
  skipUntil accepts (← get).ahead.length

/-! ### Mending a single token -/

/-- Pass over the token at hand if the one behind it is of an accepted kind. -/
def dropOne (accepts : Kind → Bool) : RepairM Bool := do
  let t ← current
  if accepts (← look 1).kind then
    report t
    take
    settle
    return true
  else return false

/-- Read one token of an accepted kind at a site. `rest` holds what remains to be read
behind it, innermost rule first, and `placeholder` is done when the token is missing. -/
def token (site : Site) (rest : List Remainder) (accepts : Kind → Bool)
    (placeholder : RepairM Unit) : RepairM Unit := do
  let t ← current
  if accepts t.kind then accept
  else if ← dropOne accepts then take
  else if expects t.kind rest then
    report t
    placeholder
  else throw ⟨site, t⟩

/-- Put a placeholder for a token: at the token at hand, or at the one before it if that is
the end of the text. -/
def pushMissing (kind : Kind) : RepairM Unit := do
  let t ← current
  let s ← get
  let at' := if t.kind = .finish then s.last.getD t else t
  push (.missing kind at'.pos)

/-! ### Checking ahead of choices and repetitions -/

/-- Check the token at hand in front of an optional or repeated part or a choice, where the
given remainder is to be read: one token too many is passed over, and otherwise the rule
fails if it can neither go on nor end. -/
def checkEntry (site : Site) (rest : Remainder) : RepairM Unit := do
  let t ← current
  let s ← get
  if s.recovering || rest.starts t.kind || rest.nullable then pure ()
  else if ← dropOne (rest.starts ·) then pure ()
  else throw ⟨site, t⟩

/-- Whether some of the rules under way can go on with a token of kind `k`, once the rules
inside it have ended. -/
def resumes (callers : List Remainder) (k : Kind) : Bool := callers.any (·.starts k)

/-- Check the token at hand behind a turn of a repetition: if the rule can neither go on nor
end, an error is recorded and tokens are passed over until one that fits. -/
def checkTurn (rest : Remainder) (callers : List Remainder) : RepairM Unit := do
  let t ← current
  let s ← get
  if s.recovering || rest.starts t.kind || rest.nullable then pure ()
  else
    report t
    skip fun k => rest.starts k || resumes callers k

/-! ### Choices and repetitions -/

/-- The alternative to take at a site; a stuck choice fails the rule. -/
def choose (site : Site) (alternatives : List Expr) (rest : Remainder) : RepairM Nat := do
  let s ← get
  let p := predict alternatives rest s.ahead
  let t ← look (p.looked - 1)
  match p.alternative with
  | some i => return i
  | none => throw ⟨site, t⟩

/-- Whether the token at hand can start the expression. -/
def startsHere (e : Expr) : RepairM Bool := return e.starts (← current).kind

/-- Repeat `body` as long as `goesOn` says so, with a check behind every turn. -/
def turns (goesOn : RepairM Bool) (body check : RepairM Unit) : Nat → RepairM Unit
  | 0 => pure ()
  | n + 1 => do
    if ← goesOn then
      body
      check
      turns goesOn body check n

/-! ### Failing rules -/

/-- End a rule that failed: record the error, pass over the token at hand if this place has
failed at it before, then pass over tokens until the rules under way can go on. -/
def recover (callers : List Remainder) (f : Failure) : RepairM Unit := do
  report f.token
  let s ← get
  if s.failedAt = some s.taken && s.failures.contains f.site then take
  modify fun s => { s with failedAt := some s.taken, failures := f.site :: s.failures }
  skip (resumes callers)

end Repair

/-- What a reader of an expression has at hand. -/
structure Mender where
  /-- What the rules under way have to read once this one has ended, innermost first. -/
  callers : List Remainder
  /-- How many turns a repetition may have. -/
  turns : Nat
  /-- How to read a rule, given what remains to be read behind it in this one. -/
  call : Rule → Remainder → RepairM Unit

open Repair in
mutual

/-- Read an expression with repair, where `rest` remains to be read in its rule. -/
def Expr.mend (m : Mender) (site : Site) (rest : Remainder) : Expr → RepairM Unit
  | .tok kind => token site (rest :: m.callers) (· == kind) (pushMissing kind)
  | .oneOf kinds => token site (rest :: m.callers) (kinds.contains ·) (pure ())
  | .call rule => m.call rule rest
  | .seq parts => mendSeq m site rest 0 parts
  | .choice alternatives => do
    checkEntry site (.choice alternatives :: rest)
    mendChoice m site rest alternatives (← choose site alternatives rest)
  | .opt body => do
    checkEntry site (.opt body :: rest)
    if ← startsHere body then body.mend m (site.down 0) rest
  | .many body => do
    let rest := .many body :: rest
    checkEntry site rest
    turns (startsHere body) (body.mend m (site.down 0) rest) (checkTurn rest m.callers) m.turns
  | .many1 body => do
    let rest := .many body :: rest
    checkEntry site (body :: rest)
    body.mend m (site.down 0) rest
    checkTurn rest m.callers
    turns (startsHere body) (body.mend m (site.down 0) rest) (checkTurn rest m.callers) m.turns
  | .manyAhead body => do
    let alternatives := [.seq [body, .manyAhead body], .seq []]
    checkEntry site (.manyAhead body :: rest)
    if (← choose site alternatives rest) = 0 then
      let rest' := .manyAhead body :: rest
      body.mend m (site.down 0) rest'
      checkTurn rest' m.callers
      turns (return (← choose (site.down 1) alternatives rest) = 0)
        (body.mend m (site.down 0) rest') (checkTurn rest' m.callers) m.turns

/-- Read a row of expressions with repair; `i` counts those in front. -/
def mendSeq (m : Mender) (site : Site) (rest : Remainder) (i : Nat) : List Expr → RepairM Unit
  | [] => pure ()
  | e :: es => do
    e.mend m (site.down i) (es ++ rest)
    mendSeq m site rest (i + 1) es

/-- Read the alternative with the given number with repair. -/
def mendChoice (m : Mender) (site : Site) (rest : Remainder) : List Expr → Nat → RepairM Unit
  | [], _ => pure ()
  | e :: es, 0 => e.mend m (site.down es.length) rest
  | _ :: es, i + 1 => mendChoice m site rest es i

end

open Repair in
/-- Read a rule with repair, within a budget. A failure ends the rule, not the reading. -/
def Rule.mend : Nat → List Remainder → Rule → RepairM Unit
  | 0, _, _ => pure ()
  | n + 1, callers, rule => do
    let start ← current
    let outer := (← get).trees
    modify fun s => { s with trees := [] }
    let m : Mender := ⟨callers, n, fun r rest => Rule.mend n (rest :: callers) r⟩
    tryCatch (rule.body.mend m ⟨rule, []⟩ []) (recover callers)
    modify fun s => { s with trees := .node rule start.pos s.trees.reverse :: outer }

/-- A script that was read with repair: its tree, the first token behind it, the tokens at
which errors were recorded, and the last token that was looked at. -/
structure Mended where
  tree : Tree
  next : Token
  errors : List Token
  furthest : Token

/-- Read a script as a given rule, with repair. -/
def mendRule (rule : Rule) (s : Script) : Mended :=
  let start : Repair :=
    { ahead := s.tokens, finish := s.finish, taken := 0, looked := 0, recovering := false
      failedAt := none, failures := [], reports := [], last := none, trees := [] }
  let (_, final) := (rule.mend (4 * s.tokens.length + 40) []).run.run start
  { tree := final.trees.headD (.node rule s.finish.pos [])
    next := final.ahead.headD s.finish
    errors := final.reports.reverse
    furthest := s.tokens[final.looked - 1]?.getD s.finish }

end EvScript
