import EvScript.Grammar.Basic
import EvScript.Token.Lexer

/-!
# Looking Ahead

What remains to be read inside a rule is a row of expressions, a **remainder**. This module
computes the remainders that are left after a first token (the derivatives of a remainder),
and from them which tokens can come next and which alternative of a choice to take.

A choice is decided by following all alternatives at once, token by token, no further than
the end of the rule it stands in. As soon as only one alternative is left, it is taken. When
none can read the next token, the first alternative that could have ended the rule in front
of it is taken; if there is none, the choice is stuck at that token.
-/

namespace EvScript

/-- What remains to be read inside a rule. -/
abbrev Remainder := List Expr

/-! ### Remainders that can be empty -/

mutual

/-- Whether an expression describes the empty row of tokens, given which rules do. -/
def Expr.nullableWith (rule : Rule → Bool) : Expr → Bool
  | .tok _ => false
  | .oneOf _ => false
  | .call r => rule r
  | .seq parts => allNullableWith rule parts
  | .choice alternatives => anyNullableWith rule alternatives
  | .opt _ => true
  | .many _ => true
  | .many1 body => body.nullableWith rule
  | .manyAhead _ => true

/-- Whether all of the expressions describe the empty row of tokens. -/
def allNullableWith (rule : Rule → Bool) : List Expr → Bool
  | [] => true
  | e :: es => e.nullableWith rule && allNullableWith rule es

/-- Whether some of the expressions describes the empty row of tokens. -/
def anyNullableWith (rule : Rule → Bool) : List Expr → Bool
  | [] => false
  | e :: es => e.nullableWith rule || anyNullableWith rule es

end

/-- How many rules a text can begin with, nested into each other. -/
def ruleDepth : Nat := 8

/-- `Rule.nullable` with a bound on the nesting of rules. -/
def Rule.nullableAt : Nat → Rule → Bool
  | 0, _ => false
  | n + 1, r => r.body.nullableWith (nullableAt n)

/-- Whether a rule describes the empty row of tokens. -/
def Rule.nullable (r : Rule) : Bool := r.nullableAt ruleDepth

/-- Whether an expression describes the empty row of tokens. -/
def Expr.nullable (e : Expr) : Bool := e.nullableWith Rule.nullable

/-- Whether nothing more has to come. -/
def Remainder.nullable (c : Remainder) : Bool := allNullableWith Rule.nullable c

/-! ### What is left after a first token -/

mutual

/-- The remainders of an expression after a first token of kind `k`, given those of rules. -/
def Expr.afterWith (rule : Rule → List Remainder) (k : Kind) : Expr → List Remainder
  | .tok kind => if kind = k then [[]] else []
  | .oneOf kinds => if kinds.contains k then [[]] else []
  | .call r => rule r
  | .seq parts => seqAfterWith rule k parts
  | .choice alternatives => choiceAfterWith rule k alternatives
  | .opt body => body.afterWith rule k
  | .many body => (body.afterWith rule k).map (· ++ [.many body])
  | .many1 body => (body.afterWith rule k).map (· ++ [.many body])
  | .manyAhead body => (body.afterWith rule k).map (· ++ [.manyAhead body])

/-- The remainders of a row of expressions: the first one reads the token, or it is empty and
a later one does. -/
def seqAfterWith (rule : Rule → List Remainder) (k : Kind) : List Expr → List Remainder
  | [] => []
  | e :: es =>
    (e.afterWith rule k).map (· ++ es) ++
      if e.nullable then seqAfterWith rule k es else []

/-- The remainders of all alternatives. -/
def choiceAfterWith (rule : Rule → List Remainder) (k : Kind) : List Expr → List Remainder
  | [] => []
  | e :: es => e.afterWith rule k ++ choiceAfterWith rule k es

end

/-- `Rule.after` with a bound on the nesting of rules. -/
def Rule.afterAt (k : Kind) : Nat → Rule → List Remainder
  | 0, _ => []
  | n + 1, r => r.body.afterWith (afterAt k n) k

/-- The remainders of a rule after a first token of kind `k`. -/
def Rule.after (k : Kind) (r : Rule) : List Remainder := r.afterAt k ruleDepth

/-- The remainders of an expression after a first token of kind `k`. -/
def Expr.after (k : Kind) (e : Expr) : List Remainder := e.afterWith (Rule.after k) k

/-- What can be left of a remainder after a first token of kind `k`. -/
def Remainder.after (k : Kind) (c : Remainder) : List Remainder :=
  seqAfterWith (Rule.after k) k c

/-- Whether a token of kind `k` can come first. -/
def Expr.starts (k : Kind) (e : Expr) : Bool := !(e.after k).isEmpty

/-- Whether a token of kind `k` can come next. -/
def Remainder.starts (k : Kind) (c : Remainder) : Bool := !(c.after k).isEmpty

/-- Whether a token of kind `k` can come next, where the remainders of a rule and of the
rules it was called from are still to be read, innermost first. Behind all of them only the
end of the text can come. -/
def expects (k : Kind) : List Remainder → Bool
  | [] => k == .finish
  | c :: callers => c.starts k || (c.nullable && expects k callers)

/-! ### Choosing an alternative -/

/-- A way of reading on: the number of the alternative it began with, and its remainder. -/
structure Thread where
  alternative : Nat
  remainder : Remainder

/-- The ways of reading on after a token of kind `k`. -/
def Thread.after (k : Kind) (t : Thread) : List Thread :=
  (t.remainder.after k).map fun c => ⟨t.alternative, c⟩

/-- The outcome of a choice: the alternative to take, if there is one, and the number of
tokens that were looked at. A stuck choice is stuck at the last of them. -/
structure Prediction where
  alternative : Option Nat
  looked : Nat
  deriving DecidableEq, Repr

/-- Follow the threads through the coming tokens; `looked` of them have been read. -/
def predictFrom (threads : List Thread) (looked : Nat) : List Token → Prediction
  | [] => ended
  | token :: ahead =>
    match threads.flatMap (Thread.after token.kind) with
    | [] => ended
    | t :: ts =>
      if ts.all (·.alternative == t.alternative) then ⟨some t.alternative, looked + 1⟩
      else predictFrom (t :: ts) (looked + 1) ahead
where
  /-- The first alternative that can end the rule here. -/
  ended : Prediction :=
    ⟨(threads.find? (·.remainder.nullable)).map (·.alternative), looked + 1⟩

/-- The alternative to take in front of the given tokens, where `rest` remains to be read
behind the choice. -/
def predict (alternatives : List Expr) (rest : Remainder) (ahead : List Token) : Prediction :=
  predictFrom (alternatives.mapIdx fun i e => ⟨i, e :: rest⟩) 0 ahead

end EvScript
