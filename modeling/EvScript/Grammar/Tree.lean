import EvScript.Grammar.Basic
import EvScript.Token.Lexer

/-!
# Syntax Trees

A tree records how a row of tokens was read: a node for every rule, a leaf for every token.
Reading with repair leaves two more kinds of leaf: tokens that were passed over, and
placeholders for tokens that should have been there. A tree without them is **clean**.
-/

namespace EvScript

/-- A syntax tree. -/
inductive Tree where
  /-- A token in its place. -/
  | leaf (token : Token)
  /-- A token that was passed over. -/
  | skipped (token : Token)
  /-- The place of a token that is not there. -/
  | missing (kind : Kind) (pos : Pos)
  /-- What was read for a rule, and the place of the token at hand when it was begun. -/
  | node (rule : Rule) (pos : Pos) (children : List Tree)

namespace Tree

/-- The kind and text of a leaf. -/
def word? : Tree → Option (Kind × String)
  | .leaf t => some (t.kind, t.text)
  | .skipped t => some (t.kind, t.text)
  | .missing k _ => some (k, k.placeholder)
  | .node _ _ _ => none

mutual

/-- The texts of all leaves, one behind the other. -/
def text : Tree → String
  | .leaf t => t.text
  | .skipped t => t.text
  | .missing k _ => k.placeholder
  | .node _ _ children => textOfAll children

/-- The texts of the leaves of several trees. -/
def textOfAll : List Tree → String
  | [] => ""
  | t :: ts => t.text ++ textOfAll ts

end

mutual

/-- The tokens that were read into a tree, from left to right. -/
def tokens : Tree → List Token
  | .leaf t => [t]
  | .skipped t => if t.kind = .finish then [] else [t]
  | .missing _ _ => []
  | .node _ _ children => tokensOfAll children

/-- The tokens that were read into several trees. -/
def tokensOfAll : List Tree → List Token
  | [] => []
  | t :: ts => t.tokens ++ tokensOfAll ts

end

end Tree

/-! ### The trees of the grammar -/

/-- The place of the token at hand, `finish` being the token behind all others. -/
def posAhead (finish : Token) : List Token → Pos
  | [] => finish.pos
  | t :: _ => t.pos

mutual

/-- `Derives finish e before trees after`: reading the expression `e` can turn the tokens
`before` into `trees`, leaving `after`. -/
inductive Derives (finish : Token) : Expr → List Token → List Tree → List Token → Prop where
  | tok {t : Token} {ts : List Token} : Derives finish (.tok t.kind) (t :: ts) [.leaf t] ts
  | oneOf {kinds : List Kind} {t : Token} {ts : List Token} : t.kind ∈ kinds →
      Derives finish (.oneOf kinds) (t :: ts) [.leaf t] ts
  | call {r : Rule} {ts us : List Token} {trees : List Tree} :
      Derives finish r.body ts trees us →
      Derives finish (.call r) ts [.node r (posAhead finish ts) trees] us
  | seq {parts : List Expr} {ts us : List Token} {trees : List Tree} :
      DerivesAll finish parts ts trees us → Derives finish (.seq parts) ts trees us
  | choice {alternatives : List Expr} {e : Expr} {ts us : List Token} {trees : List Tree} :
      e ∈ alternatives → Derives finish e ts trees us →
      Derives finish (.choice alternatives) ts trees us
  | optNone {body : Expr} {ts : List Token} : Derives finish (.opt body) ts [] ts
  | optSome {body : Expr} {ts us : List Token} {trees : List Tree} :
      Derives finish body ts trees us → Derives finish (.opt body) ts trees us
  | many {body : Expr} {n : Nat} {ts us : List Token} {trees : List Tree} :
      DerivesAll finish (List.replicate n body) ts trees us →
      Derives finish (.many body) ts trees us
  | many1 {body : Expr} {n : Nat} {ts us : List Token} {trees : List Tree} :
      DerivesAll finish (List.replicate (n + 1) body) ts trees us →
      Derives finish (.many1 body) ts trees us
  | manyAhead {body : Expr} {n : Nat} {ts us : List Token} {trees : List Tree} :
      DerivesAll finish (List.replicate n body) ts trees us →
      Derives finish (.manyAhead body) ts trees us

/-- `Derives` for a row of expressions, one behind the other. -/
inductive DerivesAll (finish : Token) :
    List Expr → List Token → List Tree → List Token → Prop where
  | nil {ts : List Token} : DerivesAll finish [] ts [] ts
  | cons {e : Expr} {es : List Expr} {ts us vs : List Token} {first more : List Tree} :
      Derives finish e ts first us → DerivesAll finish es us more vs →
      DerivesAll finish (e :: es) ts (first ++ more) vs

end

end EvScript
