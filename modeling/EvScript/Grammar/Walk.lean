import EvScript.Grammar.Tree

/-!
# Walking through a Tree

A walk visits the nodes of a tree from the root down and from left to right, entering and
leaving each. The children of a node are reached by **parts**: the tokens and rules that can
stand directly below a node of its rule.
-/

namespace EvScript

/-! ### Steps -/

mutual

/-- The steps of a walk through a tree. -/
def Tree.events : Tree → List String
  | .leaf _ => []
  | .skipped _ => []
  | .missing _ _ => []
  | .node r _ children =>
    ["enter" ++ r.name.capitalize] ++ eventsOfAll children ++ ["exit" ++ r.name.capitalize]

/-- The steps of a walk through several trees. -/
def eventsOfAll : List Tree → List String
  | [] => []
  | t :: ts => t.events ++ eventsOfAll ts

end

/-- A node, as it is met on a walk. -/
structure Visit where
  rule : Rule
  pos : Pos
  children : List Tree

mutual

/-- The nodes of a tree in the order in which a walk enters them. -/
def Tree.nodes : Tree → List Visit
  | .leaf _ => []
  | .skipped _ => []
  | .missing _ _ => []
  | .node r pos children => ⟨r, pos, children⟩ :: nodesOfAll children

/-- The nodes of several trees. -/
def nodesOfAll : List Tree → List Visit
  | [] => []
  | t :: ts => t.nodes ++ nodesOfAll ts

end

/-! ### Parts -/

/-- What can stand directly below a node: a token of a kind, or the tree of a rule. -/
inductive Part where
  | word (kind : Kind)
  | below (rule : Rule)
  deriving DecidableEq, Repr

namespace Part

/-- The name of a part: that of the kind or rule, three of them with a bar behind. -/
def key : Part → String
  | .word kind => kind.label
  | .below .typeName => "type_"
  | .below .returnStatement => "return_"
  | .below .breakStatement => "break_"
  | .below rule => rule.name

/-- Whether a tree stands in the place of the part. -/
def isAt (p : Part) : Tree → Bool
  | .leaf t => p == .word t.kind
  | .skipped t => p == .word t.kind
  | .missing kind _ => p == .word kind
  | .node rule _ _ => p == .below rule

/-- The texts of all children in the place of the part. -/
def texts (p : Part) (children : List Tree) : List String :=
  (children.filter p.isAt).map Tree.text

end Part

/-- A part below a rule; `repeated` tells whether there can be several of it. -/
structure Slot where
  part : Part
  repeated : Bool
  deriving DecidableEq, Repr

/-- A part that stands at most once. -/
private def single (p : Part) : Slot := ⟨p, false⟩

/-- A part that can stand several times. -/
private def several (p : Part) : Slot := ⟨p, true⟩

/-- A keyword as a part. -/
private def keywordSlot (k : Keyword) : Slot := single (.word (.keyword k))

/-- A name as a part. -/
private def nameSlot : Slot := single (.word .name)

/-- The tree of a rule as a part. -/
private def ruleSlot (r : Rule) : Slot := single (.below r)

/-- The parts below a rule. -/
def Rule.parts : Rule → List Slot
  | .program => [several (.below .entry)]
  | .entry => [.functionDecl, .animationBlock, .commandDecl, .enumBlock, .commandAlias,
      .definition, .namespaceBlock, .importAll, .importFrom].map ruleSlot
  | .importAll => [keywordSlot .importKw, nameSlot]
  | .importFrom =>
    [keywordSlot .fromKw, nameSlot, keywordSlot .importKw, ruleSlot .importNames]
  | .importNames => [several (.word .name), single (.word (.mark .star))]
  | .namespaceBlock => [keywordSlot .namespaceKw, nameSlot, several (.below .entry)]
  | .commandAlias => [keywordSlot .aliasKw, keywordSlot .commandKw, nameSlot,
      ruleSlot .number, ruleSlot .aliasTarget]
  | .aliasTarget => [nameSlot]
  | .enumBlock => [keywordSlot .enumKw, nameSlot, several (.below .enumMember)]
  | .enumMember => [nameSlot, ruleSlot .number]
  | .commandDecl => [keywordSlot .commandKw, nameSlot, ruleSlot .paramList, ruleSlot .number,
      ruleSlot .typeName]
  | .animationBlock => [keywordSlot .animationKw, nameSlot, ruleSlot .animationBody]
  | .animationBody => [several (.below .call)]
  | .functionDecl => [keywordSlot .functionKw, nameSlot, ruleSlot .paramList, ruleSlot .block,
      ruleSlot .functionKind, ruleSlot .typeName]
  | .functionKind => [keywordSlot .commonKw, keywordSlot .entryKw]
  | .paramList => [several (.below .param)]
  | .param => [ruleSlot .typeName, nameSlot, ruleSlot .paramStorage]
  | .paramStorage => [ruleSlot .number, keywordSlot .returnKw]
  | .call => [ruleSlot .argList, nameSlot, single (.word .scopedName)]
  | .argList => [several (.below .arg)]
  | .arg => [nameSlot, ruleSlot .string, ruleSlot .number]
  | .block => [several (.below .statement)]
  | .statement => [.ifBlock, .unlessBlock, .switchBlock, .whileBlock, .forBlock,
      .contextBlock, .assignment, .definition, .call, .returnStatement,
      .breakStatement].map ruleSlot
  | .contextBlock => [keywordSlot .withKw, nameSlot, ruleSlot .argList, ruleSlot .block]
  | .switchBlock =>
    [keywordSlot .switchKw, ruleSlot .condition, several (.below .caseBlock)]
  | .caseBlock => [keywordSlot .caseKw, ruleSlot .block, nameSlot, ruleSlot .number,
      keywordSlot .defaultKw]
  | .breakStatement => [keywordSlot .breakKw]
  | .returnStatement => [keywordSlot .returnKw, nameSlot, ruleSlot .number]
  | .forBlock =>
    [keywordSlot .forKw, ruleSlot .definition, ruleSlot .condition, ruleSlot .block]
  | .whileBlock => [keywordSlot .whileKw, ruleSlot .condition, ruleSlot .block]
  | .definition => [ruleSlot .typeName, nameSlot, keywordSlot .constKw, ruleSlot .number,
      ruleSlot .assignedValue]
  | .assignment => [ruleSlot .assignOperator, ruleSlot .assignedValue,
      single (.word .scopedName), nameSlot]
  | .assignedValue =>
    [ruleSlot .number, ruleSlot .truthValue, ruleSlot .string, ruleSlot .call]
  | .ifBlock => [keywordSlot .ifKw, ruleSlot .condition, ruleSlot .block,
      several (.below .elseIfBlock), ruleSlot .elseBlock]
  | .elseIfBlock =>
    [keywordSlot .elseKw, keywordSlot .ifKw, ruleSlot .condition, ruleSlot .block]
  | .unlessBlock =>
    [keywordSlot .unlessKw, ruleSlot .condition, ruleSlot .block, ruleSlot .elseBlock]
  | .elseBlock => [keywordSlot .elseKw, ruleSlot .block]
  | .condition => [ruleSlot .leftOperand, single (.word .comparator), ruleSlot .rightOperand,
      nameSlot, single (.word .scopedName), ruleSlot .call]
  | .number => [single (.word .number)]
  | .string => [single (.word .string)]
  | .leftOperand => [nameSlot, ruleSlot .call]
  | .rightOperand => [nameSlot, ruleSlot .number, ruleSlot .truthValue]
  | .truthValue => [keywordSlot .trueKw, keywordSlot .falseKw]
  | .assignOperator => []
  | .typeName => [keywordSlot .flagKw, keywordSlot .sysflagKw, keywordSlot .intKw,
      keywordSlot .floatKw, keywordSlot .boolKw, keywordSlot .strKw,
      single (.word .scopedName)]

end EvScript
