import EvScript.Token.Kind

/-!
# The Grammar of Scripts

The grammar is a value: each rule has a body, and a body is an expression over tokens and
rules. Everything that depends on the grammar — which token can come next, how far a choice
has to look ahead, reading with and without repair — is computed from these bodies, so the
grammar is written down once.

Repetitions and optional parts are decided by the next token alone. The one exception is
`manyAhead`, which looks ahead as far as it must, like `choice`: after an `else`, only the
token behind it tells whether another condition follows.
-/

namespace EvScript

/-- The rules of the grammar. -/
inductive Rule where
  | program
  | entry
  | importAll
  | importFrom
  | importNames
  | namespaceBlock
  | commandAlias
  | aliasTarget
  | enumBlock
  | enumMember
  | commandDecl
  | animationBlock
  | animationBody
  | functionDecl
  | functionKind
  | paramList
  | param
  | paramStorage
  | call
  | argList
  | arg
  | block
  | statement
  | contextBlock
  | switchBlock
  | caseBlock
  | breakStatement
  | returnStatement
  | forBlock
  | whileBlock
  | definition
  | assignment
  | assignedValue
  | ifBlock
  | elseIfBlock
  | unlessBlock
  | elseBlock
  | condition
  | number
  | string
  | leftOperand
  | rightOperand
  | truthValue
  | assignOperator
  | typeName
  deriving DecidableEq, Repr

namespace Rule

/-- The name of a rule in printed trees. -/
def name : Rule → String
  | .program => "prog"
  | .entry => "progEntry"
  | .importAll => "import_"
  | .importFrom => "fromImport"
  | .importNames => "fromImportRhs"
  | .namespaceBlock => "namespace"
  | .commandAlias => "alias"
  | .aliasTarget => "aliasRh"
  | .enumBlock => "enum"
  | .enumMember => "enumEntry"
  | .commandDecl => "command"
  | .animationBlock => "animation"
  | .animationBody => "animationBlock"
  | .functionDecl => "function"
  | .functionKind => "functionSpecifier"
  | .paramList => "funcArgList"
  | .param => "funcArg"
  | .paramStorage => "funcArgStorage"
  | .call => "functionCall"
  | .argList => "funcCallArgList"
  | .arg => "funcCallArg"
  | .block => "block"
  | .statement => "blockEntry"
  | .contextBlock => "contextBlock"
  | .switchBlock => "switchBlock"
  | .caseBlock => "caseBlock"
  | .breakStatement => "break"
  | .returnStatement => "return"
  | .forBlock => "forBlock"
  | .whileBlock => "whileBlock"
  | .definition => "variableDefinition"
  | .assignment => "variableAssignment"
  | .assignedValue => "variableRightHandAssignment"
  | .ifBlock => "ifBlock"
  | .elseIfBlock => "elseIfBlock"
  | .unlessBlock => "unlessBlock"
  | .elseBlock => "elseBlock"
  | .condition => "ifExpr"
  | .number => "number"
  | .string => "string_"
  | .leftOperand => "comparatorLeft"
  | .rightOperand => "comparatorRight"
  | .truthValue => "boolValue"
  | .assignOperator => "assignmentOperator"
  | .typeName => "type"

/-- All rules. -/
def all : List Rule :=
  [.program, .entry, .importAll, .importFrom, .importNames, .namespaceBlock, .commandAlias,
   .aliasTarget, .enumBlock, .enumMember, .commandDecl, .animationBlock, .animationBody,
   .functionDecl, .functionKind, .paramList, .param, .paramStorage, .call, .argList, .arg,
   .block, .statement, .contextBlock, .switchBlock, .caseBlock, .breakStatement,
   .returnStatement, .forBlock, .whileBlock, .definition, .assignment, .assignedValue,
   .ifBlock, .elseIfBlock, .unlessBlock, .elseBlock, .condition, .number, .string,
   .leftOperand, .rightOperand, .truthValue, .assignOperator, .typeName]

/-- The rule with a printed name. -/
def ofName? (name : String) : Option Rule := all.find? (·.name == name)

end Rule

/-- An expression of the grammar. -/
inductive Expr where
  /-- One token of a kind. -/
  | tok (kind : Kind)
  /-- One token of any of several kinds. -/
  | oneOf (kinds : List Kind)
  /-- What a rule describes. -/
  | call (rule : Rule)
  /-- All parts, one after the other. -/
  | seq (parts : List Expr)
  /-- One of the alternatives, chosen by looking ahead. -/
  | choice (alternatives : List Expr)
  /-- The body or nothing, decided by the next token. -/
  | opt (body : Expr)
  /-- Any number of bodies, decided by the next token each time. -/
  | many (body : Expr)
  /-- At least one body, further ones decided by the next token. -/
  | many1 (body : Expr)
  /-- Any number of bodies, decided each time by looking ahead. -/
  | manyAhead (body : Expr)

namespace Grammar

/-- A mark as an expression. -/
def mark (m : Mark) : Expr := .tok (.mark m)

/-- A keyword as an expression. -/
def word (k : Keyword) : Expr := .tok (.keyword k)

/-- `body` between parentheses. -/
def parens (body : Expr) : List Expr := [mark .openParen, body, mark .closeParen]

/-- `body` between braces. -/
def braces (body : Expr) : List Expr := [mark .openBrace, body, mark .closeBrace]

/-- One item, then any number of further items with a comma in front of each. -/
def commaList (item : Expr) : List Expr := [item, .many (.seq [mark .comma, item])]

/-- No items, one, or several with commas between them. -/
def items (item : Expr) : Expr :=
  .choice [.opt item, .seq [item, .many1 (.seq [mark .comma, item])]]

end Grammar

open Grammar in
/-- The grammar: the body of each rule. -/
def Rule.body : Rule → Expr
  | .program => .many1 (.call .entry)
  | .entry => .choice
      [.call .functionDecl, .call .animationBlock, .call .commandDecl, .call .enumBlock,
       .call .commandAlias, .seq [.call .definition, mark .semicolon], .call .namespaceBlock,
       .call .importAll, .call .importFrom]
  | .importAll => .seq [word .importKw, .tok .name, mark .semicolon]
  | .importFrom => .seq
      [word .fromKw, .tok .name, word .importKw, .call .importNames, mark .semicolon]
  | .importNames => .choice
      [.seq ([mark .openBrace] ++ commaList (.tok .name) ++ [mark .closeBrace]), .tok .name,
       mark .star]
  | .namespaceBlock => .seq
      ([word .namespaceKw, .tok .name] ++ braces (.many1 (.call .entry)))
  | .commandAlias => .seq
      [word .aliasKw, word .commandKw, .tok .name, mark .colon, .call .number, mark .equals,
       .call .aliasTarget, mark .semicolon]
  | .aliasTarget => .tok .name
  | .enumBlock => .seq
      ([word .enumKw, .tok .name, mark .openBrace] ++ commaList (.call .enumMember) ++
       [mark .semicolon, mark .closeBrace])
  | .enumMember => .seq [.tok .name, mark .equals, .call .number]
  | .commandDecl => .seq
      ([word .commandKw, .tok .name] ++ parens (.call .paramList) ++
       [.opt (.seq [mark .arrow, .call .typeName]), mark .colon, .call .number,
        mark .semicolon])
  | .animationBlock => .seq
      ([word .animationKw, .tok .name] ++ braces (.call .animationBody))
  | .animationBody => .many1 (.seq [.call .call, mark .semicolon])
  | .functionDecl => .seq
      ([.opt (.call .functionKind), word .functionKw, .tok .name] ++
       parens (.call .paramList) ++ [.opt (.seq [mark .arrow, .call .typeName])] ++
       braces (.call .block))
  | .functionKind => .oneOf [.keyword .commonKw, .keyword .entryKw]
  | .paramList => items (.call .param)
  | .param => .seq
      [.call .typeName, .tok .name, .opt (.seq [mark .colon, .call .paramStorage])]
  | .paramStorage => .choice [.call .number, word .returnKw]
  | .call => .seq ([.oneOf [.name, .scopedName]] ++ parens (.call .argList))
  | .argList => items (.call .arg)
  | .arg => .choice [.tok .name, .call .string, .call .number]
  | .block => .many1 (.call .statement)
  | .statement => .choice
      [.call .ifBlock, .call .unlessBlock, .call .switchBlock, .call .whileBlock,
       .call .forBlock, .call .contextBlock, .seq [.call .assignment, mark .semicolon],
       .seq [.call .definition, mark .semicolon], .seq [.call .call, mark .semicolon],
       .seq [.call .returnStatement, mark .semicolon],
       .seq [.call .breakStatement, mark .semicolon]]
  | .contextBlock => .seq
      ([word .withKw, .tok .name] ++ parens (.call .argList) ++ braces (.call .block))
  | .switchBlock => .seq
      ([word .switchKw] ++ parens (.call .condition) ++ braces (.many1 (.call .caseBlock)))
  | .caseBlock => .choice
      [.seq [word .caseKw, .choice [.tok .name, .call .number], mark .colon, .call .block],
       .seq [word .defaultKw, mark .colon, .call .block]]
  | .breakStatement => word .breakKw
  | .returnStatement => .seq
      [word .returnKw, .opt (.choice [.tok .name, .call .number])]
  | .forBlock => .seq
      ([word .forKw, mark .openParen, .call .definition, mark .semicolon, .call .condition,
        mark .semicolon, mark .closeParen] ++ braces (.call .block))
  | .whileBlock => .seq
      ([word .whileKw] ++ parens (.call .condition) ++ braces (.call .block))
  | .definition => .seq
      [.opt (word .constKw), .call .typeName, .tok .name,
       .opt (.seq [mark .colon, .call .number]),
       .opt (.seq [mark .equals, .call .assignedValue])]
  | .assignment => .seq
      [.oneOf [.scopedName, .name], .call .assignOperator, .call .assignedValue]
  | .assignedValue => .choice
      [.call .number, .call .truthValue, .call .string, .call .call]
  | .ifBlock => .seq
      ([word .ifKw] ++ parens (.call .condition) ++ braces (.call .block) ++
       [.manyAhead (.call .elseIfBlock), .opt (.call .elseBlock)])
  | .elseIfBlock => .seq
      ([word .elseKw, word .ifKw] ++ parens (.call .condition) ++ braces (.call .block))
  | .unlessBlock => .seq
      ([word .unlessKw] ++ parens (.call .condition) ++ braces (.call .block) ++
       [.opt (.call .elseBlock)])
  | .elseBlock => .seq ([word .elseKw] ++ braces (.call .block))
  | .condition => .choice
      [.seq [.call .leftOperand, .tok .comparator, .call .rightOperand], .tok .name,
       .tok .scopedName, .call .call]
  | .number => .tok .number
  | .string => .tok .string
  | .leftOperand => .choice [.tok .name, .call .call]
  | .rightOperand => .choice [.tok .name, .call .number, .call .truthValue]
  | .truthValue => .oneOf [.keyword .trueKw, .keyword .falseKw]
  | .assignOperator => .oneOf [.mark .equals, .mark .plusEquals, .mark .minusEquals]
  | .typeName => .oneOf
      [.keyword .flagKw, .keyword .sysflagKw, .keyword .intKw, .keyword .floatKw,
       .keyword .boolKw, .keyword .strKw, .scopedName]

end EvScript
