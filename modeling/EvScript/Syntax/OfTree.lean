import EvScript.Grammar.Tree
import EvScript.Syntax.Basic

/-!
# What a Tree Says

The meaning of a tree is put together from the meanings of its children. A part of a node is
the first child of the right sort; tokens that were passed over and placeholders count like
tokens in their place, so a repaired program means as much as can be made of it.
-/

namespace EvScript

/-- What a tree can mean. -/
inductive Phrase where
  | word (kind : Kind) (text : String)
  | numeral (n : Numeral)
  | string (literal : Option String)
  | truth (value : Bool)
  | operator (text : String)
  | type (t : TypeWord)
  | functionKind (common : Bool)
  | paramStorage (s : ParamStorage)
  | param (p : Param)
  | params (ps : List Param)
  | arg (a : Arg)
  | args (as : List Arg)
  | call (c : Call)
  | assigned (a : Assigned)
  | left (l : LeftOperand)
  | right (r : RightOperand)
  | condition (c : Condition)
  | definition (d : Definition)
  | assignment (a : Assignment)
  | statement (s : Statement)
  | elseIf (e : ElseIf)
  | elseBlock (b : Block)
  | case (c : Case)
  | block (b : Block)
  | importNames (everything : Bool)
  | entry (e : Entry)
  | program (es : List Entry)
  /-- A node without a meaning of its own. -/
  | inert (rule : Rule)

namespace Phrase

/-! ### Parts of a node -/

/-- The text of the first token of a kind. -/
def word? (kind : Kind) (ps : List Phrase) : Option String :=
  ps.findSome? fun
    | .word k text => if k = kind then some text else none
    | _ => none

/-- The first plain name. -/
def plainName? (ps : List Phrase) : Option String := word? .name ps

/-- The first plain name, or else the first qualified one. -/
def anyName? (ps : List Phrase) : Option String := word? .name ps <|> word? .scopedName ps

/-- Whether there is a certain keyword. -/
def hasKeyword (k : Keyword) (ps : List Phrase) : Bool := (word? (.keyword k) ps).isSome

/-- The number, if the phrase is one. -/
def numeral? : Phrase → Option Numeral
  | .numeral n => some n
  | _ => none

/-- The type, if the phrase is one. -/
def type? : Phrase → Option TypeWord
  | .type t => some t
  | _ => none

/-- The parameters, if the phrase is a list of them. -/
def params? : Phrase → Option (List Param)
  | .params ps => some ps
  | _ => none

/-- The parameter, if the phrase is one. -/
def param? : Phrase → Option Param
  | .param p => some p
  | _ => none

/-- The arguments, if the phrase is a list of them. -/
def args? : Phrase → Option (List Arg)
  | .args as => some as
  | _ => none

/-- The argument, if the phrase is one. -/
def arg? : Phrase → Option Arg
  | .arg a => some a
  | _ => none

/-- The call, if the phrase is one. -/
def call? : Phrase → Option Call
  | .call c => some c
  | _ => none

/-- The condition, if the phrase is one. -/
def condition? : Phrase → Option Condition
  | .condition c => some c
  | _ => none

/-- The block, if the phrase is one. -/
def block? : Phrase → Option Block
  | .block b => some b
  | _ => none

/-- The first block, or the mark that there is none. -/
def blockOf (ps : List Phrase) : Block := (ps.findSome? block?).getD .absent

/-! ### Meanings of nodes -/

/-- The meaning of an argument: a name comes first, then a string, then a number. -/
def argValue (ps : List Phrase) : ArgValue :=
  match plainName? ps with
  | some name => .name name
  | none => (ps.findSome? fun
      | .string s => some (ArgValue.string s)
      | .numeral n => some (.number n)
      | _ => none).getD .absent

/-- The meaning of what is given to a variable. -/
def assignedValue (ps : List Phrase) : AssignedValue :=
  (ps.findSome? fun
    | .numeral n => some (AssignedValue.number n)
    | .truth b => some (.truth b)
    | .string _ => some .string
    | .call c => some (.call c)
    | _ => none).getD .absent

/-- The meaning of a condition: a comparison, a call, or a name. -/
def conditionForm (ps : List Phrase) : ConditionForm :=
  match ps.findSome? (fun | .left l => some l | _ => none), ps.findSome? call? with
  | some l, _ => .comparison l (word? .comparator ps)
      (ps.findSome? fun | .right r => some r | _ => none)
  | none, some c => .call c
  | none, none => .name (anyName? ps)

/-- The meaning of a statement. -/
def statementOf (ps : List Phrase) : Statement :=
  (ps.findSome? fun
    | .definition d => some (Statement.define d)
    | .assignment a => some (.assign a)
    | .call c => some (.call c)
    | .statement s => some s
    | .inert r => some (.inert (some r))
    | _ => none).getD (.inert none)

/-- The meaning of an entry. -/
def entryOf (ps : List Phrase) : Entry :=
  (ps.findSome? fun
    | .definition d => some (Entry.define d)
    | .entry e => some e
    | .inert r => some (.inert (some r))
    | _ => none).getD (.inert none)

/-- The meaning of a case. -/
def caseOf (ps : List Phrase) : Case :=
  if hasKeyword .defaultKw ps then .default (blockOf ps)
  else .labelled (ps.findSome? numeral?) (plainName? ps) (blockOf ps)

/-- The entries among phrases. -/
def entriesOf (ps : List Phrase) : List Entry :=
  ps.filterMap fun
    | .entry e => some e
    | _ => none

/-- The meaning of a node: `text` is all that stands below it, and `ps` are the meanings of
its children. -/
def ofNode (rule : Rule) (pos : Pos) (text : String) (ps : List Phrase) : Phrase :=
  match rule with
  | .number => .numeral ⟨text, word? .number ps⟩
  | .string => .string (word? .string ps)
  | .truthValue => .truth (hasKeyword .trueKw ps)
  | .assignOperator => .operator text
  | .typeName => .type ⟨text, pos⟩
  | .functionKind => .functionKind (hasKeyword .commonKw ps)
  | .paramStorage =>
    .paramStorage (if hasKeyword .returnKw ps then .result
      else .register (ps.findSome? numeral?))
  | .param =>
    .param ⟨ps.findSome? type?, plainName? ps,
      ps.findSome? fun | .paramStorage s => some s | _ => none, pos⟩
  | .paramList => .params (ps.filterMap param?)
  | .commandDecl =>
    .entry (.command ⟨plainName? ps, ps.findSome? numeral?, ps.findSome? params?,
      ps.findSome? type?, pos⟩)
  | .arg => .arg ⟨argValue ps, pos⟩
  | .argList => .args (ps.filterMap arg?)
  | .call => .call ⟨anyName? ps, ps.findSome? args?, pos⟩
  | .assignedValue => .assigned ⟨assignedValue ps, pos⟩
  | .definition =>
    .definition ⟨hasKeyword .constKw ps, ps.findSome? type?, plainName? ps,
      ps.findSome? numeral?, ps.findSome? (fun | .assigned a => some a | _ => none), pos⟩
  | .assignment =>
    .assignment ⟨anyName? ps, ps.findSome? (fun | .operator o => some o | _ => none),
      ps.findSome? (fun | .assigned a => some a | _ => none), pos⟩
  | .leftOperand => .left ⟨ps.findSome? call?, plainName? ps, pos⟩
  | .rightOperand => .right ⟨ps.findSome? numeral?⟩
  | .condition => .condition ⟨conditionForm ps, pos⟩
  | .block =>
    .block (.of pos (ps.filterMap fun | .statement s => some s | _ => none))
  | .statement => .statement (statementOf ps)
  | .ifBlock =>
    .statement (.branch (ps.findSome? condition?) (blockOf ps)
      (ps.filterMap fun | .elseIf e => some e | _ => none)
      (ps.findSome? fun | .elseBlock b => some b | _ => none))
  | .elseIfBlock => .elseIf (.of (ps.findSome? condition?) (blockOf ps))
  | .elseBlock => .elseBlock (blockOf ps)
  | .switchBlock =>
    .statement (.select (ps.findSome? condition?)
      (ps.filterMap fun | .case c => some c | _ => none) pos)
  | .caseBlock => .case (caseOf ps)
  | .functionDecl =>
    .entry (.function ⟨ps.findSome? (fun | .functionKind b => some b | _ => none),
      plainName? ps, ps.findSome? params?, ps.findSome? type?, blockOf ps, pos⟩)
  | .importAll => .entry (.importAll (plainName? ps) pos)
  | .importNames => .importNames (word? (.mark .star) ps).isSome
  | .importFrom =>
    .entry (.importFrom (plainName? ps)
      (ps.findSome? fun | .importNames b => some b | _ => none) pos)
  | .namespaceBlock => .entry (.space (plainName? ps) (entriesOf ps))
  | .entry => .entry (entryOf ps)
  | .program => .program (entriesOf ps)
  | .unlessBlock | .whileBlock | .forBlock | .contextBlock | .returnStatement
  | .breakStatement | .commandAlias | .aliasTarget | .enumBlock | .enumMember
  | .animationBlock | .animationBody => .inert rule

end Phrase

mutual

/-- The meaning of a tree. -/
def Tree.phrase : Tree → Phrase
  | .leaf t => .word t.kind t.text
  | .skipped t => .word t.kind t.text
  | .missing kind _ => .word kind kind.placeholder
  | .node rule pos children =>
    .ofNode rule pos (Tree.textOfAll children) (phrasesOf children)

/-- The meanings of several trees. -/
def phrasesOf : List Tree → List Phrase
  | [] => []
  | t :: ts => t.phrase :: phrasesOf ts

end

/-- The entries of the tree of a program. -/
def Tree.entries (t : Tree) : List Entry :=
  match t.phrase with
  | .program es => es
  | _ => []

end EvScript
