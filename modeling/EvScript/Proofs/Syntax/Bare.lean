import EvScript.Syntax.OfTree

/-!
# Programs without Places

Tokens, trees and the parts of a program carry the places where they stand. A **bare** one has
the first place of a text everywhere, so two of them are equal exactly if they differ in
nothing but places. What a tree says is put together without a look at places: the meaning of
a bare tree is the bare meaning of the tree.
-/

namespace EvScript

/-! ### Tokens and trees -/

/-- A token without its place: the kind and the text are left. -/
def Token.bare (t : Token) : Token := ⟨t.kind, t.text, .start, 0, 0⟩

/-- Two tokens differ only in place if kind and text are the same. -/
theorem Token.bare_eq_iff {t u : Token} : t.bare = u.bare ↔ t.kind = u.kind ∧ t.text = u.text := by
  simp [Token.bare]

/-- Removing places again changes nothing. -/
theorem Token.map_bare_bare (ts : List Token) :
    (ts.map Token.bare).map Token.bare = ts.map Token.bare := by
  simp [Token.bare]

namespace Tree

mutual

/-- A tree without places. -/
def bare : Tree → Tree
  | .leaf t => .leaf t.bare
  | .skipped t => .skipped t.bare
  | .missing kind _ => .missing kind .start
  | .node rule _ children => .node rule .start (bareAll children)

/-- Several trees without places. -/
def bareAll : List Tree → List Tree
  | [] => []
  | t :: ts => t.bare :: bareAll ts

end

theorem bareAll_eq_map (ts : List Tree) : bareAll ts = ts.map bare := by
  induction ts with
  | nil => rfl
  | cons t ts ih => rw [bareAll, ih, List.map_cons]

mutual

/-- A tree has the same text without places. -/
theorem text_bare : ∀ t : Tree, t.bare.text = t.text
  | .leaf _ => rfl
  | .skipped _ => rfl
  | .missing _ _ => rfl
  | .node _ _ children => textOfAll_bareAll children

theorem textOfAll_bareAll : ∀ ts : List Tree, textOfAll (bareAll ts) = textOfAll ts
  | [] => rfl
  | t :: ts => by rw [bareAll, textOfAll, textOfAll, text_bare t, textOfAll_bareAll ts]

end

end Tree

/-! ### The small parts -/

/-- A type word without its place. -/
def TypeWord.bare (t : TypeWord) : TypeWord := { t with pos := .start }

/-- A parameter without places. -/
def Param.bare (p : Param) : Param :=
  { p with type := p.type.map TypeWord.bare, pos := .start }

/-- The declaration of a command without places. -/
def CommandDecl.bare (d : CommandDecl) : CommandDecl :=
  { d with
    params := d.params.map (List.map Param.bare)
    result := d.result.map TypeWord.bare
    pos := .start }

/-- An argument without its place. -/
def Arg.bare (a : Arg) : Arg := { a with pos := .start }

/-- A call without places. -/
def Call.bare (c : Call) : Call :=
  { c with args := c.args.map (List.map Arg.bare), pos := .start }

/-- What is given to a variable, without places. -/
def AssignedValue.bare : AssignedValue → AssignedValue
  | .call c => .call c.bare
  | v => v

/-- What is given to a variable, without places. -/
def Assigned.bare (a : Assigned) : Assigned := ⟨a.value.bare, .start⟩

/-- A definition without places. -/
def Definition.bare (d : Definition) : Definition :=
  { d with
    type := d.type.map TypeWord.bare
    value := d.value.map Assigned.bare
    pos := .start }

/-- An assignment without places. -/
def Assignment.bare (a : Assignment) : Assignment :=
  { a with value := a.value.map Assigned.bare, pos := .start }

/-- The left side of a comparison without places. -/
def LeftOperand.bare (l : LeftOperand) : LeftOperand :=
  { l with call := l.call.map Call.bare, pos := .start }

/-- A condition without places. -/
def ConditionForm.bare : ConditionForm → ConditionForm
  | .comparison left comparator right => .comparison left.bare comparator right
  | .call c => .call c.bare
  | form => form

/-- A condition without places. -/
def Condition.bare (c : Condition) : Condition := ⟨c.form.bare, .start⟩

/-! ### Statements and entries -/

mutual

/-- A block without places. -/
def Block.bare : Block → Block
  | .absent => .absent
  | .of _ statements => .of .start (bareStatements statements)

/-- Statements without places. -/
def bareStatements : List Statement → List Statement
  | [] => []
  | s :: ss => s.bare :: bareStatements ss

/-- A statement without places. -/
def Statement.bare : Statement → Statement
  | .define d => .define d.bare
  | .assign a => .assign a.bare
  | .call c => .call c.bare
  | .branch condition body elseIfs otherwise =>
    .branch (condition.map Condition.bare) body.bare (bareElseIfs elseIfs)
      (bareOtherwise otherwise)
  | .select subject cases _ => .select (subject.map Condition.bare) (bareCases cases) .start
  | .inert rule => .inert rule

/-- The block of an `else` without places. -/
def bareOtherwise : Option Block → Option Block
  | none => none
  | some b => some b.bare

/-- Conditions behind an `else` without places. -/
def bareElseIfs : List ElseIf → List ElseIf
  | [] => []
  | e :: es => e.bare :: bareElseIfs es

/-- A condition behind an `else` without places. -/
def ElseIf.bare : ElseIf → ElseIf
  | .of condition body => .of (condition.map Condition.bare) body.bare

/-- Cases without places. -/
def bareCases : List Case → List Case
  | [] => []
  | c :: cs => c.bare :: bareCases cs

/-- A case without places. -/
def Case.bare : Case → Case
  | .default body => .default body.bare
  | .labelled number name body => .labelled number name body.bare

end

/-- The declaration of a function without places. -/
def FunctionDecl.bare (f : FunctionDecl) : FunctionDecl :=
  { f with
    params := f.params.map (List.map Param.bare)
    result := f.result.map TypeWord.bare
    body := f.body.bare
    pos := .start }

mutual

/-- An entry without places. -/
def Entry.bare : Entry → Entry
  | .define d => .define d.bare
  | .command d => .command d.bare
  | .function f => .function f.bare
  | .importAll name _ => .importAll name .start
  | .importFrom name everything _ => .importFrom name everything .start
  | .space name entries => .space name (bareEntries entries)
  | .inert rule => .inert rule

/-- Entries without places. -/
def bareEntries : List Entry → List Entry
  | [] => []
  | e :: es => e.bare :: bareEntries es

end

theorem bareStatements_eq_map (ss : List Statement) :
    bareStatements ss = ss.map Statement.bare := by
  induction ss with
  | nil => rfl
  | cons s ss ih => rw [bareStatements, ih, List.map_cons]

theorem bareElseIfs_eq_map (es : List ElseIf) : bareElseIfs es = es.map ElseIf.bare := by
  induction es with
  | nil => rfl
  | cons e es ih => rw [bareElseIfs, ih, List.map_cons]

theorem bareCases_eq_map (cs : List Case) : bareCases cs = cs.map Case.bare := by
  induction cs with
  | nil => rfl
  | cons c cs ih => rw [bareCases, ih, List.map_cons]

theorem bareOtherwise_eq_map (o : Option Block) : bareOtherwise o = o.map Block.bare := by
  cases o <;> rfl

theorem bareEntries_eq_map (es : List Entry) : bareEntries es = es.map Entry.bare := by
  induction es with
  | nil => rfl
  | cons e es ih => rw [bareEntries, ih, List.map_cons]

/-! ### Meanings -/

namespace Phrase

/-- A meaning without places. -/
def bare : Phrase → Phrase
  | .type t => .type t.bare
  | .param p => .param p.bare
  | .params ps => .params (ps.map Param.bare)
  | .arg a => .arg a.bare
  | .args as => .args (as.map Arg.bare)
  | .call c => .call c.bare
  | .assigned a => .assigned a.bare
  | .left l => .left l.bare
  | .condition c => .condition c.bare
  | .definition d => .definition d.bare
  | .assignment a => .assignment a.bare
  | .statement s => .statement s.bare
  | .elseIf e => .elseIf e.bare
  | .elseBlock b => .elseBlock b.bare
  | .case c => .case c.bare
  | .block b => .block b.bare
  | .entry e => .entry e.bare
  | .program es => .program (bareEntries es)
  | p => p

variable {α : Type} {β : α → α} {f : Phrase → Option α}

/-- The first phrase of a kind is found without places too. -/
theorem findSome?_map_bare (h : ∀ p, f (bare p) = (f p).map β) (ps : List Phrase) :
    (ps.map bare).findSome? f = (ps.findSome? f).map β := by
  rw [List.findSome?_map, List.map_findSome?]
  exact congrArg (ps.findSome? ·) (funext h)

/-- So are all of them. -/
theorem filterMap_map_bare (h : ∀ p, f (bare p) = (f p).map β) (ps : List Phrase) :
    (ps.map bare).filterMap f = (ps.filterMap f).map β := by
  rw [List.filterMap_map, List.map_filterMap]
  exact congrArg (ps.filterMap ·) (funext h)

/-- The first part of a sort that has no places. -/
theorem findSome?_map_bare_id (h : ∀ p, f (bare p) = f p) (ps : List Phrase) :
    (ps.map bare).findSome? f = ps.findSome? f := by
  rw [List.findSome?_map]
  exact congrArg (ps.findSome? ·) (funext h)

@[simp] theorem word?_map_bare (kind : Kind) (ps : List Phrase) :
    word? kind (ps.map bare) = word? kind ps :=
  findSome?_map_bare_id (fun p => by cases p <;> rfl) ps

variable (ps : List Phrase)

@[simp] theorem plainName?_map_bare : plainName? (ps.map bare) = plainName? ps :=
  word?_map_bare .name ps

@[simp] theorem anyName?_map_bare : anyName? (ps.map bare) = anyName? ps := by
  rw [anyName?, anyName?, word?_map_bare, word?_map_bare]

@[simp] theorem hasKeyword_map_bare (k : Keyword) (ps : List Phrase) :
    hasKeyword k (ps.map bare) = hasKeyword k ps := by
  rw [hasKeyword, hasKeyword, word?_map_bare]

@[simp] theorem numeral?_map_bare : (ps.map bare).findSome? numeral? = ps.findSome? numeral? :=
  findSome?_map_bare_id (fun p => by cases p <;> rfl) ps

@[simp] theorem type?_map_bare :
    (ps.map bare).findSome? type? = (ps.findSome? type?).map TypeWord.bare :=
  findSome?_map_bare (fun p => by cases p <;> rfl) ps

@[simp] theorem params?_map_bare :
    (ps.map bare).findSome? params? = (ps.findSome? params?).map (List.map Param.bare) :=
  findSome?_map_bare (fun p => by cases p <;> rfl) ps

@[simp] theorem args?_map_bare :
    (ps.map bare).findSome? args? = (ps.findSome? args?).map (List.map Arg.bare) :=
  findSome?_map_bare (fun p => by cases p <;> rfl) ps

@[simp] theorem call?_map_bare :
    (ps.map bare).findSome? call? = (ps.findSome? call?).map Call.bare :=
  findSome?_map_bare (fun p => by cases p <;> rfl) ps

@[simp] theorem condition?_map_bare :
    (ps.map bare).findSome? condition? = (ps.findSome? condition?).map Condition.bare :=
  findSome?_map_bare (fun p => by cases p <;> rfl) ps

/-- Blocks are built without regard to places, and so is the rest of the syntax. -/
@[simp] theorem blockOf_map_bare : blockOf (ps.map bare) = (blockOf ps).bare := by
  have h : (ps.map bare).findSome? block? = (ps.findSome? block?).map Block.bare :=
    findSome?_map_bare (fun p => by cases p <;> rfl) ps
  rw [blockOf, blockOf, h]
  cases ps.findSome? block? <;> rfl

theorem argValue_map_bare : argValue (ps.map bare) = argValue ps := by
  rw [argValue, argValue, plainName?_map_bare, findSome?_map_bare_id]
  exact fun p => by cases p <;> rfl

theorem assignedValue_map_bare : assignedValue (ps.map bare) = (assignedValue ps).bare := by
  rw [assignedValue, assignedValue, findSome?_map_bare (β := AssignedValue.bare)]
  · cases ps.findSome? _ <;> rfl
  · exact fun p => by cases p <;> rfl

theorem conditionForm_map_bare : conditionForm (ps.map bare) = (conditionForm ps).bare := by
  rw [conditionForm, conditionForm, findSome?_map_bare (β := LeftOperand.bare),
    call?_map_bare, word?_map_bare, anyName?_map_bare, findSome?_map_bare_id]
  · split <;> split <;> simp_all [ConditionForm.bare]
  · exact fun p => by cases p <;> rfl
  · exact fun p => by cases p <;> rfl

theorem statementOf_map_bare : statementOf (ps.map bare) = (statementOf ps).bare := by
  rw [statementOf, statementOf, findSome?_map_bare (β := Statement.bare)]
  · cases ps.findSome? _ <;> rfl
  · exact fun p => by cases p <;> rfl

theorem entryOf_map_bare : entryOf (ps.map bare) = (entryOf ps).bare := by
  rw [entryOf, entryOf, findSome?_map_bare (β := Entry.bare)]
  · cases ps.findSome? _ <;> rfl
  · exact fun p => by cases p <;> rfl

theorem caseOf_map_bare : caseOf (ps.map bare) = (caseOf ps).bare := by
  rw [caseOf, caseOf, hasKeyword_map_bare, blockOf_map_bare, numeral?_map_bare,
    plainName?_map_bare]
  split <;> rfl

theorem entriesOf_map_bare : entriesOf (ps.map bare) = bareEntries (entriesOf ps) := by
  rw [bareEntries_eq_map]
  exact filterMap_map_bare (fun p => by cases p <;> rfl) ps

/-- What a node stands for has no other use for places than to keep them. -/
theorem bare_ofNode (rule : Rule) (pos : Pos) (text : String) (ps : List Phrase) :
    (ofNode rule pos text ps).bare = ofNode rule .start text (ps.map bare) := by
  -- Parts of the sorts that have names of their own are done for all rules at once.
  cases rule <;> simp only [ofNode, word?_map_bare, plainName?_map_bare, anyName?_map_bare,
    hasKeyword_map_bare, numeral?_map_bare, type?_map_bare, params?_map_bare, args?_map_bare,
    call?_map_bare, condition?_map_bare, blockOf_map_bare, argValue_map_bare,
    assignedValue_map_bare, conditionForm_map_bare, statementOf_map_bare, entryOf_map_bare,
    caseOf_map_bare, entriesOf_map_bare] <;> try rfl
  case param =>
      rw [findSome?_map_bare_id]
      · rfl
      · exact fun p => by cases p <;> rfl
  case paramList =>
      rw [filterMap_map_bare (β := Param.bare)]
      · rfl
      · exact fun p => by cases p <;> rfl
  case argList =>
      rw [filterMap_map_bare (β := Arg.bare)]
      · rfl
      · exact fun p => by cases p <;> rfl
  case definition =>
      rw [findSome?_map_bare (β := Assigned.bare)]
      · rfl
      · exact fun p => by cases p <;> rfl
  case assignment =>
      rw [findSome?_map_bare (β := Assigned.bare), findSome?_map_bare_id]
      · rfl
      · exact fun p => by cases p <;> rfl
      · exact fun p => by cases p <;> rfl
  case block =>
      rw [filterMap_map_bare (β := Statement.bare), ← bareStatements_eq_map]
      · rfl
      · exact fun p => by cases p <;> rfl
  case ifBlock =>
      rw [filterMap_map_bare (β := ElseIf.bare), findSome?_map_bare (β := Block.bare),
        ← bareElseIfs_eq_map, ← bareOtherwise_eq_map]
      · rfl
      · exact fun p => by cases p <;> rfl
      · exact fun p => by cases p <;> rfl
  case switchBlock =>
      rw [filterMap_map_bare (β := Case.bare), ← bareCases_eq_map]
      · rfl
      · exact fun p => by cases p <;> rfl
  case functionDecl =>
      rw [findSome?_map_bare_id]
      · rfl
      · exact fun p => by cases p <;> rfl
  case importFrom =>
      rw [findSome?_map_bare_id]
      · rfl
      · exact fun p => by cases p <;> rfl

end Phrase

mutual

/-- What a tree stands for, without places. -/
theorem Tree.phrase_bare : ∀ t : Tree, t.bare.phrase = t.phrase.bare
  | .leaf _ => rfl
  | .skipped _ => rfl
  | .missing _ _ => rfl
  | .node rule pos children => by
    rw [Tree.bare, Tree.phrase, Tree.phrase, Phrase.bare_ofNode, Tree.textOfAll_bareAll,
      phrasesOf_bareAll children]

theorem phrasesOf_bareAll : ∀ ts : List Tree,
    phrasesOf (Tree.bareAll ts) = (phrasesOf ts).map Phrase.bare
  | [] => rfl
  | t :: ts => by
    rw [Tree.bareAll, phrasesOf, phrasesOf, Tree.phrase_bare t, phrasesOf_bareAll ts,
      List.map_cons]

end

/-- **The entries of a tree without places** are its entries without places. -/
theorem Tree.entries_bare (t : Tree) : t.bare.entries = bareEntries t.entries := by
  rw [Tree.entries, Tree.entries, Tree.phrase_bare]
  cases t.phrase <;> rfl

end EvScript
