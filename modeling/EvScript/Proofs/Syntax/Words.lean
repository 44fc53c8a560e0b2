import EvScript.Proofs.Grammar.Words
import EvScript.Proofs.Syntax.CallStatements

/-!
# The Words of Programs

Of the words of a script few come into its code as they are written: the strings among the arguments
of calls, and the names of functions. The meaning of a tree has no word of these two sorts that is
not a leaf of the tree, so in a program they are spelt as the vocabulary has them, or they are
placeholders.
-/

namespace EvScript

/-! ### The words of a program -/

/-- The string of an argument, if it is one. -/
def Arg.words (a : Arg) : List (Kind × String) :=
  match a.value with
  | .string literal => literal.toList.map (Kind.string, ·)
  | _ => []

/-- The strings among the arguments of a call. -/
def Call.words (c : Call) : List (Kind × String) := c.args.toList.flatten.flatMap Arg.words

/-- The strings of what is given to a variable. -/
def Assigned.words (a : Assigned) : List (Kind × String) :=
  match a.value with
  | .call c => c.words
  | _ => []

/-- The strings of a definition. -/
def Definition.words (d : Definition) : List (Kind × String) :=
  d.value.toList.flatMap Assigned.words

/-- The strings of an assignment. -/
def Assignment.words (a : Assignment) : List (Kind × String) :=
  a.value.toList.flatMap Assigned.words

/-- The strings of the left side of a comparison. -/
def LeftOperand.words (l : LeftOperand) : List (Kind × String) := l.call.toList.flatMap Call.words

/-- The strings of a condition. -/
def Condition.words (c : Condition) : List (Kind × String) :=
  match c.form with
  | .comparison left _ _ => left.words
  | .call call => call.words
  | .name _ => []

mutual

/-- The strings of a block. -/
def Block.words : Block → List (Kind × String)
  | .absent => []
  | .of _ statements => statementsWords statements

/-- The strings of statements. -/
def statementsWords : List Statement → List (Kind × String)
  | [] => []
  | x :: xs => x.words ++ statementsWords xs

/-- The strings of a statement. -/
def Statement.words : Statement → List (Kind × String)
  | .define d => d.words
  | .assign a => a.words
  | .call c => c.words
  | .branch condition body elseIfs otherwise =>
    condition.toList.flatMap Condition.words ++
      (body.words ++ (elseIfsWords elseIfs ++ otherwiseWords otherwise))
  | .select subject cases _ => subject.toList.flatMap Condition.words ++ casesWords cases
  | .inert _ => []

/-- The strings of a condition behind an `else`, and of its block. -/
def ElseIf.words : ElseIf → List (Kind × String)
  | .of condition body => condition.toList.flatMap Condition.words ++ body.words

/-- The strings of several of them. -/
def elseIfsWords : List ElseIf → List (Kind × String)
  | [] => []
  | e :: es => e.words ++ elseIfsWords es

/-- The strings of the last `else`, if there is one. -/
def otherwiseWords : Option Block → List (Kind × String)
  | none => []
  | some body => body.words

/-- The strings of a case. -/
def Case.words : Case → List (Kind × String)
  | .default body => body.words
  | .labelled _ _ body => body.words

/-- The strings of several cases. -/
def casesWords : List Case → List (Kind × String)
  | [] => []
  | c :: cs => c.words ++ casesWords cs

end

/-- The name of a function, and the strings of its body. -/
def FunctionDecl.words (f : FunctionDecl) : List (Kind × String) :=
  f.name.toList.map (Kind.name, ·) ++ f.body.words

mutual

/-- The strings and function names of an entry. -/
def Entry.words : Entry → List (Kind × String)
  | .define d => d.words
  | .function f => f.words
  | .space _ entries => entriesWords entries
  | .command _ | .importAll _ _ | .importFrom _ _ _ | .inert _ => []

/-- The strings and function names of entries. -/
def entriesWords : List Entry → List (Kind × String)
  | [] => []
  | e :: es => e.words ++ entriesWords es

end

theorem statementsWords_eq (xs : List Statement) :
    statementsWords xs = xs.flatMap Statement.words := by
  induction xs with
  | nil => rfl
  | cons x xs ih => rw [statementsWords, ih, List.flatMap_cons]

theorem elseIfsWords_eq (es : List ElseIf) : elseIfsWords es = es.flatMap ElseIf.words := by
  induction es with
  | nil => rfl
  | cons e es ih => rw [elseIfsWords, ih, List.flatMap_cons]

theorem otherwiseWords_eq (o : Option Block) : otherwiseWords o = o.toList.flatMap Block.words := by
  cases o <;> simp [otherwiseWords]

theorem casesWords_eq (cs : List Case) : casesWords cs = cs.flatMap Case.words := by
  induction cs with
  | nil => rfl
  | cons c cs ih => rw [casesWords, ih, List.flatMap_cons]

theorem entriesWords_eq (es : List Entry) : entriesWords es = es.flatMap Entry.words := by
  induction es with
  | nil => rfl
  | cons e es ih => rw [entriesWords, ih, List.flatMap_cons]

/-! ### The words of a meaning -/

namespace Phrase

/-- The words of a meaning: a token is its own word. -/
def words : Phrase → List (Kind × String)
  | .word kind text => [(kind, text)]
  | .string literal => literal.toList.map (Kind.string, ·)
  | .arg a => a.words
  | .args as => as.flatMap Arg.words
  | .call c => c.words
  | .assigned a => a.words
  | .left l => l.words
  | .condition c => c.words
  | .definition d => d.words
  | .assignment a => a.words
  | .statement s => s.words
  | .elseIf e => e.words
  | .elseBlock b => b.words
  | .block b => b.words
  | .case c => c.words
  | .entry e => e.words
  | .program es => entriesWords es
  | .numeral _ | .truth _ | .operator _ | .type _ | .functionKind _ | .paramStorage _ | .param _
  | .params _ | .right _ | .importNames _ | .inert _ => []

variable {β : Type} {f : β → List (Kind × String)} {select : Phrase → Option β} {ps : List Phrase}
  {b : β}

/-- What is selected among phrases has their words only, if this is so for each of them. -/
theorem words_filterMap (h : ∀ p b, select p = some b → f b ⊆ p.words) :
    (ps.filterMap select).flatMap f ⊆ ps.flatMap words := by
  intro w hw
  obtain ⟨b, hb, hw⟩ := List.mem_flatMap.mp hw
  obtain ⟨p, hp, hselect⟩ := List.mem_filterMap.mp hb
  exact List.mem_flatMap.mpr ⟨p, hp, h p b hselect hw⟩

theorem words_of_findSome?_eq_some (h : ∀ p b, select p = some b → f b ⊆ p.words)
    (hb : ps.findSome? select = some b) : f b ⊆ ps.flatMap words := by
  intro w hw
  obtain ⟨p, hp, hselect⟩ := List.exists_of_findSome?_eq_some hb
  exact List.mem_flatMap.mpr ⟨p, hp, h p b hselect hw⟩

theorem words_findSome? (h : ∀ p b, select p = some b → f b ⊆ p.words) :
    (ps.findSome? select).toList.flatMap f ⊆ ps.flatMap words := by
  intro w hw
  obtain ⟨b, hb, hw⟩ := List.mem_flatMap.mp hw
  exact words_of_findSome?_eq_some h (Option.mem_toList.mp hb) hw

/-- The same with something without words in the place of what is not there. -/
theorem words_findSome?_getD (h : ∀ p b, select p = some b → f b ⊆ p.words) (hb : f b = []) :
    f ((ps.findSome? select).getD b) ⊆ ps.flatMap words := by
  cases hfound : ps.findSome? select with
  | none =>
    rw [Option.getD_none, hb]
    exact List.nil_subset _
  | some c => exact words_of_findSome?_eq_some h hfound

theorem words_word? (kind : Kind) (ps : List Phrase) :
    (word? kind ps).toList.map (kind, ·) ⊆ ps.flatMap words := by
  rw [← List.flatMap_singleton' ((word? kind ps).toList.map _), List.flatMap_map]
  refine words_findSome? fun p text hp => ?_
  cases p with
  | word k text' =>
    obtain ⟨rfl, rfl⟩ : k = kind ∧ text' = text := by simpa using hp
    exact List.Subset.refl _
  | _ => cases hp

variable (ps)

theorem words_call? : (ps.findSome? call?).toList.flatMap Call.words ⊆ ps.flatMap words :=
  words_findSome? (fun p c hp => by cases p <;> cases hp; exact List.Subset.refl _)

theorem words_condition? :
    (ps.findSome? condition?).toList.flatMap Condition.words ⊆ ps.flatMap words :=
  words_findSome? (fun p c hp => by cases p <;> cases hp; exact List.Subset.refl _)

theorem words_assigned :
    (ps.findSome? fun | .assigned a => some a | _ => none).toList.flatMap Assigned.words ⊆
      ps.flatMap words :=
  words_findSome? (fun p c hp => by cases p <;> cases hp; exact List.Subset.refl _)

theorem words_blockOf : (blockOf ps).words ⊆ ps.flatMap words :=
  words_findSome?_getD (fun p c hp => by cases p <;> cases hp; exact List.Subset.refl _) rfl

theorem words_argValue (pos : Pos) : (Arg.mk (argValue ps) pos).words ⊆ ps.flatMap words := by
  rw [argValue]
  split
  · exact List.nil_subset _
  · refine words_findSome?_getD (f := fun v => (Arg.mk v pos).words) (fun p v hp => ?_) rfl
    cases p <;> cases hp
    · exact List.nil_subset _
    · exact List.Subset.refl _

theorem words_assignedValue (pos : Pos) :
    (Assigned.mk (assignedValue ps) pos).words ⊆ ps.flatMap words := by
  refine words_findSome?_getD (f := fun v => (Assigned.mk v pos).words) (fun p v hp => ?_) rfl
  cases p <;> cases hp
  all_goals first | exact List.nil_subset _ | exact List.Subset.refl _

theorem words_conditionForm (pos : Pos) :
    (Condition.mk (conditionForm ps) pos).words ⊆ ps.flatMap words := by
  rw [conditionForm]
  split
  · rename_i l hl
    refine words_of_findSome?_eq_some (f := LeftOperand.words) (fun p l hp => ?_) hl
    cases p <;> cases hp
    exact List.Subset.refl _
  · rename_i c hl hc
    refine words_of_findSome?_eq_some (f := Call.words) (fun p c hp => ?_) hc
    cases p <;> cases hp
    exact List.Subset.refl _
  · exact List.nil_subset _

theorem words_statementOf : (statementOf ps).words ⊆ ps.flatMap words := by
  refine words_findSome?_getD (fun p v hp => ?_) (by rw [Statement.words])
  cases p <;> cases hp
  all_goals exact List.Subset.refl _

theorem words_entryOf : (entryOf ps).words ⊆ ps.flatMap words := by
  refine words_findSome?_getD (fun p v hp => ?_) (by rw [Entry.words])
  cases p <;> cases hp
  all_goals exact List.Subset.refl _

theorem words_caseOf : (caseOf ps).words ⊆ ps.flatMap words := by
  rw [caseOf]
  split
  all_goals
    rw [Case.words]
    exact words_blockOf ps

theorem words_entriesOf : entriesWords (entriesOf ps) ⊆ ps.flatMap words := by
  rw [entriesWords_eq]
  exact words_filterMap (fun p e hp => by cases p <;> cases hp; exact List.Subset.refl _)

/-- **A node has the words of its children only.** -/
theorem words_ofNode (rule : Rule) (pos : Pos) (text : String) (ps : List Phrase) :
    (ofNode rule pos text ps).words ⊆ ps.flatMap words := by
  cases rule with
  | string => exact words_word? .string ps
  | arg => exact words_argValue ps pos
  | argList =>
    exact words_filterMap fun p a hp => by cases p <;> cases hp; exact List.Subset.refl _
  | call =>
    rw [ofNode, words, Call.words, List.flatten_eq_flatMap, List.flatMap_assoc]
    exact words_findSome? fun p as hp => by cases p <;> cases hp; exact List.Subset.refl _
  | assignedValue => exact words_assignedValue ps pos
  | definition => exact words_assigned ps
  | assignment => exact words_assigned ps
  | leftOperand => exact words_call? ps
  | condition => exact words_conditionForm ps pos
  | block =>
    rw [ofNode, words, Block.words, statementsWords_eq]
    exact words_filterMap fun p s hp => by cases p <;> cases hp; exact List.Subset.refl _
  | statement => exact words_statementOf ps
  | ifBlock =>
    rw [ofNode, words, Statement.words, elseIfsWords_eq, otherwiseWords_eq]
    refine List.append_subset_of_subset_of_subset (words_condition? ps)
      (List.append_subset_of_subset_of_subset (words_blockOf ps)
        (List.append_subset_of_subset_of_subset ?_ ?_))
    · exact words_filterMap fun p e hp => by cases p <;> cases hp; exact List.Subset.refl _
    · exact words_findSome? fun p b hp => by cases p <;> cases hp; exact List.Subset.refl _
  | elseIfBlock =>
    rw [ofNode, words, ElseIf.words]
    exact List.append_subset_of_subset_of_subset (words_condition? ps) (words_blockOf ps)
  | elseBlock => exact words_blockOf ps
  | switchBlock =>
    rw [ofNode, words, Statement.words, casesWords_eq]
    refine List.append_subset_of_subset_of_subset (words_condition? ps) ?_
    exact words_filterMap fun p c hp => by cases p <;> cases hp; exact List.Subset.refl _
  | caseBlock => exact words_caseOf ps
  | functionDecl =>
    rw [ofNode, words, Entry.words]
    exact List.append_subset_of_subset_of_subset (words_word? .name ps) (words_blockOf ps)
  | namespaceBlock =>
    rw [ofNode, words, Entry.words]
    exact words_entriesOf ps
  | entry => exact words_entryOf ps
  | program => exact words_entriesOf ps
  | commandDecl | importAll | importFrom =>
    rw [ofNode, words, Entry.words]
    exact List.nil_subset _
  | _ => exact List.nil_subset _

end Phrase

mutual

theorem Tree.phrase_words : ∀ t : Tree, t.phrase.words ⊆ t.words
  | .leaf _ | .skipped _ | .missing _ _ => by rw [Tree.phrase, Tree.words]; exact List.Subset.refl _
  | .node rule pos children => by
    rw [Tree.phrase, Tree.words]
    exact List.Subset.trans (Phrase.words_ofNode rule pos _ _) (phrasesOf_words children)

theorem phrasesOf_words : ∀ ts : List Tree, (phrasesOf ts).flatMap Phrase.words ⊆ wordsOfAll ts
  | [] => List.nil_subset _
  | t :: ts => by
    rw [phrasesOf, wordsOfAll, List.flatMap_cons]
    exact List.append_subset_of_subset_of_subset
      (List.subset_append_of_subset_left _ (Tree.phrase_words t))
      (List.subset_append_of_subset_right _ (phrasesOf_words ts))

end

/-- **The words of a program are words of its tree.** -/
theorem Tree.entries_words (t : Tree) : entriesWords t.entries ⊆ t.words := by
  have hphrase := t.phrase_words
  rw [Tree.entries]
  split
  · rename_i es hes
    rwa [hes] at hphrase
  · exact List.nil_subset _

end EvScript
