import Mathlib.Data.List.Perm.Basic
import EvScript.Proofs.Grammar.Shapes

/-!
# Calls That Are Statements

The meaning of a tree keeps the blocks of functions, of `if` and `else` and of the cases of a
`switch`, but an `unless`, a `while`, a `for` and a `with` mean a statement without code: the calls
below them are **sunk**. Nothing else is lost: up to their order, the calls that are written as
statements are those of the meaning and those that are sunk. This holds of every tree that fits the
grammar (`EvScript.Proofs.Grammar.Shapes`), be it read with repair or without.
-/

namespace EvScript

variable {t : Tree} {own : Phrase → List Call}

/-! ### The calls of a program -/

mutual

/-- The calls that are statements of a block, at any depth. -/
def Block.calls : Block → List Call
  | .absent => []
  | .of _ statements => statementsCalls statements

/-- The calls that are among statements, at any depth. -/
def statementsCalls : List Statement → List Call
  | [] => []
  | x :: xs => x.calls ++ statementsCalls xs

/-- The statement itself if it is a call, and the calls that are statements of its blocks. -/
def Statement.calls : Statement → List Call
  | .call c => [c]
  | .branch _ body elseIfs otherwise =>
    body.calls ++ (elseIfsCalls elseIfs ++ otherwiseCalls otherwise)
  | .select _ cases _ => casesCalls cases
  | .define _ | .assign _ | .inert _ => []

/-- The calls that are statements behind an `else` with a condition. -/
def ElseIf.calls : ElseIf → List Call
  | .of _ body => body.calls

/-- The calls that are statements behind several of them. -/
def elseIfsCalls : List ElseIf → List Call
  | [] => []
  | e :: es => e.calls ++ elseIfsCalls es

/-- The calls that are statements of the last `else`, if there is one. -/
def otherwiseCalls : Option Block → List Call
  | none => []
  | some body => body.calls

/-- The calls that are statements of a case. -/
def Case.calls : Case → List Call
  | .default body => body.calls
  | .labelled _ _ body => body.calls

/-- The calls that are statements of several cases. -/
def casesCalls : List Case → List Call
  | [] => []
  | c :: cs => c.calls ++ casesCalls cs

end

mutual

/-- The calls that are statements of functions in an entry. -/
def Entry.calls : Entry → List Call
  | .function f => f.body.calls
  | .space _ entries => entriesCalls entries
  | .define _ | .command _ | .importAll _ _ | .importFrom _ _ _ | .inert _ => []

/-- The calls that are statements of functions in several entries. -/
def entriesCalls : List Entry → List Call
  | [] => []
  | e :: es => e.calls ++ entriesCalls es

end

/-- The calls that are statements in the meaning of a tree. -/
def Phrase.calls : Phrase → List Call
  | .statement s => s.calls
  | .elseIf e => e.calls
  | .elseBlock b => b.calls
  | .block b => b.calls
  | .case c => c.calls
  | .entry e => e.calls
  | .program es => entriesCalls es
  | _ => []

theorem statementsCalls_eq (xs : List Statement) :
    statementsCalls xs = xs.flatMap Statement.calls := by
  induction xs with
  | nil => rfl
  | cons x xs ih => rw [statementsCalls, ih, List.flatMap_cons]

theorem elseIfsCalls_eq (es : List ElseIf) : elseIfsCalls es = es.flatMap ElseIf.calls := by
  induction es with
  | nil => rfl
  | cons e es ih => rw [elseIfsCalls, ih, List.flatMap_cons]

theorem otherwiseCalls_eq (o : Option Block) : otherwiseCalls o = o.toList.flatMap Block.calls := by
  cases o <;> simp [otherwiseCalls]

theorem casesCalls_eq (cs : List Case) : casesCalls cs = cs.flatMap Case.calls := by
  induction cs with
  | nil => rfl
  | cons c cs ih => rw [casesCalls, ih, List.flatMap_cons]

theorem entriesCalls_eq (es : List Entry) : entriesCalls es = es.flatMap Entry.calls := by
  induction es with
  | nil => rfl
  | cons e es ih => rw [entriesCalls, ih, List.flatMap_cons]

/-! ### The calls of a tree -/

mutual

/-- The calls that are written as statements in a tree, at any depth. -/
def Tree.calls : Tree → List Call
  | .node rule _ children =>
    (if rule = .statement then (phrasesOf children).filterMap Phrase.call? else []) ++
      callsOfAll children
  | _ => []

/-- The calls that are written as statements in several trees. -/
def callsOfAll : List Tree → List Call
  | [] => []
  | t :: ts => t.calls ++ callsOfAll ts

end

/-- The rule has blocks that its meaning does not keep. -/
def Rule.sinks : Rule → Bool
  | .unlessBlock | .whileBlock | .forBlock | .contextBlock => true
  | _ => false

mutual

/-- The calls that are written as statements below an `unless`, a `while`, a `for` or a `with`. -/
def Tree.sunk : Tree → List Call
  | .node rule _ children => if rule.sinks then callsOfAll children else sunkOfAll children
  | _ => []

/-- The sunk calls of several trees. -/
def sunkOfAll : List Tree → List Call
  | [] => []
  | t :: ts => t.sunk ++ sunkOfAll ts

end

theorem phrasesOf_eq (ts : List Tree) : phrasesOf ts = ts.map Tree.phrase := by
  induction ts with
  | nil => rfl
  | cons t ts ih => rw [phrasesOf, ih, List.map_cons]

/-! ### Children of certain rules -/

/-- The rule whose nodes can mean something with calls in it. -/
def Rule.loud : Rule → Bool
  | .program | .entry | .namespaceBlock | .functionDecl | .block | .statement | .ifBlock
  | .elseIfBlock | .elseBlock | .switchBlock | .caseBlock => true
  | _ => false

/-- The rule is loud, but not one of those given. -/
def Rule.strange (known : List Rule) (r : Rule) : Bool := r.loud && !known.contains r

variable {rule : Rule} {pos : Pos} {ts : List Tree} {β : Type}
variable {select : Phrase → Option β}

/-- If the body of a rule calls none of certain rules, no child is a node of one. -/
theorem Within.none_of_most {p : Rule → Bool} (h : Within (fun p => rule.body.most p) ts)
    (hp : rule.body.most p = 0) : ∀ t ∈ ts, t.rule?.any p = false := by
  have hcount := h.atMost p
  have hzero : nodesOf p ts = 0 := by omega
  intro t ht
  simpa using List.countP_eq_zero.mp hzero t ht

/-- If the body of a rule calls certain rules once, at most one child is a node of one. -/
theorem Within.filterMap_eq_toList {p : Rule → Bool}
    (h : Within (fun p => rule.body.most p) ts) (hp : rule.body.most p ≤ 1)
    (hselect : ∀ t : Tree, (select t.phrase).isSome = true → t.rule?.any p = true) :
    (phrasesOf ts).filterMap select = ((phrasesOf ts).findSome? select).toList := by
  have hlength : ((phrasesOf ts).filterMap select).length ≤ 1 := by
    have hcount := h.atMost p
    have hle : ((phrasesOf ts).filterMap select).length ≤ nodesOf p ts := by
      rw [phrasesOf_eq, List.filterMap_map, List.length_filterMap_eq_countP]
      exact List.countP_mono_left fun t _ => hselect t
    omega
  rw [← List.head?_filterMap]
  match (phrasesOf ts).filterMap select, hlength with
  | [], _ => rfl
  | [_], _ => rfl

theorem flatMap_getD_eq (ps : List Phrase) (select : Phrase → Option β) (calls : β → List Call) :
    ps.flatMap (fun ph => ((select ph).map calls).getD []) =
      (ps.filterMap select).flatMap calls := by
  induction ps with
  | nil => rfl
  | cons ph ps ih =>
    rw [List.flatMap_cons, ih, List.filterMap_cons]
    cases select ph <;> simp

/-! ### Meanings of children

What a tree contributes, if it is a node of one of the rules that its parent knows or of one without
calls. -/

theorem calls_phrase_of_quiet (h : t.rule?.any (Rule.strange []) = false) :
    t.phrase.calls = [] := by
  cases t with
  | node rule pos children => cases rule <;> first | rfl | cases h
  | _ => rfl

theorem calls_phrase_block (h : t.rule?.any (Rule.strange [.block]) = false) :
    t.phrase.calls = (t.phrase.block?.map Block.calls).getD [] := by
  cases t with
  | node rule pos children => cases rule <;> first | rfl | cases h
  | _ => rfl

namespace Phrase

/-- The statement, if the phrase is one. -/
def statement? : Phrase → Option Statement
  | .statement s => some s
  | _ => none

/-- The statement that a phrase is if it is the child of a statement. -/
def asStatement? : Phrase → Option Statement
  | .definition d => some (Statement.define d)
  | .assignment a => some (.assign a)
  | .call c => some (.call c)
  | .statement s => some s
  | .inert r => some (.inert (some r))
  | _ => none

/-- The entry that a phrase is if it is the child of an entry. -/
def asEntry? : Phrase → Option Entry
  | .definition d => some (Entry.define d)
  | .entry e => some e
  | .inert r => some (.inert (some r))
  | _ => none

/-- The entry, if the phrase is one. -/
def entry? : Phrase → Option Entry
  | .entry e => some e
  | _ => none

/-- The case, if the phrase is one. -/
def case? : Phrase → Option Case
  | .case c => some c
  | _ => none

/-- The condition behind an `else`, if the phrase is one. -/
def elseIf? : Phrase → Option ElseIf
  | .elseIf e => some e
  | _ => none

/-- The block of the last `else`, if the phrase is one. -/
def elseBlock? : Phrase → Option Block
  | .elseBlock b => some b
  | _ => none

end Phrase

theorem calls_phrase_statement (h : t.rule?.any (Rule.strange [.statement]) = false) :
    t.phrase.calls = (t.phrase.statement?.map Statement.calls).getD [] := by
  cases t with
  | node rule pos children => cases rule <;> first | rfl | cases h
  | _ => rfl

theorem calls_phrase_case (h : t.rule?.any (Rule.strange [.caseBlock]) = false) :
    t.phrase.calls = (t.phrase.case?.map Case.calls).getD [] := by
  cases t with
  | node rule pos children => cases rule <;> first | rfl | cases h
  | _ => rfl

theorem calls_phrase_entry (h : t.rule?.any (Rule.strange [.entry]) = false) :
    t.phrase.calls = (t.phrase.entry?.map Entry.calls).getD [] := by
  cases t with
  | node rule pos children => cases rule <;> first | rfl | cases h
  | _ => rfl

theorem calls_phrase_asEntry
    (h : t.rule?.any (Rule.strange [.functionDecl, .namespaceBlock]) = false) :
    t.phrase.calls = (t.phrase.asEntry?.map Entry.calls).getD [] := by
  cases t with
  | node rule pos children => cases rule <;> first | rfl | cases h
  | _ => rfl

theorem calls_phrase_asStatement (h : t.rule?.any (Rule.strange [.ifBlock, .switchBlock]) = false) :
    t.phrase.call?.toList ++ t.phrase.calls =
      (t.phrase.asStatement?.map Statement.calls).getD [] := by
  cases t with
  | node rule pos children => cases rule <;> first | rfl | cases h
  | _ => rfl

theorem calls_phrase_branch
    (h : t.rule?.any (Rule.strange [.block, .elseIfBlock, .elseBlock]) = false) :
    t.phrase.calls = (t.phrase.block?.map Block.calls).getD [] ++
      ((t.phrase.elseIf?.map ElseIf.calls).getD [] ++
        (t.phrase.elseBlock?.map Block.calls).getD []) := by
  cases t with
  | node rule pos children =>
    cases rule <;> first | rfl | exact (List.append_nil _).symm | cases h
  | _ => rfl

/-! ### Meanings of nodes -/

/-- What children contribute can be told from each of them, if they are not strange. -/
theorem Within.flatMap_congr {known : List Rule}
    (h : Within (fun p => rule.body.most p) ts) (own' : Phrase → List Call)
    (hknown : rule.body.most (Rule.strange known) = 0)
    (hown : ∀ t : Tree, t.rule?.any (Rule.strange known) = false → own t.phrase = own' t.phrase) :
    (phrasesOf ts).flatMap own = (phrasesOf ts).flatMap own' := by
  rw [phrasesOf_eq]
  refine List.flatMap_congr fun ph hph => ?_
  obtain ⟨t, ht, rfl⟩ := List.mem_map.mp hph
  exact hown t (h.none_of_most hknown t ht)

theorem Within.flatMap_calls_eq {known : List Rule} {calls : β → List Call}
    (h : Within (fun p => rule.body.most p) ts) (hknown : rule.body.most (Rule.strange known) = 0)
    (hown : ∀ t : Tree, t.rule?.any (Rule.strange known) = false →
      own t.phrase = ((select t.phrase).map calls).getD []) :
    (phrasesOf ts).flatMap own = ((phrasesOf ts).filterMap select).flatMap calls :=
  (h.flatMap_congr _ hknown hown).trans (flatMap_getD_eq _ select calls)

theorem rule_of_block? (h : t.phrase.block?.isSome = true) : t.rule?.any (· == .block) = true := by
  cases t with
  | node rule pos children => cases rule <;> first | rfl | cases h
  | _ => cases h

theorem rule_of_elseBlock? (h : t.phrase.elseBlock?.isSome = true) :
    t.rule?.any (· == .elseBlock) = true := by
  cases t with
  | node rule pos children => cases rule <;> first | rfl | cases h
  | _ => cases h

/-- There is at most one block among the children of a rule that calls it once. -/
theorem Within.flatMap_block (h : Within (fun p => rule.body.most p) ts)
    (hone : rule.body.most (· == .block) ≤ 1) :
    ((phrasesOf ts).filterMap Phrase.block?).flatMap Block.calls =
      (Phrase.blockOf (phrasesOf ts)).calls := by
  rw [h.filterMap_eq_toList hone fun t => rule_of_block?, Phrase.blockOf]
  cases (phrasesOf ts).findSome? Phrase.block? <;> simp [Block.calls]

/-- The block of a rule that has one, and nothing else with calls in it. -/
theorem Within.flatMap_calls_block (h : Within (fun p => rule.body.most p) ts)
    (hknown : rule.body.most (Rule.strange [.block]) = 0)
    (hone : rule.body.most (· == .block) ≤ 1) :
    (phrasesOf ts).flatMap Phrase.calls = (Phrase.blockOf (phrasesOf ts)).calls :=
  (h.flatMap_calls_eq hknown fun _ => calls_phrase_block).trans (h.flatMap_block hone)

theorem Within.flatMap_calls_quiet (h : Within (fun p => rule.body.most p) ts)
    (hquiet : rule.body.most (Rule.strange []) = 0) : (phrasesOf ts).flatMap Phrase.calls = [] := by
  rw [h.flatMap_congr (fun _ => []) hquiet fun t => calls_phrase_of_quiet]
  exact List.flatMap_eq_nil_iff.mpr fun _ _ => rfl

/-- The meaning of a node of a statement is the only one that its children have. -/
theorem Within.calls_statementOf (h : Within (fun p => Rule.statement.body.most p) ts) :
    ((phrasesOf ts).filterMap Phrase.call? ++ (phrasesOf ts).flatMap Phrase.calls).Perm
      (Phrase.statementOf (phrasesOf ts)).calls := by
  have hown : (phrasesOf ts).flatMap (fun ph => ph.call?.toList ++ ph.calls) =
      (Phrase.statementOf (phrasesOf ts)).calls := by
    rw [h.flatMap_calls_eq rfl fun t => calls_phrase_asStatement,
      h.filterMap_eq_toList (p := fun _ => true) (by decide) fun t ht => ?_]
    · show _ = (((phrasesOf ts).findSome? Phrase.asStatement?).getD (.inert none)).calls
      cases (phrasesOf ts).findSome? Phrase.asStatement? <;> simp [Statement.calls]
    · cases t with
      | node => rfl
      | _ => cases ht
  rw [← hown, List.filterMap_eq_flatMap_toList]
  exact List.flatMap_append_perm _ _ _

/-- The meaning of a node of an entry is the only one that its children have. -/
theorem Within.calls_entryOf (h : Within (fun p => Rule.entry.body.most p) ts) :
    (phrasesOf ts).flatMap Phrase.calls = (Phrase.entryOf (phrasesOf ts)).calls := by
  rw [h.flatMap_calls_eq rfl fun t => calls_phrase_asEntry,
    h.filterMap_eq_toList (p := fun _ => true) (by decide) fun t ht => ?_]
  · show _ = (((phrasesOf ts).findSome? Phrase.asEntry?).getD (.inert none)).calls
    cases (phrasesOf ts).findSome? Phrase.asEntry? <;> simp [Entry.calls]
  · cases t with
    | node => rfl
    | _ => cases ht

theorem Within.calls_branch (h : Within (fun p => Rule.ifBlock.body.most p) ts) :
    ((phrasesOf ts).flatMap Phrase.calls).Perm
      ((Phrase.blockOf (phrasesOf ts)).calls ++
        (((phrasesOf ts).filterMap Phrase.elseIf?).flatMap ElseIf.calls ++
          ((phrasesOf ts).findSome? Phrase.elseBlock?).toList.flatMap Block.calls)) := by
  rw [h.flatMap_congr (fun ph => (ph.block?.map Block.calls).getD [] ++
      ((ph.elseIf?.map ElseIf.calls).getD [] ++ (ph.elseBlock?.map Block.calls).getD []))
      rfl fun t => calls_phrase_branch,
    ← h.flatMap_block (by decide), ← h.filterMap_eq_toList (by decide) fun t => rule_of_elseBlock?,
    ← flatMap_getD_eq, ← flatMap_getD_eq, ← flatMap_getD_eq]
  exact (List.flatMap_append_perm _ _ _).symm.trans
    ((List.flatMap_append_perm _ _ _).symm.append_left _)

/-- **Of the calls below a node**, its own and those that its children mean, its meaning keeps
all. -/
theorem calls_ofNode (h : Within (fun p => rule.body.most p) ts) (hsinks : rule.sinks = false)
    (text : String) :
    ((if rule = .statement then (phrasesOf ts).filterMap Phrase.call? else []) ++
      (phrasesOf ts).flatMap Phrase.calls).Perm
      (Phrase.ofNode rule pos text (phrasesOf ts)).calls := by
  cases rule
  case statement => exact h.calls_statementOf
  case entry => exact .of_eq h.calls_entryOf
  case functionDecl => exact .of_eq (h.flatMap_calls_block rfl (by decide))
  case elseIfBlock => exact .of_eq (h.flatMap_calls_block rfl (by decide))
  case elseBlock => exact .of_eq (h.flatMap_calls_block rfl (by decide))
  case caseBlock =>
    refine .of_eq ((h.flatMap_calls_block rfl (by decide)).trans ?_)
    show _ = (Phrase.caseOf (phrasesOf ts)).calls
    unfold Phrase.caseOf
    split <;> rfl
  case block =>
    refine .of_eq ((h.flatMap_calls_eq rfl fun t => calls_phrase_statement).trans ?_)
    exact (statementsCalls_eq _).symm
  case switchBlock =>
    refine .of_eq ((h.flatMap_calls_eq rfl fun t => calls_phrase_case).trans ?_)
    exact (casesCalls_eq _).symm
  case program =>
    refine .of_eq ((h.flatMap_calls_eq rfl fun t => calls_phrase_entry).trans ?_)
    exact (entriesCalls_eq _).symm
  case namespaceBlock =>
    refine .of_eq ((h.flatMap_calls_eq rfl fun t => calls_phrase_entry).trans ?_)
    exact (entriesCalls_eq _).symm
  case ifBlock =>
    refine h.calls_branch.trans (.of_eq ?_)
    rw [← elseIfsCalls_eq, ← otherwiseCalls_eq]
    rfl
  case unlessBlock => cases hsinks
  case whileBlock => cases hsinks
  case forBlock => cases hsinks
  case contextBlock => cases hsinks
  all_goals exact .of_eq (h.flatMap_calls_quiet rfl)

/-! ### Trees -/

mutual

/-- **The calls that are written as statements** are those of the meaning and those that are
sunk. -/
theorem Tree.calls_perm : ∀ {t : Tree}, t.Fits → t.calls.Perm (t.phrase.calls ++ t.sunk)
  | .leaf _, _ => .nil
  | .skipped _, _ => .nil
  | .missing _ _, _ => .nil
  | .node rule pos children, h => by
    have hwithin := Tree.fits_node_iff.mp h
    rw [Tree.Fits] at h
    have hchildren := callsOfAll_perm h.2
    rw [Tree.calls, Tree.sunk, Tree.phrase]
    cases hsinks : rule.sinks with
    | true =>
      -- the meaning keeps nothing, and all that is below is sunk
      have hmeaning : (Phrase.ofNode rule pos (Tree.textOfAll children)
          (phrasesOf children)).calls = [] := by
        cases rule <;> first | rfl | cases hsinks
      have hrule : rule ≠ .statement := by
        rintro rfl
        cases hsinks
      simp [hmeaning, hrule]
    | false =>
      simp only [Bool.false_eq_true, ↓reduceIte]
      refine (hchildren.append_left _).trans ?_
      rw [← List.append_assoc]
      exact (calls_ofNode hwithin hsinks _).append_right _

theorem callsOfAll_perm : ∀ {ts : List Tree}, FitAll ts →
    (callsOfAll ts).Perm ((phrasesOf ts).flatMap Phrase.calls ++ sunkOfAll ts)
  | [], _ => .nil
  | t :: ts, h => by
    rw [FitAll] at h
    rw [callsOfAll, phrasesOf, sunkOfAll, List.flatMap_cons]
    refine ((Tree.calls_perm h.1).append (callsOfAll_perm h.2)).trans ?_
    simp only [List.append_assoc]
    refine List.Perm.append_left _ ?_
    exact List.perm_append_comm_assoc _ _ _

end

/-- **The calls of a program** are those of its entries and those that are sunk. -/
theorem Tree.calls_perm_entries (hrule : t.rule? = some .program) (h : t.Fits) :
    t.calls.Perm (entriesCalls t.entries ++ t.sunk) := by
  cases t with
  | node rule pos children =>
    obtain rfl : rule = .program := Option.some.inj hrule
    exact Tree.calls_perm h
  | _ => cases hrule

end EvScript
