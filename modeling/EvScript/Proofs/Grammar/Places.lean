import Mathlib.Tactic.Common
import EvScript.Grammar.Lookahead

/-!
# The Places of the Grammar

Reading never goes back, so at each place of the grammar the tokens ahead must tell how to go on.
This is checked here place by place, once for the whole grammar:

* an optional or repeated part is told from what comes behind it by its first token;
* following the alternatives of a choice, there is never one that could end the rule in front of a
  token with which another one goes on, and never two that could end it;
* the rules that a rule can begin with have a lower **rank** than the rule itself, and the others
  have a rank that is not much higher, so that a budget in proportion to the tokens is enough.

`Rule.follow` bounds what comes behind a rule. A choice may have to look at any number of tokens,
but its alternatives pass through finitely many `states`, which are collected and checked one by
one.
-/

namespace EvScript

/-! ### All kinds and rules -/

/-- All kinds of token. -/
def Kind.all : List Kind :=
  Mark.all.map .mark ++ Keyword.all.map .keyword ++
    [.string, .comparator, .number, .scopedName, .name, .finish]

theorem Kind.mem_all (k : Kind) : k ∈ Kind.all := by
  cases k with
  | mark m => cases m <;> decide
  | keyword k => cases k <;> decide
  | _ => decide

instance Kind.decidableForall {p : Kind → Prop} [DecidablePred p] : Decidable (∀ k, p k) :=
  decidable_of_iff (∀ k ∈ Kind.all, p k) ⟨fun h k => h k k.mem_all, fun h k _ => h k⟩

theorem Rule.mem_all (r : Rule) : r ∈ Rule.all := by cases r <;> decide

instance Rule.decidableForall {p : Rule → Prop} [DecidablePred p] : Decidable (∀ r, p r) :=
  decidable_of_iff (∀ r ∈ Rule.all, p r) ⟨fun h r => h r r.mem_all, fun h r _ => h r⟩

/-! ### Places -/

/-- A place of a rule: an expression, what remains to be read in the rule behind it, and whether
reading can come to it without having read a token. -/
structure Place where
  expr : Expr
  rest : Remainder
  lead : Bool

mutual

/-- The places of an expression. -/
def Expr.places (rest : Remainder) (lead : Bool) : Expr → List Place
  | .tok kind => [⟨.tok kind, rest, lead⟩]
  | .oneOf kinds => [⟨.oneOf kinds, rest, lead⟩]
  | .call rule => [⟨.call rule, rest, lead⟩]
  | .seq parts => placesOfSeq rest lead parts
  | .choice alternatives =>
    ⟨.choice alternatives, rest, lead⟩ :: placesOfChoice rest lead alternatives
  | .opt body => ⟨.opt body, rest, lead⟩ :: body.places rest lead
  | .many body => ⟨.many body, rest, lead⟩ :: body.places (.many body :: rest) lead
  | .many1 body => ⟨.many1 body, rest, lead⟩ :: body.places (.many body :: rest) lead
  | .manyAhead body => ⟨.manyAhead body, rest, lead⟩ :: body.places (.manyAhead body :: rest) lead

/-- The places of a row of expressions. -/
def placesOfSeq (rest : Remainder) (lead : Bool) : List Expr → List Place
  | [] => []
  | e :: es => e.places (es ++ rest) lead ++ placesOfSeq rest (lead && e.nullable) es

/-- The places of all alternatives. -/
def placesOfChoice (rest : Remainder) (lead : Bool) : List Expr → List Place
  | [] => []
  | e :: es => e.places rest lead ++ placesOfChoice rest lead es

end

/-- The places of a rule. -/
def Rule.places (r : Rule) : List Place := r.body.places [] true

/-! ### Bounds -/

/-- Whether a token of kind `k` may stand behind what a rule describes. Where nothing in a rule
depends on it, every token may. -/
def Rule.follow : Rule → Kind → Bool
  | .program => fun k => !(Expr.call .entry).starts k
  | .paramList | .argList => ([.mark .closeParen].contains ·)
  | .param => ([.mark .comma, .mark .closeParen].contains ·)
  | .block | .caseBlock =>
    ([.mark .closeBrace, .keyword .caseKw, .keyword .defaultKw].contains ·)
  | .animationBody => ([.mark .closeBrace].contains ·)
  | .statement | .ifBlock | .unlessBlock => (· != .keyword .elseKw)
  | .returnStatement | .definition => ([.mark .semicolon].contains ·)
  | .condition => ([.mark .closeParen, .mark .semicolon].contains ·)
  | .leftOperand => ([.comparator].contains ·)
  | _ => fun _ => true

/-- The rank of a rule: how many rules a text of it can begin with, nested into each other. -/
def Rule.rank : Rule → Nat
  | .program | .block => 4
  | .entry | .statement | .condition | .paramList | .argList => 3
  | .functionDecl | .definition | .param | .paramStorage | .arg | .assignedValue | .animationBody
  | .leftOperand | .rightOperand => 2
  | _ => 1

/-- Whether a token of kind `k` can come next, where behind the remainder come tokens that
`follow` admits. -/
def Remainder.opens (follow : Kind → Bool) (c : Remainder) (k : Kind) : Bool :=
  c.starts k || (c.nullable && follow k)

/-- An expression is told from what comes behind it by its first token. -/
def Apart (follow : Kind → Bool) (e : Expr) (rest : Remainder) : Prop :=
  e.nullable = false ∧ ∀ k, e.starts k = true → Remainder.opens follow rest k = false

/-! ### States of a choice -/

mutual

/-- Whether two expressions are the same. -/
def Expr.same : Expr → Expr → Bool
  | .tok k, .tok k' => k == k'
  | .oneOf ks, .oneOf ks' => ks == ks'
  | .call r, .call r' => r == r'
  | .seq es, .seq es' => sameRow es es'
  | .choice es, .choice es' => sameRow es es'
  | .opt e, .opt e' | .many e, .many e' | .many1 e, .many1 e' | .manyAhead e, .manyAhead e' =>
    e.same e'
  | _, _ => false

/-- Whether two rows of expressions are the same. -/
def sameRow : List Expr → List Expr → Bool
  | [], [] => true
  | e :: es, e' :: es' => e.same e' && sameRow es es'
  | _, _ => false

end

mutual

theorem Expr.eq_of_same {e e' : Expr} (h : e.same e' = true) : e = e' := by
  cases e <;> cases e' <;> simp only [Expr.same, Bool.false_eq_true, beq_iff_eq] at h
  case seq.seq | choice.choice => rw [eq_of_sameRow h]
  case opt.opt | many.many | many1.many1 | manyAhead.manyAhead => rw [Expr.eq_of_same h]
  all_goals rw [h]

theorem eq_of_sameRow {es es' : List Expr} (h : sameRow es es' = true) : es = es' := by
  cases es <;> cases es' <;> simp only [sameRow, Bool.false_eq_true, Bool.and_eq_true] at h
  · rfl
  · rw [Expr.eq_of_same h.1, eq_of_sameRow h.2]

end

/-- Whether two states are the same. -/
def sameThreads : List Thread → List Thread → Bool
  | [], [] => true
  | t :: ts, t' :: ts' => t.alternative == t'.alternative && sameRow t.remainder t'.remainder &&
      sameThreads ts ts'
  | _, _ => false

theorem eq_of_sameThreads {ts ts' : List Thread} (h : sameThreads ts ts' = true) : ts = ts' := by
  induction ts generalizing ts' with
  | nil =>
    cases ts' with
    | nil => rfl
    | cons => cases h
  | cons t ts ih =>
    cases ts' with
    | nil => cases h
    | cons t' ts' =>
      simp only [sameThreads, Bool.and_eq_true, beq_iff_eq] at h
      obtain ⟨i, c⟩ := t
      obtain ⟨i', c'⟩ := t'
      rw [ih h.2, show i = i' from h.1.1, show c = c' from eq_of_sameRow h.1.2]

/-- The threads after a token of kind `k`. -/
def advance (k : Kind) (threads : List Thread) : List Thread := threads.flatMap (Thread.after k)

/-- All threads began with the same alternative. -/
def settled : List Thread → Bool
  | [] => true
  | t :: ts => ts.all (·.alternative == t.alternative)

/-- The threads at the start of a choice. -/
def startThreads (alternatives : List Expr) (rest : Remainder) : List Thread :=
  alternatives.mapIdx fun i e => ⟨i, e :: rest⟩

/-- The unsettled states that come next and are in none of the two lists. -/
def freshStates (seen : List (List Thread)) (threads : List Thread) : List (List Thread) :=
  Kind.all.foldl
    (fun fresh k =>
      let next := advance k threads
      if settled next || (seen ++ fresh).any (sameThreads next) then fresh else fresh ++ [next])
    []

/-- Collect the unsettled states that can be reached, taking up to `n` of those in `todo`
further. -/
def exploreStates : Nat → List (List Thread) → List (List Thread) → List (List Thread)
  | 0, seen, _ => seen
  | _, seen, [] => seen
  | n + 1, seen, threads :: todo =>
    let fresh := freshStates seen threads
    exploreStates n (seen ++ fresh) (todo ++ fresh)

/-- The states of a choice up to the token that settles it. -/
def states (alternatives : List Expr) (rest : Remainder) : List (List Thread) :=
  exploreStates 20 [startThreads alternatives rest] [startThreads alternatives rest]

/-- In a state of a choice: the end of the text leads nowhere, no token that may follow the rule
leads on while some thread could end the rule, and the threads that could end it agree. -/
def Unmistaken (follow : Kind → Bool) (threads : List Thread) : Prop :=
  (advance .finish threads).isEmpty = true ∧
  (∀ k, follow k = true → (advance k threads).isEmpty = true ∨
    threads.all (!·.remainder.nullable) = true) ∧
  settled (threads.filter (·.remainder.nullable)) = true

/-- A set of states in which nothing is mistaken and which no token leaves without settling the
choice. -/
def Sealed (follow : Kind → Bool) (S : List (List Thread)) : Prop :=
  ∀ s ∈ S, Unmistaken follow s ∧
    ∀ k, settled (advance k s) = true ∨ ∃ s' ∈ S, sameThreads s' (advance k s) = true

/-- A choice that looking ahead decides rightly. -/
def Decided (follow : Kind → Bool) (alternatives : List Expr) (rest : Remainder) : Prop :=
  alternatives.isEmpty = false ∧
  (∃ s ∈ states alternatives rest, sameThreads s (startThreads alternatives rest) = true) ∧
  Sealed follow (states alternatives rest)

/-! ### The check -/

/-- What is asked of a place of the rule `r`. -/
def Place.Lawful (r : Rule) : Place → Prop
  | ⟨.tok kind, _, _⟩ => kind ≠ .finish
  | ⟨.oneOf kinds, _, _⟩ => .finish ∉ kinds
  | ⟨.call r', rest, lead⟩ => r'.rank < (if lead then r.rank else r.rank + 4) ∧
      ∀ k, Remainder.opens r.follow rest k = true → r'.follow k = true
  | ⟨.seq _, _, _⟩ => True
  | ⟨.choice alternatives, rest, _⟩ => Decided r.follow alternatives rest
  | ⟨.opt body, rest, _⟩ | ⟨.many body, rest, _⟩ | ⟨.many1 body, rest, _⟩ =>
    Apart r.follow body rest
  | ⟨.manyAhead body, rest, _⟩ => body.nullable = false ∧
      Decided r.follow [.seq [body, .manyAhead body], .seq []] rest

instance {follow : Kind → Bool} {e : Expr} {rest : Remainder} : Decidable (Apart follow e rest) :=
  inferInstanceAs (Decidable (_ ∧ _))

instance {follow : Kind → Bool} {ts : List Thread} : Decidable (Unmistaken follow ts) :=
  inferInstanceAs (Decidable (_ ∧ _ ∧ _))

instance {follow : Kind → Bool} {S : List (List Thread)} : Decidable (Sealed follow S) :=
  inferInstanceAs (Decidable (∀ s ∈ S, _))

instance {follow : Kind → Bool} {alternatives : List Expr} {rest : Remainder} :
    Decidable (Decided follow alternatives rest) :=
  inferInstanceAs (Decidable (_ ∧ _ ∧ _))

instance (r : Rule) : (s : Place) → Decidable (s.Lawful r)
  | ⟨.tok _, _, _⟩ => inferInstanceAs (Decidable (_ ≠ _))
  | ⟨.oneOf _, _, _⟩ => inferInstanceAs (Decidable (_ ∉ _))
  | ⟨.call _, _, _⟩ => inferInstanceAs (Decidable (_ ∧ _))
  | ⟨.seq _, _, _⟩ => inferInstanceAs (Decidable True)
  | ⟨.choice _, _, _⟩ => inferInstanceAs (Decidable (Decided _ _ _))
  | ⟨.opt _, _, _⟩ | ⟨.many _, _, _⟩ | ⟨.many1 _, _, _⟩ => inferInstanceAs (Decidable (Apart _ _ _))
  | ⟨.manyAhead _, _, _⟩ => inferInstanceAs (Decidable (_ ∧ _))

/-- **Every place of the grammar is lawful.** -/
theorem lawful_of_mem_places : ∀ r : Rule, ∀ s ∈ r.places, s.Lawful r := by
  decide +kernel

end EvScript
