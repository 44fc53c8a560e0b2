import EvScript.Proofs.Grammar.Mending
import EvScript.Proofs.Grammar.Programs

/-!
# The Shapes of Trees

The body of a rule bounds how many nodes of which rules can be among the children of a node. This is
also true of trees that were read with repair: a rule that fails leaves fewer children than its body
asks for, and what is passed over or made up is a token. So the meaning of a tree can be reasoned
about in the same way however the tree was read.
-/

namespace EvScript

variable {n : Nat} {goesOn : RepairM Bool} {body check : RepairM Unit}

/-- The rule of a node. -/
def Tree.rule? : Tree → Option Rule
  | .node rule _ _ => some rule
  | _ => none

/-- How many of the trees are nodes of certain rules. -/
def nodesOf (p : Rule → Bool) (ts : List Tree) : Nat := ts.countP fun t => t.rule?.any p

mutual

/-- How many nodes of certain rules an expression can leave. One turn of a repetition stands for
two. -/
def Expr.most (p : Rule → Bool) : Expr → Nat
  | .tok _ | .oneOf _ => 0
  | .call rule => if p rule then 1 else 0
  | .seq parts => mostOfSeq p parts
  | .choice alternatives => mostOfChoice p alternatives
  | .opt body => body.most p
  | .many body | .many1 body | .manyAhead body => 2 * body.most p

/-- How many nodes of certain rules a row of expressions can leave. -/
def mostOfSeq (p : Rule → Bool) : List Expr → Nat
  | [] => 0
  | e :: es => e.most p + mostOfSeq p es

/-- How many nodes of certain rules one of several expressions can leave. -/
def mostOfChoice (p : Rule → Bool) : List Expr → Nat
  | [] => 0
  | e :: es => max (e.most p) (mostOfChoice p es)

end

mutual

/-- The children of every node keep to the bound of its rule, as far as none, one and several are
concerned. -/
def Tree.Fits : Tree → Prop
  | .node rule _ children => (∀ p, min 2 (nodesOf p children) ≤ rule.body.most p) ∧ FitAll children
  | _ => True

/-- All of the trees fit. -/
def FitAll : List Tree → Prop
  | [] => True
  | t :: ts => t.Fits ∧ FitAll ts

end

theorem fitAll_iff {ts : List Tree} : FitAll ts ↔ ∀ t ∈ ts, t.Fits := by
  induction ts with
  | nil => simp [FitAll]
  | cons t ts ih => simp [FitAll, ih]

/-! ### Trees within a bound -/

/-- The trees fit, and their number keeps to a bound. -/
structure Within (bound : (Rule → Bool) → Nat) (ts : List Tree) : Prop where
  atMost : ∀ p, min 2 (nodesOf p ts) ≤ bound p
  fit : ∀ t ∈ ts, t.Fits

variable {b b' : (Rule → Bool) → Nat} {ts us : List Tree} {t : Tree}

theorem Tree.fits_node_iff {rule : Rule} {pos : Pos} {children : List Tree} :
    (Tree.node rule pos children).Fits ↔ Within (fun p => rule.body.most p) children := by
  rw [Tree.Fits, fitAll_iff]
  exact ⟨fun h => ⟨h.1, h.2⟩, fun h => ⟨h.1, h.2⟩⟩

theorem nodesOf_append (p : Rule → Bool) (ts us : List Tree) :
    nodesOf p (ts ++ us) = nodesOf p ts + nodesOf p us :=
  List.countP_append

namespace Within

theorem nil : Within b [] := ⟨fun _ => Nat.zero_le _, by simp⟩

/-- A tree that is no node. -/
theorem single_leaf (h : t.rule? = none) : Within b [t] := by
  refine ⟨fun p => by simp [nodesOf, h], fun u hu => ?_⟩
  obtain rfl := List.mem_singleton.mp hu
  cases u with
  | node => cases h
  | _ => trivial

theorem single_node {rule : Rule} {pos : Pos} (h : Within (fun p => rule.body.most p) ts) :
    Within (fun p => if p rule then 1 else 0) [.node rule pos ts] := by
  refine ⟨fun p => ?_, by simpa using Tree.fits_node_iff.mpr h⟩
  by_cases hp : p rule = true <;> simp [nodesOf, Tree.rule?, hp]

theorem append (h : Within b ts) (h' : Within b' us) : Within (fun p => b p + b' p) (ts ++ us) := by
  refine ⟨fun p => ?_, fun t ht => (List.mem_append.mp ht).elim (h.fit t) (h'.fit t)⟩
  have hts := h.atMost p
  have hus := h'.atMost p
  rw [nodesOf_append]
  omega

theorem mono (h : Within b ts) (hle : ∀ p, b p ≤ b' p) : Within b' ts :=
  ⟨fun p => Nat.le_trans (h.atMost p) (hle p), h.fit⟩

theorem twice (h : Within (fun p => n * b p) ts) : Within (fun p => 2 * b p) ts := by
  refine ⟨fun p => ?_, h.fit⟩
  have hts := h.atMost p
  -- without nodes in one turn there are none at all, otherwise two stand for several
  rcases Nat.eq_zero_or_pos (b p) with hzero | hpos
  · simpa [hzero] using hts
  · omega

theorem reverse (h : Within b ts) : Within b ts.reverse := by
  refine ⟨fun p => ?_, fun t ht => h.fit t (List.mem_reverse.mp ht)⟩
  rw [nodesOf, List.countP_reverse]
  exact h.atMost p

end Within

/-! ### The trees of the grammar -/

theorem mostOfSeq_replicate (p : Rule → Bool) (n : Nat) (e : Expr) :
    mostOfSeq p (List.replicate n e) = n * e.most p := by
  induction n with
  | zero => simp [mostOfSeq]
  | succ n ih => rw [List.replicate_succ, mostOfSeq, ih, Nat.succ_mul, Nat.add_comm]

theorem most_le_mostOfChoice (p : Rule → Bool) {e : Expr} {es : List Expr} (h : e ∈ es) :
    e.most p ≤ mostOfChoice p es := by
  induction es with
  | nil => cases h
  | cons d es ih =>
    rw [mostOfChoice]
    rcases List.mem_cons.mp h with rfl | h
    · exact Nat.le_max_left _ _
    · exact Nat.le_trans (ih h) (Nat.le_max_right _ _)

theorem Within.of_replicate {e : Expr} (h : Within (fun p => mostOfSeq p (List.replicate n e)) ts) :
    Within (fun p => 2 * e.most p) ts := by
  simp only [mostOfSeq_replicate] at h
  exact h.twice

variable {finish : Token}

mutual

/-- **What the grammar describes keeps to its bounds.** -/
theorem Derives.within : ∀ {e : Expr} {us vs : List Token} {ts : List Tree},
    Derives finish e us ts vs → Within (fun p => e.most p) ts
  | _, _, _, _, .tok => .single_leaf rfl
  | _, _, _, _, .oneOf _ => .single_leaf rfl
  | _, _, _, _, .call h => by simpa only [Expr.most] using .single_node h.within
  | _, _, _, _, .seq h => by simpa only [Expr.most] using h.within
  | _, _, _, _, .choice he h => by
    simpa only [Expr.most] using h.within.mono fun p => most_le_mostOfChoice p he
  | _, _, _, _, .optNone => .nil
  | _, _, _, _, .optSome h => by simpa only [Expr.most] using h.within
  | _, _, _, _, .many h | _, _, _, _, .many1 h | _, _, _, _, .manyAhead h =>
    by simpa only [Expr.most] using h.within.of_replicate

theorem DerivesAll.within : ∀ {es : List Expr} {us vs : List Token} {ts : List Tree},
    DerivesAll finish es us ts vs → Within (fun p => mostOfSeq p es) ts
  | _, _, _, _, .nil => .nil
  | _, _, _, _, .cons h hs => by simpa only [mostOfSeq] using h.within.append hs.within

end

theorem fits_of_readProgram {s : Script} (hfinish : s.finish.kind = .finish) {tree : Tree}
    {next : Token} (h : readProgram s = .ok ⟨tree, next⟩) :
    tree.rule? = some .program ∧ tree.Fits := by
  obtain ⟨us, hprogram, -⟩ := (readProgram_ok_iff hfinish).mp h
  refine ⟨?_, hprogram.derives.within.fit tree (List.mem_singleton_self tree)⟩
  cases hprogram.derives
  rfl

/-! ### Trees that are read with repair -/

namespace Repair

variable {α β : Type} {m : RepairM α}
variable {k : α → RepairM β}

/-- However the step ends, the trees it has put in front of the others are within a bound. -/
def Puts (bound : (Rule → Bool) → Nat) (m : RepairM α) : Prop :=
  ∀ s, ∃ new, (outcome m s).2.trees = new ++ s.trees ∧ Within bound new

/-- The step puts no nodes in front of the other trees. -/
abbrev Plain (m : RepairM α) : Prop := Puts (fun _ => 0) m

namespace Puts

theorem pure (a : α) : Puts b (Pure.pure a : RepairM α) := fun _ => ⟨[], rfl, .nil⟩

theorem throw (e : Failure) : Puts b (throw e : RepairM α) := fun _ => ⟨[], rfl, .nil⟩

theorem mono (h : Puts b m) (hle : ∀ p, b p ≤ b' p) : Puts b' m := by
  intro s
  obtain ⟨new, hnew, hwithin⟩ := h s
  exact ⟨new, hnew, hwithin.mono hle⟩

theorem twice (h : Puts (fun p => n * b p) m) : Puts (fun p => 2 * b p) m := by
  intro s
  obtain ⟨new, hnew, hwithin⟩ := h s
  exact ⟨new, hnew, hwithin.twice⟩

theorem bind (hm : Puts b m) (hk : ∀ a, Puts b' (k a)) : Puts (fun p => b p + b' p) (m >>= k) := by
  intro s
  obtain ⟨new, hnew, hwithin⟩ := hm s
  rw [outcome_bind]
  generalize outcome m s = r at hnew
  obtain ⟨e | a, t⟩ := r
  · -- a step that fails leaves what it has put so far, which is less than was allowed
    exact ⟨new, hnew, hwithin.mono fun p => Nat.le_add_right _ _⟩
  · obtain ⟨more, hmore, hwithin'⟩ := hk a t
    refine ⟨more ++ new, ?_, ?_⟩
    · rw [List.append_assoc, ← hnew]
      exact hmore
    · exact (hwithin'.append hwithin).mono fun p => Nat.le_of_eq (Nat.add_comm _ _)

theorem get_bind {k : Repair → RepairM α} (hk : ∀ s, Puts b (k s)) : Puts b (get >>= k) :=
  fun s => hk s s

theorem modify {f : Repair → Repair} (hf : ∀ s, (f s).trees = s.trees) :
    Puts b (modify f : RepairM Unit) :=
  fun s => ⟨[], hf s, .nil⟩

theorem ite {c : Prop} [Decidable c] {m k : RepairM α} (hm : Puts b m) (hk : Puts b k) :
    Puts b (if c then m else k) := by
  split
  · exact hm
  · exact hk

end Puts

namespace Plain

theorem bind (hm : Plain m) (hk : ∀ a, Puts b (k a)) : Puts b (m >>= k) :=
  (Puts.bind hm hk).mono fun _ => Nat.le_of_eq (Nat.zero_add _)

end Plain

/-- What is shown of steps of the reader is true of the single steps that do not fail, and of
sequences. -/
structure Moves (P : {α : Type} → RepairM α → Prop) : Prop where
  pure {α : Type} (a : α) : P (pure a)
  bind {α β : Type} {m : RepairM α} {k : α → RepairM β} : P m → (∀ a, P (k a)) → P (m >>= k)
  get_bind {α : Type} {k : Repair → RepairM α} : (∀ s, P (k s)) → P (get >>= k)
  look (n : Nat) : P (look n)
  take : P take
  settle : P settle
  report (t : Token) : P (report t)
  note (site : Site) : P (modify fun s : Repair =>
    { s with failedAt := some s.taken, failures := site :: s.failures })

/-- Such a thing is also true of failing, and of placeholders. -/
structure MovesOrFails (P : {α : Type} → RepairM α → Prop) : Prop extends Moves P where
  throw {α : Type} (e : Failure) : P (throw e : RepairM α)
  pushMissing (kind : Kind) : P (pushMissing kind)

theorem of_ite {P : RepairM α → Prop} {c : Prop} [Decidable c] {k : RepairM α} (hm : P m)
    (hk : P k) : P (if c then m else k) := by
  split
  · exact hm
  · exact hk

namespace Moves

variable {P : {α : Type} → RepairM α → Prop}

theorem skip (h : Moves P) (accepts : Kind → Bool) : P (skip accepts) := by
  refine h.get_bind fun s => ?_
  induction s.ahead.length with
  | zero => exact h.pure ()
  | succ n ih => exact h.bind (h.look 0) fun _ => of_ite (h.pure ()) (h.bind h.take fun _ => ih)

theorem dropOne (h : Moves P) (accepts : Kind → Bool) : P (dropOne accepts) :=
  h.bind (h.look 0) fun t => h.bind (h.look 1) fun _ => of_ite
    (h.bind (h.report t) fun _ => h.bind h.take fun _ => h.bind h.settle fun _ => h.pure _)
    (h.pure _)

theorem recover (h : Moves P) (callers : List Remainder) (f : Failure) : P (recover callers f) := by
  refine h.bind (h.report f.token) fun _ => h.get_bind fun s => ?_
  refine of_ite (h.bind h.take fun _ => ?_) ?_
  all_goals exact h.bind (h.note f.site) fun _ => h.skip _

end Moves

theorem MovesOrFails.mends {P : {α : Type} → RepairM α → Prop} (h : MovesOrFails P) : Mends P where
  pure := h.pure
  bind := h.bind
  token _ _ accepts hmissing := h.bind (h.look 0) fun t => of_ite (h.bind h.settle fun _ => h.take)
    (h.bind (h.dropOne accepts) fun _ => of_ite h.take
      (of_ite (h.bind (h.report t) fun _ => hmissing) (h.throw _)))
  pushMissing := h.pushMissing
  checkEntry _ _ := h.bind (h.look 0) fun _ => h.get_bind fun _ => of_ite (h.pure ())
    (h.bind (h.dropOne _) fun _ => of_ite (h.pure ()) (h.throw _))
  checkTurn _ _ := h.bind (h.look 0) fun t => h.get_bind fun _ => of_ite (h.pure ())
    (h.bind (h.report t) fun _ => h.skip _)
  choose _ _ _ := by
    refine h.get_bind fun s => h.bind (h.look _) fun t => ?_
    split
    · exact h.pure _
    · exact h.throw _
  startsHere _ := h.bind (h.look 0) fun _ => h.pure _

theorem plain_look (n : Nat) : Plain (look n) := fun _ => ⟨[], rfl, .nil⟩

theorem plain_push (h : t.rule? = none) : Plain (push t) :=
  fun _ => ⟨[t], rfl, .single_leaf h⟩

theorem plain_take : Plain take := by
  refine (plain_look 0).bind fun t => .get_bind fun s => ?_
  refine Plain.bind (plain_push ?_) fun _ => .modify fun u => ?_
  · split <;> rfl
  · split <;> rfl

theorem plain_report (t : Token) : Plain (report t) := by
  refine .modify fun s => ?_
  split <;> rfl

theorem movesOrFails_plain : MovesOrFails Plain where
  pure := .pure
  bind hm hk := Plain.bind hm hk
  get_bind hk := .get_bind hk
  look := plain_look
  take := plain_take
  settle := .modify fun _ => rfl
  report := plain_report
  note _ := .modify fun _ => rfl
  throw := .throw
  pushMissing _ := (plain_look 0).bind fun _ => .get_bind fun _ => plain_push rfl

theorem mends_plain : Mends Plain := movesOrFails_plain.mends

theorem puts_turns (hgoes : Plain goesOn) (hbody : Puts b body) (hcheck : Plain check) (n : Nat) :
    Puts (fun p => n * b p) (turns goesOn body check n) := by
  induction n with
  | zero => exact .pure ()
  | succ n ih =>
    refine hgoes.bind fun _ => .ite ?_ (.pure ())
    refine (hbody.bind fun _ => hcheck.bind fun _ => ih).mono fun p => Nat.le_of_eq ?_
    rw [Nat.succ_mul, Nat.add_comm]

theorem puts_first_and_turns
    (hgoes : Plain goesOn) (hbody : Puts b body) (hcheck : Plain check) (n : Nat) :
    Puts (fun p => 2 * b p) (do body; check; turns goesOn body check n) := by
  have hturns := puts_turns hgoes hbody hcheck n
  have hall : Puts (fun p => (n + 1) * b p) (do body; check; turns goesOn body check n) :=
    (hbody.bind fun _ => hcheck.bind fun _ => hturns).mono fun p => Nat.le_of_eq (by
      rw [Nat.succ_mul, Nat.add_comm])
  exact hall.twice

/-! ### Steps that do not fail -/

/-- The step does not fail. -/
def Goes (m : RepairM α) : Prop := ∀ s, ∃ a t, outcome m s = (.ok a, t)

namespace Goes

theorem pure (a : α) : Goes (Pure.pure a : RepairM α) := fun s => ⟨a, s, rfl⟩

theorem bind (hm : Goes m) (hk : ∀ a, Goes (k a)) : Goes (m >>= k) := by
  intro s
  obtain ⟨a, t, h⟩ := hm s
  rw [outcome_bind, h]
  exact hk a t

theorem get_bind {k : Repair → RepairM α} (hk : ∀ s, Goes (k s)) : Goes (get >>= k) :=
  fun s => hk s s

theorem modify (f : Repair → Repair) : Goes (modify f : RepairM Unit) := fun s => ⟨(), f s, rfl⟩

end Goes

theorem moves_goes : Moves Goes where
  pure := .pure
  bind := .bind
  get_bind := .get_bind
  look n s := ⟨s.tokenAt n, _, rfl⟩
  take := Goes.bind (fun s => ⟨s.tokenAt 0, _, rfl⟩) fun _ => .get_bind fun _ =>
    Goes.bind (.modify _) fun _ => .modify _
  settle := .modify _
  report _ := .modify _
  note _ := .modify _

theorem outcome_tryCatch_of_goes {k : Failure → RepairM α} (hm : Puts b m) (hk : ∀ e, Plain (k e))
    (hgoes : ∀ e, Goes (k e)) (s : Repair) :
    ∃ a t new, outcome (tryCatch m k) s = (.ok a, t) ∧ t.trees = new ++ s.trees ∧ Within b new := by
  obtain ⟨new, hnew, hwithin⟩ := hm s
  rw [outcome_tryCatch]
  generalize outcome m s = r at hnew
  obtain ⟨e | a, t⟩ := r
  · obtain ⟨a, u, hu⟩ := hgoes e t
    obtain ⟨more, hmore, hwithin'⟩ := hk e t
    rw [hu] at hmore
    refine ⟨a, u, more ++ new, hu, ?_, (hwithin'.append hwithin).mono fun p => by simp⟩
    rw [List.append_assoc, ← hnew]
    exact hmore
  · exact ⟨a, t, new, rfl, hnew, hwithin⟩

end Repair

open Repair

variable {m : Mender}

mutual

/-- **Reading an expression with repair keeps to its bounds**, if reading rules does. -/
theorem Expr.puts_mend (hcall : ∀ r rest, Puts (fun p => if p r then 1 else 0) (m.call r rest)) :
    ∀ (site : Site) (rest : Remainder) (e : Expr), Puts (fun p => e.most p) (e.mend m site rest)
  | _, _, .tok kind => by
    simp only [Expr.most]
    exact mends_plain.token _ _ _ (mends_plain.pushMissing kind)
  | _, _, .oneOf _ => by
    simp only [Expr.most]
    exact mends_plain.token _ _ _ (.pure ())
  | _, rest, .call rule => by
    simp only [Expr.most]
    exact hcall rule rest
  | site, rest, .seq parts => by
    simp only [Expr.most]
    exact puts_mendSeq hcall site rest 0 parts
  | site, rest, .choice alternatives => by
    simp only [Expr.most]
    exact (mends_plain.checkEntry _ _).bind fun _ => (mends_plain.choose _ _ _).bind fun i =>
      puts_mendChoice hcall site rest alternatives i
  | _, rest, .opt body => by
    simp only [Expr.most]
    exact (mends_plain.checkEntry _ _).bind fun _ => (mends_plain.startsHere body).bind fun _ =>
      .ite (Expr.puts_mend hcall _ rest body) (.pure ())
  | _, _, .many body => by
    simp only [Expr.most]
    exact (mends_plain.checkEntry _ _).bind fun _ => (puts_turns (mends_plain.startsHere body)
      (Expr.puts_mend hcall _ _ body) (mends_plain.checkTurn _ _) _).twice
  | _, _, .many1 body => by
    simp only [Expr.most]
    exact (mends_plain.checkEntry _ _).bind fun _ =>
      puts_first_and_turns (mends_plain.startsHere body)
      (Expr.puts_mend hcall _ _ body) (mends_plain.checkTurn _ _) _
  | _, _, .manyAhead body => by
    simp only [Expr.most]
    exact (mends_plain.checkEntry _ _).bind fun _ => (mends_plain.choose _ _ _).bind fun _ =>
      .ite (puts_first_and_turns ((mends_plain.choose _ _ _).bind fun _ => .pure _)
        (Expr.puts_mend hcall _ _ body) (mends_plain.checkTurn _ _) _) (.pure ())

theorem puts_mendSeq (hcall : ∀ r rest, Puts (fun p => if p r then 1 else 0) (m.call r rest)) :
    ∀ (site : Site) (rest : Remainder) (i : Nat) (es : List Expr),
      Puts (fun p => mostOfSeq p es) (mendSeq m site rest i es)
  | _, _, _, [] => .pure ()
  | site, rest, i, e :: es => by
    simp only [mostOfSeq]
    exact (Expr.puts_mend hcall _ _ e).bind fun _ => puts_mendSeq hcall site rest (i + 1) es

theorem puts_mendChoice (hcall : ∀ r rest, Puts (fun p => if p r then 1 else 0) (m.call r rest)) :
    ∀ (site : Site) (rest : Remainder) (es : List Expr) (i : Nat),
      Puts (fun p => mostOfChoice p es) (mendChoice m site rest es i)
  | _, _, [], _ => .pure ()
  | _, rest, e :: _, 0 => (Expr.puts_mend hcall _ rest e).mono fun p => by
    rw [mostOfChoice]
    exact Nat.le_max_left _ _
  | site, rest, _ :: es, i + 1 => (puts_mendChoice hcall site rest es i).mono fun p => by
    rw [mostOfChoice]
    exact Nat.le_max_right _ _

end

/-- Reading a rule with repair puts a node for it, with what its body leaves. -/
theorem Rule.trees_mend_succ (callers : List Remainder) (rule : Rule)
    (hcall : ∀ callers (r : Rule), Puts (fun p => if p r then 1 else 0) (r.mend n callers))
    (s : Repair) :
    ∃ pos children, (outcome (rule.mend (n + 1) callers) s).2.trees =
      .node rule pos children :: s.trees ∧ Within (fun p => rule.body.most p) children := by
  obtain ⟨start, t, hcurrent⟩ : ∃ a t, outcome current s = (.ok a, t) := moves_goes.look 0 s
  have ht : t.trees = s.trees := (congrArg (fun r => r.2.trees) hcurrent).symm
  -- the trees of the rule are collected apart from those outside
  obtain ⟨_, u, new, hbody, hnew, hwithin⟩ := outcome_tryCatch_of_goes
    (Expr.puts_mend (m := ⟨callers, n, fun r rest => r.mend n (rest :: callers)⟩)
      (fun r rest => hcall _ r) ⟨rule, []⟩ [] rule.body)
    (movesOrFails_plain.recover callers) (moves_goes.recover callers) { t with trees := [] }
  refine ⟨start.pos, new.reverse, ?_, hwithin.reverse⟩
  rw [Rule.mend, outcome_bind, hcurrent]
  show (outcome (tryCatch (rule.body.mend ⟨callers, n, fun r rest => r.mend n (rest :: callers)⟩
    ⟨rule, []⟩ []) (recover callers) >>= _) { t with trees := [] }).2.trees = _
  rw [outcome_bind, hbody]
  show Tree.node rule start.pos u.trees.reverse :: t.trees = _
  rw [hnew, List.append_nil, ht]

/-- **Reading a rule with repair keeps to bounds.** -/
theorem Rule.puts_mend (n : Nat) (callers : List Remainder) (rule : Rule) :
    Puts (fun p => if p rule then 1 else 0) (rule.mend n callers) := by
  -- the induction is on how deep rules may still call each other
  induction n generalizing callers rule with
  | zero => exact .pure ()
  | succ n ih =>
    intro s
    obtain ⟨pos, children, htrees, hwithin⟩ := rule.trees_mend_succ callers ih s
    exact ⟨[.node rule pos children], htrees, .single_node hwithin⟩

/-- **A script that is read with repair as a rule** gives a node for it, which fits. -/
theorem fits_mendRule (rule : Rule) (s : Script) :
    (mendRule rule s).tree.rule? = some rule ∧ (mendRule rule s).tree.Fits := by
  obtain ⟨pos, children, htrees, hwithin⟩ :=
    rule.trees_mend_succ [] (Rule.puts_mend (4 * s.tokens.length + 39)) s.mending
  rw [mendRule_tree, htrees]
  exact ⟨rfl, Tree.fits_node_iff.mpr hwithin⟩

end EvScript
