import EvScript.Grammar.Repair
import EvScript.Proofs.Syntax.Bare

/-!
# Repair and Places

Reading with repair looks at kinds of tokens only, and at how many there are. Every step of the
reader does on a state without places what it does on the state itself, so two scripts whose tokens
have the same kinds and texts are mended in the same way.
-/

namespace EvScript

/-- A failure without the place of its token. -/
def Failure.bare (f : Failure) : Failure := { f with token := f.token.bare }

namespace Repair

/-- The state of the reader without places. -/
def bare (s : Repair) : Repair :=
  { s with
    ahead := s.ahead.map Token.bare
    finish := s.finish.bare
    reports := s.reports.map Token.bare
    last := s.last.map Token.bare
    trees := s.trees.map Tree.bare }

variable {α β γ δ : Type} {f : α → β} {g : γ → δ}
variable {m : RepairM α} {m' : RepairM β}

/-- How a step ends, and the state it leaves. -/
def outcome (m : RepairM α) (s : Repair) : Except Failure α × Repair := m.run.run s

/-- The step `m'` does on states without places what `m` does on states. -/
def Fades (f : α → β) (m : RepairM α) (m' : RepairM β) : Prop :=
  ∀ s : Repair, outcome m' s.bare =
    (((outcome m s).1.mapError Failure.bare).map f, (outcome m s).2.bare)

/-! ### Putting steps together -/

theorem outcome_bind (m : RepairM α) (k : α → RepairM β) (s : Repair) :
    outcome (m >>= k) s = match outcome m s with
      | (.ok a, t) => outcome (k a) t
      | (.error e, t) => (.error e, t) := by
  unfold outcome
  rw [ExceptT.run_bind, StateT.run_bind]
  rcases StateT.run (ExceptT.run m) s with ⟨_ | a, t⟩ <;> rfl

theorem outcome_tryCatch (m : RepairM α) (k : Failure → RepairM α) (s : Repair) :
    outcome (tryCatch m k) s = match outcome m s with
      | (.ok a, t) => (.ok a, t)
      | (.error e, t) => outcome (k e) t := by
  unfold outcome
  rw [ExceptT.run_tryCatch, StateT.run_bind]
  rcases StateT.run (ExceptT.run m) s with ⟨_ | a, t⟩ <;> rfl

theorem Fades.pure (a : α) : Fades f (Pure.pure a) (Pure.pure (f a)) := fun _ => rfl

theorem Fades.throw (e : Failure) : Fades f (throw e : RepairM α) (throw e.bare) := fun _ => rfl

theorem Fades.bind {k : α → RepairM γ} {k' : β → RepairM δ}
    (hm : Fades f m m') (hk : ∀ a, Fades g (k a) (k' (f a))) : Fades g (m >>= k) (m' >>= k') := by
  intro s
  rw [outcome_bind, outcome_bind, hm s]
  rcases outcome m s with ⟨e | a, t⟩
  · rfl
  · exact hk a t

theorem Fades.get_bind {k : Repair → RepairM γ} {k' : Repair → RepairM δ}
    (hk : ∀ s, Fades g (k s) (k' s.bare)) : Fades g (get >>= k) (get >>= k') :=
  fun s => hk s s

theorem Fades.modify {h h' : Repair → Repair} (hh : ∀ s, h' s.bare = (h s).bare) :
    Fades id (modify h : RepairM Unit) (modify h' : RepairM Unit) := by
  intro s
  show (Except.ok (), h' s.bare) = _
  rw [hh]
  rfl

theorem Fades.tryCatch {k : Failure → RepairM α}
    {k' : Failure → RepairM β} (hm : Fades f m m') (hk : ∀ e, Fades f (k e) (k' e.bare)) :
    Fades f (tryCatch m k) (tryCatch m' k') := by
  intro s
  rw [outcome_tryCatch, outcome_tryCatch, hm s]
  rcases outcome m s with ⟨e | a, t⟩
  · exact hk e t
  · rfl

theorem Fades.ite {c : Prop} [Decidable c] {k : RepairM α} {k' : RepairM β}
    (hm : Fades f m m') (hk : Fades f k k') :
    Fades f (if c then m else k) (if c then m' else k') := by
  split
  · exact hm
  · exact hk

/-! ### Looking at tokens and taking them -/

theorem tokenAt_bare (s : Repair) (n : Nat) : s.bare.tokenAt n = (s.tokenAt n).bare := by
  simp only [tokenAt, bare, ← List.map_drop]
  cases s.ahead.drop n <;> rfl

theorem fades_look (n : Nat) : Fades Token.bare (look n) (look n) := by
  intro s
  show (Except.ok (s.bare.tokenAt n), _) = _
  rw [tokenAt_bare]
  rfl

theorem fades_current : Fades Token.bare current current := fades_look 0

theorem fades_push (t : Tree) : Fades id (push t) (push t.bare) := .modify fun _ => rfl

theorem fades_take : Fades id take take := by
  refine fades_current.bind fun t => .get_bind fun s => ?_
  refine Fades.bind (f := id) ?_ fun _ => .modify fun u => ?_
  · show Fades id (push (if s.recovering then .skipped t else .leaf t))
      (push (if s.recovering then .skipped t.bare else .leaf t.bare))
    split
    · exact fades_push _
    · exact fades_push _
  · obtain ⟨ahead, finish, taken, looked, recovering, failedAt, failures, reports, last, trees⟩ := u
    cases ahead <;> rfl

theorem fades_settle : Fades id settle settle := .modify fun _ => rfl

theorem fades_accept : Fades id accept accept := fades_settle.bind fun _ => fades_take

theorem fades_report (t : Token) : Fades id (report t) (report t.bare) := by
  refine .modify fun s => ?_
  show (if s.recovering then s.bare else _) = _
  split <;> rfl

theorem fades_skipUntil (accepts : Kind → Bool) (n : Nat) :
    Fades id (skipUntil accepts n) (skipUntil accepts n) := by
  induction n with
  | zero => exact .pure ()
  | succ n ih =>
    exact fades_current.bind fun t => .ite (.pure ()) (fades_take.bind fun _ => ih)

theorem fades_skip (accepts : Kind → Bool) : Fades id (skip accepts) (skip accepts) := by
  refine .get_bind fun s => ?_
  rw [show s.bare.ahead.length = s.ahead.length from List.length_map _]
  exact fades_skipUntil accepts _

/-! ### Mending -/

theorem fades_dropOne (accepts : Kind → Bool) : Fades id (dropOne accepts) (dropOne accepts) := by
  refine fades_current.bind fun t => (fades_look 1).bind fun u => .ite ?_ (.pure false)
  exact (fades_report t).bind fun _ => fades_take.bind fun _ => fades_settle.bind fun _ =>
    .pure true

theorem fades_token {placeholder : RepairM Unit} (site : Site) (rest : List Remainder)
    (accepts : Kind → Bool) (h : Fades id placeholder placeholder) :
    Fades id (token site rest accepts placeholder) (token site rest accepts placeholder) := by
  refine fades_current.bind fun t => .ite fades_accept ?_
  refine (fades_dropOne accepts).bind fun dropped => .ite fades_take (.ite ?_ (.throw ⟨site, t⟩))
  exact (fades_report t).bind fun _ => h

theorem fades_pushMissing (kind : Kind) : Fades id (pushMissing kind) (pushMissing kind) := by
  refine fades_current.bind fun t => .get_bind fun s => ?_
  have hat : (if t.bare.kind = .finish then s.bare.last.getD t.bare else t.bare) =
      (if t.kind = .finish then s.last.getD t else t).bare := by
    show (if t.kind = .finish then (s.last.map Token.bare).getD t.bare else t.bare) = _
    split
    · cases s.last <;> rfl
    · rfl
  dsimp only
  rw [hat]
  exact fades_push (.missing kind _)

theorem fades_checkEntry (site : Site) (rest : Remainder) :
    Fades id (checkEntry site rest) (checkEntry site rest) := by
  refine fades_current.bind fun t => .get_bind fun s => .ite (.pure ()) ?_
  exact (fades_dropOne _).bind fun dropped => .ite (.pure ()) (.throw ⟨site, t⟩)

theorem fades_checkTurn (rest : Remainder) (callers : List Remainder) :
    Fades id (checkTurn rest callers) (checkTurn rest callers) := by
  refine fades_current.bind fun t => .get_bind fun s => .ite (.pure ()) ?_
  exact (fades_report t).bind fun _ => fades_skip _

theorem predictFrom_map_bare (threads : List Thread) (looked : Nat) (ts : List Token) :
    predictFrom threads looked (ts.map Token.bare) = predictFrom threads looked ts := by
  induction ts generalizing threads looked with
  | nil => rfl
  | cons t ts ih =>
    rw [List.map_cons, predictFrom, predictFrom, show t.bare.kind = t.kind from rfl]
    split
    · rfl
    · split
      · rfl
      · exact ih _ _

theorem fades_choose (site : Site) (alternatives : List Expr) (rest : Remainder) :
    Fades id (choose site alternatives rest) (choose site alternatives rest) := by
  refine .get_bind fun s => ?_
  have hpredict : predict alternatives rest s.bare.ahead = predict alternatives rest s.ahead :=
    predictFrom_map_bare _ _ _
  dsimp only
  rw [hpredict]
  refine (fades_look _).bind fun t => ?_
  cases (predict alternatives rest s.ahead).alternative with
  | none => exact .throw ⟨site, t⟩
  | some i => exact .pure i

theorem fades_startsHere (e : Expr) : Fades id (startsHere e) (startsHere e) :=
  fades_current.bind fun t => .pure (e.starts t.kind)

theorem fades_recover (callers : List Remainder) (e : Failure) :
    Fades id (recover callers e) (recover callers e.bare) := by
  refine (fades_report e.token).bind fun _ => .get_bind fun s => ?_
  refine .ite (fades_take.bind fun _ => ?_) ?_
  all_goals exact Fades.bind (f := id) (.modify fun _ => rfl) fun _ => fades_skip _

end Repair

open Repair

/-! ### Expressions and rules -/

/-- What is shown of steps of the reader is true of all that is done besides calling rules, and of
sequences. -/
structure Mends (P : {α : Type} → RepairM α → Prop) : Prop where
  pure {α : Type} (a : α) : P (pure a)
  bind {α β : Type} {m : RepairM α} {k : α → RepairM β} : P m → (∀ a, P (k a)) → P (m >>= k)
  token {placeholder : RepairM Unit} (site : Site) (rest : List Remainder)
    (accepts : Kind → Bool) : P placeholder → P (token site rest accepts placeholder)
  pushMissing (kind : Kind) : P (pushMissing kind)
  checkEntry (site : Site) (rest : Remainder) : P (checkEntry site rest)
  checkTurn (rest : Remainder) (callers : List Remainder) : P (checkTurn rest callers)
  choose (site : Site) (alternatives : List Expr) (rest : Remainder) :
    P (choose site alternatives rest)
  startsHere (e : Expr) : P (startsHere e)

namespace Mends

variable {P : {α : Type} → RepairM α → Prop} {m : Mender}

theorem ite (h : Mends P) {c : Prop} [Decidable c] {body : RepairM Unit} (hbody : P body) :
    P (if c then body else Pure.pure ()) := by
  split
  · exact hbody
  · exact h.pure ()

theorem turns (h : Mends P) {goesOn : RepairM Bool} {body check : RepairM Unit} (hgoes : P goesOn)
    (hbody : P body) (hcheck : P check) (n : Nat) : P (turns goesOn body check n) := by
  induction n with
  | zero => exact h.pure ()
  | succ n ih => exact h.bind hgoes fun _ => h.ite (h.bind hbody fun _ => h.bind hcheck fun _ => ih)

mutual

/-- **What holds of the steps holds of reading an expression**, if it holds of reading rules. -/
theorem mend (h : Mends P) (hcall : ∀ r rest, P (m.call r rest)) :
    ∀ (site : Site) (rest : Remainder) (e : Expr), P (e.mend m site rest)
  | _, _, .tok kind => h.token _ _ _ (h.pushMissing kind)
  | _, _, .oneOf _ => h.token _ _ _ (h.pure ())
  | _, rest, .call rule => hcall rule rest
  | site, rest, .seq parts => mendSeq h hcall site rest 0 parts
  | site, rest, .choice alternatives =>
    h.bind (h.checkEntry _ _) fun _ => h.bind (h.choose _ _ _) fun i =>
      mendChoice h hcall site rest alternatives i
  | _, rest, .opt body =>
    h.bind (h.checkEntry _ _) fun _ => h.bind (h.startsHere body) fun _ =>
      h.ite (mend h hcall _ rest body)
  | _, _, .many body =>
    h.bind (h.checkEntry _ _) fun _ =>
      h.turns (h.startsHere body) (mend h hcall _ _ body) (h.checkTurn _ _) _
  | _, _, .many1 body =>
    h.bind (h.checkEntry _ _) fun _ => h.bind (mend h hcall _ _ body) fun _ =>
      h.bind (h.checkTurn _ _) fun _ =>
        h.turns (h.startsHere body) (mend h hcall _ _ body) (h.checkTurn _ _) _
  | _, _, .manyAhead body =>
    h.bind (h.checkEntry _ _) fun _ => h.bind (h.choose _ _ _) fun _ =>
      h.ite (h.bind (mend h hcall _ _ body) fun _ => h.bind (h.checkTurn _ _) fun _ =>
        h.turns (h.bind (h.choose _ _ _) fun _ => h.pure _) (mend h hcall _ _ body)
          (h.checkTurn _ _) _)

theorem mendSeq (h : Mends P) (hcall : ∀ r rest, P (m.call r rest)) :
    ∀ (site : Site) (rest : Remainder) (i : Nat) (es : List Expr), P (mendSeq m site rest i es)
  | _, _, _, [] => h.pure ()
  | site, rest, i, e :: es =>
    h.bind (mend h hcall _ _ e) fun _ => mendSeq h hcall site rest (i + 1) es

theorem mendChoice (h : Mends P) (hcall : ∀ r rest, P (m.call r rest)) :
    ∀ (site : Site) (rest : Remainder) (es : List Expr) (i : Nat), P (mendChoice m site rest es i)
  | _, _, [], _ => h.pure ()
  | _, rest, e :: _, 0 => mend h hcall _ rest e
  | site, rest, _ :: es, i + 1 => mendChoice h hcall site rest es i

end

end Mends

theorem mends_fades : Mends fun m => Fades id m m where
  pure a := .pure a
  bind hm hk := hm.bind hk
  token := fades_token
  pushMissing := fades_pushMissing
  checkEntry := fades_checkEntry
  checkTurn := fades_checkTurn
  choose := fades_choose
  startsHere := fades_startsHere

/-- **Reading a rule with repair does not depend on places.** -/
theorem Rule.fades_mend (n : Nat) (callers : List Remainder) (rule : Rule) :
    Fades id (rule.mend n callers) (rule.mend n callers) := by
  induction n generalizing callers rule with
  | zero => exact .pure ()
  | succ n ih =>
    refine fades_current.bind fun start => .get_bind fun s => ?_
    refine Fades.bind (f := id) (.modify fun _ => rfl) fun _ => ?_
    refine Fades.bind (f := id) ?_ fun _ => .modify fun t => ?_
    · exact .tryCatch (mends_fades.mend (fun r rest => ih _ r) _ _ _) (fades_recover callers)
    · have hnode : (Tree.node rule start.pos t.trees.reverse).bare =
          .node rule .start (t.trees.map Tree.bare).reverse := by
        rw [Tree.bare, Tree.bareAll_eq_map, List.map_reverse]
      simp only [Repair.bare, List.map_cons, hnode]
      rfl

/-! ### Scripts -/

/-- The state in which reading a script with repair begins. -/
def Script.mending (s : Script) : Repair :=
  { ahead := s.tokens, finish := s.finish, taken := 0, looked := 0, recovering := false
    failedAt := none, failures := [], reports := [], last := none, trees := [] }

theorem mendRule_tree (rule : Rule) (s : Script) : (mendRule rule s).tree =
      (outcome (rule.mend (4 * s.tokens.length + 40) []) s.mending).2.trees.headD
        (.node rule s.finish.pos []) := rfl

/-- The tree that comes out is, without places, what comes out without places. -/
theorem mendRule_tree_bare (rule : Rule) (s : Script) : (mendRule rule s).tree.bare =
      (outcome (rule.mend (4 * s.tokens.length + 40) []) s.mending.bare).2.trees.headD
        (.node rule .start []) := by
  rw [mendRule_tree, Rule.fades_mend _ _ _ s.mending]
  show _ = (List.map Tree.bare _).headD _
  cases (outcome (rule.mend (4 * s.tokens.length + 40) []) s.mending).2.trees <;> rfl

/-- **Scripts whose tokens have the same kinds and texts are mended in the same way.** -/
theorem mendRule_bare (rule : Rule) {s s' : Script}
    (htokens : s'.tokens.map Token.bare = s.tokens.map Token.bare)
    (hfinish : s'.finish.bare = s.finish.bare) :
    (mendRule rule s').tree.bare = (mendRule rule s).tree.bare := by
  have hstart : s'.mending.bare = s.mending.bare := by
    simp only [Script.mending, Repair.bare, htokens, hfinish]
  have hlength : s'.tokens.length = s.tokens.length := by
    rw [← List.length_map Token.bare, htokens, List.length_map]
  rw [mendRule_tree_bare, mendRule_tree_bare, hstart, hlength]

end EvScript
