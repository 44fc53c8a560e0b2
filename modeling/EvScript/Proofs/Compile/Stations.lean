import EvScript.Proofs.Compile.Constants
import EvScript.Proofs.Compile.Runs
import EvScript.Proofs.Scope.Blocks

/-!
# The Way through the Scopes

The **stations** of a run are the states in which it comes to an entry, to a block, to a statement,
to the end of entries or statements, and to its own end. Between two stations at most one thing is
done to the scopes. At every station the scopes are in order and the place in them is rooted; a file
that is imported works behind the scopes that were there, and what was entered is left again.
-/

namespace EvScript

open CompileM ScopeGraph

variable {α γ : Type} {path : String} {mode : ReadMode}
variable {view : CompileState → γ}

/-! ### Steps that leave the scopes alone -/

theorem keeps_compileStatement_assign [OverlooksCode view]
    (pos : Pos) (l : LabelId) (a : Assignment) :
    Keeps view (compileStatement pos l (.assign a)) := by
  rw [compileStatement]
  exact (keeps_compileAssignment a).bind fun _ => (keeps_onCode _).bind fun _ => .pure _

theorem keeps_compileStatement_call [OverlooksCode view]
    (pos : Pos) (l : LabelId) (c : Call) : Keeps view (compileStatement pos l (.call c)) := by
  rw [compileStatement]
  refine (keeps_resolveCall c).bind fun ⟨callee, args⟩ => ?_
  cases callee with
  | function f => exact (keeps_warn _ _).bind fun _ => .pure _
  | command d =>
    exact (keeps_compileCommandCall _ _ _ _ _).bind fun _ => (keeps_onCode _).bind fun _ =>
      .pure _

theorem keeps_openBranch [OverlooksCode view] (l : LabelId) (condition : Option Condition) :
    Keeps view (openBranch l condition) :=
  (keeps_onCode _).bind fun _ => (keeps_onCode _).bind fun _ => (keeps_need _ _).bind fun _ =>
    (keeps_compileCondition _ _).bind fun _ => (keeps_onCode _).bind fun _ => .pure _

theorem keeps_openSelect [OverlooksCode view] (l : LabelId)
    (subject : Option Condition) (pos : Pos) :
    Keeps view (openSelect l subject pos) :=
  (keeps_compileSubject _ _).bind fun _ => (keeps_onCode _).bind fun _ => keeps_onCode _

theorem keeps_openCase [OverlooksCode view] (l : LabelId)
    (number : Option Numeral) (name : Option String) :
    Keeps view (openCase l number name) := by
  unfold openCase
  refine (keeps_lift _ _).bind fun _ => (keeps_onCode _).bind fun _ =>
    (keeps_caseWord _ _).bind fun word => ?_
  split
  · exact .pure _
  · exact (keeps_target _).bind fun _ => (keeps_onCode _).bind fun _ => .pure _

/-! ### Scopes in order -/

namespace CompileState

variable {s t u : CompileState}

/-- The scopes are in order, and the place in them is rooted. -/
structure Scoped (s : CompileState) : Prop where
  ordered : s.graph.Ordered
  rooted : s.file.cursor.Rooted s.graph

/-- From `s` the scopes have got to where they are in `t`: they are in order, and those in front of
the file's global scope are as they were. -/
structure Proceeds (s t : CompileState) : Prop where
  inOrder : t.Scoped
  top : t.file.cursor.top = s.file.cursor.top
  size_le : s.graph.size ≤ t.graph.size
  same : ∀ y < s.file.cursor.top, t.graph.scope y = s.graph.scope y

theorem Proceeds.refl (h : s.Scoped) : s.Proceeds s := ⟨h, rfl, Nat.le_refl _, fun _ _ => rfl⟩

theorem Proceeds.trans (h : s.Proceeds t) (h' : t.Proceeds u) : s.Proceeds u where
  inOrder := h'.inOrder
  top := h'.top.trans h.top
  size_le := Nat.le_trans h.size_le h'.size_le
  same y hy := by rw [h'.same y (h.top ▸ hy), h.same y hy]

theorem Scoped.of_sameScopes (h : s.Scoped) (hsame : SameScopes s t) : t.Scoped := by
  obtain ⟨hgraph, hcursor⟩ := hsame
  refine ⟨hgraph ▸ h.ordered, ?_⟩
  rw [hcursor, hgraph]
  exact h.rooted

theorem Proceeds.of_sameScopes (h : s.Scoped) (hsame : SameScopes s t) : s.Proceeds t where
  inOrder := h.of_sameScopes hsame
  top := by rw [hsame.2]
  size_le := by rw [hsame.1]
  same _ _ := by rw [hsame.1]

/-- The global scope is the first of its file. -/
theorem Scoped.top_le_here (h : s.Scoped) : s.file.cursor.top ≤ s.file.cursor.here := by
  have hle : ∀ (ys : List ScopeId) (x : ScopeId), s.graph.Trail s.file.cursor.top x ys →
      s.file.cursor.top ≤ x := by
    intro ys
    induction ys with
    | nil => exact fun x hx => Nat.le_of_eq (Eq.symm hx)
    | cons y ys ih =>
      intro x hx
      exact Nat.le_trans (ih y hx.2) (Nat.le_of_lt (h.ordered.parent hx.1))
  exact hle _ _ h.rooted.trail

theorem Scoped.proceeds_modify (h : s.Scoped) {id : ScopeId} {f : Scope → Scope}
    (hid : s.file.cursor.top ≤ id) (hname : ∀ x, (f x).name = x.name)
    (hparent : ∀ x, (f x).parent = x.parent) (hchildren : ∀ x, (f x).children = x.children) :
    s.Proceeds { s with graph := s.graph.modify id f } := by
  refine ⟨⟨h.ordered.modify hparent hchildren, h.rooted.modify hname hparent⟩, rfl,
    Nat.le_of_eq size_modify.symm, fun y hy => ?_⟩
  exact scope_modify_of_ne (Nat.ne_of_lt (Nat.lt_of_lt_of_le hy hid))

end CompileState

/-! ### Steps through states -/

namespace CompileM

variable {α β : Type} {s : CompileState} {us : List CompileState}
variable {m : CompileM α} {f : β → CompileM α} {later : β → CompileState → List CompileState}
  {mid : β → CompileState → Prop}

/-- Begun with scopes in order, the step goes through the states with scopes in order, and leaves
them so however it ends; if it goes on, `post` holds. -/
def Along (m : CompileM α) (s : CompileState) (us : List CompileState)
    (post : α → CompileState → Prop) : Prop :=
  s.Scoped → (∀ u ∈ us, u.Scoped) ∧ s.Proceeds (ending m s).2 ∧
    ∀ a t, Yields m s a t → post a t

variable {post : α → CompileState → Prop}

theorem Along.of_scoped (h : s.Scoped → Along m s us post) : Along m s us post :=
  fun hs => h hs hs

theorem Along.get_bind {k : CompileState → CompileM α} (h : Along (k s) s us post) :
    Along (get >>= k) s us post := h

theorem Along.pure {a : α} (h : post a s) : Along (Pure.pure a) s [] post := by
  intro hs
  refine ⟨List.forall_mem_nil _, .refl hs, fun b t hy => ?_⟩
  obtain ⟨rfl, rfl⟩ := hy.pure
  exact h

theorem Along.here (h : Along m s us post) : Along m s (s :: us) post := by
  intro hs
  obtain ⟨hus, hrest⟩ := h hs
  exact ⟨List.forall_mem_cons.mpr ⟨hs, hus⟩, hrest⟩

theorem Along.scoped {a : α} {t : CompileState} (h : Along m s us post)
    (hs : s.Scoped) (hy : Yields m s a t) : t.Scoped := by
  obtain ⟨-, hproceeds, -⟩ := h hs
  have hscoped := hproceeds.inOrder
  rwa [hy.ends] at hscoped

theorem Along.mono {post' : α → CompileState → Prop} (h : Along m s us post)
    (hpost : ∀ a t, post a t → post' a t) : Along m s us post' := by
  intro hs
  obtain ⟨hus, hproceeds, hyields⟩ := h hs
  exact ⟨hus, hproceeds, fun a t hy => hpost a t (hyields a t hy)⟩

/-- A sequence goes through the states of its first part and, if that goes on, through those of
the second. -/
theorem Along.bind {m : CompileM β} (hm : Along m s us mid)
    (hf : ∀ b u, mid b u → Along (f b) u (later b u) post) :
    Along (m >>= f) s (us ++ onward m s later) post := by
  intro hs
  obtain ⟨hus, hproceeds, hmid⟩ := hm hs
  unfold onward
  cases hend : ending m s with
  | mk r u =>
    rw [hend] at hproceeds
    cases r with
    | error e =>
      refine ⟨by simpa using hus, ?_, fun a t hy => ?_⟩
      · rw [ending_bind, hend]
        exact hproceeds
      · rw [Yields, ending_bind, hend] at hy
        cases hy
    | ok b =>
      obtain ⟨hlater, hproceeds', hpost⟩ := hf b u (hmid b u hend) hproceeds.inOrder
      refine ⟨List.forall_mem_append.mpr ⟨hus, hlater⟩, ?_, fun a t hy => hpost a t ?_⟩
      · rw [ending_bind, hend]
        exact hproceeds.trans hproceeds'
      · rwa [Yields, ending_bind, hend] at hy

theorem Along.after {m : CompileM β} (hm : Along m s [] mid)
    (hf : ∀ b u, mid b u → Along (f b) u (later b u) post) :
    Along (m >>= f) s (onward m s later) post :=
  hm.bind hf

theorem Along.before {m : CompileM β}
    (hm : Along m s us mid) (hf : ∀ b u, mid b u → Along (f b) u [] post) :
    Along (m >>= f) s us post := by
  have h := hm.bind hf
  have hnone : onward m s (fun _ _ => ([] : List CompileState)) = [] := by
    unfold onward
    split <;> rfl
  rwa [hnone, List.append_nil] at h

theorem Along.forget (h : Along m s us post) : Along m s [] post := by
  intro hs
  obtain ⟨-, hrest⟩ := h hs
  exact ⟨List.forall_mem_nil _, hrest⟩

theorem Keeps.along_of (h : Keeps scopes m)
    (hpost : ∀ a t, Yields m s a t → post a t) : Along m s [] post := by
  intro hs
  exact ⟨List.forall_mem_nil _, .of_sameScopes hs (Prod.ext_iff.mp (h s)), hpost⟩

theorem Keeps.along (h : Keeps scopes m) (s : CompileState) :
    Along m s [] fun _ t => SameScopes s t :=
  h.along_of fun _ _ hy => h.sameScopes hy

theorem along_need {ι : Type} (what : Absent) (o : Option ι) :
    Along (need what o) s [] fun _ t => t = s :=
  (keeps_need what o).along_of fun _ _ h => h.need.2.symm

/-- Changing declarations. -/
theorem Along.onGraph {f : Cursor → ScopeGraph → ScopeGraph} {post : Unit → CompileState → Prop}
    (h : s.Scoped → s.Proceeds { s with graph := f s.file.cursor s.graph })
    (hpost : s.Scoped → post () { s with graph := f s.file.cursor s.graph }) :
    Along (onGraph f) s [] post := by
  intro hs
  refine ⟨List.forall_mem_nil _, h hs, fun _ t hy => ?_⟩
  rw [← hy.onGraph]
  exact hpost hs

/-- Entering a new scope that has no children yet. -/
theorem along_enterScope {scope : Scope} (hscope : scope.children = []) :
    Along (enterScope scope) s [] fun _ t =>
      t.file.cursor = (s.file.cursor.enterNew s.graph scope).1 ∧
      t.graph = (s.file.cursor.enterNew s.graph scope).2 := by
  intro hs
  have hlt := hs.rooted.here_lt
  refine ⟨List.forall_mem_nil _, ⟨⟨?_, hs.rooted.enterNew⟩, rfl, ?_, ?_⟩, ?_⟩
  · exact hs.ordered.enterNew hlt hscope
  · show s.graph.size ≤ (s.file.cursor.enterNew s.graph scope).2.size
    rw [size_enterNew]
    exact Nat.le_succ _
  · intro y hy
    show (s.file.cursor.enterNew s.graph scope).2.scope y = s.graph.scope y
    rw [scope_enterNew hlt, if_neg (Nat.ne_of_lt (Nat.lt_trans hy hs.rooted.top_lt)),
      if_neg (Nat.ne_of_lt (Nat.lt_of_lt_of_le hy hs.top_le_here))]
  · intro _ t hy
    rw [← hy.modify]
    exact ⟨rfl, rfl⟩

/-- Leaving a scope that was entered. -/
theorem along_leaveScope {y : ScopeId} {ys : List ScopeId}
    (hc : s.file.cursor.enclosing = y :: ys) :
    Along leaveScope s [] fun _ t =>
      t.file.cursor = ⟨s.file.cursor.top, y, ys⟩ ∧ t.graph = s.graph := by
  intro hs
  obtain ⟨hleave, hrooted⟩ := hs.rooted.leave hc
  have hend : ending leaveScope s =
      (.ok (), { s with file := { s.file with cursor := ⟨s.file.cursor.top, y, ys⟩ } }) := by
    show ending (get >>= _) s = _
    rw [Yields.ending_bind (yields_get.mpr ⟨rfl, rfl⟩), hleave]
    rfl
  refine ⟨List.forall_mem_nil _, ?_, fun _ t hy => ?_⟩
  · rw [hend]
    exact ⟨⟨hs.ordered, hrooted⟩, rfl, Nat.le_refl _, fun _ _ => rfl⟩
  · rw [Yields, hend] at hy
    cases hy
    exact ⟨rfl, rfl⟩

end CompileM

/-! ### Statements -/

mutual

/-- The stations of a block under a label. -/
def blockStations (scope : Scope) (l : LabelId) : Block → CompileState → List CompileState
  | .absent, s => s :: onward (enterScope scope) s fun _ t => [t]
  | .of pos statements, s =>
    s :: onward (enterScope scope) s fun _ t => statementsStations pos l statements t

/-- The stations of statements that begin under a label. -/
def statementsStations (pos : Pos) (l : LabelId) :
    List Statement → CompileState → List CompileState
  | [], s => [s]
  | x :: xs, s => s :: statementStations l x s ++
    onward (compileStatement pos l x) s fun last t => statementsStations pos last xs t

/-- The stations of the blocks in a statement. -/
def statementStations (l : LabelId) : Statement → CompileState → List CompileState
  | .branch condition body elseIfs otherwise, s =>
    onward (openBranch l condition) s fun arms t => insideStations arms.1 body t ++
      onward (compileInside arms.1 arms.2 body) t fun _ u =>
        onward (compileElseIfs l elseIfs) u fun _ v => elseStations l otherwise v
  | .select subject cases switchPos, s =>
    onward (openSelect l subject switchPos) s fun after t => casesStations l after cases t
  | .define _, _ | .assign _, _ | .call _, _ | .inert _, _ => []

/-- The stations of the inside of a branch. -/
def insideStations (l : LabelId) : Block → CompileState → List CompileState
  | .absent, _ => []
  | .of pos statements, s =>
    s :: onward (enterScope {}) s fun _ t => statementsStations pos l statements t

/-- The stations of an `else`. -/
def elseStations (l : LabelId) : Option Block → CompileState → List CompileState
  | none, _ => []
  | some body, s => blockStations {} l body s

/-- The stations of the cases of a switch. -/
def casesStations (l after : LabelId) : List Case → CompileState → List CompileState
  | [], _ => []
  | c :: cs, s => caseStations l c s ++
    onward (compileCase l after c) s fun _ t => casesStations l after cs t

/-- The stations of a case. -/
def caseStations (l : LabelId) : Case → CompileState → List CompileState
  | .default body, s => blockStations {} l body s
  | .labelled number name body, s =>
    onward (openCase l number name) s fun arm t =>
      arm.toList.flatMap fun inside => insideStations inside body t

end

/-- From `s` to `t` the current scope got variables and children, and the place is the same. -/
structure Widens (s t : CompileState) : Prop where
  cursor : t.file.cursor = s.file.cursor
  grows : s.graph.Grows s.file.cursor.here t.graph

/-- From `s` to `t` the current scope got one block as a child, and the place is the same. -/
structure LeavesBlock (s t : CompileState) : Prop where
  cursor : t.file.cursor = s.file.cursor
  gains : s.graph.GainsBlock s.file.cursor.here t.graph

variable {s t u : CompileState} {l after : LabelId}

theorem Widens.of_sameScopes (h : SameScopes s t) : Widens s t := by
  refine ⟨h.2, ?_⟩
  rw [h.1]
  exact .refl _ _

theorem Widens.trans (hs : s.Scoped) (h : Widens s t) (h' : Widens t u) : Widens s u := by
  refine ⟨h'.cursor.trans h.cursor, h.grows.trans hs.rooted.here_lt ?_⟩
  have hgrows := h'.grows
  rwa [h.cursor] at hgrows

theorem LeavesBlock.widens (h : LeavesBlock s t) : Widens s t := ⟨h.cursor, h.gains.grows⟩

/-- **A block around a step** that leaves the place as it is: its scope is entered and left. -/
theorem along_block {scope : Scope} {m : CompileM α} {us : CompileState → List CompileState}
    (hname : scope.name = none) (hchildren : scope.children = [])
    (hm : ∀ t, Along m t (us t) fun _ u => Widens t u) :
    Along (do enterScope scope; let a ← m; leaveScope; return a) s
      (s :: onward (enterScope scope) s fun _ t => us t) fun _ t => LeavesBlock s t := by
  refine Along.here (Along.of_scoped fun hs => .after (along_enterScope hchildren) ?_)
  rintro _ t ⟨hcursor, hgraph⟩
  refine (hm t).before fun a u hu => ?_
  -- the place to go back to is the one the block was entered from
  have hback : u.file.cursor = ⟨s.file.cursor.top, s.graph.size,
      s.file.cursor.here :: s.file.cursor.enclosing⟩ := hu.cursor.trans hcursor
  refine (along_leaveScope (congrArg Cursor.enclosing hback)).before ?_
  rintro _ v ⟨hv, hvgraph⟩
  refine .pure ⟨hv.trans (by rw [hback]), ?_⟩
  have hgrows := hu.grows
  rw [hgraph, hcursor] at hgrows
  rw [hvgraph]
  exact hgrows.gainsBlock hs.rooted.here_lt hname

/-- Steps that leave the scopes alone, behind one that has widened them. -/
theorem CompileM.Keeps.along_widens {m : CompileM α} (hm : Keeps scopes m)
    (h : Widens s t) : Along m t [] fun _ u => Widens s u :=
  (hm.along t).mono fun _ _ hsame => ⟨hsame.2.trans h.cursor, by rw [hsame.1]; exact h.grows⟩

theorem along_define (level : Level) (d : Definition) :
    Along (define level d) s [] fun _ t => Widens s t := by
  refine ((keeps_compileDefinition level true d).along s).before fun ⟨v, instrs⟩ t hsame => ?_
  have hadd : Along (onGraph fun c g => c.addVariable g v) t [] fun _ u => Widens s u := by
    refine .onGraph (fun ht => ?_) fun ht => ?_
    · exact ht.proceeds_modify ht.top_le_here (fun _ => rfl) (fun _ => rfl) fun _ => rfl
    · refine ⟨hsame.2, ?_⟩
      rw [← hsame.1, ← hsame.2]
      exact .addVariable ht.rooted.here_lt v
  exact hadd.before fun _ _ h => .pure h

mutual

/-- **A block goes through its stations** and leaves one child behind. -/
theorem along_compileBlock {scope : Scope} (hname : scope.name = none)
    (hchildren : scope.children = []) :
    ∀ (b : Block) (s : CompileState) (l : LabelId),
    Along (compileBlock scope l b) s (blockStations scope l b s) fun _ t => LeavesBlock s t
  | .absent, s, l => by
    rw [compileBlock, blockStations]
    refine Along.here (.after (along_enterScope hchildren) fun _ t _ => Along.here ?_)
    exact (Keeps.throw _).along_of fun _ _ h => h.throw.elim
  | .of pos statements, s, l => by
    rw [compileBlock, blockStations]
    exact along_block hname hchildren fun t => along_compileStatements pos statements t l

theorem along_compileStatements (pos : Pos) :
    ∀ (xs : List Statement) (s : CompileState) (l : LabelId),
    Along (compileStatements pos l xs) s (statementsStations pos l xs s) fun _ t => Widens s t
  | [], s, l => by
    rw [compileStatements, statementsStations]
    exact Along.here (.pure (.of_sameScopes (.refl s)))
  | x :: xs, s, l => by
    rw [compileStatements, statementsStations, List.cons_append]
    refine Along.here (Along.of_scoped fun hs => (along_compileStatement pos x s l).bind ?_)
    intro last t ht
    exact (along_compileStatements pos xs t last).mono fun _ _ hu => ht.trans hs hu

theorem along_compileStatement (pos : Pos) : ∀ (x : Statement) (s : CompileState) (l : LabelId),
    Along (compileStatement pos l x) s (statementStations l x s) fun _ t => Widens s t
  | .define d, s, l => by
    rw [compileStatement, statementStations]
    exact (along_define .body d).before fun _ _ h =>
      ((keeps_onCode _).bind fun _ => .pure _).along_widens h
  | .assign a, s, l => by
    rw [statementStations]
    exact (keeps_compileStatement_assign pos l a).along_widens (.of_sameScopes (.refl s))
  | .call c, s, l => by
    rw [statementStations]
    exact (keeps_compileStatement_call pos l c).along_widens (.of_sameScopes (.refl s))
  | .branch condition body elseIfs otherwise, s, l => by
    rw [compileStatement_branch, statementStations]
    refine .of_scoped fun hs => .after ((keeps_openBranch l condition).along s) ?_
    intro arms t ht
    have hst := Widens.of_sameScopes ht
    refine (along_compileInside body t arms.1 arms.2).bind fun _ u hu => ?_
    have hsu := hst.trans hs hu
    refine .after ((keeps_compileElseIfs l elseIfs).along_widens hsu) fun _ v hv => ?_
    refine (along_compileElse otherwise v l arms.2).before fun _ w hw => ?_
    exact .pure (hv.trans hs hw)
  | .select subject cases switchPos, s, l => by
    rw [compileStatement_select, statementStations]
    refine .of_scoped fun hs => .after ((keeps_openSelect l subject switchPos).along s) ?_
    intro after t ht
    refine (along_compileCases cases t l after).before fun _ u hu => .pure ?_
    exact (Widens.of_sameScopes ht).trans hs hu
  | .inert rule, s, l => by
    rw [compileStatement, statementStations]
    exact .pure (.of_sameScopes (.refl s))

theorem along_compileInside : ∀ (b : Block) (s : CompileState) (l after : LabelId),
    Along (compileInside l after b) s (insideStations l b s) fun _ t => Widens s t
  | .absent, s, l, after => by
    rw [compileInside, insideStations]
    exact .pure (.of_sameScopes (.refl s))
  | .of pos statements, s, l, after => by
    rw [compileInside_of, compileExit, compileBlock, insideStations]
    refine (along_block rfl rfl fun t => along_compileStatements pos statements t l).before ?_
    exact fun _ _ h => (keeps_onCode _).along_widens h.widens

theorem along_compileElse : ∀ (b : Option Block) (s : CompileState) (l after : LabelId),
    Along (compileElse l after b) s (elseStations l b s) fun _ t => Widens s t
  | none, s, l, after => by
    rw [compileElse, elseStations]
    exact .pure (.of_sameScopes (.refl s))
  | some body, s, l, after => by
    rw [compileElse, elseStations]
    exact (along_compileBlock rfl rfl body s l).before fun _ _ h =>
      (keeps_onCode _).along_widens h.widens

theorem along_compileCases : ∀ (cs : List Case) (s : CompileState) (l after : LabelId),
    Along (compileCases l after cs) s (casesStations l after cs s) fun _ t => Widens s t
  | [], s, l, after => by
    rw [compileCases, casesStations]
    exact .pure (.of_sameScopes (.refl s))
  | c :: cs, s, l, after => by
    rw [compileCases, casesStations]
    refine .of_scoped fun hs => (along_compileCase c s l after).bind fun _ t ht => ?_
    exact (along_compileCases cs t l after).mono fun _ _ hu => ht.trans hs hu

theorem along_compileCase : ∀ (c : Case) (s : CompileState) (l after : LabelId),
    Along (compileCase l after c) s (caseStations l c s) fun _ t => Widens s t
  | .default body, s, l, after => by
    rw [compileCase, caseStations]
    exact (along_compileBlock rfl rfl body s l).before fun _ _ h =>
      (keeps_onCode _).along_widens h.widens
  | .labelled number name body, s, l, after => by
    rw [compileCase_labelled, caseStations]
    refine .of_scoped fun hs => .after ((keeps_openCase l number name).along s) ?_
    intro arm t ht
    cases arm with
    | none => exact .pure (.of_sameScopes ht)
    | some inside =>
      rw [compileArm, Option.toList_some, List.flatMap_singleton]
      exact (along_compileInside body t inside after).mono fun _ _ hu =>
        (Widens.of_sameScopes ht).trans hs hu

end

/-! ### Entries -/

/-- The stations of an import: the state in which the scopes of the other file are there. -/
def importStations (fs : Files) (importer : Importer) (name : Option String) (pos : Pos)
    (s : CompileState) : List CompileState :=
  onward (importByName fs importer name pos) s fun _ t => [t]

mutual

/-- The stations inside an entry. -/
def entryStations (fs : Files) (importer : Importer) :
    Entry → CompileState → List CompileState
  | .function f, s =>
    onward (beginFunction f) s fun head t => blockStations head.1 head.2 f.body t
  | .space name entries, s =>
    onward (need .word name >>= fun name => enterScope { name := some name }) s fun _ t =>
      entriesStations fs importer entries t
  | .importAll name pos, s => importStations fs importer name pos s
  | .importFrom name _ pos, s => importStations fs importer name pos s
  | .define _, _ | .command _, _ | .inert _, _ => []

/-- The stations of the entries of a program. -/
def entriesStations (fs : Files) (importer : Importer) :
    List Entry → CompileState → List CompileState
  | [], s => [s]
  | e :: es, s => s :: entryStations fs importer e s ++
    onward (compileEntry fs importer e) s fun _ t => entriesStations fs importer es t

end

/-- From `s` to `t` another file was gone through, with its global scope behind all that was there;
`other` is the place in it. The file under way was not touched. -/
structure Imported (s : CompileState) (other : Cursor) (t : CompileState) : Prop where
  file : t.file = s.file
  top : other.top = s.graph.size
  size_lt : s.graph.size < t.graph.size
  same : ∀ y < s.graph.size, t.graph.scope y = s.graph.scope y

/-- Imports work behind the scopes that are there. -/
def ImportsBehind (importer : Importer) : Prop :=
  ∀ path s, Along (importer path) s [] fun other t => Imported s other t

variable {fs : Files} {importer : Importer}

/-- Beginning a function declares it; its parameters are in a scope without a name. -/
theorem along_beginFunction (f : FunctionDecl) (s : CompileState) :
    Along (beginFunction f) s [] fun head t => t.file.cursor = s.file.cursor ∧
      head.1.name = none ∧ head.1.children = [] := by
  unfold beginFunction
  cases f.name with
  | none => exact (keeps_stop _ _).along_of fun _ _ h => h.stop.elim
  | some name =>
    refine ((keeps_lift _ _).along s).before fun parameters t ht => ?_
    refine ((keeps_lift _ _).along t).before fun result u hu => ?_
    refine ((keeps_onCode _).along u).before fun label v hv => .get_bind ?_
    have hdeclare : ∀ function, Along (onGraph fun c g => c.addFunction g function) v []
        fun _ w => w.file.cursor = s.file.cursor := fun function =>
      .onGraph (fun h => h.proceeds_modify h.top_le_here (fun _ => rfl) (fun _ => rfl)
        fun _ => rfl) fun _ => ((ht.trans hu).trans hv).2
    refine (hdeclare _).before fun _ w hw => ?_
    have hlocals : Keeps scopes (modify fun s : CompileState =>
        { s with file := { s.file with locals := [] } }) := .modify fun _ => rfl
    exact (hlocals.along w).before fun _ x hx => .pure ⟨hx.2.trans hw, rfl, rfl⟩

/-- Declaring a command. -/
theorem along_declareCommand (d : CommandDecl) (s : CompileState) :
    Along (declareCommand d) s [] fun _ t => t.file.cursor = s.file.cursor := by
  unfold declareCommand
  split
  · exact (keeps_stop _ _).along_of fun _ _ h => h.stop.elim
  · refine ((keeps_lift _ _).along s).before fun number t ht => ?_
    refine ((keeps_lift _ _).along t).before fun result u hu => .get_bind ?_
    have hparams : Keeps scopes (modify fun s : CompileState =>
        { s with unseen := s.unseen.push (d.params.getD []) }) := .modify fun _ => rfl
    refine (hparams.along u).before fun _ v hv => ?_
    exact .onGraph (fun h => h.proceeds_modify h.top_le_here (fun _ => rfl) (fun _ => rfl)
      fun _ => rfl) fun _ => ((ht.trans hu).trans hv).2

theorem along_importByName (hk : ImportsBehind importer) (name : Option String) (pos : Pos)
    (s : CompileState) :
    Along (importByName fs importer name pos) s [] fun r t => Imported s r.2 t := by
  refine (along_need .word name).before ?_
  rintro name _ rfl
  refine .get_bind ?_
  split
  · exact (keeps_stop _ _).along_of fun _ _ h => h.stop.elim
  · exact (hk _ _).before fun _ _ h => .pure h

namespace Imported

variable {other : Cursor}

theorem top_lt (h : Imported s other t) (hs : s.Scoped) : t.file.cursor.top < other.top := by
  rw [h.top, h.file]
  exact hs.rooted.top_lt

/-- Putting the other file's global scope into the one of the file under way. -/
theorem proceeds_mount (h : Imported s other t) (hs : s.Scoped) (ht : t.Scoped) (name : String) :
    t.Proceeds { t with graph := t.file.cursor.mount t.graph other name } := by
  have hlt := h.top_lt hs
  have ho : other.top < t.graph.size := h.top ▸ h.size_lt
  have hscope := scope_mount (Nat.lt_trans hlt ho) ho (Nat.ne_of_lt hlt) name
  -- the place is rooted in what was there before the import, and that has not changed
  have hkept : ∀ {β : Type} (field : Scope → β),
      (∀ x ids, field { x with children := ids } = field x) → ∀ z < s.graph.size,
      field ((t.file.cursor.mount t.graph other name).scope z) = field (s.graph.scope z) := by
    intro β field hfield z hz
    have hzo : z ≠ other.top := h.top ▸ Nat.ne_of_lt hz
    rw [hscope]
    split
    · rename_i hzt
      rw [hfield, ← hzt, h.same z hz]
    · rw [h.same z hz]
  refine ⟨⟨ht.ordered.mount hlt ho name, ?_⟩, rfl, Nat.le_of_eq size_mount.symm, fun y hy => ?_⟩
  · show t.file.cursor.Rooted (t.file.cursor.mount t.graph other name)
    have hrooted : t.file.cursor.Rooted s.graph := h.file ▸ hs.rooted
    refine hrooted.of_parents ?_ (hkept Scope.parent fun _ _ => rfl)
      (hkept Scope.name (fun _ _ => rfl) _ hrooted.top_lt)
    rw [size_mount]
    exact Nat.le_of_lt h.size_lt
  · show (t.file.cursor.mount t.graph other name).scope y = t.graph.scope y
    rw [hscope, if_neg (Nat.ne_of_lt hy), if_neg (Nat.ne_of_lt (Nat.lt_trans hy hlt))]

/-- Copying the other file's declarations into the global scope of the file under way. -/
theorem proceeds_takeAll (h : Imported s other t) (hs : s.Scoped) (ht : t.Scoped) :
    t.Proceeds { t with graph := t.file.cursor.takeAll t.graph other } := by
  have hrooted : t.file.cursor.Rooted (t.file.cursor.takeAll t.graph other) :=
    ht.rooted.modify (fun _ => rfl) fun _ => rfl
  exact ⟨⟨ht.ordered.takeAll (h.top_lt hs), hrooted⟩, rfl, Nat.le_of_eq size_takeAll.symm,
    fun y hy => scope_modify_of_ne (Nat.ne_of_lt hy)⟩

end Imported

mutual

/-- **An entry goes through its stations** and comes back to its place. -/
theorem along_compileEntry (hk : ImportsBehind importer) :
    ∀ (e : Entry) (s : CompileState), Along (compileEntry fs importer e) s
      (entryStations fs importer e s) fun _ t => t.file.cursor = s.file.cursor
  | .define d, s => by
    rw [compileEntry, entryStations]
    exact (along_define .top d).before fun _ _ h => .pure h.cursor
  | .command d, s => by
    rw [compileEntry, entryStations]
    exact along_declareCommand d s
  | .function f, s => by
    rw [compileEntry, entryStations, compileFunction_eq]
    refine .after (along_beginFunction f s) fun head t ⟨hcursor, hname, hchildren⟩ => ?_
    exact (along_compileBlock hname hchildren f.body t head.2).before fun _ _ h =>
      .pure (h.cursor.trans hcursor)
  | .importAll name pos, s => by
    rw [compileEntry, entryStations]
    refine .of_scoped fun hs => .after (along_importByName hk name pos s) ?_
    rintro ⟨name, other⟩ t h
    exact Along.here (.onGraph (fun ht => h.proceeds_mount hs ht name) fun _ => by rw [h.file])
  | .importFrom name everything pos, s => by
    rw [compileEntry, entryStations]
    refine .of_scoped fun hs => .after (along_importByName hk name pos s) ?_
    rintro ⟨name, other⟩ t h
    refine Along.here ?_
    dsimp only
    split
    · exact (keeps_stop _ _).along_of fun _ _ h => h.stop.elim
    · exact .onGraph (fun ht => h.proceeds_takeAll hs ht) fun _ => by rw [h.file]
    · exact (Keeps.throw _).along_of fun _ _ h => h.throw.elim
  | .space name entries, s => by
    rw [compileEntry, entryStations]
    have hopen : Along (need .word name >>= fun name => enterScope { name := some name }) s []
        fun _ t => t.file.cursor = ⟨s.file.cursor.top, s.graph.size,
          s.file.cursor.here :: s.file.cursor.enclosing⟩ := by
      refine (along_need .word name).before ?_
      rintro name _ rfl
      exact (along_enterScope rfl).mono fun _ _ h => h.1
    have hall := Along.after hopen fun _ t ht =>
      (along_compileEntries hk entries t).before fun _ u hu =>
        (along_leaveScope (congrArg Cursor.enclosing (hu.trans ht))).mono
          fun _ v hv => (hv.1.trans (by rw [hu, ht]) : v.file.cursor = s.file.cursor)
    simpa only [bind_assoc] using hall
  | .inert rule, s => by
    rw [compileEntry, entryStations]
    exact .pure rfl

theorem along_compileEntries (hk : ImportsBehind importer) :
    ∀ (es : List Entry) (s : CompileState), Along (compileEntries fs importer es) s
      (entriesStations fs importer es s) fun _ t => t.file.cursor = s.file.cursor
  | [], s => by
    rw [compileEntries, entriesStations]
    exact Along.here (.pure rfl)
  | e :: es, s => by
    rw [compileEntries, entriesStations, List.cons_append]
    refine Along.here ((along_compileEntry hk e s).bind fun _ t ht => ?_)
    exact (along_compileEntries hk es t).mono fun _ _ hu => hu.trans ht

end

/-! ### Files -/

/-- The scopes are in order, and the place is the global scope. -/
structure CompileState.AtTop (s : CompileState) : Prop extends s.Scoped where
  here : s.file.cursor.here = s.file.cursor.top
  enclosing : s.file.cursor.enclosing = []

/-- A fresh file begins at its global scope. -/
theorem CompileState.Scoped.fresh (h : s.Scoped) (path : String) : (s.fresh path).AtTop :=
  ⟨⟨h.ordered.start, .start s.graph⟩, rfl, rfl⟩

/-- **A file that is imported works behind the scopes that are there.** -/
theorem along_inFile {step : CompileM Unit}
    (h : Along step (s.fresh path) [] fun _ t => t.file.cursor = (s.fresh path).file.cursor) :
    Along (inFile path step) s [] fun other t => Imported s other t := by
  intro hs
  obtain ⟨-, hproceeds, hpost⟩ := h (hs.fresh path).toScoped
  have hsame : ∀ y < s.graph.size,
      (ending step (s.fresh path)).2.graph.scope y = s.graph.scope y := fun y hy => by
    rw [hproceeds.same y hy]
    exact (scope_start y).trans (if_neg (Nat.ne_of_lt hy))
  have hlt : s.graph.size < (ending step (s.fresh path)).2.graph.size :=
    Nat.lt_of_lt_of_le (by rw [CompileState.fresh, size_start]; exact Nat.lt_succ_self _)
      hproceeds.size_le
  have hend := state_inFile path step s
  refine ⟨List.forall_mem_nil _, ?_, fun other t hy => ?_⟩
  · rw [hend]
    refine ⟨⟨hproceeds.inOrder.ordered, ?_⟩, rfl, Nat.le_of_lt hlt, fun y hy =>
      hsame y (Nat.lt_trans hy hs.rooted.top_lt)⟩
    refine hs.rooted.of_parents (Nat.le_of_lt hlt) (fun z hz => ?_) ?_
    · rw [hsame z hz]
    · rw [hsame _ hs.rooted.top_lt]
  · obtain ⟨u, hu, rfl, rfl⟩ := yields_inFile.mp hy
    rw [hu.ends] at hsame hlt
    exact ⟨rfl, by rw [hpost () u hu]; rfl, hlt, hsame⟩

/-- A file goes through the stations of its program and comes back to its place. -/
theorem along_compileFile {n : Nat}
    (hk : ImportsBehind (fileImporter fs mode n)) (path : String) (s : CompileState) :
    Along (compileFile fs mode (n + 1) path) s
      (onward (loadProgram fs mode path) s fun tree t =>
        entriesStations fs (fileImporter fs mode n) tree.entries t)
      fun _ t => t.file.cursor = s.file.cursor := by
  rw [compileFile_succ]
  refine .after ((keeps_loadProgram fs mode path).along s) fun tree t ht => ?_
  exact (along_compileEntries hk tree.entries t).mono fun _ _ hu => hu.trans ht.2

theorem importsBehind_of_file {n : Nat}
    (h : ∀ path s, Along (compileFile fs mode n path) s [] fun _ t =>
      t.file.cursor = s.file.cursor) : ImportsBehind (fileImporter fs mode n) := by
  intro path s
  have hprint : Along (printLine (announcement path)) s [] fun _ t =>
      t.graph = s.graph ∧ t.file = s.file := by
    refine (keeps_printLine _).along_of fun _ t hy => ?_
    rw [← hy.modify]
    exact ⟨rfl, rfl⟩
  refine hprint.before fun _ t ⟨hgraph, hfile⟩ => ?_
  refine (along_inFile (h path _)).mono fun other u himported => ?_
  obtain ⟨hfile', htop, hlt, hsame⟩ := himported
  rw [hgraph] at htop hlt hsame
  exact ⟨hfile'.trans hfile, htop, hlt, hsame⟩

theorem importsBehind_fileImporter (fs : Files) (mode : ReadMode) (n : Nat) :
    ImportsBehind (fileImporter fs mode n) := by
  induction n with
  | zero => exact importsBehind_of_file fun _ _ =>
    (Keeps.throw _).along_of fun _ _ h => h.throw.elim
  | succ n ih => exact importsBehind_of_file fun path s => (along_compileFile ih path s).forget

/-! ### Runs -/

/-- The stations of a run: its beginning, those of the entries of its program, and its end. -/
def Run.stations (fs : Files) (mode : ReadMode) (r : Run) : List CompileState :=
  r.start :: onward (loadProgram fs mode r.path) r.start (fun tree t =>
    entriesStations fs (fileImporter fs mode r.depth) tree.entries t) ++ [(r.ending fs mode).2]

theorem scoped_of_mem_stations_of_start {r : Run} (hstart : r.start.Scoped) :
    ∀ u ∈ r.stations fs mode, u.Scoped := by
  obtain ⟨hus, hproceeds, -⟩ :=
    along_compileFile (importsBehind_fileImporter fs mode r.depth) r.path r.start hstart
  refine List.forall_mem_append.mpr ⟨List.forall_mem_cons.mpr ⟨hstart, hus⟩, ?_⟩
  intro u hu
  rw [List.mem_singleton.mp hu]
  exact hproceeds.inOrder

theorem lasts_scoped (fs : Files) (mode : ReadMode) :
    Lasts fs mode CompileState.Scoped CompileState.AtTop where
  start h := h.toScoped
  load hs h := hs.of_sameScopes ((keeps_loadProgram fs mode _).sameScopes h)
  enter hs h := (along_enterScope rfl).scoped hs h
  entry _ hs h := (along_compileEntry (importsBehind_fileImporter fs mode _) _ _).scoped hs h
  fresh hs h :=
    (hs.of_sameScopes ((keeps_printLine _).sameScopes h)).fresh _

variable {r : Run}

theorem atTop_of_mem_scriptRuns (hr : r ∈ scriptRuns fs mode path) : r.start.AtTop :=
  (lasts_scoped fs mode).scriptRuns ⟨⟨ordered_empty.start, .start .empty⟩, rfl, rfl⟩ hr

/-- **Every station of every run of a script has its scopes in order.** -/
theorem scoped_of_mem_stations
    (hr : r ∈ scriptRuns fs mode path) (hu : u ∈ r.stations fs mode) : u.Scoped :=
  scoped_of_mem_stations_of_start (atTop_of_mem_scriptRuns hr).toScoped u hu

/-- **A run that comes to the end is back at its global scope.** -/
theorem cursor_of_ending_ok (hr : r ∈ scriptRuns fs mode path)
    (hok : (r.ending fs mode).1 = .ok ()) :
    (r.ending fs mode).2.file.cursor.here = (r.ending fs mode).2.file.cursor.top ∧
      (r.ending fs mode).2.file.cursor.enclosing = [] := by
  have hstart := atTop_of_mem_scriptRuns hr
  obtain ⟨-, -, hpost⟩ := along_compileFile (importsBehind_fileImporter fs mode r.depth) r.path
    r.start hstart.toScoped
  have hcursor : (r.ending fs mode).2.file.cursor = r.start.file.cursor :=
    hpost () _ (Prod.ext hok rfl)
  rw [hcursor]
  exact ⟨hstart.here, hstart.enclosing⟩

end EvScript
