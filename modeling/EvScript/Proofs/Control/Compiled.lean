import EvScript.Proofs.Control.Layout

/-!
# Compilation Lays Out the Structured Program

Whatever statement is compiled under a label, it has a flow, and the code that was built lays it
out. The flow is what the statement yields over the finished code, where all strings have their
index.
-/

namespace EvScript

open CompileM Assembly

variable {a b c : Assembly} {is : List Instr} {u : Unit} {f : FunctionDecl}

namespace CompileM

variable {α β : Type} {s t s' : CompileState} {a : α} {b : β}
variable {m : CompileM α}

/-- Over any code that has the strings of `s'`, the step takes `s` to `s'` and yields `a`. -/
structure Outlines (m : CompileM α) (s : CompileState) (a : α) (s' : CompileState) : Prop where
  strings : s.file.code.strings <+: s'.file.code.strings
  yields : ∀ c : Assembly, s'.file.code.strings <+: c.strings →
    Yields m (s.withCode c) a (s'.withCode c)

theorem TableOnly.outlines (h : TableOnly m) (hy : Yields m s a s') : Outlines m s a s' :=
  ⟨(h.code hy).strings, h.replay hy⟩

theorem Outlines.pure (a : α) (s : CompileState) : Outlines (Pure.pure a) s a s :=
  ⟨List.prefix_rfl, fun _ _ => yields_pure.mpr ⟨rfl, rfl⟩⟩

theorem Outlines.bind {f : α → CompileM β} (hm : Outlines m s a t)
    (hf : Outlines (f a) t b s') : Outlines (m >>= f) s b s' where
  strings := hm.strings.trans hf.strings
  yields c hc := yields_bind.mpr ⟨a, _, hm.yields c (hf.strings.trans hc), hf.yields c hc⟩

theorem Outlines.of_withCode
    (h : Outlines m (s.withCode c) a s') (hc : s.file.code.strings <+: c.strings) :
    Outlines m s a s' :=
  ⟨hc.trans h.strings, h.yields⟩

theorem Outlines.withCode (h : Outlines m s a s')
    (hc : s'.file.code.strings <+: c.strings) : Outlines m s a (s'.withCode c) :=
  ⟨h.strings.trans hc, fun d hd => h.yields d (hc.trans hd)⟩

/-- What making a child of a label does: a label more, with no instructions yet, and nothing
but the code has changed. -/
structure MakesChild (l x : Nat) (s s' : CompileState) : Prop where
  handle : x = s.file.code.labels.size
  size : s'.file.code.labels.size = s.file.code.labels.size + 1
  grows : GrowsAt l s.file.code s'.file.code
  empty : (s'.file.code.label x).instrs = []
  parent : (s'.file.code.label l).instrs = (s.file.code.label l).instrs
  only_code : ∃ c, s' = s.withCode c

theorem makesChild_of_yields {l x : Nat} (h : Yields (newChild l) s x s')
    (hl : l < s.file.code.labels.size) : MakesChild l x s s' := by
  obtain ⟨hx, rfl⟩ := h.onCode
  rw [newChild_fst] at hx
  subst hx
  refine ⟨rfl, newChild_size _ _, .newChild hl, ?_, ?_, _, rfl⟩
  · rw [label_newChild_self hl]
  · rw [label_newChild_parent hl]

theorem yields_newChild_instrs {l x : LabelId} (h : Yields (newChild l) s x s') (y : LabelId) :
    (s'.file.code.label y).instrs = (s.file.code.label y).instrs := by
  obtain ⟨-, rfl⟩ := h.onCode
  exact instrs_newChild _ _ y

theorem MakesChild.outlines {l x : Nat} (h : MakesChild l x s t)
    (ho : Outlines m t a s') : Outlines m s a s' := by
  obtain ⟨c, rfl⟩ := h.only_code
  exact ho.of_withCode h.grows.strings

theorem yields_emit {l : LabelId} :
    Yields (emit l is) s u s' ↔ s.withCode (s.file.code.emit l is) = s' := by
  rw [emit, yields_onCode]
  exact and_iff_right rfl

theorem yields_emit_bind {l : LabelId} {β : Type} {k : Unit → CompileM β} {b : β} :
    Yields (emit l is >>= k) s b s' ↔ Yields (k ()) (s.withCode (s.file.code.emit l is)) b s' :=
  Iff.rfl

alias ⟨Yields.emit_bind, _⟩ := yields_emit_bind

theorem yields_jump {l l' : LabelId} :
    Yields (jump l l') s u s' ↔ s.withCode (s.file.code.jump l l') = s' := by
  rw [jump, yields_onCode]
  exact and_iff_right rfl

alias ⟨Yields.jump, _⟩ := yields_jump

theorem yields_enterScope_code {scope : Scope} (h : Yields (enterScope scope) s u s') :
    s'.file.code = s.file.code := by
  rw [← h.modify]

theorem yields_leaveScope_code (h : Yields leaveScope s u s') : s'.file.code = s.file.code := by
  replace h := h.get_bind
  split at h
  · rw [← h.modify]
  · rw [← h.tell]

end CompileM

/-! ### Leaves -/

variable {s s' : CompileState} {l l' after : Nat} {pos : Pos}

theorem laysStep_perform (hl : l < a.labels.size)
    (h : a.MoreStrings b) : LaysStep l l a (b.emit l is) (.perform is) := by
  have hlb : l < b.labels.size := h.size ▸ hl
  refine ⟨rfl, (GrowsAt.of_moreStrings l h).trans (.emit is hlb), ?_, ?_⟩
  · rw [emit_size, h.size]
  · rw [label_emit_self is hlb, h.label]

theorem laysStep_nil (h : a.MoreStrings b) : LaysStep l l a b (.perform []) :=
  ⟨rfl, .of_moreStrings l h, h.size, by rw [List.append_nil, h.label]⟩

theorem compileLeaf_lays {m : CompileM (List Instr)} (ht : TableOnly m)
    (hl : l < s.file.code.labels.size) (h : Yields (do emit l (← m); return l) s l' s') :
    ∃ step, Outlines (do return .perform (← m)) s step s' ∧
      LaysStep l l' s.file.code s'.file.code step := by
  obtain ⟨is, t, hm, h⟩ := h.bind
  replace h := h.emit_bind
  obtain ⟨rfl, rfl⟩ := h.pure
  refine ⟨.perform is, ?_, laysStep_perform hl (ht.code hm)⟩
  refine .withCode ?_ List.prefix_rfl
  exact (ht.outlines hm).bind (.pure _ _)

theorem yields_compileCondition {c : Condition} (h : Yields (compileCondition c l) s is s') :
    ∃ query, Yields (askCondition c) s query s' ∧ is = query.aimed (s'.file.code.target l) := by
  rw [compileCondition_eq] at h
  obtain ⟨query, t, hquery, h⟩ := h.bind
  obtain ⟨there, _, ht, h⟩ := h.bind
  obtain ⟨rfl, rfl⟩ := ht.target
  obtain ⟨rfl, rfl⟩ := h.pure
  exact ⟨query, hquery, rfl⟩

theorem yields_compileElseIfs {elseIfs : List ElseIf}
    (h : Yields (compileElseIfs l elseIfs) s u s') : elseIfs = [] ∧ s = s' := by
  cases elseIfs with
  | nil =>
    rw [compileElseIfs] at h
    exact ⟨rfl, h.pure.2⟩
  | cons e es =>
    rw [compileElseIfs] at h
    obtain ⟨_, _, -, h⟩ := h.bind
    exact h.throw.elim

/-- What is built for a branch: two labels, the condition, the inside and the arm of the
`else`. -/
theorem laysStep_branch {t₁ t₂ t₃ t₄ : CompileState} {inside : Nat} {query : Query}
    {body : Option Flow} {arms : Arms} (hl : l < s.file.code.labels.size)
    (hafter : MakesChild l after s t₁) (hinside : MakesChild l inside t₁ t₂)
    (hmore : t₂.file.code.MoreStrings t₃.file.code)
    (hq : ∀ q, query.question = some q → q.isTest = true)
    (hbody : LaysInside s.file.code.labels.size inside after
      (t₃.file.code.emit l (query.aimed (t₃.file.code.target inside))) t₄.file.code body)
    (harms : LaysArms s.file.code.labels.size l after (t₄.file.code.label l).instrs.length
      t₄.file.code s'.file.code arms) :
    LaysStep l after s.file.code s'.file.code
      (.choose query.setup (.ask query.question body arms)) := by
  have hsize₁ := hafter.size
  have hsize₂ := hinside.size
  have hah := hafter.handle
  have hih := hinside.handle
  have hl₃ : l < t₃.file.code.labels.size := by
    rw [hmore.size]
    omega
  have hin₃ : inside < t₃.file.code.labels.size := by
    rw [hmore.size]
    omega
  -- the setup and the question go under the label in two steps
  set e := t₃.file.code.emit l query.setup with he
  have hge : GrowsAt l t₁.file.code e :=
    (hinside.grows.trans (.of_moreStrings l hmore)).trans (.emit _ hl₃)
  have hemit : t₃.file.code.emit l (query.aimed (t₃.file.code.target inside)) =
      e.emit l (query.question.map (·.aimed (e.target inside))).toList := by
    rw [(GrowsAt.emit query.setup hl₃).toExtends.target_eq hin₃, Query.aimed, emit_append]
  have hel : (e.label l).instrs = (s.file.code.label l).instrs ++ query.setup := by
    rw [he, label_emit_self _ hl₃, hmore.label, hinside.parent, hafter.parent]
  rw [hemit] at hbody
  have hchoice := LaysArms.ask hl (Nat.le_of_eq hah.symm) (by omega) hge (Nat.le_of_eq hih.symm)
    (by simpa [he] using hin₃) hq hbody harms
  rw [hel, List.length_append] at hchoice
  refine .choose hl hafter.grows (Nat.le_of_eq hah.symm) (by omega) hafter.empty hchoice ?_
  have hext : e.Extends s'.file.code := (GrowsAt.emit _ (by simpa [he] using hl₃)).toExtends.trans
    (hbody.grows.toExtends.trans harms.grows.toExtends)
  rw [← hel]
  exact hext.instrs l (by simpa [he] using hl₃)

/-! ### Statements -/

mutual

theorem compileBlock_lays (scope : Scope) : ∀ (b : Block) {s s' : CompileState} {l l' : Nat},
    Yields (compileBlock scope l b) s l' s' → l < s.file.code.labels.size →
    ∃ flow, Outlines (outlineBlock scope b) s flow s' ∧ Lays l l' s.file.code s'.file.code flow
  | .absent, s, s', l, l', h, hl => by
    rw [compileBlock] at h
    obtain ⟨_, _, -, h⟩ := h.bind
    exact h.throw.elim
  | .of pos statements, s, s', l, l', h, hl => by
    rw [compileBlock] at h
    rw [outlineBlock]
    obtain ⟨_, s₁, h₁, h⟩ := h.bind
    obtain ⟨last, s₂, h₂, h⟩ := h.bind
    obtain ⟨_, h₃, rfl⟩ := h.bind_pure
    have hc₁ := yields_enterScope_code h₁
    have hc₃ := yields_leaveScope_code h₃
    obtain ⟨flow, ho, hlays⟩ := compileStatements_lays pos statements h₂ (hc₁ ▸ hl)
    refine ⟨flow, ?_, ?_⟩
    · exact ((tableOnly_enterScope _).outlines h₁).bind
        (ho.bind ((silent_leaveScope.outlines h₃).bind (.pure _ _)))
    · rwa [hc₁, ← hc₃] at hlays

theorem compileStatements_lays (pos : Pos) : ∀ (ss : List Statement) {s s' : CompileState}
    {l l' : Nat}, Yields (compileStatements pos l ss) s l' s' → l < s.file.code.labels.size →
    ∃ flow, Outlines (outlineStatements pos ss) s flow s' ∧
      Lays l l' s.file.code s'.file.code flow
  | [], s, s', l, l', h, hl => by
    rw [compileStatements] at h
    rw [outlineStatements]
    obtain ⟨rfl, rfl⟩ := h.pure
    exact ⟨.done, .pure _ _, .done hl⟩
  | st :: ss, s, s', l, l', h, hl => by
    rw [compileStatements] at h
    rw [outlineStatements]
    obtain ⟨m, t, h₁, h₂⟩ := h.bind
    obtain ⟨step, ho₁, hstep⟩ := compileStatement_lays pos st h₁ hl
    obtain ⟨rest, ho₂, hrest⟩ := compileStatements_lays pos ss h₂ (hstep.last_lt hl)
    exact ⟨.next step rest, ho₁.bind (ho₂.bind (.pure _ _)), hstep.next hl hrest⟩

theorem compileStatement_lays (pos : Pos) : ∀ (st : Statement) {s s' : CompileState}
    {l l' : Nat}, Yields (compileStatement pos l st) s l' s' → l < s.file.code.labels.size →
    ∃ step, Outlines (outlineStatement pos st) s step s' ∧
      LaysStep l l' s.file.code s'.file.code step
  | .define d, s, s', l, l', h, hl => by
    rw [compileStatement] at h
    rw [outlineStatement]
    exact compileLeaf_lays (tableOnly_define _ d) hl h
  | .assign a, s, s', l, l', h, hl => by
    rw [compileStatement] at h
    rw [outlineStatement]
    exact compileLeaf_lays (tableOnly_compileAssignment a) hl h
  | .call c, s, s', l, l', h, hl => by
    rw [compileStatement] at h
    rw [outlineStatement]
    obtain ⟨⟨callee, args⟩, t, hr, h⟩ := h.bind
    have hro := (silent_resolveCall c).outlines hr
    have hrc := (silent_resolveCall c).code hr
    cases callee with
    | function f =>
      obtain ⟨_, t', hw, h⟩ := h.bind
      obtain ⟨rfl, rfl⟩ := h.pure
      have hwo := (silent_warnFunctionCall pos).outlines hw
      refine ⟨.perform [], hro.bind (hwo.bind (.pure _ _)), ?_⟩
      exact laysStep_nil (hrc.trans ((silent_warnFunctionCall pos).code hw))
    | command command =>
      have htab := tableOnly_compileCommandCall pos command args none none
      obtain ⟨i, t', hi, h⟩ := h.bind
      replace h := h.emit_bind
      obtain ⟨rfl, rfl⟩ := h.pure
      refine ⟨.perform [i], .withCode ?_ List.prefix_rfl,
        laysStep_perform hl (hrc.trans (htab.code hi))⟩
      exact hro.bind ((htab.outlines hi).bind (.pure _ _))
  | .branch condition body elseIfs otherwise, s, s', l, l', h, hl => by
    rw [compileStatement] at h
    rw [outlineStatement]
    obtain ⟨(after : Nat), t₁, h₁, h⟩ := h.bind
    obtain ⟨(inside : Nat), t₂, h₂, h⟩ := h.bind
    obtain ⟨c, _, h₃, h⟩ := h.bind
    obtain ⟨rfl, rfl⟩ := h₃.need
    obtain ⟨_, t₃, h₄, h⟩ := h.bind
    obtain ⟨query, hquery, rfl⟩ := yields_compileCondition h₄
    replace h := h.emit_bind
    obtain ⟨_, t₄, h₆, h⟩ := h.bind
    obtain ⟨_, t₅, h₇, h⟩ := h.bind
    obtain ⟨rfl, rfl⟩ := yields_compileElseIfs h₇
    obtain ⟨_, h₈, rfl⟩ := h.bind_pure
    have hafter := makesChild_of_yields h₁ hl
    have hinside := makesChild_of_yields h₂ (Nat.lt_of_lt_of_le hl hafter.grows.size)
    have hask := tableOnly_askCondition c
    have hah := hafter.handle
    have hih := hinside.handle
    have hsize₁ := hafter.size
    have hsize₂ := hinside.size
    have hsize₃ : (t₃.withCode (t₃.file.code.emit l
        (query.aimed (t₃.file.code.target inside)))).file.code.labels.size =
        t₂.file.code.labels.size := by
      rw [CompileState.withCode_code, emit_size, (hask.code hquery).size]
    have hempty : ((t₃.file.code.emit l (query.aimed (t₃.file.code.target inside))).label
        inside).instrs = [] := by
      have hne : inside ≠ l := by omega
      rw [label_emit_of_ne _ hne, (hask.code hquery).label, hinside.empty]
    obtain ⟨flow, hobody, hbody⟩ := compileInside_lays body h₆
      (n := s.file.code.labels.size) (by omega) (by omega) (by omega) hempty
    have hsize₄ := hbody.grows.size
    obtain ⟨arms, hoelse, harms⟩ := compileElse_lays otherwise h₈ hl (by omega) (by omega)
    refine ⟨.choose query.setup (.ask query.question flow arms), ?_, ?_⟩
    · refine hafter.outlines (hinside.outlines ?_)
      refine ((silent_need _ _).outlines h₃).bind ((hask.outlines hquery).bind ?_)
      refine Outlines.bind (hobody.of_withCode List.prefix_rfl) ?_
      exact Outlines.bind (.pure _ _) (hoelse.bind (.pure _ _))
    · exact laysStep_branch hl hafter hinside (hask.code hquery)
        (fun q => isTest_of_askCondition hquery) hbody harms
  | .select subject cases switchPos, s, s', l, l', h, hl => by
    rw [compileStatement] at h
    rw [outlineStatement]
    obtain ⟨setup, t₁, h₁, h⟩ := h.bind
    replace h := h.emit_bind
    obtain ⟨(after : Nat), t₃, h₃, h⟩ := h.bind
    obtain ⟨_, h₄, rfl⟩ := h.bind_pure
    have hsub := tableOnly_compileSubject subject switchPos
    have hl₁ : l < t₁.file.code.labels.size := (hsub.code h₁).size ▸ hl
    have hafter := makesChild_of_yields h₃ (by simpa using hl₁)
    have hah := hafter.handle
    have hsize := hafter.size
    have hgrow : GrowsAt l s.file.code t₃.file.code :=
      ((GrowsAt.of_moreStrings l (hsub.code h₁)).trans (.emit setup hl₁)).trans hafter.grows
    have hinstrs : (t₃.file.code.label l).instrs =
        (s.file.code.label l).instrs ++ setup := by
      rw [hafter.parent, CompileState.withCode_code, label_emit_self _ hl₁,
        (hsub.code h₁).label]
    rw [CompileState.withCode_code, emit_size, (hsub.code h₁).size] at hah hsize
    obtain ⟨arms, ho, harms⟩ := compileCases_lays cases h₄ hl (by omega) (by omega)
    refine ⟨.choose setup arms, ?_, ?_⟩
    · refine (hsub.outlines h₁).bind (Outlines.of_withCode (hafter.outlines ?_) List.prefix_rfl)
      exact ho.bind (.pure _ _)
    · have hprefix := harms.grows.instrs (Nat.lt_of_lt_of_le hl hgrow.size)
      rw [hinstrs] at harms hprefix
      rw [List.length_append] at harms
      exact .choose hl hgrow (by omega) (by omega) hafter.empty harms hprefix
  | .inert _, s, s', l, l', h, hl => by
    rw [compileStatement] at h
    rw [outlineStatement]
    obtain ⟨rfl, rfl⟩ := h.pure
    exact ⟨.perform [], .pure _ _, rfl, .refl _ _, rfl, by simp⟩

theorem compileInside_lays : ∀ (body : Block) {s s' : CompileState} {n inside after : Nat}
    {u : Unit}, Yields (compileInside inside after body) s u s' → n ≤ inside →
    after < inside → inside < s.file.code.labels.size →
    (s.file.code.label inside).instrs = [] →
    ∃ flow, Outlines (outlineInside body) s flow s' ∧
      LaysInside n inside after s.file.code s'.file.code flow
  | .absent, s, s', n, inside, after, _, h, hn, ha, hin, hempty => by
    rw [compileInside] at h
    rw [outlineInside]
    obtain ⟨-, rfl⟩ := h.pure
    exact ⟨none, .pure _ _, .none hn hin (Nat.ne_of_gt ha) hempty⟩
  | .of pos statements, s, s', n, inside, after, _, h, hn, ha, hin, hempty => by
    rw [compileInside] at h
    rw [outlineInside]
    obtain ⟨_, s₁, h₁, h⟩ := h.bind
    obtain ⟨last, s₂, h₂, h⟩ := h.bind
    obtain ⟨_, s₃, h₃, h⟩ := h.bind
    obtain rfl := h.jump
    have hc₁ := yields_enterScope_code h₁
    have hc₃ := yields_leaveScope_code h₃
    obtain ⟨flow, ho, hlays⟩ := compileStatements_lays pos statements h₂ (hc₁ ▸ hin)
    rw [hc₁, ← hc₃] at hlays
    refine ⟨some flow, ?_, .of_lays hn hin ha hempty hlays⟩
    refine .withCode ?_ List.prefix_rfl
    exact ((tableOnly_enterScope _).outlines h₁).bind
      (ho.bind ((silent_leaveScope.outlines h₃).bind (.pure _ _)))

theorem compileElse_lays : ∀ (o : Option Block) {s s' : CompileState} {n l after : Nat}
    {u : Unit}, Yields (compileElse l after o) s u s' → l < n → n ≤ after →
    after < s.file.code.labels.size →
    ∃ arms, Outlines (outlineElse o) s arms s' ∧
      LaysArms n l after (s.file.code.label l).instrs.length s.file.code s'.file.code arms
  | none, s, s', n, l, after, _, h, hl, hn, ha => by
    rw [compileElse] at h
    rw [outlineElse]
    obtain ⟨-, rfl⟩ := h.pure
    exact ⟨.none, .pure _ _, .none _ _ _ _⟩
  | some body, s, s', n, l, after, _, h, hl, hn, ha => by
    rw [compileElse] at h
    rw [outlineElse]
    obtain ⟨last, t, h₁, h⟩ := h.bind
    obtain rfl := h.jump
    obtain ⟨flow, ho, hlays⟩ := compileBlock_lays {} body h₁ (by omega)
    refine ⟨.otherwise flow .none, ?_, .otherwise hl hn ha hlays (.none _ _ _ _)⟩
    refine .withCode ?_ List.prefix_rfl
    exact ho.bind (.pure _ _)

theorem compileCases_lays : ∀ (cs : List Case) {s s' : CompileState} {n l after : Nat}
    {u : Unit}, Yields (compileCases l after cs) s u s' → l < n → n ≤ after →
    after < s.file.code.labels.size →
    ∃ arms, Outlines (outlineCases cs) s arms s' ∧
      LaysArms n l after (s.file.code.label l).instrs.length s.file.code s'.file.code arms
  | [], s, s', n, l, after, _, h, hl, hn, ha => by
    rw [compileCases] at h
    rw [outlineCases]
    obtain ⟨-, rfl⟩ := h.pure
    exact ⟨.none, .pure _ _, .none _ _ _ _⟩
  | c :: cs, s, s', n, l, after, _, h, hl, hn, ha => by
    rw [compileCases] at h
    rw [outlineCases]
    obtain ⟨_, t, h₁, h₂⟩ := h.bind
    obtain ⟨arm, ho₁, hg, harm⟩ := compileCase_lays c h₁ hl hn ha
    obtain ⟨rest, ho₂, hrest⟩ := compileCases_lays cs h₂ hl hn
      (Nat.lt_of_lt_of_le ha hg.size)
    exact ⟨arm rest, ho₁.bind (ho₂.bind (.pure _ _)), harm hrest⟩

theorem compileCase_lays : ∀ (c : Case) {s s' : CompileState} {n l after : Nat}
    {u : Unit}, Yields (compileCase l after c) s u s' → l < n → n ≤ after →
    after < s.file.code.labels.size →
    ∃ arm : Arms → Arms, Outlines (outlineCase c) s arm s' ∧
      GrowsAt l s.file.code s'.file.code ∧ ∀ {d rest},
        LaysArms n l after (s'.file.code.label l).instrs.length s'.file.code d rest →
        LaysArms n l after (s.file.code.label l).instrs.length s.file.code d (arm rest)
  | .default body, s, s', n, l, after, _, h, hl, hn, ha => by
    rw [compileCase] at h
    rw [outlineCase]
    obtain ⟨last, t, h₁, h⟩ := h.bind
    obtain rfl := h.jump
    obtain ⟨flow, ho, hlays⟩ := compileBlock_lays {} body h₁ (by omega)
    refine ⟨.otherwise flow, ?_, hlays.grows_jump, fun hrest => .otherwise hl hn ha hlays hrest⟩
    refine .withCode ?_ List.prefix_rfl
    exact ho.bind (.pure _ _)
  | .labelled number name body, s, s', n, l, after, _, h, hl, hn, ha => by
    rw [compileCase] at h
    rw [outlineCase]
    obtain ⟨number, _, h₁, h⟩ := h.bind
    obtain ⟨-, rfl⟩ := h₁.lift
    obtain ⟨(inside : Nat), t₂, h₂, h⟩ := h.bind
    obtain ⟨word, t₃, h₃, h⟩ := h.bind
    have hchild := makesChild_of_yields h₂ (by omega)
    have hih := hchild.handle
    have hsize := hchild.size
    have hword := silent_caseWord number name
    have hmore := hword.code h₃
    have hgrow : GrowsAt l s.file.code t₃.file.code :=
      hchild.grows.trans (.of_moreStrings l hmore)
    have hstart : (t₃.file.code.label l).instrs = (s.file.code.label l).instrs := by
      rw [hmore.label, hchild.parent]
    have hout : ∀ {α : Type} {m : Option Int → CompileM α} {a : α} {t : CompileState},
        Outlines (m word) t₃ a t → Outlines (caseWord number name >>= m) s a t :=
      fun ho => hchild.outlines ((hword.outlines h₃).bind ho)
    cases word with
    | none =>
      obtain ⟨-, rfl⟩ := h.pure
      refine ⟨id, ?_, hgrow, fun {d rest} hrest => ?_⟩
      · exact ((silent_lift _ _).outlines h₁).bind (hout (.pure _ _))
      · rw [hstart] at hrest
        exact hrest.of_grows hgrow
    | some word =>
      obtain ⟨there, _, h₄, h⟩ := h.bind
      obtain ⟨rfl, rfl⟩ := h₄.target
      replace h := h.emit_bind
      have hl₃ : l < t₃.file.code.labels.size := by
        rw [hmore.size]
        omega
      have hin₃ : inside < t₃.file.code.labels.size := by
        rw [hmore.size]
        omega
      have hne : inside ≠ l := by omega
      obtain ⟨flow, hobody, hbody⟩ := compileInside_lays body h (n := n) (by omega)
        (by omega) (by simpa using hin₃) (by
          rw [CompileState.withCode_code, label_emit_of_ne _ hne, hmore.label, hchild.empty])
      refine ⟨.ask (some (caseQuestion word)) flow, ?_, ?_, fun {d rest} hrest => ?_⟩
      · refine ((silent_lift _ _).outlines h₁).bind (hout ?_)
        exact (hobody.of_withCode List.prefix_rfl).bind (.pure _ _)
      · exact (hgrow.trans (.emit _ hl₃)).trans_fresh (Nat.le_of_eq hih.symm) hbody.grows
      · rw [← hstart]
        exact .ask hl hn ha hgrow (Nat.le_of_eq hih.symm) hin₃
          (fun q hq => by obtain rfl := Option.some.inj hq; rfl) hbody hrest

end

/-! ### Functions -/

/-- The state in which the body of a function is compiled: the function is declared, it has a
label, and no register is given out yet. -/
def CompileState.openFunction (s : CompileState) (f : FunctionDecl) (name : String)
    (result : Option ResultType) : CompileState :=
  let label := functionLabel f.kind name
  { s with
    graph := s.file.cursor.addFunction s.graph
      ⟨f.kind, (s.file.code.intern label).1, name, result, f.pos⟩
    file := { s.file with code := (s.file.code.newLabel label).2, locals := [] } }

/-- What is done for a function before its body: the label is made, the function is declared, and
no register is given out yet. -/
def beginFunction (f : FunctionDecl) : CompileM (Scope × LabelId) := do
  match f.name with
  | none => stop "Invalid name for function at: " f.pos
  | some name =>
    let kind := f.common.map fun common => if common then FunctionKind.common else .entry
    let parameters ← lift id (parameterVariables (f.params.getD []) [])
    let result ← lift id (resultOf f.result)
    let label ← newLabel (functionLabel kind name)
    let index := ((← get).file.code.label label).name
    onGraph fun c g => c.addFunction g ⟨kind, index, name, result, f.pos⟩
    modify fun s => { s with file := { s.file with locals := [] } }
    return (parameterScope parameters, label)

theorem compileFunction_eq (f : FunctionDecl) : compileFunction f = (do
      let head ← beginFunction f
      let _ ← compileBlock head.1 head.2 f.body) := by
  rw [compileFunction, beginFunction]
  cases f.name with
  | none => rfl
  | some name => simp only [bind_assoc, pure_bind, parameterScope]

theorem yields_beginFunction {head : Scope × LabelId} (h : Yields (beginFunction f) s head s') :
    ∃ name parameters result, f.name = some name ∧
      parameterVariables (f.params.getD []) [] = .ok parameters ∧ resultOf f.result = .ok result ∧
      head = (parameterScope parameters, s.file.code.labels.size) ∧
      s' = s.openFunction f name result := by
  unfold beginFunction at h
  cases hname : f.name with
  | none =>
    rw [hname] at h
    exact h.stop.elim
  | some name =>
    rw [hname] at h
    obtain ⟨parameters, hp, h⟩ := h.lift_bind
    obtain ⟨result, hr, h⟩ := h.lift_bind
    obtain ⟨label, t₃, h₃, h⟩ := h.bind
    obtain ⟨hlabel, rfl⟩ := h₃.onCode
    rw [Assembly.newLabel_fst] at hlabel
    subst hlabel
    replace h := h.get_bind
    obtain ⟨_, _, h₅, h⟩ := h.bind
    obtain rfl := h₅.onGraph
    obtain ⟨_, _, h₆, h⟩ := h.bind
    obtain rfl := h₆.modify
    obtain ⟨rfl, rfl⟩ := h.pure
    refine ⟨name, parameters, result, rfl, hp, hr, rfl, ?_⟩
    have hindex : ((s.file.code.newLabel (functionLabel f.kind name)).2.label
        s.file.code.labels.size).name = (s.file.code.intern (functionLabel f.kind name)).1 :=
      congrArg Label.name (Assembly.label_newLabel_self _ _)
    simp only [CompileState.openFunction, ← hindex]
    rfl

theorem yields_compileFunction (h : Yields (compileFunction f) s u s') :
    ∃ name parameters result last, f.name = some name ∧
      parameterVariables (f.params.getD []) [] = .ok parameters ∧
      resultOf f.result = .ok result ∧
      Yields (compileBlock (parameterScope parameters) s.file.code.labels.size f.body)
        (s.openFunction f name result) last s' := by
  rw [compileFunction_eq] at h
  obtain ⟨head, _, hhead, h⟩ := h.bind
  obtain ⟨name, parameters, result, hname, hp, hr, rfl, rfl⟩ := yields_beginFunction hhead
  obtain ⟨last, hblock, -⟩ := h.bind_pure
  exact ⟨name, parameters, result, last, hname, hp, hr, hblock⟩

/-- The name of the label of a function. -/
def FunctionDecl.labelName (f : FunctionDecl) : Option String := f.name.map (functionLabel f.kind)

/-- The label with a name. -/
def Assembly.labelCalled (a : Assembly) (name : String) : Option LabelId :=
  (a.strings.idxOf? name).bind a.byName.find?

/-- **A compiled function** adds labels, the first of them under its name, and from there on its
flow is laid out up to the end of a label. -/
theorem compileFunction_lays (h : Yields (compileFunction f) s u s') :
    Adds s.file.code s'.file.code ∧ s.file.code.labels.size < s'.file.code.labels.size ∧
    (∃ name, f.labelName = some name ∧
      s'.file.code.strings.idxOf? name =
        some (s'.file.code.label s.file.code.labels.size).name) ∧
    ∃ flow, Outlines (outlineFunction f) s flow s' ∧ ∀ c, Adds s'.file.code c →
      ∃ y e, flow.Laid c 0 ⟨s.file.code.labels.size, 0⟩ y e ∧ c.instrAt y = none := by
  obtain ⟨name, parameters, result, last, hname, hp, hr, hbody⟩ := yields_compileFunction h
  set label := functionLabel f.kind name with hlabel
  have hcode : (s.openFunction f name result).file.code = (s.file.code.newLabel label).2 := rfl
  have hsize : (s.openFunction f name result).file.code.labels.size =
      s.file.code.labels.size + 1 := by
    rw [hcode]
    simp
  obtain ⟨flow, ho, hlays⟩ := compileBlock_lays _ f.body hbody (by omega)
  have hgrows := hlays.grows
  have hnew := label_newLabel_self s.file.code label
  rw [hcode] at hgrows
  have hlt : s.file.code.labels.size < s'.file.code.labels.size := by
    have := hlays.grows.size
    omega
  refine ⟨((GrowsAt.newLabel s.file.code.labels.size _ label).trans hgrows).adds (Nat.le_refl _),
    hlt, ⟨label, ?_, ?_⟩, flow, ?_, ?_⟩
  · rw [FunctionDecl.labelName, hname]
    rfl
  · rw [hgrows.name (by simp), hnew]
    exact idxOf?_of_prefix hgrows.strings (idxOf?_intern _ _)
  · refine ⟨(prefix_intern _ label).trans hgrows.strings, fun c hc => ?_⟩
    unfold outlineFunction
    rw [hname]
    have hintern : Yields (CompileM.intern label) (s.withCode c)
        (s.file.code.intern label).1 (s.withCode c) :=
      (silent_intern label).replay (yields_onCode.mpr ⟨rfl, rfl⟩) c
        (hgrows.strings.trans hc)
    refine yields_bind.mpr ⟨parameters, _, yields_lift.mpr ⟨hp, rfl⟩, ?_⟩
    refine yields_bind.mpr ⟨result, _, yields_lift.mpr ⟨hr, rfl⟩, ?_⟩
    refine yields_bind.mpr ⟨_, _, hintern, ?_⟩
    refine yields_bind.mpr ⟨(), _, yields_onGraph.mpr rfl, ?_⟩
    exact yields_bind.mpr ⟨(), _, yields_modify.mpr rfl, ho.yields c hc⟩
  · intro c hc
    have hlaid := hlays.laid 0 c (Nat.zero_le _) hc.toExtends (hc.settled _ _)
    rw [hcode, hnew] at hlaid
    refine ⟨_, _, hlaid, ?_⟩
    rw [instrAt, hc.label last hlays.last_lt]
    exact List.getElem?_eq_none (Nat.le_refl _)

end EvScript
