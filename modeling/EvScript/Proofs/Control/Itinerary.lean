import EvScript.Proofs.Compile.Stations

/-!
# Going along with a Compilation

The induction behind what is said about a body statement by statement is done here once, for
anything that can be said of steps with the arrivals on their way (`BodyClosed`), and from that for
any two relations of states (`BodyInvariant`): `past` is about the way from one state to another on
which all blocks that were entered are left again, `within` about the way to a state inside. If
`past` holds of the single steps and composes, it holds of every body that is compiled to its end,
and `within` holds of the way from its beginning to each arrival, however the body ends.
-/

namespace EvScript

open CompileM

variable {b : Block} {f : FunctionDecl} {sum : List Arrival → Assembly → Assembly → Prop}
variable {past within : List Arrival → CompileState → CompileState → Prop}
  {V W : List Arrival} {s t u v : CompileState} {l after : Nat}

/-- What is shown of a step from a state, with the arrivals on its way, is true of the single steps
of a body, and of sequences of them, however they end. Labels that steps are about are there. -/
structure BodyClosed (P : {α : Type} → CompileM α → CompileState → List Arrival → Prop) : Prop where
  pure {α : Type} {a : α} {s : CompileState} : P (pure a) s []
  bind {α β : Type} {m : CompileM α} {f : α → CompileM β} {s : CompileState} {V : List Arrival}
    {W : α → CompileState → List Arrival} : P m s V → (∀ a t, Yields m s a t → P (f a) t (W a t)) →
    P (m >>= f) s (V ++ onward m s W)
  leaf {pos : Pos} {l : Nat} {x : Statement} {s : CompileState} : x.isLeaf = true →
    l < s.file.code.labels.size → P (compileStatement pos l x) s [⟨l, x, s⟩]
  branch {l : Nat} {c : Option Condition} {body : Block} {elseIfs : List ElseIf}
    {otherwise : Option Block} {s : CompileState} : l < s.file.code.labels.size →
    P (openBranch l c) s [⟨l, .branch c body elseIfs otherwise, s⟩]
  select {l : Nat} {subject : Option Condition} {cases : List Case} {pos : Pos} {s : CompileState} :
    l < s.file.code.labels.size →
    P (openSelect l subject pos) s [⟨l, .select subject cases pos, s⟩]
  case {l : Nat} {number : Option Numeral} {name : Option String} {s : CompileState} :
    l < s.file.code.labels.size → P (openCase l number name) s []
  elseIfs {l : Nat} {elseIfs : List ElseIf} {s : CompileState} : l < s.file.code.labels.size →
    P (compileElseIfs l elseIfs) s []
  jump {l after : Nat} {s : CompileState} : l < s.file.code.labels.size →
    after < s.file.code.labels.size → P (jump l after) s []
  absent {l : Nat} {s : CompileState} : l < s.file.code.labels.size →
    P (compileBlock {} l .absent) s []
  block {α : Type} {m : CompileM α} {s : CompileState} {V : CompileState → List Arrival} :
    (∀ t, Yields (enterScope {}) s () t → P m t (V t)) →
    P (enterScope {} >>= fun _ => m >>= fun a => leaveScope >>= fun _ => Pure.pure a) s
      (onward (enterScope {}) s fun _ t => V t)

/-! ### Labels on the way -/

theorem size_of_openBranch {c : Option Condition} {arms : LabelId × LabelId}
    (h : Yields (openBranch l c) s arms t) (hl : l < s.file.code.labels.size) :
    arms = (s.file.code.labels.size + 1, s.file.code.labels.size) ∧
      t.file.code.labels.size = s.file.code.labels.size + 2 := by
  obtain ⟨(after : Nat), t₁, h₁, h⟩ := h.bind
  obtain ⟨(inside : Nat), t₂, h₂, h⟩ := h.bind
  obtain ⟨c, -, h⟩ := h.need_bind
  obtain ⟨is, t₃, h₃, h⟩ := h.bind
  obtain ⟨query, hquery, -⟩ := yields_compileCondition h₃
  replace h := h.emit_bind
  obtain ⟨rfl, rfl⟩ := h.pure
  have hafter := makesChild_of_yields h₁ hl
  have hinside := makesChild_of_yields h₂ (Nat.lt_of_lt_of_le hl hafter.grows.size)
  have hsize := hafter.size
  refine ⟨by rw [hafter.handle, hinside.handle, hsize], ?_⟩
  rw [CompileState.withCode_code, Assembly.emit_size,
    ((tableOnly_askCondition c).code hquery).size, hinside.size, hsize]

theorem size_of_openSelect {subject : Option Condition} {pos : Pos} {after : LabelId}
    (h : Yields (openSelect l subject pos) s after t) (hl : l < s.file.code.labels.size) :
    after = s.file.code.labels.size ∧
      t.file.code.labels.size = s.file.code.labels.size + 1 := by
  obtain ⟨is, t₁, h₁, h⟩ := h.bind
  replace h := h.emit_bind
  have hsize := ((tableOnly_compileSubject subject pos).code h₁).size
  have hchild := makesChild_of_yields h (by simpa [hsize] using hl)
  have hhandle := hchild.handle
  have hsize' := hchild.size
  rw [CompileState.withCode_code, Assembly.emit_size, hsize] at hhandle hsize'
  exact ⟨hhandle, hsize'⟩

theorem size_of_openCase {number : Option Numeral} {name : Option String} {arm : Option LabelId}
    (h : Yields (openCase l number name) s arm t) (hl : l < s.file.code.labels.size) :
    (∀ inside ∈ arm, inside = s.file.code.labels.size) ∧
      t.file.code.labels.size = s.file.code.labels.size + 1 := by
  obtain ⟨n, -, h⟩ := h.lift_bind
  obtain ⟨(inside : Nat), t₁, h₁, h⟩ := h.bind
  obtain ⟨word, t₂, h₂, h⟩ := h.bind
  have hchild := makesChild_of_yields h₁ hl
  have hsize : t₂.file.code.labels.size = s.file.code.labels.size + 1 := by
    rw [((silent_caseWord n name).code h₂).size, hchild.size]
  cases word with
  | none =>
    obtain ⟨rfl, rfl⟩ := h.pure
    exact ⟨by simp, hsize⟩
  | some word =>
    obtain ⟨there, _, htarget, h⟩ := h.bind
    obtain ⟨-, rfl⟩ := htarget.target
    replace h := h.emit_bind
    obtain ⟨rfl, rfl⟩ := h.pure
    refine ⟨fun x hx => ?_, by rw [CompileState.withCode_code, Assembly.emit_size, hsize]⟩
    rw [← Option.some.inj hx, hchild.handle]

/-! ### Statements -/

theorem size_le_of_compileExit (hy : Yields (compileExit l after b) s () t)
    (hl : l < s.file.code.labels.size) : s.file.code.labels.size ≤ t.file.code.labels.size := by
  obtain ⟨last, u, hblock, hjump⟩ := hy.bind
  obtain ⟨flow, -, hlays⟩ := compileBlock_lays {} b hblock hl
  obtain rfl := hjump.jump
  rw [CompileState.withCode_code, Assembly.jump, Assembly.emit_size]
  exact hlays.grows.size

theorem size_le_of_compileInside (hy : Yields (compileInside l after b) s () t)
    (hl : l < s.file.code.labels.size) : s.file.code.labels.size ≤ t.file.code.labels.size := by
  cases b with
  | absent =>
    rw [compileInside] at hy
    obtain ⟨-, rfl⟩ := hy.pure
    exact Nat.le_refl _
  | of pos xs =>
    rw [compileInside_of] at hy
    exact size_le_of_compileExit hy hl

theorem size_le_of_compileCase {c : Case} (hy : Yields (compileCase l after c) s () t)
    (hl : l < s.file.code.labels.size) : s.file.code.labels.size ≤ t.file.code.labels.size := by
  cases c with
  | default body =>
    rw [compileCase] at hy
    exact size_le_of_compileExit hy hl
  | labelled number name body =>
    rw [compileCase_labelled] at hy
    obtain ⟨arm, u, hopen, harm⟩ := hy.bind
    obtain ⟨hnew, hsize⟩ := size_of_openCase hopen hl
    cases arm with
    | none =>
      obtain ⟨-, rfl⟩ := harm.pure
      omega
    | some inside =>
      obtain rfl := hnew inside rfl
      have hle := size_le_of_compileInside harm (by omega)
      omega

namespace BodyClosed

variable {P : {α : Type} → CompileM α → CompileState → List Arrival → Prop}

theorem before {α β : Type} {m : CompileM α} {f : α → CompileM β} (h : BodyClosed P) (hm : P m s V)
    (hf : ∀ a t, Yields m s a t → P (f a) t []) : P (m >>= f) s V := by
  have hall := h.bind hm hf
  rwa [onward_nil, List.append_nil] at hall

theorem compileExit (h : BodyClosed P) (hl : l < s.file.code.labels.size)
    (ha : after < s.file.code.labels.size) (hb : P (compileBlock {} l b) s V) :
    P (compileExit l after b) s V := by
  refine h.before hb fun last t hy => ?_
  obtain ⟨flow, -, hlays⟩ := compileBlock_lays {} b hy hl
  exact h.jump hlays.last_lt (Nat.lt_of_lt_of_le ha hlays.grows.size)

theorem compileInside (h : BodyClosed P) (hl : l < s.file.code.labels.size)
    (ha : after < s.file.code.labels.size)
    (hb : P (compileBlock {} l b) s (blockArrivals {} l b s)) :
    P (compileInside l after b) s (insideArrivals l b s) := by
  cases b with
  | absent =>
    rw [EvScript.compileInside]
    exact h.pure
  | of pos xs =>
    rw [compileInside_of]
    exact h.compileExit hl ha hb

mutual

theorem compileBlock (h : BodyClosed P) : ∀ (b : Block) (s : CompileState) (l : Nat),
    l < s.file.code.labels.size → P (compileBlock {} l b) s (blockArrivals {} l b s)
  | .absent, s, l, hl => h.absent hl
  | .of pos xs, s, l, hl => by
    rw [EvScript.compileBlock, blockArrivals]
    refine h.block fun t ht => compileStatements h pos xs t l ?_
    rwa [yields_enterScope_code ht]

theorem compileStatements (h : BodyClosed P) (pos : Pos) :
    ∀ (xs : List Statement) (s : CompileState)
    (l : Nat), l < s.file.code.labels.size →
    P (compileStatements pos l xs) s (statementsArrivals pos l xs s)
  | [], s, l, hl => by
    rw [EvScript.compileStatements]
    exact h.pure
  | x :: xs, s, l, hl => by
    rw [EvScript.compileStatements, statementsArrivals]
    refine h.bind (compileStatement h pos x s l hl) fun last t hy => ?_
    obtain ⟨step, -, hlays⟩ := compileStatement_lays pos x hy hl
    exact compileStatements h pos xs t last (hlays.last_lt hl)

theorem compileStatement (h : BodyClosed P) (pos : Pos) : ∀ (x : Statement) (s : CompileState)
    (l : Nat), l < s.file.code.labels.size →
    P (compileStatement pos l x) s (statementArrivals l x s)
  | .define _, _, _, hl | .assign _, _, _, hl | .call _, _, _, hl | .inert _, _, _, hl =>
    h.leaf rfl hl
  | .branch c body elseIfs otherwise, s, l, hl => by
    rw [compileStatement_branch, statementArrivals]
    refine h.bind (h.branch hl) fun arms t ht => ?_
    obtain ⟨rfl, hsize⟩ := size_of_openBranch ht hl
    have hin : s.file.code.labels.size + 1 < t.file.code.labels.size := by omega
    refine h.bind (h.compileInside hin (by omega) (compileBlock h body t _ hin)) fun _ u hu => ?_
    have hle := size_le_of_compileInside hu hin
    refine h.bind (h.elseIfs (by omega)) fun _ v hv => ?_
    obtain ⟨-, rfl⟩ := yields_compileElseIfs hv
    exact h.before (compileElse h otherwise u l _ (by omega) (by omega)) fun _ _ _ => h.pure
  | .select subject cases switchPos, s, l, hl => by
    rw [compileStatement_select, statementArrivals]
    refine h.bind (h.select hl) fun after t ht => ?_
    obtain ⟨rfl, hsize⟩ := size_of_openSelect ht hl
    exact h.before (compileCases h cases t l _ (by omega) (by omega)) fun _ _ _ => h.pure

theorem compileElse (h : BodyClosed P) : ∀ (o : Option Block) (s : CompileState) (l after : Nat),
    l < s.file.code.labels.size → after < s.file.code.labels.size →
    P (compileElse l after o) s (elseArrivals l o s)
  | none, s, l, after, hl, ha => by
    rw [EvScript.compileElse]
    exact h.pure
  | some body, s, l, after, hl, ha => by
    rw [EvScript.compileElse]
    exact h.compileExit hl ha (compileBlock h body s l hl)

theorem compileCases (h : BodyClosed P) : ∀ (cs : List Case) (s : CompileState) (l after : Nat),
    l < s.file.code.labels.size → after < s.file.code.labels.size →
    P (compileCases l after cs) s (casesArrivals l after cs s)
  | [], s, l, after, hl, ha => by
    rw [EvScript.compileCases]
    exact h.pure
  | c :: cs, s, l, after, hl, ha => by
    rw [EvScript.compileCases, casesArrivals]
    refine h.bind (compileCase h c s l after hl ha) fun _ t hy => ?_
    have hle := size_le_of_compileCase hy hl
    exact compileCases h cs t l after (by omega) (by omega)

theorem compileCase (h : BodyClosed P) : ∀ (c : Case) (s : CompileState) (l after : Nat),
    l < s.file.code.labels.size → after < s.file.code.labels.size →
    P (compileCase l after c) s (caseArrivals l c s)
  | .default body, s, l, after, hl, ha => by
    rw [EvScript.compileCase]
    exact h.compileExit hl ha (compileBlock h body s l hl)
  | .labelled number name body, s, l, after, hl, ha => by
    rw [compileCase_labelled, caseArrivals]
    refine h.bind (h.case hl) fun arm t ht => ?_
    obtain ⟨hnew, hsize⟩ := size_of_openCase ht hl
    cases arm with
    | none => exact h.pure
    | some inside =>
      obtain rfl := hnew inside rfl
      rw [Option.toList_some, List.flatMap_singleton]
      have hin : s.file.code.labels.size < t.file.code.labels.size := by omega
      exact h.compileInside hin (by omega) (compileBlock h body t _ hin)

end

end BodyClosed

/-! ### Relations of states -/

/-- The relations hold of the single steps of a body, and compose. Labels that steps are about are
there. -/
structure BodyInvariant (past within : List Arrival → CompileState → CompileState → Prop) :
    Prop where
  nil {s : CompileState} : past [] s s
  append {V W : List Arrival} {s t u : CompileState} : past V s t → past W t u → past (V ++ W) s u
  leaf {pos : Pos} {l last : Nat} {x : Statement} {s t : CompileState} : x.isLeaf = true →
    l < s.file.code.labels.size → Yields (compileStatement pos l x) s last t → past [⟨l, x, s⟩] s t
  branch {l : Nat} {c : Option Condition} {body : Block} {elseIfs : List ElseIf}
    {otherwise : Option Block} {arms : LabelId × LabelId} {s t : CompileState} :
    l < s.file.code.labels.size → Yields (openBranch l c) s arms t →
    past [⟨l, .branch c body elseIfs otherwise, s⟩] s t
  select {l : Nat} {subject : Option Condition} {cases : List Case} {pos : Pos} {after : LabelId}
    {s t : CompileState} : l < s.file.code.labels.size →
    Yields (openSelect l subject pos) s after t → past [⟨l, .select subject cases pos, s⟩] s t
  case {l : Nat} {number : Option Numeral} {name : Option String} {arm : Option LabelId}
    {s t : CompileState} : l < s.file.code.labels.size →
    Yields (openCase l number name) s arm t → past [] s t
  jump {l after : Nat} {s t : CompileState} : l < s.file.code.labels.size →
    Yields (jump l after) s () t → past [] s t
  block {V : List Arrival} {s t u v : CompileState} : Yields (enterScope {}) s () t →
    past V t u → Yields leaveScope u () v → past V s v
  here {s : CompileState} : within [] s s
  behind {V W : List Arrival} {s t u : CompileState} : past V s t → within W t u →
    within (V ++ W) s u
  enter {V : List Arrival} {s t u : CompileState} : Yields (enterScope {}) s () t →
    within V t u → within V s u

/-- On the way from `s` to `t` lie the arrivals `V`. -/
structure Covers (past within : List Arrival → CompileState → CompileState → Prop)
    (V : List Arrival) (s t : CompileState) : Prop where
  all : past V s t
  each : ∀ V₁ a V₂, V = V₁ ++ a :: V₂ → within V₁ s a.state

/-- If the statement at an arrival fails and has no block in it, the step from `s` ends there, and
no arrivals come behind. -/
def Arrival.Ends {α : Type} (a : Arrival) (m : CompileM α) (s : CompileState)
    (rest : List Arrival) : Prop :=
  a.statement.isLeaf = true → ∃ pos, ∀ e t,
    ending (compileStatement pos a.label a.statement) a.state = (.error e, t) →
    ending m s = (.error e, t) ∧ rest = []

/-- The arrivals `V` lie on the way of a step from `s`, of which only a part is done if it fails. -/
structure Attends (past within : List Arrival → CompileState → CompileState → Prop) {α : Type}
    (m : CompileM α) (s : CompileState) (V : List Arrival) : Prop where
  all : ∀ a t, Yields m s a t → past V s t
  each : ∀ V₁ a V₂, V = V₁ ++ a :: V₂ → within V₁ s a.state ∧ a.Ends m s V₂

section Attends

variable {α β : Type} {m : CompileM α} {f : α → CompileM β} {a : Arrival} {b : α}
  {next : α → CompileState → List Arrival}

theorem Arrival.Ends.bind_left (h : a.Ends m s V) : a.Ends (m >>= f) s (V ++ onward m s next) := by
  intro hx
  obtain ⟨pos, h⟩ := h hx
  refine ⟨pos, fun e t hend => ?_⟩
  obtain ⟨hm, rfl⟩ := h e t hend
  rw [ending_bind, onward, hm]
  exact ⟨rfl, rfl⟩

theorem Arrival.Ends.bind_right (hb : Yields m s b t) (h : a.Ends (f b) t V) :
    a.Ends (m >>= f) s V := by
  intro hx
  obtain ⟨pos, h⟩ := h hx
  refine ⟨pos, fun e u hend => ?_⟩
  rw [hb.ending_bind]
  exact h e u hend

namespace Attends

theorem of_past (h : ∀ a t, Yields m s a t → past [] s t) : Attends past within m s [] :=
  ⟨h, fun V₁ _ _ hV => by simp at hV⟩

theorem single (h : BodyInvariant past within) {l : LabelId} {x : Statement}
    (hx : ∀ a t, Yields m s a t → past [⟨l, x, s⟩] s t)
    (hends : (⟨l, x, s⟩ : Arrival).Ends m s []) : Attends past within m s [⟨l, x, s⟩] := by
  refine ⟨hx, fun V₁ a V₂ hV => ?_⟩
  cases V₁ with
  | nil =>
    obtain ⟨rfl, rfl⟩ := List.cons.inj hV
    exact ⟨h.here, hends⟩
  | cons => simp at hV

/-- **Steps one behind the other.** -/
theorem bind (h : BodyInvariant past within) (hm : Attends past within m s V)
    (hf : ∀ a t, Yields m s a t → Attends past within (f a) t (next a t)) :
    Attends past within (m >>= f) s (V ++ onward m s next) := by
  refine ⟨fun b u hy => ?_, fun V₁ a V₂ heq => ?_⟩
  · obtain ⟨a, t, ha, hb⟩ := hy.bind
    rw [ha.onward]
    exact h.append (hm.all a t ha) ((hf a t ha).all b u hb)
  · -- an arrival behind the first step is come to if that is done
    have hbehind : ∀ rest, onward m s next = rest ++ a :: V₂ →
        within (V ++ rest) s a.state ∧ a.Ends (m >>= f) s V₂ := by
      intro rest hrest
      have hmem : a ∈ onward m s next := by simp [hrest]
      obtain ⟨b, t, hb, -⟩ := mem_onward.mp hmem
      obtain ⟨hwithin, hends⟩ := (hf b t hb).each rest a V₂ (hb.onward.symm.trans hrest)
      exact ⟨h.behind (hm.all b t hb) hwithin, hends.bind_right hb⟩
    rcases List.append_eq_append_iff.mp heq with ⟨rest, rfl, hrest⟩ | ⟨rest, rfl, hrest⟩
    · exact hbehind rest hrest
    · cases rest with
      | nil => simpa using hbehind [] hrest.symm
      | cons c rest =>
        obtain ⟨rfl, rfl⟩ := List.cons.inj hrest
        obtain ⟨hwithin, hends⟩ := hm.each V₁ a rest rfl
        exact ⟨hwithin, hends.bind_left⟩

end Attends

end Attends

/-- **Relations that hold of the steps hold on the way of a body**, however it ends. -/
theorem BodyInvariant.bodyClosed (h : BodyInvariant past within) :
    BodyClosed (Attends past within) where
  pure := .of_past fun _ _ hy => hy.pure.2 ▸ h.nil
  bind hm hf := .bind h hm hf
  leaf {pos l x s} hx hl := .single h (fun _ _ hy => h.leaf hx hl hy) fun _ =>
    ⟨pos, fun _ _ hend => ⟨hend, rfl⟩⟩
  branch hl := .single h (fun _ _ hy => h.branch hl hy) nofun
  select hl := .single h (fun _ _ hy => h.select hl hy) nofun
  case hl := .of_past fun _ _ hy => h.case hl hy
  elseIfs _ := .of_past fun _ _ hy => (yields_compileElseIfs hy).2 ▸ h.nil
  jump hl _ := .of_past fun _ _ hy => h.jump hl hy
  absent _ := .of_past fun _ _ hy => by
    rw [compileBlock] at hy
    obtain ⟨_, _, -, hy⟩ := hy.bind
    exact hy.throw.elim
  block {α m s V} hm := by
    refine ⟨fun a v hy => ?_, fun V₁ a V₂ heq => ?_⟩
    · obtain ⟨_, t, henter, hy⟩ := hy.bind
      obtain ⟨_, u, hu, hy⟩ := hy.bind
      obtain ⟨_, hleave, -⟩ := hy.bind_pure
      rw [henter.onward]
      exact h.block henter ((hm t henter).all _ u hu) hleave
    · have hmem : a ∈ onward (enterScope {}) s fun _ t => V t := by simp [heq]
      obtain ⟨_, t, henter, -⟩ := mem_onward.mp hmem
      obtain ⟨hwithin, hends⟩ := (hm t henter).each V₁ a V₂ (henter.onward.symm.trans heq)
      have hleft : a.Ends (m >>= fun a => leaveScope >>= fun _ => pure a) t
          (V₂ ++ onward m t fun _ _ => []) := hends.bind_left
      rw [onward_nil, List.append_nil] at hleft
      exact ⟨h.enter henter hwithin, hleft.bind_right henter⟩

/-! ### Functions -/

/-- The body of a function whose head is read: where it begins, and how the function ends then. -/
theorem exists_body {head : Scope × LabelId} {pos : Pos} {xs : List Statement}
    (hhead : Yields (beginFunction f) s head t) (hbody : f.body = .of pos xs) :
    ∃ name parameters result s₁, f.name = some name ∧
      parameterVariables (f.params.getD []) [] = .ok parameters ∧
      Yields (enterScope (parameterScope parameters)) (s.openFunction f name result) () s₁ ∧
      s.file.code.labels.size < s₁.file.code.labels.size ∧
      bodyArrivals f s = statementsArrivals pos s.file.code.labels.size xs s₁ ∧
      ending (compileFunction f) s =
        ending (compileStatements pos s.file.code.labels.size xs >>= fun _ => leaveScope) s₁ := by
  obtain ⟨name, parameters, result, hname, hparameters, -, rfl, rfl⟩ := yields_beginFunction hhead
  obtain ⟨s₁, henter⟩ : ∃ s₁, Yields (enterScope (parameterScope parameters))
      (s.openFunction f name result) () s₁ := ⟨_, rfl⟩
  refine ⟨name, parameters, result, s₁, hname, hparameters, henter, ?_, ?_, ?_⟩
  · rw [yields_enterScope_code henter]
    simp [CompileState.openFunction]
  · rw [bodyArrivals, hhead.onward, hbody, blockArrivals, henter.onward]
  · rw [compileFunction_eq, hhead.ending_bind, hbody, compileBlock]
    simp only [bind_assoc, pure_bind]
    rw [henter.ending_bind]
    simp only [bind_pure_unit]

/-- **Relations that hold of the steps cover the body of a function**, from where its scope has been
entered to where that is left. -/
theorem BodyInvariant.compileFunction (h : BodyInvariant past within)
    (hy : Yields (compileFunction f) s () t) :
    ∃ name parameters result s₁ s₂, f.name = some name ∧
      parameterVariables (f.params.getD []) [] = .ok parameters ∧
      Yields (enterScope (parameterScope parameters)) (s.openFunction f name result) () s₁ ∧
      Covers past within (bodyArrivals f s) s₁ s₂ ∧ Yields leaveScope s₂ () t := by
  have hparts := hy
  rw [compileFunction_eq] at hparts
  obtain ⟨head, _, hhead, hparts⟩ := hparts.bind
  obtain ⟨last, _, hblock, -⟩ := hparts.bind
  cases hbody : f.body with
  | absent =>
    rw [hbody, EvScript.compileBlock] at hblock
    obtain ⟨_, _, -, hblock⟩ := hblock.bind
    exact hblock.throw.elim
  | of pos xs =>
    obtain ⟨name, parameters, result, s₁, hname, hparameters, henter, hlt, harrivals, hend⟩ :=
      exists_body hhead hbody
    obtain ⟨_, s₂, hxs, hleave⟩ := yields_bind.mp (hend.symm.trans hy)
    have hattends := h.bodyClosed.compileStatements pos xs s₁ _ hlt
    rw [← harrivals] at hattends
    exact ⟨name, parameters, result, s₁, s₂, hname, hparameters, henter,
      ⟨hattends.all _ _ hxs, fun V₁ a V₂ hV => (hattends.each V₁ a V₂ hV).1⟩, hleave⟩

/-- **The way to an arrival in a function**, however the function ends. -/
theorem BodyInvariant.arrival (h : BodyInvariant past within) {V₁ V₂ : List Arrival}
    {a : Arrival} (hV : bodyArrivals f s = V₁ ++ a :: V₂) :
    ∃ name parameters result s₁,
      Yields (enterScope (parameterScope parameters)) (s.openFunction f name result) () s₁ ∧
      within V₁ s₁ a.state ∧ a.Ends (EvScript.compileFunction f) s V₂ := by
  have hmem : a ∈ bodyArrivals f s := by simp [hV]
  obtain ⟨head, t, hhead, hmem⟩ := mem_onward.mp hmem
  cases hbody : f.body with
  | absent => simp [hbody, blockArrivals] at hmem
  | of pos xs =>
    obtain ⟨name, parameters, result, s₁, -, -, henter, hlt, harrivals, hend⟩ :=
      exists_body hhead hbody
    have hattends := h.bodyClosed.compileStatements pos xs s₁ _ hlt
    obtain ⟨hwithin, hends⟩ := hattends.each V₁ a V₂ (harrivals.symm.trans hV)
    have hleft : a.Ends (_ >>= fun _ => leaveScope) s₁ (V₂ ++ onward _ s₁ fun _ _ => []) :=
      hends.bind_left
    rw [onward_nil, List.append_nil] at hleft
    exact ⟨name, parameters, result, s₁, henter, hwithin, by rwa [Arrival.Ends, hend]⟩

/-! ### Scripts -/

/-- The statements that the compilation of a script comes to. -/
def scriptArrivals (fs : Files) (mode : ReadMode) (path : String) : List Arrival :=
  arrivalsOf (scriptVisits fs mode path)

/-- The relation composes, and holds where only strings are added. -/
structure Composes (sum : List Arrival → Assembly → Assembly → Prop) : Prop where
  same {c c' : Assembly} : c.MoreStrings c' → sum [] c c'
  append {V W : List Arrival} {c c' c'' : Assembly} : sum V c c' → sum W c' c'' → sum (V ++ W) c c''

/-- The relation composes, and holds of the code before and behind each function. -/
structure AddsUp (sum : List Arrival → Assembly → Assembly → Prop) : Prop extends Composes sum where
  function {f : FunctionDecl} {s t : CompileState} : Yields (compileFunction f) s () t →
    sum (bodyArrivals f s) s.file.code t.file.code

/-- The relation holds of the code before and behind some functions. -/
def HoldsOf (sum : List Arrival → Assembly → Assembly → Prop)
    (fns : List (FunctionDecl × CompileState)) : Prop :=
  ∀ f s, (f, s) ∈ fns → ∀ t, Yields (compileFunction f) s () t →
    sum (bodyArrivals f s) s.file.code t.file.code

/-- What holds of functions holds where they were compiled one behind the other. -/
theorem Composes.of_visited (h : Composes sum)
    {fns : List (FunctionDecl × CompileState)} {c c' : Assembly} (hv : Visited fns c c')
    (hf : HoldsOf sum fns) : sum (arrivalsOf fns) c c' := by
  induction hv with
  | aside hsame => exact h.same hsame
  | function hy =>
    rw [arrivalsOf, List.flatMap_singleton]
    exact hf _ _ List.mem_cons_self _ hy
  | append _ _ ih ih' =>
    rw [arrivalsOf, List.flatMap_append]
    exact h.append (ih fun f s hs => hf f s (List.mem_append_left _ hs))
      (ih' fun f s hs => hf f s (List.mem_append_right _ hs))

/-- **What holds of its functions holds of a script** that is compiled to the end. -/
theorem Composes.compileScript (h : Composes sum) {fs : Files} {mode : ReadMode} {path : String}
    (hok : (compileScript fs mode path).ended = .ok ())
    (hf : HoldsOf sum (scriptVisits fs mode path)) :
    sum (scriptArrivals fs mode path) .empty (compileScript fs mode path).state.file.code :=
  h.of_visited (visited_compileScript hok) hf

/-- **What holds of all functions holds of a script** that is compiled to the end. -/
theorem AddsUp.compileScript (h : AddsUp sum) {fs : Files} {mode : ReadMode} {path : String}
    (hok : (compileScript fs mode path).ended = .ok ()) :
    sum (scriptArrivals fs mode path) .empty (compileScript fs mode path).state.file.code :=
  h.toComposes.compileScript hok fun _ _ _ _ hy => h.function hy

end EvScript
