import EvScript.Proofs.Control.Itinerary

/-!
# The Moments of a Run

The **moments** of a run are the states in which it comes to something: to an entry of its
program, to a statement of a function, and to its end, be that behind the last entry or at a
fault. From one moment to the next the code changes by lawful edits only, so the record of a run
can be cut into pieces, and every moment stands at one of the cuts.
-/

namespace EvScript

open CompileM

/-! ### Courses -/

/-- Lawful edits lead from one code to the other. -/
def Assembly.Leads (known : Option Int → Prop) (a b : Assembly) : Prop :=
  ∃ t, Lawful known a t ∧ b = a.replay t

/-- Lawful edits lead from `a` through the codes of the states, in their order, to `c`. -/
def Course (known : Option Int → Prop) (a : Assembly) : List CompileState → Assembly → Prop
  | [], c => a.Leads known c
  | u :: us, c => a.Leads known u.file.code ∧ Course known u.file.code us c

variable {known : Option Int → Prop} {a b c : Assembly} {us vs : List CompileState}

theorem Assembly.Leads.refl (a : Assembly) : a.Leads known a := ⟨[], trivial, rfl⟩

theorem Assembly.Leads.trans (h : a.Leads known b) (g : b.Leads known c) : a.Leads known c := by
  obtain ⟨t, ht, rfl⟩ := h
  obtain ⟨u, hu, rfl⟩ := g
  exact ⟨t ++ u, Assembly.lawful_append.mpr ⟨ht, hu⟩, (Assembly.replay_append a t u).symm⟩

theorem Course.leads_left (h : a.Leads known b) (g : Course known b us c) :
    Course known a us c := by
  cases us with
  | nil => exact h.trans g
  | cons u us => exact ⟨h.trans g.1, g.2⟩

theorem Course.append (h : Course known a us b) (g : Course known b vs c) :
    Course known a (us ++ vs) c := by
  induction us generalizing a with
  | nil => exact g.leads_left h
  | cons u us ih => exact ⟨h.1, ih h.2⟩

theorem Course.exists_cuts (h : Course known a us c) :
    ∃ (t : List Edit) (cuts : List (List Edit)), Lawful known a t ∧
    c = a.replay t ∧ us.map (·.file.code) = cuts.map a.replay ∧
    cuts.Pairwise (· <+: ·) ∧ ∀ cut ∈ cuts, cut <+: t := by
  induction us generalizing a with
  | nil =>
    obtain ⟨t, ht, hc⟩ := h
    exact ⟨t, [], ht, hc, rfl, .nil, fun _ h => absurd h List.not_mem_nil⟩
  | cons u us ih =>
    obtain ⟨⟨t, ht, hu⟩, hrest⟩ := h
    obtain ⟨t', cuts, ht', hc, hus, hpair, hbefore⟩ := ih hrest
    rw [hu] at ht' hc hus
    -- the cuts of the rest come behind the first piece
    refine ⟨t ++ t', t :: cuts.map (t ++ ·), Assembly.lawful_append.mpr ⟨ht, ht'⟩, ?_, ?_, ?_, ?_⟩
    · rw [Assembly.replay_append, hc]
    · rw [List.map_cons, List.map_cons, List.map_map, hus, hu]
      refine congrArg _ (List.map_congr_left fun cut _ => ?_)
      exact (Assembly.replay_append a t cut).symm
    · refine List.pairwise_cons.mpr ⟨fun cut hcut => ?_, ?_⟩
      · obtain ⟨rest, -, rfl⟩ := List.mem_map.mp hcut
        exact List.prefix_append t rest
      · exact List.pairwise_map.mpr
          (hpair.imp fun h => (List.prefix_append_right_inj t).mpr h)
    · refine List.forall_mem_cons.mpr ⟨List.prefix_append t t', fun cut hcut => ?_⟩
      obtain ⟨rest, hrest, rfl⟩ := List.mem_map.mp hcut
      exact (List.prefix_append_right_inj t).mpr (hbefore rest hrest)

/-! ### Steps that go through states -/

namespace CompileM

variable {α β : Type} {s : CompileState} {m : CompileM β} {f : β → CompileM α}
  {mid : List Edit → β → CompileState → Prop} {later : β → CompileState → List CompileState}

@[simp] theorem map_onward {γ δ : Type} (g : γ → δ) (m : CompileM β) (s : CompileState)
    (next : β → CompileState → List γ) :
    (onward m s next).map g = onward m s fun b t => (next b t).map g := by
  unfold onward
  split <;> rfl

/-- However the step ends, its code has gone through the states. -/
def Passes (known : Option Int → Prop) (m : CompileM α) (s : CompileState)
    (us : List CompileState) : Prop :=
  s.graph.Sound known → Course known s.file.code us (ending m s).2.file.code

theorem Recorded.passes {m : CompileM α} {post : List Edit → α → CompileState → Prop}
    (h : Recorded known m s post) : Passes known m s [] := by
  intro hs
  obtain ⟨t, hlaw, hcode, -⟩ := h hs
  exact ⟨t, hlaw, hcode⟩

theorem Keeps.passes {m : CompileM α} (h : Keeps codeAndGraph m) (s : CompileState) :
    Passes known m s [] :=
  fun _ => ⟨[], trivial, congrArg Prod.fst (h s)⟩

/-- A step begins in its state. -/
theorem Passes.here {m : CompileM α} (h : Passes known m s us) : Passes known m s (s :: us) :=
  fun hs => ⟨.refl _, h hs⟩

/-- A sequence goes through the states of its first part and, if that goes on, through those of
the second. -/
theorem Passes.bind (hm : Passes known m s us) (hr : Recorded known m s mid)
    (hf : ∀ t b u, Yields m s b u → mid t b u → Passes known (f b) u (later b u)) :
    Passes known (m >>= f) s (us ++ onward m s later) := by
  intro hs
  have hfirst := hm hs
  obtain ⟨t, -, -, hsound, hmid⟩ := hr hs
  rw [ending_bind]
  unfold onward
  cases hend : ending m s with
  | mk r u =>
    rw [hend] at hfirst hsound
    cases r with
    | error e =>
      rw [List.append_nil]
      exact hfirst
    | ok b => exact hfirst.append (hf t b u hend (hmid b u hend) hsound)

theorem Passes.after (hr : Recorded known m s mid)
    (hf : ∀ t b u, Yields m s b u → mid t b u → Passes known (f b) u (later b u)) :
    Passes known (m >>= f) s (onward m s later) :=
  hr.passes.bind hr hf

theorem Passes.before (hm : Passes known m s us) (hr : Recorded known m s mid)
    (hf : ∀ t b u, Yields m s b u → mid t b u → Passes known (f b) u []) :
    Passes known (m >>= f) s us := by
  have h := hm.bind hr hf
  rwa [onward_nil, List.append_nil] at h

end CompileM

/-! ### Statements -/

/-- The states at arrivals. -/
def momentsOf (arrivals : List Arrival) : List CompileState := arrivals.map (·.state)

variable {α β : Type} {s : CompileState} {m : CompileM α} {f : α → CompileM β} {V : List Arrival}
  {W : α → CompileState → List Arrival}
variable {post : List Edit → α → CompileState → Prop}

/-- The step goes through the moments of the arrivals and has a record. -/
def PassesBy (known : Option Int → Prop) (m : CompileM α) (s : CompileState) (V : List Arrival) :
    Prop :=
  Passes known m s (momentsOf V) ∧ Recorded known m s fun _ _ _ => True

namespace PassesBy

theorem of_recorded (h : Recorded known m s post) : PassesBy known m s [] :=
  ⟨h.passes, h.mono fun _ _ _ _ _ _ _ => trivial⟩

theorem of_keeps (h : Keeps codeAndGraph m) : PassesBy known m s [] := by
  have htrue : Recorded known m s fun _ _ _ => True := h.recorded fun _ _ _ => trivial
  exact .of_recorded htrue

theorem single {l : LabelId} {x : Statement}
    (h : Recorded known m s post) : PassesBy known m s [⟨l, x, s⟩] :=
  ⟨h.passes.here, (of_recorded h).2⟩

theorem bind (hm : PassesBy known m s V)
    (hf : ∀ a t, Yields m s a t → PassesBy known (f a) t (W a t)) :
    PassesBy known (m >>= f) s (V ++ onward m s W) := by
  refine ⟨?_, hm.2.bind fun _ a t hy _ => (hf a t hy).2⟩
  rw [momentsOf, List.map_append, map_onward]
  exact hm.1.bind hm.2 fun _ a t hy _ => (hf a t hy).1

end PassesBy

/-- **A body goes through the moments of its statements.** -/
theorem bodyClosed_passesBy : BodyClosed (PassesBy known) where
  pure := .of_keeps (.pure _)
  bind := .bind
  leaf {pos l x s} _ hl := .single (recorded_compileStatement pos x s l hl)
  branch hl := .single (recorded_openBranch hl)
  select hl := .single (recorded_openSelect hl)
  case {l number name s} hl := .of_recorded (recorded_openCase nowhere ⟨none, ⟨0, 0⟩, s⟩ hl)
  elseIfs hl := .of_recorded (recorded_compileElseIfs hl)
  jump hl ha := .of_recorded (recorded_jump hl ha)
  absent {l s} hl := .of_recorded (recorded_compileBlock sound_default .absent s l hl)
  block {α m s V} hm := by
    have henter : PassesBy known (enterScope {}) s [] :=
      .of_recorded (recorded_enterScope sound_default)
    refine henter.bind (W := fun _ t => V t) fun _ t ht => ?_
    have hall : PassesBy known (m >>= fun a => leaveScope >>= fun _ => pure a) t
        (V t ++ onward m t fun _ _ => []) :=
      (hm t ht).bind fun _ _ _ => .of_keeps (keeps_leaveScope.bind fun _ => .pure _)
    rwa [onward_nil, List.append_nil] at hall

/-! ### Entries -/

mutual

/-- The moments of an entry. -/
def entryMoments (fs : Files) (importer : Importer) : Entry → CompileState → List CompileState
  | .function f, s => s :: momentsOf (bodyArrivals f s)
  | .space name entries, s => s ::
    onward (need .word name >>= fun name => enterScope { name := some name }) s fun _ t =>
      entriesMoments fs importer entries t
  | _, s => [s]

/-- The moments of the entries of a program. -/
def entriesMoments (fs : Files) (importer : Importer) :
    List Entry → CompileState → List CompileState
  | [], _ => []
  | e :: es, s => entryMoments fs importer e s ++
    onward (compileEntry fs importer e) s fun _ t => entriesMoments fs importer es t

end

theorem passes_compileFunction (f : FunctionDecl) (s : CompileState) :
    Passes known (compileFunction f) s (momentsOf (bodyArrivals f s)) := by
  rw [compileFunction_eq, bodyArrivals, momentsOf, map_onward]
  refine .after (recorded_beginFunction f) ?_
  rintro _ ⟨scope, label⟩ u - ⟨hscope, rfl, hsize, -⟩
  have hlt : s.file.code.labels.size < u.file.code.labels.size := by omega
  refine Passes.before ?_ (recorded_compileBlock hscope f.body u _ hlt) fun _ _ _ _ _ =>
    (Keeps.pure _).passes _
  cases f.body with
  | absent => exact (recorded_compileBlock hscope .absent u _ hlt).passes
  | of pos xs =>
    rw [compileBlock, blockArrivals, map_onward]
    refine .after (recorded_enterScope hscope) fun _ _ v _ hv => ?_
    rw [← hv.2] at hlt
    obtain ⟨hpasses, hrecorded⟩ := bodyClosed_passesBy.compileStatements pos xs v _ hlt
    exact hpasses.before hrecorded fun _ _ w _ _ =>
      (keeps_leaveScope.bind fun _ => .pure _).passes w

variable {fs : Files} {importer : Importer}

mutual

theorem passes_compileEntry (hk : RecordsImports known importer) :
    ∀ (e : Entry) (s : CompileState), (∀ d ∈ entryCommands e, d.Known known) →
    Passes known (compileEntry fs importer e) s (entryMoments fs importer e s)
  | .function f, s, _ => by
    rw [compileEntry, entryMoments]
    exact (passes_compileFunction f s).here
  | .space name entries, s, hd => by
    rw [compileEntry, entryMoments]
    refine Passes.here ?_
    have hopen : Recorded known (need .word name >>= fun name =>
        enterScope { name := some name }) s fun _ _ _ => True := by
      refine (keeps_need _ _).andThen fun name _ _ _ _ => ?_
      have hscope : ({ name := some name } : Scope).Sound known := Scope.sound_of_empty rfl rfl
      exact (recorded_enterScope hscope).mono fun _ _ _ _ _ _ _ => trivial
    have hall := Passes.after hopen fun _ _ t _ _ =>
      (passes_compileEntries hk entries t hd).before (recorded_compileEntries hk entries t hd)
        fun _ _ v _ _ => keeps_leaveScope.passes v
    simpa only [bind_assoc] using hall
  | .define d, s, hd => (recorded_compileEntry hk (.define d) s hd).passes.here
  | .command d, s, hd => (recorded_compileEntry hk (.command d) s hd).passes.here
  | .importAll name pos, s, hd => (recorded_compileEntry hk (.importAll name pos) s hd).passes.here
  | .importFrom name everything pos, s, hd =>
    (recorded_compileEntry hk (.importFrom name everything pos) s hd).passes.here
  | .inert rule, s, hd => (recorded_compileEntry hk (.inert rule) s hd).passes.here

theorem passes_compileEntries (hk : RecordsImports known importer) :
    ∀ (es : List Entry) (s : CompileState), (∀ d ∈ entriesCommands es, d.Known known) →
    Passes known (compileEntries fs importer es) s (entriesMoments fs importer es s)
  | [], s, hd => (recorded_compileEntries hk [] s hd).passes
  | e :: es, s, hd => by
    rw [compileEntries, entriesMoments]
    rw [entriesCommands, List.forall_mem_append] at hd
    exact (passes_compileEntry hk e s hd.1).bind (recorded_compileEntry hk e s hd.1)
      fun _ _ u _ _ => passes_compileEntries hk es u hd.2

end

/-! ### Runs -/

/-- The moments of a run: its beginning, those of the entries of its program, and its end. -/
def Run.moments (fs : Files) (mode : ReadMode) (r : Run) : List CompileState :=
  r.start :: onward (loadProgram fs mode r.path) r.start (fun tree t =>
    entriesMoments fs (fileImporter fs mode r.depth) tree.entries t) ++ [(r.ending fs mode).2]

/-- **Every moment of a run stands at a cut of its record**, and later moments at later cuts. -/
theorem exists_cuts {mode : ReadMode} {path : String} {r : Run} (hr : r ∈ scriptRuns fs mode path) :
    ∃ (t : List Edit) (cuts : List (List Edit)), Lawful (fs.Declares mode) .empty t ∧
      r.code fs mode = Assembly.empty.replay t ∧
      (r.moments fs mode).map (·.file.code) = cuts.map Assembly.empty.replay ∧
      cuts.Pairwise (· <+: ·) ∧ ∀ cut ∈ cuts, cut <+: t := by
  have hfresh := fresh_of_mem_scriptRuns hr
  have hload : Recorded (fs.Declares mode) (loadProgram fs mode r.path) r.start
      fun _ tree _ => ∀ d ∈ entriesCommands tree.entries, d.Known (fs.Declares mode) :=
    (keeps_loadProgram fs mode r.path).recorded fun _ _ hy => known_of_loadProgram hy
  have hpasses : Passes (fs.Declares mode) (compileFile fs mode (r.depth + 1) r.path) r.start
      (onward (loadProgram fs mode r.path) r.start fun tree t =>
        entriesMoments fs (fileImporter fs mode r.depth) tree.entries t) := by
    rw [compileFile_succ]
    exact .after hload fun _ tree u _ hknown =>
      passes_compileEntries (recordsImports_fileImporter fs mode r.depth) tree.entries u hknown
  have hend : Course (fs.Declares mode) (r.code fs mode) [(r.ending fs mode).2]
      (r.code fs mode) := ⟨.refl _, .refl _⟩
  have hcourse : Course (fs.Declares mode) .empty (r.moments fs mode) (r.code fs mode) := by
    rw [← hfresh.code]
    exact ⟨.refl _, (hpasses hfresh.sound).append hend⟩
  exact hcourse.exists_cuts

theorem exists_cut_of_mem {cuts : List (List Edit)} {u : CompileState}
    (h : us.map (·.file.code) = cuts.map Assembly.empty.replay) (hu : u ∈ us) :
    ∃ cut ∈ cuts, Assembly.empty.replay cut = u.file.code := by
  have hmem : u.file.code ∈ us.map (·.file.code) := List.mem_map.mpr ⟨u, hu, rfl⟩
  rw [h] at hmem
  exact List.mem_map.mp hmem

theorem extends_of_mem_moments {mode : ReadMode} {path : String} {r : Run} {u : CompileState}
    (hr : r ∈ scriptRuns fs mode path) (hu : u ∈ r.moments fs mode) :
    u.file.code.Extends (r.code fs mode) := by
  obtain ⟨t, cuts, hlaw, hcode, hmoments, -, hcuts⟩ := exists_cuts hr
  obtain ⟨cut, hcut, hu⟩ := exists_cut_of_mem hmoments hu
  rw [← hu, hcode]
  exact (Assembly.lawful_of_isPrefix hlaw (hcuts cut hcut)).2

end EvScript
