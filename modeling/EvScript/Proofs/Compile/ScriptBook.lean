import EvScript.Proofs.Control.Itinerary

/-!
# Every Compilation Keeps a Book

Statements, functions, entries and files keep a book of the commands they declare and the calls they
compile, and the book accounts for the code. An imported file writes into the same book, although
its code is dropped: its declarations and its calls are part of the run.
-/

namespace EvScript

open CompileM

variable {given : Instr → Prop} {s t u : CompileState}

/-! ### Statements -/

/-- From `s` to `t` a book is kept that accounts for the code. -/
def BookedWay (given : Instr → Prop) (s t : CompileState) : Prop :=
  ∃ log, Book s log t ∧ ∀ i, t.file.code.Holds i → s.file.code.Holds i ∨ given i ∨ Accounted log i

theorem BookedWay.trans (h : BookedWay given s t) (h' : BookedWay given t u) :
    BookedWay given s u := by
  obtain ⟨log, hbook, hcode⟩ := h
  obtain ⟨log', hbook', hcode'⟩ := h'
  refine ⟨log ++ log', hbook.trans hbook', fun i hi => ?_⟩
  rcases hcode' i hi with hi | hg | hacc
  · exact (hcode i hi).imp_right (Or.imp_right Accounted.append_left)
  · exact .inr (.inl hg)
  · exact .inr (.inr hacc.append_right)

namespace CompileM

variable {α : Type} {m : CompileM α} {a : α}

theorem Booked.way (h : BookedUnit given s m) (hy : Yields m s a t) : BookedWay given s t := by
  obtain ⟨log, hbook, -, hcode⟩ := h a t hy
  exact ⟨log, hbook, hcode⟩

theorem Booked.of_way (h : ∀ a t, Yields m s a t → BookedWay given s t) : BookedUnit given s m := by
  intro a t hy
  obtain ⟨log, hbook, hcode⟩ := h a t hy
  exact ⟨log, hbook, nofun, hcode⟩

theorem Booked.emit {m : CompileM (List Instr)} {β : Type} (h : Booked given s m id) (l : LabelId)
    {next : CompileM β} (hnext : ∀ given t, BookedUnit given t next) :
    BookedUnit given s (do CompileM.emit l (← m); next) :=
  h.bind fun _ _ _ => (booked_emit fun _ hi => .inl (.inr hi)).andThen fun _ t _ => hnext _ t

end CompileM

/-- **The statements of a body keep a book.** -/
theorem bodyInvariant_booked : BodyInvariant (fun _ => BookedWay given) fun _ _ _ => True where
  nil := ⟨[], .quiet (.refl _), fun _ h => .inl h⟩
  append := BookedWay.trans
  leaf {pos l last x s t} hx _ hy := by
    refine Booked.way ?_ hy
    rw [compileStatement.eq_def]
    cases x with
    | define d => exact (booked_define .body d).emit l fun _ _ => .pure_nil rfl
    | assign a => exact (booked_compileAssignment a).emit l fun _ _ => .pure_nil rfl
    | call c =>
      refine .after (silent_resolveCall _) fun ⟨callee, args⟩ t hcall => ?_
      cases callee with
      | function f => exact .after (silent_warnFunctionCall _) fun _ _ _ => .pure_nil rfl
      | command d =>
        exact (booked_compileCommandCall (onShelf_of_resolveCall hcall)).bind fun i _ _ =>
          (booked_emit fun j hj => .inl (.inr hj)).andThen fun _ _ _ => .pure_nil rfl
    | inert rule => exact .pure_nil rfl
    | branch condition body elseIfs otherwise => cases hx
    | select subject cases switchPos => cases hx
  branch {l c body elseIfs otherwise arms s t} _ hy := by
    refine Booked.way ?_ hy
    exact booked_newChild.andThen fun after _ _ => booked_newChild.andThen fun inside _ _ =>
      .after (silent_need _ _) fun c _ _ =>
        (booked_compileCondition c inside).emit l fun _ _ => .pure_nil rfl
  select {l subject cases pos after s t} _ hy :=
    ((booked_compileSubject subject pos).emit l fun _ _ => booked_newChild).way hy
  case {l number name arm s t} _ hy := by
    refine Booked.way ?_ hy
    refine .after (silent_lift _ _) fun number _ _ => booked_newChild.andThen fun inside _ _ => ?_
    refine .after (silent_caseWord _ _) fun word _ _ => ?_
    cases word with
    | none => exact .pure_nil rfl
    | some word =>
      refine booked_target.andThen fun there _ _ => ?_
      refine (booked_emit fun i hi => .inr ?_).andThen fun _ t _ => .pure_nil rfl
      exact List.mem_singleton.mp hi ▸ .case _ _
  jump _ hy := booked_jump.way hy
  block henter h hleave := ((Booked.of_silent (silent_enterScope rfl)).way henter).trans
    (h.trans ((Booked.of_silent silent_leaveScope).way hleave))
  here := trivial
  behind _ _ := trivial
  enter _ _ := trivial

/-! ### Entries and files -/

variable {fs : Files} {importer : Importer}

/-- A declaration is written down. -/
theorem booked_declareCommand (d : CommandDecl) : BookedUnit given s (declareCommand d) := by
  intro u s' hy
  have hcode := (tableOnly_declareCommand d).code hy
  obtain ⟨name, number, result, rfl⟩ := yields_declareCommand hy
  let command : Command := ⟨name, number, result, s.unseen.size, d.pos⟩
  refine ⟨[.declare command (d.params.getD [])], .of_does ⟨rfl, rfl, fun _ h => ?_⟩, ?_,
    fun i hi => .inl (hi.of_moreStrings hcode)⟩
  · exact ScopeGraph.onShelf_of_addCommand h
  · rintro i ⟨⟩

theorem booked_compileFunction (f : FunctionDecl) : BookedUnit given s (compileFunction f) := by
  refine .of_way fun u t hy => ?_
  obtain ⟨name, parameters, result, s₁, s₂, -, -, henter, hbody, hleave⟩ :=
    bodyInvariant_booked.compileFunction hy
  have hopen : BookedWay given s (s.openFunction f name result) :=
    ⟨[], .quiet ⟨rfl, fun _ => ScopeGraph.onShelf_of_modify_of_eq fun _ => rfl⟩,
      fun _ hi => .inl hi.of_newLabel⟩
  exact hopen.trans (((Booked.of_silent (silent_enterScope rfl)).way henter).trans
    (hbody.all.trans ((Booked.of_silent silent_leaveScope).way hleave)))

/-- The importer keeps a book. -/
def KeepsBook (importer : Importer) : Prop :=
  ∀ (given : Instr → Prop) s path, BookedUnit given s (importer path)

theorem booked_importByName (hk : KeepsBook importer) (name : Option String) (pos : Pos) :
    BookedUnit given s (importByName fs importer name pos) := by
  unfold importByName
  refine .after (silent_need _ _) fun name _ _ => .get_bind ?_
  split
  · exact .stop
  · exact (hk given _ _).andThen fun _ _ _ => .pure_nil rfl

mutual

theorem booked_compileEntry (hk : KeepsBook importer) (given : Instr → Prop) :
    ∀ (e : Entry) (s : CompileState), BookedUnit given s (compileEntry fs importer e)
  | .define d, s => by
    rw [compileEntry]
    exact (booked_define .top d).bind fun _ _ _ => .pure_nil rfl
  | .command d, s => by
    rw [compileEntry]
    exact booked_declareCommand d
  | .function f, s => by
    rw [compileEntry]
    exact booked_compileFunction f
  | .importAll name pos, s => by
    rw [compileEntry]
    refine (booked_importByName hk name pos).andThen fun ⟨name, other⟩ _ _ => ?_
    exact .of_silent (silent_onGraph fun c g d => ScopeGraph.onShelf_of_mount)
  | .importFrom name everything pos, s => by
    rw [compileEntry]
    refine (booked_importByName hk name pos).andThen fun ⟨name, other⟩ _ _ => ?_
    cases everything with
    | none => exact .stop
    | some all =>
      cases all with
      | false => exact .throw
      | true => exact .of_silent (silent_onGraph fun c g d => ScopeGraph.onShelf_of_takeAll)
  | .space name entries, s => by
    rw [compileEntry]
    refine .after (silent_need _ _) fun name _ _ => .after (silent_enterScope rfl) fun _ t _ => ?_
    exact (booked_compileEntries hk given entries t).andThen fun _ _ _ =>
      .of_silent silent_leaveScope
  | .inert _, s => by
    rw [compileEntry]
    exact .pure_nil rfl

theorem booked_compileEntries (hk : KeepsBook importer) (given : Instr → Prop) :
    ∀ (es : List Entry) (s : CompileState), BookedUnit given s (compileEntries fs importer es)
  | [], s => by
    rw [compileEntries]
    exact .pure_nil rfl
  | e :: es, s => by
    rw [compileEntries]
    exact (booked_compileEntry hk given e s).andThen fun _ t _ =>
      booked_compileEntries hk given es t

end

theorem booked_inFile {path : String} {step : CompileM Unit}
    (h : BookedUnit given (s.fresh path) step) : BookedUnit given s (inFile path step) := by
  intro cursor s' hy
  obtain ⟨t, ht, -, rfl⟩ := yields_inFile.mp hy
  obtain ⟨log, hbook, -, -⟩ := h _ t ht
  have hopen : Quiet s (s.fresh path) := ⟨rfl, fun _ => ScopeGraph.onShelf_of_start⟩
  have hclose : Quiet t { t with file := s.file } := ⟨rfl, fun _ h => h⟩
  refine ⟨log ++ [], .of_quiet hopen (hbook.trans (.quiet hclose)), ?_, fun i hi => .inl hi⟩
  rintro i ⟨⟩

/-- **Compiling a file keeps a book** that accounts for its code. -/
theorem booked_compileFile (fs : Files) (mode : ReadMode) (given : Instr → Prop) :
    ∀ (n : Nat) (path : String) (s : CompileState), BookedUnit given s (compileFile fs mode n path)
  | 0, path, s => .throw
  | n + 1, path, s => by
    rw [compileFile_succ]
    refine .after (silent_loadProgram fs mode path) fun tree t _ => ?_
    refine booked_compileEntries (fun given s path => ?_) given tree.entries t
    exact .after (silent_printLine _) fun _ t _ =>
      booked_inFile (booked_compileFile fs mode given n path _)

end EvScript
