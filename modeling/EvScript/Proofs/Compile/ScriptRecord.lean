import EvScript.Proofs.Control.Gates

/-!
# The Record of a Script

The record of a script is put together from the records of its functions; declarations and imports
change the scopes only, because an imported file is compiled with code of its own, which is dropped.
So the labels that are no children are those of the functions, in their order, and every gate stands
in the body of one of them.
-/

namespace EvScript

open CompileM

variable {vs : List Variable} {u : CompileState} {path : String}
variable {known : Option Int → Prop} {s : CompileState} {fs : Files} {importer : Importer}

/-! ### Functions -/

theorem sound_parameterVariables {ps : List Param} {given : List Int}
    (h : parameterVariables ps given = .ok vs) : ∀ v ∈ vs, v.Sound := by
  induction ps generalizing given vs with
  | nil =>
    cases h
    exact fun _ hv => absurd hv List.not_mem_nil
  | cons p ps ih =>
    rw [parameterVariables] at h
    cases hp : p.read with
    | error e =>
      rw [hp] at h
      cases h
    | ok parameter =>
      rw [hp] at h
      cases hrest : parameterVariables ps (parameter.toVariable given).2 with
      | error e =>
        simp only [bind, Except.bind, hrest] at h
        cases h
      | ok rest =>
        simp only [bind, Except.bind, hrest] at h
        cases h
        exact List.forall_mem_cons.mpr ⟨Variable.sound_of_none rfl, ih hrest⟩

theorem sound_parameterScope (h : ∀ v ∈ vs, v.Sound) : (parameterScope vs).Sound known :=
  Scope.Sound.insertAll sound_default h

/-- Beginning a function makes its label. -/
theorem recorded_beginFunction (f : FunctionDecl) :
    Recorded known (beginFunction f) s fun t head s' => head.1.Sound known ∧
      head.2 = s.file.code.labels.size ∧
      s'.file.code.labels.size = s.file.code.labels.size + 1 ∧
      ∃ name, f.labelName = some name ∧ t = [.label name] := by
  unfold beginFunction FunctionDecl.labelName
  cases f.name with
  | none => exact (keeps_stop _ _).recorded fun _ _ h => h.stop.elim
  | some name =>
    refine (keeps_lift _ _).andThen fun parameters _ hp _ _ => ?_
    obtain ⟨hparameters, rfl⟩ := hp.lift
    refine (keeps_lift _ _).andThen fun result _ hr _ _ => ?_
    obtain ⟨-, rfl⟩ := hr.lift
    have hlabel : Recorded known (newLabel (functionLabel f.kind name)) s fun t x s' =>
        t = [.label (functionLabel f.kind name)] ∧ x = s.file.code.labels.size ∧
          s'.file.code.labels.size = s.file.code.labels.size + 1 :=
      .onCode (.label _) rfl trivial ⟨rfl, Assembly.newLabel_fst _ _, by simp [Assembly.edit]⟩
    refine hlabel.bind ?_
    rintro _ _ u - ⟨rfl, rfl, hsize⟩
    refine .get_bind ?_
    have hdeclare : ∀ g, Recorded known (onGraph fun c graph => c.addFunction graph g) u
        fun t _ s' => t = [] ∧ s'.file.code = u.file.code :=
      fun g => .modify rfl (fun hs => hs.addFunction g) ⟨rfl, rfl⟩
    refine (hdeclare _).bind ?_
    rintro _ _ v - ⟨rfl, hv⟩
    have hlocals : Keeps codeAndGraph (modify fun s : CompileState =>
        { s with file := { s.file with locals := [] } }) :=
      .modify fun _ => rfl
    refine hlocals.andThen fun _ w _ hw _ => .pure ?_
    refine ⟨sound_parameterScope (sound_parameterVariables hparameters), rfl, ?_, ?_⟩
    · rw [hw, hv, hsize]
    · exact ⟨functionLabel f.kind name, rfl, rfl⟩

/-- The arrivals in the bodies of functions, each compiled from the state given with it. -/
def arrivalsOf (fns : List (FunctionDecl × CompileState)) : List Arrival :=
  fns.flatMap fun v => bodyArrivals v.1 v.2

/-- The names of the labels of functions. -/
def labelNamesOf (fns : List (FunctionDecl × CompileState)) : List String :=
  fns.filterMap fun v => v.1.labelName

/-- **The record of a function** makes its label and goes on with its body. -/
theorem recorded_compileFunction (f : FunctionDecl) :
    Recorded known (compileFunction f) s fun t _ s' =>
      Stretch s.file.code.labels.size s'.file.code.labels.size nowhere (labelNamesOf [(f, s)])
        (arrivalsOf [(f, s)]) t := by
  rw [compileFunction_eq]
  refine (recorded_beginFunction f).bind ?_
  rintro _ ⟨scope, label⟩ u hu ⟨hscope, rfl, hsize, name, hname, rfl⟩
  refine (recorded_compileBlock hscope f.body u _ (by omega)).bind
    fun t last v _ ⟨_, hbody⟩ => .pure ?_
  have hlabel : Stretch s.file.code.labels.size u.file.code.labels.size nowhere [name] []
      [.label name] := by
    refine ⟨by omega, fun e he y hy => ?_, rfl, fun _ h => absurd h List.not_mem_nil⟩
    rw [List.mem_singleton.mp he] at hy
    cases hy
  have hall := hlabel.append_same hbody fun _ h => h.elim
  rw [List.append_nil]
  simpa [labelNamesOf, arrivalsOf, hname, bodyArrivals, hu.onward] using hall

/-! ### Entries -/

mutual

/-- The commands that an entry declares. -/
def entryCommands : Entry → List CommandDecl
  | .command d => [d]
  | .space _ entries => entriesCommands entries
  | _ => []

/-- The commands that entries declare. -/
def entriesCommands : List Entry → List CommandDecl
  | [] => []
  | e :: es => entryCommands e ++ entriesCommands es

end

/-- The number of the declaration is known, if it has one. -/
def CommandDecl.Known (known : Option Int → Prop) (d : CommandDecl) : Prop :=
  ∀ number, optionalInt d.number = .ok number → known number

/-- Importing a file leaves the code as it is and the scopes sound. -/
def RecordsImports (known : Option Int → Prop) (importer : Importer) : Prop :=
  ∀ path s, Recorded known (importer path) s fun t _ _ => t = []

theorem recorded_declareCommand {d : CommandDecl} (hd : d.Known known) :
    Recorded known (declareCommand d) s fun t _ s' => t = [] ∧ s'.file.code = s.file.code := by
  unfold declareCommand
  split
  · exact (keeps_stop _ _).recorded fun _ _ h => h.stop.elim
  · refine (keeps_lift _ _).andThen fun number _ hn _ _ => ?_
    obtain ⟨hnumber, rfl⟩ := hn.lift
    refine (keeps_lift _ _).andThen fun result _ hr _ _ => ?_
    obtain ⟨-, rfl⟩ := hr.lift
    refine .get_bind ?_
    have hunseen : ∀ ps, Keeps codeAndGraph (modify fun s : CompileState =>
        { s with unseen := s.unseen.push ps }) := fun ps => .modify fun _ => rfl
    refine (hunseen _).andThen fun _ u _ hu _ => ?_
    exact .modify rfl (fun hs => hs.addCommand (hd number hnumber)) ⟨rfl, hu⟩

theorem recorded_importByName (hk : RecordsImports known importer) (name : Option String)
    (pos : Pos) : Recorded known (importByName fs importer name pos) s fun t _ s' =>
      t = [] ∧ s'.file.code = s.file.code := by
  unfold importByName
  refine (keeps_need _ _).andThen fun name u _ hu _ => .get_bind ?_
  split
  · exact (keeps_stop _ _).recorded fun _ _ h => h.stop.elim
  · refine ((hk _ u).mono fun t _ v _ _ hcode ht =>
      (⟨ht, by rw [hcode, ht]; rfl⟩ : t = [] ∧ v.file.code = u.file.code)).bind ?_
    rintro _ _ v - ⟨rfl, hv⟩
    exact .pure ⟨rfl, hv.trans hu⟩

theorem stretch_of_same (h : u.file.code = s.file.code) :
    Stretch s.file.code.labels.size u.file.code.labels.size nowhere [] [] [] := by
  rw [h]
  exact .nil

mutual

theorem recorded_compileEntry (hk : RecordsImports known importer) :
    ∀ (e : Entry) (s : CompileState), (∀ d ∈ entryCommands e, d.Known known) →
    Recorded known (compileEntry fs importer e) s fun t _ s' =>
      Stretch s.file.code.labels.size s'.file.code.labels.size nowhere
        (labelNamesOf (entryVisits fs importer e s)) (arrivalsOf (entryVisits fs importer e s)) t
  | .define d, s, _ => by
    rw [compileEntry]
    refine (tabled_define .top d).recorded.bind fun t _ u _ ⟨ht, hmore, _⟩ => .pure ?_
    rw [List.append_nil, hmore.size]
    exact .plain (Nat.le_refl _) (plain_of_onlyStrings ht)
  | .command d, s, hd => by
    rw [compileEntry]
    refine (recorded_declareCommand (hd d List.mem_cons_self)).mono ?_
    rintro _ _ s' - - - ⟨rfl, hcode⟩
    exact stretch_of_same hcode
  | .function f, s, _ => by
    rw [compileEntry]
    exact recorded_compileFunction f
  | .importAll name pos, s, _ => by
    rw [compileEntry]
    refine (recorded_importByName hk name pos).bind ?_
    rintro _ ⟨name, other⟩ u - ⟨rfl, hcode⟩
    exact .modify rfl (fun hs => hs.mount name) (stretch_of_same hcode)
  | .importFrom name everything pos, s, _ => by
    rw [compileEntry]
    refine (recorded_importByName hk name pos).bind ?_
    rintro _ ⟨name, other⟩ u - ⟨rfl, hcode⟩
    cases everything with
    | none => exact (keeps_stop _ _).recorded fun _ _ h => h.stop.elim
    | some all =>
      cases all with
      | false => exact (Keeps.throw _).recorded fun _ _ h => h.throw.elim
      | true => exact .modify rfl (fun hs => hs.takeAll) (stretch_of_same hcode)
  | .space name entries, s, hd => by
    rw [compileEntry]
    refine (keeps_need _ _).andThen fun name _ hn _ _ => ?_
    obtain ⟨rfl, rfl⟩ := hn.need
    have hscope : ({ name := some name } : Scope).Sound known := Scope.sound_of_empty rfl rfl
    refine (recorded_enterScope hscope).bind ?_
    rintro _ _ u hu ⟨rfl, hcode⟩
    refine (recorded_compileEntries hk entries u hd).bind fun t _ v _ hentries => ?_
    refine keeps_leaveScope.recorded fun _ w hw => ?_
    rw [entryVisits, hu.state,
      (keeps_leaveScope.unchanged hw).1, ← hcode, List.nil_append, List.append_nil]
    exact hentries
  | .inert _, s, _ => by
    rw [compileEntry]
    exact .pure .nil

theorem recorded_compileEntries (hk : RecordsImports known importer) :
    ∀ (es : List Entry) (s : CompileState), (∀ d ∈ entriesCommands es, d.Known known) →
    Recorded known (compileEntries fs importer es) s fun t _ s' =>
      Stretch s.file.code.labels.size s'.file.code.labels.size nowhere
        (labelNamesOf (visits fs importer es s)) (arrivalsOf (visits fs importer es s)) t
  | [], s, _ => by
    rw [compileEntries]
    exact .pure .nil
  | e :: es, s, hd => by
    rw [compileEntries]
    rw [entriesCommands, List.forall_mem_append] at hd
    refine (recorded_compileEntry hk e s hd.1).bind fun t _ u hu hfirst => ?_
    refine (recorded_compileEntries hk es u hd.2).mono fun t' _ s' _ _ _ hrest => ?_
    rw [visits, hu.state, labelNamesOf, arrivalsOf,
      List.filterMap_append, List.flatMap_append]
    exact hfirst.append_same hrest fun _ h => h.elim

end

/-! ### Files -/

/-- Catching a fault and doing something about it. -/
theorem ending_tryCatch {α : Type} (m : CompileM α) (k : Fault → CompileM α) (s : CompileState) :
    ending (tryCatch m k) s = match ending m s with
      | (.ok a, t) => (.ok a, t)
      | (.error e, t) => ending (k e) t := by
  unfold ending
  rw [ExceptT.run_tryCatch, StateT.run_bind]
  rcases StateT.run (ExceptT.run m) s with ⟨_ | a, t⟩ <;> rfl

/-- **However a step on a fresh file ends**, the file under way is as it was. -/
theorem ending_inFile (path : String) (step : CompileM Unit) (s : CompileState) :
    ending (inFile path step) s = match ending step (s.fresh path) with
      | (.ok _, t) => (.ok t.file.cursor, { t with file := s.file })
      | (.error e, t) => (.error e, { t with file := s.file }) := by
  show ending (tryCatch step (fun f => do
    let _ ← modifyGet fun t : CompileState => (t.file.cursor, { t with file := s.file })
    throw f) >>= fun _ => modifyGet fun t : CompileState =>
      (t.file.cursor, { t with file := s.file })) (s.fresh path) = _
  rw [ending_bind, ending_tryCatch]
  rcases ending step (s.fresh path) with ⟨e | _, t⟩ <;> rfl

/-- However a file that is imported ends, the file under way is as before. -/
theorem state_inFile (path : String) (step : CompileM Unit) (s : CompileState) :
    (ending (inFile path step) s).2 =
      { (ending step (s.fresh path)).2 with file := s.file } := by
  rw [ending_inFile]
  rcases ending step (s.fresh path) with ⟨e | _, u⟩ <;> rfl

/-- A file that is imported leaves the importing file alone, and the scopes sound. -/
theorem recorded_inFile {step : CompileM Unit} {post : List Edit → Unit → CompileState → Prop}
    (h : Recorded known step (s.fresh path) post) :
    Recorded known (inFile path step) s fun t _ _ => t = [] := by
  intro hs
  obtain ⟨t, -, -, hsound, -⟩ := h hs.start
  have hend := state_inFile path step s
  refine ⟨[], trivial, ?_, ?_, fun _ _ _ => rfl⟩
  · rw [hend]
    rfl
  · rw [hend]
    exact hsound

theorem result?_loadProgram (fs : Files) (mode : ReadMode) (path : String) (s s' : CompileState) :
    result? (loadProgram fs mode path) s = result? (loadProgram fs mode path) s' := by
  unfold loadProgram
  split
  · rfl
  · split
    · rfl
    · dsimp only
      split
      · split <;> rfl
      · rfl

/-- The program that stands in the file at a path, if it can be read. -/
def Files.tree? (fs : Files) (mode : ReadMode) (path : String) : Option Tree :=
  result? (loadProgram fs mode path) (.start path)

/-- The commands that files declare. -/
def Files.commands (fs : Files) (mode : ReadMode) : List CommandDecl :=
  fs.entries.flatMap fun e => (fs.tree? mode e.1).toList.flatMap fun tree =>
    entriesCommands tree.entries

/-- Some file declares a command with the number. -/
def Files.Declares (fs : Files) (mode : ReadMode) (number : Option Int) : Prop :=
  ∃ d ∈ fs.commands mode, optionalInt d.number = .ok number

theorem exists_entry_of_loadProgram {mode : ReadMode} {tree : Tree}
    (h : Yields (loadProgram fs mode path) s tree u) :
    ∃ e ∈ fs.entries, fs.tree? mode e.1 = some tree := by
  have htree : fs.tree? mode path = some tree := by
    rw [Files.tree?, result?_loadProgram fs mode path _ s]
    exact h.result?
  obtain ⟨bytes, -, hbytes, -⟩ := exists_text_of_loadProgram h
  obtain ⟨e, he, -⟩ := Option.map_eq_some_iff.mp hbytes
  have hpath : e.1 = path := by simpa using List.find?_some he
  exact ⟨e, List.mem_of_find?_eq_some he, hpath ▸ htree⟩

/-- The commands of a file that was read are among those that files declare. -/
theorem known_of_loadProgram {mode : ReadMode} {tree : Tree}
    (h : Yields (loadProgram fs mode path) s tree u) :
    ∀ d ∈ entriesCommands tree.entries, d.Known (fs.Declares mode) := by
  intro d hd number hnumber
  obtain ⟨e, he, htree⟩ := exists_entry_of_loadProgram h
  refine ⟨d, List.mem_flatMap.mpr ⟨e, he, ?_⟩, hnumber⟩
  rw [htree]
  exact List.mem_flatMap.mpr ⟨tree, by simp, hd⟩

/-- The functions of a file, each with the state in which the compilation comes to it, with
imports nested up to `n` deep. -/
def fileVisits (fs : Files) (mode : ReadMode) (n : Nat) (path : String) (s : CompileState) :
    List (FunctionDecl × CompileState) :=
  onward (loadProgram fs mode path) s fun tree t =>
    visits fs (fileImporter fs mode n) tree.entries t

mutual

theorem recordsImports_fileImporter (fs : Files) (mode : ReadMode) :
    ∀ n, RecordsImports (fs.Declares mode) (fileImporter fs mode n)
  | 0 => fun path s => by
    unfold fileImporter
    refine (keeps_printLine _).andThen fun _ u _ _ _ => ?_
    have hnone : Recorded (fs.Declares mode) (compileFile fs mode 0 path) (u.fresh path)
        fun _ _ _ => True := (Keeps.throw _).recorded fun _ _ _ => trivial
    exact recorded_inFile hnone
  | n + 1 => fun path s => by
    unfold fileImporter
    refine (keeps_printLine _).andThen fun _ u _ _ _ => ?_
    exact recorded_inFile (recorded_compileFile fs mode n path _)

/-- **The record of a file**: the stretches of its functions, one after the other. -/
theorem recorded_compileFile (fs : Files) (mode : ReadMode) :
    ∀ (n : Nat) (path : String) (s : CompileState),
    Recorded (fs.Declares mode) (compileFile fs mode (n + 1) path) s fun t _ s' =>
      Stretch s.file.code.labels.size s'.file.code.labels.size nowhere
        (labelNamesOf (fileVisits fs mode n path s)) (arrivalsOf (fileVisits fs mode n path s)) t
  | n, path, s => by
    rw [compileFile_succ]
    refine (keeps_loadProgram fs mode path).andThen fun tree u hu hcode _ => ?_
    rw [fileVisits, hu.onward, ← hcode]
    exact recorded_compileEntries (recordsImports_fileImporter fs mode n) tree.entries u
      (known_of_loadProgram hu)

end

/-! ### Scripts -/

theorem scriptVisits_eq (fs : Files) (mode : ReadMode) (path : String) :
    scriptVisits fs mode path = fileVisits fs mode fs.entries.length path (.start path) := by
  unfold scriptVisits fileVisits onward
  rcases ending (loadProgram fs mode path) (.start path) with ⟨e | tree, s⟩ <;> rfl

/-- **Every script has a record.** Whether the script is compiled to the end or not, its code is
built by lawful edits; if it is, the record makes the labels of the functions in their order, and
every gate is tested where a question is asked. -/
theorem exists_record (fs : Files) (mode : ReadMode) (path : String) :
    ∃ t, Lawful (fs.Declares mode) .empty t ∧
      (compileScript fs mode path).state.file.code = Assembly.empty.replay t ∧
      ((compileScript fs mode path).ended = .ok () →
        Stretch 0 (compileScript fs mode path).state.file.code.labels.size nowhere
          (labelNamesOf (scriptVisits fs mode path))
          (arrivalsOf (scriptVisits fs mode path)) t) := by
  have hstart : (CompileState.start path).graph.Sound (fs.Declares mode) :=
    ScopeGraph.sound_empty.start
  obtain ⟨t, hlaw, hcode, -, hpost⟩ :=
    recorded_compileFile fs mode fs.entries.length path (.start path) hstart
  refine ⟨t, hlaw, hcode, fun hok => ?_⟩
  rw [scriptVisits_eq]
  exact hpost () _ (compileScript_ended_iff.mp hok)

/-- The compilation comes to the end, in a state that is as the check wants it. -/
def Outcome.endsWith (check : CompileState → Bool) : Outcome → Bool
  | ⟨.ok _, state⟩ => check state
  | ⟨.error _, _⟩ => false

theorem Outcome.eq_of_endsWith {check : CompileState → Bool} {o : Outcome}
    (h : o.endsWith check = true) : ∃ state, o = ⟨.ok (), state⟩ ∧ check state = true := by
  obtain ⟨e | u, state⟩ := o
  · cases h
  · exact ⟨state, rfl, h⟩

end EvScript
