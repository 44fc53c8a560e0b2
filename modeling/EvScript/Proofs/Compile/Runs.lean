import EvScript.Proofs.Compile.ScriptRecord

/-!
# Runs

A script is compiled by going through its own file, and before that through the files it imports,
and the files these import. Each time a file is gone through is a **run**, with code of its own
that begins empty. The runs of a script are written down here, in the order in which they begin;
what lies behind a fault has no runs.
-/

namespace EvScript

open CompileM

variable {path : String}

/-- A file that is gone through from a state, with imports nested up to `depth` deep. -/
structure Run where
  depth : Nat
  path : String
  start : CompileState

namespace Run

/-- How the run ends, and the state it leaves. -/
def ending (fs : Files) (mode : ReadMode) (r : Run) : Except Fault Unit × CompileState :=
  CompileM.ending (compileFile fs mode (r.depth + 1) r.path) r.start

/-- The code that the run leaves, whether it comes to the end or not. -/
def code (fs : Files) (mode : ReadMode) (r : Run) : Assembly := (r.ending fs mode).2.file.code

/-- The functions that the run comes to. -/
def visits (fs : Files) (mode : ReadMode) (r : Run) : List (FunctionDecl × CompileState) :=
  fileVisits fs mode r.depth r.path r.start

/-- The run begins without code, and in sound scopes. -/
structure Fresh (known : Option Int → Prop) (r : Run) : Prop where
  code : r.start.file.code = .empty
  sound : r.start.graph.Sound known

end Run

/-! ### Runs of a program -/

/-- The runs of an import by name, given those of a file. -/
def importRuns (fs : Files) (inner : String → CompileState → List Run) (name : Option String)
    (s : CompileState) : List Run :=
  (name.bind (findImport fs s.file.path)).toList.flatMap fun path => inner path s

mutual

/-- The runs of an entry, given those of a file. -/
def entryRuns (fs : Files) (importer : Importer) (inner : String → CompileState → List Run) :
    Entry → CompileState → List Run
  | .importAll name _, s => importRuns fs inner name s
  | .importFrom name _ _, s => importRuns fs inner name s
  | .space name entries, s =>
    onward (need .word name >>= fun name => enterScope { name := some name }) s fun _ t =>
      entriesRuns fs importer inner entries t
  | _, _ => []

/-- The runs of the entries of a program, given those of a file. -/
def entriesRuns (fs : Files) (importer : Importer) (inner : String → CompileState → List Run) :
    List Entry → CompileState → List Run
  | [], _ => []
  | e :: es, s => entryRuns fs importer inner e s ++
    onward (compileEntry fs importer e) s fun _ t => entriesRuns fs importer inner es t

end

/-- The runs that a file takes, its own first, with imports nested less than `n` deep. -/
def fileRuns (fs : Files) (mode : ReadMode) : Nat → String → CompileState → List Run
  | 0, _, _ => []
  | n + 1, path, s => ⟨n, path, s⟩ :: onward (loadProgram fs mode path) s fun tree t =>
    entriesRuns fs (fileImporter fs mode n)
      (fun path u => onward (printLine (announcement path)) u fun _ v =>
        fileRuns fs mode n path (v.fresh path)) tree.entries t

/-- The runs of a script, the script itself first. -/
def scriptRuns (fs : Files) (mode : ReadMode) (path : String) : List Run :=
  fileRuns fs mode (fs.entries.length + 1) path (.start path)

/-- The run of the script itself. -/
def mainRun (fs : Files) (path : String) : Run := ⟨fs.entries.length, path, .start path⟩

theorem mainRun_mem (fs : Files) (mode : ReadMode) (path : String) :
    mainRun fs path ∈ scriptRuns fs mode path :=
  List.mem_cons_self

/-- A script ends as its own run does. -/
theorem ending_mainRun (fs : Files) (mode : ReadMode) (path : String) :
    (mainRun fs path).ending fs mode =
      ((compileScript fs mode path).ended, (compileScript fs mode path).state) :=
  rfl

/-! ### Where runs begin -/

variable {known : Option Int → Prop} {fs : Files} {mode : ReadMode} {importer : Importer}
  {inner : String → CompileState → List Run} {s : CompileState} {r : Run}

/-- The property `I` of states lasts from entry to entry, and a fresh file that is gone through
there begins with the property `P`. -/
structure Lasts (fs : Files) (mode : ReadMode) (I P : CompileState → Prop) : Prop where
  start {s : CompileState} : P s → I s
  load {path : String} {tree : Tree} {s t : CompileState} : I s →
    Yields (loadProgram fs mode path) s tree t → I t
  enter {name : String} {s t : CompileState} : I s →
    Yields (enterScope { name := some name }) s () t → I t
  entry {n : Nat} {e : Entry} {s t : CompileState} :
    (∀ d ∈ entryCommands e, d.Known (fs.Declares mode)) → I s →
    Yields (compileEntry fs (fileImporter fs mode n) e) s () t → I t
  fresh {path : String} {s t : CompileState} : I s →
    Yields (printLine (announcement path)) s () t → P (t.fresh path)

namespace Lasts

variable {I P : CompileState → Prop} {n : Nat}

mutual

theorem entryRuns (h : Lasts fs mode I P) (hin : ∀ path s, I s → ∀ r ∈ inner path s, P r.start) :
    ∀ (e : Entry) (s : CompileState), (∀ d ∈ entryCommands e, d.Known (fs.Declares mode)) → I s →
    ∀ r ∈ entryRuns fs (fileImporter fs mode n) inner e s, P r.start
  | .importAll name _, s, _, hs, r, hr => by
    rw [EvScript.entryRuns] at hr
    obtain ⟨path, -, hr⟩ := List.mem_flatMap.mp hr
    exact hin path s hs r hr
  | .importFrom name _ _, s, _, hs, r, hr => by
    rw [EvScript.entryRuns] at hr
    obtain ⟨path, -, hr⟩ := List.mem_flatMap.mp hr
    exact hin path s hs r hr
  | .space name entries, s, hd, hs, r, hr => by
    rw [EvScript.entryRuns] at hr
    obtain ⟨_, t, hy, hr⟩ := mem_onward.mp hr
    obtain ⟨name, -, henter⟩ := hy.need_bind
    exact entriesRuns h hin entries t hd (h.enter hs henter) r hr
  | .define _, _, _, _, _, hr | .command _, _, _, _, _, hr | .function _, _, _, _, _, hr
  | .inert _, _, _, _, _, hr => by simp [EvScript.entryRuns] at hr

theorem entriesRuns (h : Lasts fs mode I P) (hin : ∀ path s, I s → ∀ r ∈ inner path s, P r.start) :
    ∀ (es : List Entry) (s : CompileState), (∀ d ∈ entriesCommands es, d.Known (fs.Declares mode)) →
    I s → ∀ r ∈ entriesRuns fs (fileImporter fs mode n) inner es s, P r.start
  | [], _, _, _, _, hr => by simp [EvScript.entriesRuns] at hr
  | e :: es, s, hd, hs, r, hr => by
    rw [entriesCommands, List.forall_mem_append] at hd
    rw [EvScript.entriesRuns] at hr
    rcases List.mem_append.mp hr with hr | hr
    · exact entryRuns h hin e s hd.1 hs r hr
    · obtain ⟨_, t, hy, hr⟩ := mem_onward.mp hr
      exact entriesRuns h hin es t hd.2 (h.entry hd.1 hs hy) r hr

end

theorem fileRuns (h : Lasts fs mode I P) : ∀ (n : Nat) (path : String) (s : CompileState), P s →
    ∀ r ∈ fileRuns fs mode n path s, P r.start
  | 0, _, _, _, _, hr => absurd hr List.not_mem_nil
  | n + 1, path, s, hs, r, hr => by
    rw [EvScript.fileRuns] at hr
    rcases List.mem_cons.mp hr with rfl | hr
    · exact hs
    · obtain ⟨tree, t, hload, hr⟩ := mem_onward.mp hr
      refine entriesRuns h ?_ tree.entries t (known_of_loadProgram hload)
        (h.load (h.start hs) hload) r hr
      intro path u hu r hr
      obtain ⟨_, v, hprint, hr⟩ := mem_onward.mp hr
      exact fileRuns h n path (v.fresh path) (h.fresh hu hprint) r hr

/-- **All runs of a script begin** with what lasts from entry to entry. -/
theorem scriptRuns (h : Lasts fs mode I P) (hs : P (.start path))
    (hr : r ∈ scriptRuns fs mode path) : P r.start :=
  h.fileRuns _ path _ hs r hr

end Lasts

theorem lasts_sound (fs : Files) (mode : ReadMode) :
    Lasts fs mode (·.graph.Sound (fs.Declares mode))
      fun s => s.file.code = .empty ∧ s.graph.Sound (fs.Declares mode) where
  start h := h.2
  load hs h := by rwa [((keeps_loadProgram fs mode _).unchanged h).2]
  enter hs h := (recorded_enterScope (Scope.sound_of_empty rfl rfl)).sound hs h
  entry hd hs h :=
    (recorded_compileEntry (recordsImports_fileImporter fs mode _) _ _ hd).sound hs h
  fresh hs h := by
    rw [← ((keeps_printLine _).unchanged h).2] at hs
    exact ⟨rfl, hs.start⟩

/-- **Every run of a script begins without code, and in sound scopes.** -/
theorem fresh_of_mem_scriptRuns (hr : r ∈ scriptRuns fs mode path) :
    r.Fresh (fs.Declares mode) := by
  obtain ⟨hcode, hsound⟩ := (lasts_sound fs mode).scriptRuns ⟨rfl, ScopeGraph.sound_empty.start⟩ hr
  exact ⟨hcode, hsound⟩

/-- **Every run of a script has a record.** Whether it comes to the end or not, its code is built
by lawful edits; if it does, the record makes the labels of its functions in their order. -/
theorem exists_record_of_run (hr : r ∈ scriptRuns fs mode path) :
    ∃ t, Lawful (fs.Declares mode) .empty t ∧ r.code fs mode = Assembly.empty.replay t ∧
      ((r.ending fs mode).1 = .ok () →
        t.filterMap Edit.name = labelNamesOf (r.visits fs mode)) := by
  have hfresh := fresh_of_mem_scriptRuns hr
  obtain ⟨t, hlaw, hcode, -, hpost⟩ :=
    recorded_compileFile fs mode r.depth r.path r.start hfresh.sound
  rw [hfresh.code] at hlaw hcode
  refine ⟨t, hlaw, hcode, fun hok => ?_⟩
  have hy : Yields (compileFile fs mode (r.depth + 1) r.path) r.start () (r.ending fs mode).2 :=
    Prod.ext hok rfl
  exact (hpost () _ hy).names

/-! ### Where functions begin -/

mutual

theorem sound_of_mem_entryVisits (hk : RecordsImports known importer) :
    ∀ (e : Entry) (s : CompileState), (∀ d ∈ entryCommands e, d.Known known) →
    s.graph.Sound known → ∀ v ∈ entryVisits fs importer e s, v.2.graph.Sound known
  | .function f, s, _, hs, v, hv => by
    rw [entryVisits] at hv
    rwa [List.mem_singleton.mp hv]
  | .space name entries, s, hd, hs, v, hv => by
    rw [entryVisits] at hv
    exact sound_of_mem_visits hk entries _ hd
      ((recorded_enterScope (Scope.sound_of_empty rfl rfl)).ending_sound hs) v hv
  | .define _, _, _, _, _, hv | .command _, _, _, _, _, hv | .importAll _ _, _, _, _, _, hv
  | .importFrom _ _ _, _, _, _, _, hv | .inert _, _, _, _, _, hv => by simp [entryVisits] at hv

theorem sound_of_mem_visits (hk : RecordsImports known importer) :
    ∀ (es : List Entry) (s : CompileState), (∀ d ∈ entriesCommands es, d.Known known) →
    s.graph.Sound known → ∀ v ∈ visits fs importer es s, v.2.graph.Sound known
  | [], _, _, _, _, hv => by simp [visits] at hv
  | e :: es, s, hd, hs, v, hv => by
    rw [entriesCommands, List.forall_mem_append] at hd
    rw [visits] at hv
    rcases List.mem_append.mp hv with hv | hv
    · exact sound_of_mem_entryVisits hk e s hd.1 hs v hv
    · exact sound_of_mem_visits hk es _ hd.2 ((recorded_compileEntry hk e s hd.1).ending_sound hs)
        v hv

end

/-- **The functions of a script begin in sound scopes.** -/
theorem sound_of_mem_scriptVisits {v : FunctionDecl × CompileState}
    (hv : v ∈ scriptVisits fs mode path) : v.2.graph.Sound (fs.Declares mode) := by
  rw [scriptVisits_eq, fileVisits] at hv
  obtain ⟨tree, t, hload, hv⟩ := mem_onward.mp hv
  have ht : t.graph.Sound (fs.Declares mode) := by
    rw [((keeps_loadProgram fs mode path).unchanged hload).2]
    exact ScopeGraph.sound_empty.start
  exact sound_of_mem_visits (recordsImports_fileImporter fs mode _) tree.entries t
    (known_of_loadProgram hload) ht v hv

end EvScript
