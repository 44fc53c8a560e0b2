import EvScript.Proofs.Compile.ScriptRecord
import EvScript.Proofs.Compile.Works

/-!
# The Log and the Outcome

A compilation that is stopped has an error as the last entry of its log. The other errors in the log
are **complaints** about variables outside all functions that name no storage: these do not stop it.
Besides being stopped, a compilation can end with a fault that is told nowhere. The log and the
outcome agree exactly if there are neither complaints nor such a fault.

## Main results

* `agrees_iff_all_told` — when the log and the outcome agree.
-/

namespace EvScript

open CompileM

/-- The messages of the errors in a log. -/
def errorsOf (log : List LogEntry) : List String :=
  (log.filter (·.level = .error)).map (·.message)

@[simp] theorem errorsOf_append (log log' : List LogEntry) :
    errorsOf (log ++ log') = errorsOf log ++ errorsOf log' := by
  rw [errorsOf, List.filter_append, List.map_append, errorsOf, errorsOf]

/-- What a log tells of how a step ended: besides an error that stops it, and then comes last, it
has the errors `told`. A fault that does not stop it is told nowhere. -/
inductive Reports {α : Type} : Except Fault α → List String → List LogEntry → Prop where
  | goes {a : α} {told : List String} {log : List LogEntry} : errorsOf log = told →
      Reports (.ok a) told log
  | stops {told : List String} (log : List LogEntry) (message : String) : errorsOf log = told →
      Reports (.error .stopped) told (log ++ [⟨.error, message⟩])
  | fails {e : Fault} {told : List String} {log : List LogEntry} : e.isUntold = true →
      errorsOf log = told → Reports (.error e) told log

/-- Begun in `s`, the step adds to the log what tells of its end and the errors `told`. -/
def Logs {α : Type} (m : CompileM α) (s : CompileState) (told : List String) : Prop :=
  ∃ log, (ending m s).2.log = s.log ++ log ∧ Reports (ending m s).1 told log

variable {α β : Type} {m : CompileM α} {f : α → CompileM β} {s t : CompileState}
  {told told' : List String} {log log' : List LogEntry}

theorem Reports.error {e : Fault} (h : Reports (.error e : Except Fault α) told log) :
    Reports (.error e : Except Fault β) told log := by
  cases h with
  | stops log message h => exact .stops log message h
  | fails he h => exact .fails he h

theorem Reports.after {r : Except Fault α} (h : Reports r told' log') (hlog : errorsOf log = told) :
    Reports r (told ++ told') (log ++ log') := by
  subst hlog
  cases h with
  | goes h => exact .goes (by rw [errorsOf_append, h])
  | stops log' message h =>
    rw [← List.append_assoc]
    exact .stops _ message (by rw [errorsOf_append, h])
  | fails he h => exact .fails he (by rw [errorsOf_append, h])

namespace Logs

theorem of_yields {a : α} (h : Yields m s a t) (hlog : t.log = s.log) : Logs m s [] := by
  refine ⟨[], ?_, ?_⟩
  · rw [h.ends, List.append_nil, hlog]
  · rw [h.ends]
    exact .goes rfl

theorem pure (a : α) : Logs (Pure.pure a) s [] := of_yields rfl rfl

theorem throw {e : Fault} (h : e.isUntold = true) : Logs (throw e : CompileM α) s [] :=
  ⟨[], (List.append_nil _).symm, .fails h rfl⟩

/-- A sequence logs what its first part does and, if that goes on, what the second part does. -/
theorem bind {later : α → CompileState → List String} (hm : Logs m s told)
    (hf : ∀ a t, Yields m s a t → Logs (f a) t (later a t)) :
    Logs (m >>= f) s (told ++ onward m s later) := by
  obtain ⟨log, hlog, hreports⟩ := hm
  rw [Logs, ending_bind]
  unfold onward
  cases hend : ending m s with
  | mk r t =>
    rw [hend] at hlog hreports
    cases r with
    | error e =>
      rw [List.append_nil]
      exact ⟨log, hlog, hreports.error⟩
    | ok a =>
      obtain ⟨log', hlog', hreports'⟩ := hf a t hend
      cases hreports with
      | goes h =>
        refine ⟨log ++ log', ?_, hreports'.after h⟩
        rw [hlog', show t.log = _ from hlog, List.append_assoc]

theorem after {later : α → CompileState → List String} (hm : Logs m s [])
    (hf : ∀ a t, Yields m s a t → Logs (f a) t (later a t)) :
    Logs (m >>= f) s (onward m s later) :=
  hm.bind hf

theorem before (hm : Logs m s told) (hf : ∀ a t, Yields m s a t → Logs (f a) t []) :
    Logs (m >>= f) s told := by
  have h := hm.bind hf
  rwa [onward_nil, List.append_nil] at h

theorem get_bind {k : CompileState → CompileM α} (h : Logs (k s) s told) :
    Logs (get >>= k) s told := h

end Logs

/-! ### Small steps and bodies -/

theorem logs_seekReturn (serial i : Nat) (ps : List Param) (s : CompileState) :
    Logs (seekReturn serial i ps) s [] := by
  induction ps generalizing i s with
  | nil => exact .pure _
  | cons p ps ih =>
    have hread : ∀ t, Logs (lift id p.read) t [] := by
      intro t
      cases hp : p.read with
      | error e => exact .throw (p.untold_read e hp)
      | ok parameter => exact .pure _
    refine Logs.before (.of_yields rfl rfl) fun _ t _ => (hread t).before fun parameter u _ => ?_
    split
    · exact Logs.before ⟨[_], rfl, .goes rfl⟩ fun _ _ _ => .pure _
    · exact ih (i + 1) u

/-- **A small step without complaints** tells of an error only to stop. -/
theorem CompileM.DoesOnly.logs (h : DoesOnly (· ≠ .complaint) m) : ∀ s, Logs m s [] := by
  induction h with
  | pure a => exact fun _ => .pure a
  | throw h => exact fun _ => .throw h
  | bind _ _ hm hf => exact fun s => (hm s).before fun a t hy => hf a s t hy t
  | place | printLine | errors | intern => exact fun _ => .of_yields rfl rfl
  | resolve shelf name =>
    intro s
    cases name with
    | none => exact .throw rfl
    | some name => exact .of_yields rfl rfl
  | @tell level message h =>
    refine fun s => ⟨[⟨level, message⟩], rfl, .goes ?_⟩
    have hlevel : level ≠ .error := fun he => h he rfl
    simp [errorsOf, hlevel]
  | stopWith message => exact fun s => ⟨_, rfl, .stops [] message rfl⟩
  | returnIndex c => exact fun s => .get_bind (logs_seekReturn _ _ _ s)
  | allocateLocal type pos =>
    intro s
    unfold EvScript.allocateLocal
    dsimp only
    split
    · rw [stop_bind]
      exact ⟨_, rfl, .stops [] _ rfl⟩
    · refine .get_bind ?_
      split
      · exact Logs.before (.of_yields rfl rfl) fun _ _ _ => .pure _
      · exact ⟨_, rfl, .stops [] _ rfl⟩

/-- **A body tells of an error only to stop.** -/
theorem Works.logs (h : Works (· ≠ .complaint) m) : ∀ s, Logs m s [] := by
  induction h with
  | does h => exact h.logs
  | bind _ _ hm hf => exact fun s => (hm s).before fun a t hy => hf a s t hy t
  | emit | jump | newChild | target | onGraph | enterScope => exact fun _ => .of_yields rfl rfl
  | leaveScope =>
    refine fun s => .get_bind ?_
    split
    · exact .of_yields rfl rfl
    · exact ⟨[_], rfl, .goes rfl⟩

theorem bodies_uncomplaining : Effect.Bodies (· ≠ .complaint) := ⟨nofun, nofun, fun _ _ _ => nofun⟩

theorem logs_compileFunction (f : FunctionDecl) (s : CompileState) :
    Logs (compileFunction f) s [] := by
  have hbody : ∀ scope l, Works (· ≠ .complaint) (compileBlock scope l f.body) := fun scope l =>
    works_compileBlock bodies_uncomplaining scope l f.body fun _ _ _ _ => nofun
  rw [compileFunction]
  split
  · exact (DoesOnly.stop _ _).logs s
  · refine ((DoesOnly.lift (untold_parameterVariables _ _)).logs s).before fun parameters t _ =>
      ((DoesOnly.lift (untold_resultOf _)).logs t).before fun result u _ => ?_
    refine Logs.before (.of_yields rfl rfl) fun label v _ => .get_bind ?_
    refine ((Works.onGraph _).logs v).before fun _ v _ =>
      Logs.before (.of_yields rfl rfl) fun _ w _ => ?_
    exact ((hbody _ label).logs w).before fun _ _ _ => .pure _

theorem logs_declareCommand (d : CommandDecl) (s : CompileState) :
    Logs (declareCommand d) s [] := by
  rw [declareCommand]
  split
  · exact (DoesOnly.stop _ _).logs s
  · refine ((DoesOnly.lift (untold_optionalInt _)).logs s).before fun number t _ =>
      ((DoesOnly.lift (untold_resultOf _)).logs t).before fun result u _ => .get_bind ?_
    exact Logs.before (.of_yields rfl rfl) fun _ v _ => (Works.onGraph _).logs v

/-! ### Complaints -/

/-- A definition of a variable that names no storage. -/
def Definition.isUnplaced (d : Definition) : Bool :=
  (typeOf d.type).toBool && d.name.isSome && !d.isConst && d.storage.isNone

/-- The complaints about a definition outside all functions. -/
def Definition.complaints (d : Definition) (s : CompileState) : List String :=
  if d.isUnplaced then ["Unable to allocate work at this scope at: " ++ (s.file.path ++ ":" ++
    toString d.pos.line ++ ":" ++ toString d.pos.column)] else []

theorem logs_define (d : Definition) (s : CompileState) :
    Logs (define .top d) s (d.complaints s) := by
  have hgive : ∀ v t, Logs (giveValue true v d.value) t [] := fun v =>
    (doesOnly_giveValue fun a _ c _ => bodies_uncomplaining.call fun _ _ _ _ => nofun).logs
  refine Logs.before ?_ fun _ t _ => ((Works.onGraph _).logs t).before fun _ _ _ => .pure _
  rw [compileDefinition_eq, Definition.complaints, Definition.isUnplaced]
  cases htype : typeOf d.type with
  | error e => exact .throw (untold_typeOf _ e htype)
  | ok typed =>
    obtain ⟨word, type⟩ := typed
    cases d.name with
    | none => exact .throw rfl
    | some name =>
      cases d.isConst with
      | true =>
        refine ((DoesOnly.lift (untold_optionalInt d.storage)).logs s).before fun number t _ => ?_
        rw [if_pos rfl]
        split
        · exact ((doesOnly_constantOf _ _).logs t).before fun _ _ _ => .pure _
        · exact (DoesOnly.stop _ _).logs t
      | false =>
        cases d.storage with
        | none =>
          exact Logs.before (m := allocate .top type d.pos) ⟨[_], rfl, .goes rfl⟩ fun _ t _ =>
            hgive _ t
        | some n =>
          refine ((DoesOnly.lift (untold_optionalInt (some n))).logs s).before fun number t h => ?_
          obtain ⟨k, rfl⟩ : ∃ k, number = some k := by
            obtain ⟨hn, -⟩ := h.lift
            rw [optionalInt] at hn
            cases hk : n.toInt with
            | error e =>
              rw [hk] at hn
              cases hn
            | ok k =>
              rw [hk] at hn
              exact ⟨k, (Except.ok.inj hn).symm⟩
          exact hgive _ t

variable {fs : Files} {importer : Importer} {inner : String → CompileState → List String}

mutual

/-- The complaints about an entry, given those about a file. -/
def entryComplaints (fs : Files) (importer : Importer)
    (inner : String → CompileState → List String) : Entry → CompileState → List String
  | .define d, s => d.complaints s
  | .importAll name _, s | .importFrom name _ _, s =>
    (name.bind (findImport fs s.file.path)).toList.flatMap fun path => inner path s
  | .space name entries, s =>
    onward (need .word name >>= fun name => enterScope { name := some name }) s fun _ t =>
      entriesComplaints fs importer inner entries t
  | _, _ => []

/-- The complaints about the entries of a program, given those about a file. -/
def entriesComplaints (fs : Files) (importer : Importer)
    (inner : String → CompileState → List String) : List Entry → CompileState → List String
  | [], _ => []
  | e :: es, s => entryComplaints fs importer inner e s ++
    onward (compileEntry fs importer e) s fun _ t => entriesComplaints fs importer inner es t

end

/-- The complaints about a file, with imports nested less than `n` deep. -/
def fileComplaints (fs : Files) (mode : ReadMode) : Nat → String → CompileState → List String
  | 0, _, _ => []
  | n + 1, path, s => onward (loadProgram fs mode path) s fun tree t =>
    entriesComplaints fs (fileImporter fs mode n)
      (fun path u => onward (printLine (announcement path)) u fun _ v =>
        fileComplaints fs mode n path (v.fresh path)) tree.entries t

/-- The complaints about a script, in the order in which they are told. -/
def scriptComplaints (fs : Files) (mode : ReadMode) (path : String) : List String :=
  fileComplaints fs mode (fs.entries.length + 1) path (.start path)

theorem logs_importByName (hk : ∀ path s, Logs (importer path) s (inner path s))
    (name : Option String) (pos : Pos) (s : CompileState) :
    Logs (importByName fs importer name pos) s
      ((name.bind (findImport fs s.file.path)).toList.flatMap fun path => inner path s) := by
  cases name with
  | none => exact .throw rfl
  | some name =>
    rw [importByName, show need .word (some name) = (pure name : CompileM String) from rfl,
      pure_bind, Option.bind_some]
    refine .get_bind ?_
    cases findImport fs s.file.path name with
    | none => exact (DoesOnly.stop _ _).logs s
    | some path =>
      rw [Option.toList_some, List.flatMap_singleton]
      exact (hk path s).before fun _ _ _ => .pure _

mutual

theorem logs_compileEntry (hk : ∀ path s, Logs (importer path) s (inner path s)) :
    ∀ (e : Entry) (s : CompileState),
    Logs (compileEntry fs importer e) s (entryComplaints fs importer inner e s)
  | .define d, s => by
    rw [compileEntry, entryComplaints]
    exact (logs_define d s).before fun _ _ _ => .pure _
  | .command d, s => by
    rw [compileEntry]
    exact logs_declareCommand d s
  | .function f, s => by
    rw [compileEntry]
    exact logs_compileFunction f s
  | .importAll name pos, s => by
    rw [compileEntry, entryComplaints]
    exact (logs_importByName hk name pos s).before fun _ t _ => (Works.onGraph _).logs t
  | .importFrom name everything pos, s => by
    rw [compileEntry, entryComplaints]
    refine (logs_importByName hk name pos s).before fun _ t _ => ?_
    cases everything with
    | none => exact (DoesOnly.stop _ _).logs t
    | some all =>
      cases all with
      | false => exact .throw rfl
      | true => exact (Works.onGraph _).logs t
  | .space name entries, s => by
    rw [compileEntry, entryComplaints]
    have hopen : Works (· ≠ .complaint)
        (need .word name >>= fun name => enterScope { name := some name }) :=
      (Works.does (.need _ _)).then fun _ => .enterScope _
    have hall := (hopen.logs s).after fun _ t _ =>
      (logs_compileEntries hk entries t).before fun _ u _ => Works.leaveScope.logs u
    simpa only [bind_assoc] using hall
  | .inert _, s => by
    rw [compileEntry]
    exact .pure _

theorem logs_compileEntries (hk : ∀ path s, Logs (importer path) s (inner path s)) :
    ∀ (es : List Entry) (s : CompileState),
    Logs (compileEntries fs importer es) s (entriesComplaints fs importer inner es s)
  | [], s => by
    rw [compileEntries, entriesComplaints]
    exact .pure _
  | e :: es, s => by
    rw [compileEntries, entriesComplaints]
    exact (logs_compileEntry hk e s).bind fun _ t _ => logs_compileEntries hk es t

end

theorem logs_inFile {path : String} {step : CompileM Unit} (h : Logs step (s.fresh path) told) :
    Logs (inFile path step) s told := by
  obtain ⟨log, hlog, hreports⟩ := h
  rw [Logs, ending_inFile]
  cases hend : ending step (s.fresh path) with
  | mk r t =>
    rw [hend] at hlog hreports
    cases r with
    | error e => exact ⟨log, hlog, hreports.error⟩
    | ok =>
      cases hreports with
      | goes h => exact ⟨log, hlog, .goes h⟩

theorem logs_compileFile (fs : Files) (mode : ReadMode) : ∀ (n : Nat) (path : String)
    (s : CompileState), Logs (compileFile fs mode n path) s (fileComplaints fs mode n path s)
  | 0, _, _ => .throw rfl
  | n + 1, path, s => by
    rw [compileFile_succ, fileComplaints]
    refine ((doesOnly_loadProgram fs mode path).logs s).after fun tree t _ =>
      logs_compileEntries (fun path u => ?_) tree.entries t
    exact Logs.after (.of_yields rfl rfl) fun _ v _ =>
      logs_inFile (logs_compileFile fs mode n path (v.fresh path))

/-! ### Scripts -/

/-- **The log and the outcome agree**: the compilation comes to the end and the log tells of no
error, or it is stopped, and the last entry of the log, and no other, tells of an error. -/
def Outcome.Agrees (o : Outcome) : Prop :=
  (o.ended = .ok () ∧ errorsOf o.state.log = []) ∨ (o.ended = .error .stopped ∧
    ∃ front message, o.state.log = front ++ [⟨.error, message⟩] ∧ errorsOf front = [])

theorem reports_compileScript (fs : Files) (mode : ReadMode) (path : String) :
    Reports (compileScript fs mode path).ended (scriptComplaints fs mode path)
      (compileScript fs mode path).state.log := by
  obtain ⟨log, hlog, h⟩ := logs_compileFile fs mode (fs.entries.length + 1) path (.start path)
  rwa [show (compileScript fs mode path).state.log = [] ++ log from hlog]

theorem Outcome.agrees_iff {o : Outcome} (h : Reports o.ended told o.state.log) :
    o.Agrees ↔ told = [] ∧ ∀ e, o.ended = .error e → e.isUntold = false := by
  obtain ⟨ended, state⟩ := o
  rw [Agrees]
  dsimp only at h ⊢
  generalize state.log = log at h ⊢
  cases h with
  | goes h =>
    subst h
    simp
  | stops log message h =>
    subst h
    constructor
    · rintro (⟨hok, -⟩ | ⟨-, front, message', hlog, hnone⟩)
      · cases hok
      · obtain ⟨rfl, -⟩ := List.append_inj' hlog rfl
        refine ⟨hnone, fun e he => ?_⟩
        cases he
        rfl
    · rintro ⟨hnone, -⟩
      exact .inr ⟨rfl, _, message, rfl, hnone⟩
  | fails he h =>
    constructor
    · rintro (⟨hok, -⟩ | ⟨hstopped, -⟩)
      · cases hok
      · cases hstopped
        cases he
    · rintro ⟨-, htold⟩
      exact absurd (htold _ rfl) (ne_true_of_eq_false · he)

/-- **When the log and the outcome agree.** They do exactly if there are no complaints and no fault
that is told nowhere ends the compilation. -/
theorem agrees_iff_all_told (fs : Files) (mode : ReadMode) (path : String) :
    ((compileScript fs mode path).Agrees ↔ scriptComplaints fs mode path = [] ∧
      ∀ e, (compileScript fs mode path).ended = .error e → e.isUntold = false) ∧
    Reports (compileScript fs mode path).ended (scriptComplaints fs mode path)
      (compileScript fs mode path).state.log :=
  ⟨Outcome.agrees_iff (reports_compileScript fs mode path), reports_compileScript fs mode path⟩

/-- A script that gives a number to a fraction, and one with a variable that has no storage. -/
def untoldFiles : Files :=
  ⟨[("float.evc", "float x:3;function f()\x7bx=1;\x7d".toUTF8), ("int.evc", "int x;".toUTF8)]⟩

/-- The compilation ends over a number for what is no integer, and the log is empty. -/
def Outcome.isUntoldNumber : Outcome → Bool
  | ⟨.error .numberForOther, state⟩ => state.log.isEmpty
  | _ => false

theorem Outcome.eq_of_isUntoldNumber {o : Outcome} (h : o.isUntoldNumber = true) :
    o.ended = .error .numberForOther ∧ o.state.log = [] := by
  unfold isUntoldNumber at h
  split at h
  · exact ⟨rfl, List.isEmpty_iff.mp h⟩
  · cases h

set_option maxRecDepth 100000 in
/-- One script ends with a fault and an empty log, the other comes to its end with an error in the
log. -/
theorem number_for_float_is_untold :
    (compileScript untoldFiles .strict "float.evc").ended = .error .numberForOther ∧
    (compileScript untoldFiles .strict "float.evc").state.log = [] ∧
    ¬ (compileScript untoldFiles .strict "float.evc").Agrees ∧
    scriptComplaints untoldFiles .strict "int.evc" =
      ["Unable to allocate work at this scope at: int.evc:1:0"] ∧
    ¬ (compileScript untoldFiles .strict "int.evc").Agrees := by
  have hcheck : (compileScript untoldFiles .strict "float.evc").isUntoldNumber = true := by
    decide +kernel
  have hcomplaint : scriptComplaints untoldFiles .strict "int.evc" =
      ["Unable to allocate work at this scope at: int.evc:1:0"] := by
    decide +kernel
  obtain ⟨hended, hlog⟩ := Outcome.eq_of_isUntoldNumber hcheck
  refine ⟨hended, hlog, fun h => ?_, hcomplaint, fun h => ?_⟩
  · exact Bool.noConfusion (((agrees_iff_all_told _ _ _).1.mp h).2 _ hended)
  · rw [((agrees_iff_all_told _ _ _).1.mp h).1] at hcomplaint
    cases hcomplaint

end EvScript
