import EvScript.Proofs.Control.Compiled

/-!
# Code Runs as the Program Is Written

A flow that lies in code, all of whose choices have an arm to take, is run as it says. So it is with
the body of every function of a script that was compiled to the end, in the code of the whole
script, if the names of labels are distinct: where two have the same name, jumps to the first one go
astray.

## Main results

* `run_eq_exec` — the code of a function runs as its body is written.
-/

namespace EvScript

open CompileM Assembly

/-! ### Flows that lie in code -/

theorem plain_of_all {is : List Instr} (h : (is.all fun i => !i.isControl) = true) :
    ∀ i ∈ is, i.isControl = false := by
  simpa using h

mutual

/-- **A flow that lies in code is run as it says**, from its first spot to its last one. -/
theorem Flow.Laid.reaches {c : Assembly} (hu : c.Unclashed) (oracle : Oracle) :
    ∀ (flow : Flow) {n : Nat} {x y : Spot} {e : Nat}, flow.Laid c n x y e →
    flow.plain = true → flow.closed = true → ∀ h : History,
    c.Reaches oracle ⟨x, h⟩ ⟨y, flow.exec oracle h⟩
  | .done, n, x, y, e, hlaid, _, _, h => by
    obtain ⟨rfl, -⟩ := hlaid
    exact .refl _ _ _
  | .next (.perform is) rest, n, x, y, e, hlaid, hp, hc, h => by
    obtain ⟨hstands, hrest⟩ := hlaid
    simp only [Flow.plain, Step.plain, Bool.and_eq_true] at hp
    simp only [Flow.closed, Bool.and_eq_true] at hc
    exact (Reaches.stands hstands (plain_of_all hp.1) oracle h).trans
      (Flow.Laid.reaches hu oracle rest hrest hp.2 hc.2 _)
  | .next (.choose setup arms) rest, n, x, y, e, hlaid, hp, hc, h => by
    obtain ⟨hstands, after, d, -, hafter, harms, hrest, -⟩ := hlaid
    simp only [Flow.plain, Step.plain, Bool.and_eq_true] at hp
    simp only [Flow.closed, Step.closed, Bool.and_eq_true] at hc
    have hsetup := Reaches.stands hstands (plain_of_all hp.1.1) oracle h
    exact (hsetup.trans (Arms.Laid.reaches hu oracle arms hafter harms hp.1.2 hc.1 _)).trans
      (Flow.Laid.reaches hu oracle rest hrest hp.2 hc.2 _)

/-- Whichever arm is taken, control comes to the label behind the choice. -/
theorem Arms.Laid.reaches {c : Assembly} (hu : c.Unclashed) (oracle : Oracle) :
    ∀ (arms : Arms) {after : Nat} {x : Spot} {e : Nat}, after < c.labels.size →
    arms.Laid c after x e → arms.plain = true → arms.closed = true → ∀ h : History,
    c.Reaches oracle ⟨x, h⟩ ⟨⟨after, 0⟩, arms.exec oracle h⟩
  | .none, _, _, _, _, _, _, hc, _ => by simp [Arms.closed] at hc
  | .bare _ _, _, _, _, _, _, _, hc, _ => by simp [Arms.closed] at hc
  | .test q body rest, after, x, e, ha, hlaid, hp, hc, h => by
    obtain ⟨⟨inside, y, d, hin, hq, hat, hbody, hjump, -⟩, hrest⟩ := hlaid
    simp only [Arms.plain, Bool.and_eq_true] at hp
    simp only [Arms.closed, Bool.and_eq_true] at hc
    have htest := Reaches.test hu hin hq hat oracle h
    cases hans : oracle h q with
    | true =>
      rw [hans] at htest
      have hin := Flow.Laid.reaches hu oracle body hbody hp.1 hc.1 (h ++ [.asked q true])
      simpa [Arms.exec, hans] using
        (htest.trans hin).trans (Reaches.jump hu ha hjump oracle _)
    | false =>
      rw [hans] at htest
      have hon := Arms.Laid.reaches hu oracle rest ha hrest hp.2 hc.2 (h ++ [.asked q false])
      simpa [Arms.exec, hans] using htest.trans hon
  | .otherwise body rest, after, x, e, ha, hlaid, hp, hc, h => by
    obtain ⟨y, d, hbody, hjump, -⟩ := hlaid
    simp only [Arms.plain, Bool.and_eq_true] at hp
    rw [Arms.closed] at hc
    exact (Flow.Laid.reaches hu oracle body hbody hp.1 hc h).trans
      (Reaches.jump hu ha hjump oracle _)

end

/-! ### Entries -/

variable {fs : Files} {importer : Importer}

/-- The importer comes back to the file under way as it was. -/
def KeepsFile (importer : Importer) : Prop :=
  ∀ path s cursor s', Yields (importer path) s cursor s' → s'.file = s.file

theorem keepsFile_fileImporter (fs : Files) (mode : ReadMode) (n : Nat) :
    KeepsFile (fileImporter fs mode n) := by
  intro path s cursor s' h
  obtain ⟨_, t, hprint, h⟩ := h.bind
  obtain ⟨u, -, -, rfl⟩ := yields_inFile.mp h
  obtain rfl := hprint.modify
  rfl

/-- An import leaves the code as it was. -/
theorem KeepsFile.importByName (hk : KeepsFile importer) {name : Option String} {pos : Pos}
    {s s' : CompileState} {r : String × Cursor}
    (h : Yields (importByName fs importer name pos) s r s') : s'.file = s.file := by
  obtain ⟨name, -, h⟩ := h.need_bind
  replace h := h.get_bind
  split at h
  · exact h.stop.elim
  · obtain ⟨cursor, hi, -⟩ := h.bind_pure
    exact hk _ _ _ _ hi

mutual

/-- The functions of an entry, each with the state in which the compilation comes to it. -/
def entryVisits (fs : Files) (importer : Importer) :
    Entry → CompileState → List (FunctionDecl × CompileState)
  | .function f, s => [(f, s)]
  | .space name entries, s =>
    visits fs importer entries (ending (enterScope { name := name }) s).2
  | _, _ => []

/-- The functions of a program, each with the state in which the compilation comes to it. -/
def visits (fs : Files) (importer : Importer) :
    List Entry → CompileState → List (FunctionDecl × CompileState)
  | [], _ => []
  | e :: es, s =>
    entryVisits fs importer e s ++ visits fs importer es (ending (compileEntry fs importer e) s).2

end

/-- From the code `c` to the code `c'` the functions were compiled, one behind the other; besides
them there are only more strings. -/
inductive Visited : List (FunctionDecl × CompileState) → Assembly → Assembly → Prop
  | aside {c c' : Assembly} : c.MoreStrings c' → Visited [] c c'
  | function {f : FunctionDecl} {s t : CompileState} : Yields (compileFunction f) s () t →
    Visited [(f, s)] s.file.code t.file.code
  | append {V W : List (FunctionDecl × CompileState)} {c c' c'' : Assembly} : Visited V c c' →
    Visited W c' c'' → Visited (V ++ W) c c''

mutual

theorem visited_compileEntry (hk : KeepsFile importer) : ∀ (e : Entry) {s t : CompileState},
    Yields (compileEntry fs importer e) s () t →
    Visited (entryVisits fs importer e s) s.file.code t.file.code
  | .define d, s, t, h => by
    rw [compileEntry] at h
    obtain ⟨_, hd, -⟩ := h.bind_pure
    exact .aside ((tableOnly_define .top d).code hd)
  | .command d, s, t, h => by
    rw [compileEntry] at h
    exact .aside ((tableOnly_declareCommand d).code h)
  | .function f, s, t, h => by
    rw [compileEntry] at h
    exact .function h
  | .importAll name pos, s, t, h => by
    rw [compileEntry] at h
    obtain ⟨⟨name, other⟩, u, hi, h⟩ := h.bind
    obtain rfl := h.onGraph
    rw [← hk.importByName hi]
    exact .aside (.refl _)
  | .importFrom name everything pos, s, t, h => by
    rw [compileEntry] at h
    obtain ⟨⟨name, other⟩, u, hi, h⟩ := h.bind
    cases everything with
    | none => exact h.stop.elim
    | some all =>
      cases all with
      | false => exact h.throw.elim
      | true =>
        obtain rfl := h.onGraph
        rw [← hk.importByName hi]
        exact .aside (.refl _)
  | .space name entries, s, t, h => by
    rw [compileEntry] at h
    obtain ⟨_, _, hneed, h⟩ := h.bind
    obtain ⟨rfl, rfl⟩ := hneed.need
    obtain ⟨_, t₁, h₁, h⟩ := h.bind
    obtain ⟨_, t₂, h₂, h₃⟩ := h.bind
    rw [entryVisits, h₁.state,
      yields_leaveScope_code h₃, ← yields_enterScope_code h₁]
    exact visited_compileEntries hk entries h₂
  | .inert _, s, t, h => by
    rw [compileEntry] at h
    obtain ⟨-, rfl⟩ := h.pure
    exact .aside (.refl _)

/-- **Compiling entries comes to their functions.** -/
theorem visited_compileEntries (hk : KeepsFile importer) : ∀ (es : List Entry)
    {s t : CompileState}, Yields (compileEntries fs importer es) s () t →
    Visited (visits fs importer es s) s.file.code t.file.code
  | [], s, t, h => by
    rw [compileEntries] at h
    obtain ⟨-, rfl⟩ := h.pure
    exact .aside (.refl _)
  | e :: es, s, t, h => by
    rw [compileEntries] at h
    obtain ⟨_, u, h₁, h₂⟩ := h.bind
    rw [visits, h₁.state]
    exact (visited_compileEntry hk e h₁).append (visited_compileEntries hk es h₂)

end

namespace Visited

variable {V : List (FunctionDecl × CompileState)} {c c' : Assembly}

theorem adds (h : Visited V c c') : Adds c c' := by
  induction h with
  | aside h => exact h.adds
  | function h => exact (compileFunction_lays h).1
  | append _ _ h h' => exact h.trans h'

/-- A function that the compilation comes to is compiled there; before and after that, labels
are added. -/
theorem exists_yields {f : FunctionDecl} {s : CompileState} (h : Visited V c c')
    (hf : (f, s) ∈ V) : ∃ t, Yields (compileFunction f) s () t ∧ Adds c s.file.code ∧
      Adds t.file.code c' := by
  induction h with
  | aside => cases hf
  | function h =>
    cases List.mem_singleton.mp hf
    exact ⟨_, h, .refl _, .refl _⟩
  | append h h' ih ih' =>
    rcases List.mem_append.mp hf with hf | hf
    · obtain ⟨t, hy, hbefore, hafter⟩ := ih hf
      exact ⟨t, hy, hbefore, hafter.trans h'.adds⟩
    · obtain ⟨t, hy, hbefore, hafter⟩ := ih' hf
      exact ⟨t, hy, h.adds.trans hbefore, hafter⟩

end Visited

/-! ### Scripts -/

/-- The functions of a script, each with the state in which the compilation comes to it. -/
def scriptVisits (fs : Files) (mode : ReadMode) (path : String) :
    List (FunctionDecl × CompileState) :=
  match ending (loadProgram fs mode path) (.start path) with
  | (.ok tree, s) => visits fs (fileImporter fs mode fs.entries.length) tree.entries s
  | (.error _, _) => []

theorem visited_compileScript {mode : ReadMode} {path : String}
    (hok : (compileScript fs mode path).ended = .ok ()) :
    Visited (scriptVisits fs mode path) .empty (compileScript fs mode path).state.file.code := by
  have h := compileScript_ended_iff.mp hok
  rw [compileFile_succ] at h
  obtain ⟨tree, s, hload, h⟩ := h.bind
  have hvisits : scriptVisits fs mode path =
      visits fs (fileImporter fs mode fs.entries.length) tree.entries s := by
    unfold scriptVisits
    rw [hload.ends]
  rw [hvisits]
  exact (Visited.aside ((silent_loadProgram fs mode path).code hload)).append
    (visited_compileEntries (keepsFile_fileImporter fs mode fs.entries.length) _ h)

/-- A function of a script that was compiled to the end, in the code of the script. -/
theorem compileFunction_of_mem_scriptVisits {mode : ReadMode} {path : String} {f : FunctionDecl}
    {t : CompileState} (hok : (compileScript fs mode path).ended = .ok ())
    (hf : (f, t) ∈ scriptVisits fs mode path) :
    (compileScript fs mode path).state.file.code.Tied ∧
    ∃ t', Yields (compileFunction f) t () t' ∧
      Adds t'.file.code (compileScript fs mode path).state.file.code := by
  have hvisited := visited_compileScript hok
  obtain ⟨t', hfun, -, hadds⟩ := hvisited.exists_yields hf
  exact ⟨hvisited.adds.tied tied_empty, t', hfun, hadds⟩

/-- **Control-flow correctness.** Take a script that is compiled to the end, without two labels of
the same name, and one of its functions, in the body of which every `if` has an `else` and every
`switch` ends with its only default. The function has a label of its name in the code, and it stands
for a flow: every `if` of a number and something in a register, or of a flag, asks its question, and
every case that is a number or the name of an integer constant is an arm with that word. If no
command that it calls moves control, then for every oracle the run from that label halts, and what
has happened is what happens in the flow. -/
theorem run_eq_exec (fs : Files) (mode : ReadMode) (path : String)
    (hok : (compileScript fs mode path).ended = .ok ())
    (hdistinct : (compileScript fs mode path).state.file.code.Distinct)
    (f : FunctionDecl) (t : CompileState) (hf : (f, t) ∈ scriptVisits fs mode path)
    (hcomplete : f.body.complete = true) :
    ∃ code flow u start, code = (compileScript fs mode path).state.file.code ∧
      Yields (outlineFunction f) (t.withCode code) flow u ∧
      f.StandsFor (t.withCode code) flow u ∧
      f.labelName.bind code.labelCalled = some start ∧
      (flow.plain = true → ∀ oracle, ∃ n, ∀ m, n ≤ m →
        code.run oracle m ⟨⟨start, 0⟩, []⟩ = some (flow.exec oracle [])) := by
  obtain ⟨htied, t', hfun, hadds⟩ := compileFunction_of_mem_scriptVisits hok hf
  generalize (compileScript fs mode path).state.file.code = code at *
  have hu : code.Unclashed := htied.unclashed hdistinct
  obtain ⟨-, hlt, ⟨name, hname, hindex⟩, flow, ho, hlaid⟩ := compileFunction_lays hfun
  obtain ⟨y, e, hflow, hend⟩ := hlaid code hadds
  have hy := ho.yields code hadds.strings
  have hstands := FunctionDecl.standsFor_of_outline hy
  refine ⟨code, flow, _, t.file.code.labels.size, rfl, hy, hstands, ?_, ?_⟩
  · rw [hname, Option.bind_some, labelCalled, idxOf?_of_prefix hadds.strings hindex,
      Option.bind_some, ← hadds.label _ hlt]
    exact hu _ (Nat.lt_of_lt_of_le hlt hadds.size)
  · intro hplain oracle
    have hclosed := FunctionDecl.closed_of_complete hstands hcomplete
    obtain ⟨n, hn⟩ := (hflow.reaches hu oracle flow hplain hclosed []).run_eq hend
    exact ⟨n, fun m hm => run_mono hn hm⟩

/-- A script with a choice inside a choice. -/
def forkFiles : Files :=
  ⟨[("fork.evc", ("command c():5;int v:9;function f()\x7bif(v==1)\x7bc();\x7delse\x7b" ++
    "switch(v)\x7bcase 2:c();default:c();\x7d\x7dc();\x7d").toUTF8)]⟩

/-- The flow performs no instruction that moves control; what happens in it is of the one length if
all questions are answered with yes, and of the other if they are answered with no. -/
def Flow.forks (yes no : Nat) (flow : Flow) : Bool :=
  flow.plain && (flow.exec (fun _ _ => true) []).length == yes &&
    (flow.exec (fun _ _ => false) []).length == no

/-- The body of the function is complete, and over the code its flow forks. -/
def readyIn (code : Assembly) (v : FunctionDecl × CompileState) : Bool :=
  v.1.body.complete && match ending (outlineFunction v.1) (v.2.withCode code) with
    | (.ok flow, _) => flow.forks 3 5
    | (.error _, _) => false

set_option maxRecDepth 100000 in
theorem forkFiles_ready : ∃ state,
    compileScript forkFiles .strict "fork.evc" = ⟨.ok (), state⟩ ∧ state.file.code.Distinct ∧
      ∃ v ∈ scriptVisits forkFiles .strict "fork.evc", readyIn state.file.code v = true := by
  have hcheck : (match compileScript forkFiles .strict "fork.evc" with
      | ⟨.ok _, state⟩ => decide state.file.code.Distinct &&
        (scriptVisits forkFiles .strict "fork.evc").any (readyIn state.file.code)
      | ⟨.error _, _⟩ => false) = true := by
    decide +kernel
  split at hcheck
  · rename_i state hscript
    simp only [Bool.and_eq_true, decide_eq_true_eq, List.any_eq_true] at hcheck
    exact ⟨state, hscript, hcheck⟩
  · cases hcheck

/-- If the first question is answered with yes, two commands are performed behind it; if all are
answered with no, the case is asked for as well, once its value is taken. -/
theorem run_eq_exec_fork : ∃ v ∈ scriptVisits forkFiles .strict "fork.evc",
    ∃ code flow u start, code = (compileScript forkFiles .strict "fork.evc").state.file.code ∧
      v.1.StandsFor (v.2.withCode code) flow u ∧ flow.forks 3 5 = true ∧
      v.1.labelName.bind code.labelCalled = some start ∧
      ∀ oracle, ∃ n, ∀ m, n ≤ m →
        code.run oracle m ⟨⟨start, 0⟩, []⟩ = some (flow.exec oracle []) := by
  obtain ⟨state, hscript, hdistinct, v, hv, hready⟩ := forkFiles_ready
  simp only [readyIn, Bool.and_eq_true] at hready
  have hok := congrArg Outcome.ended hscript
  have hstate : state = (compileScript forkFiles .strict "fork.evc").state :=
    (congrArg Outcome.state hscript).symm
  rw [hstate] at hdistinct hready
  obtain ⟨code, flow, u, start, hcode, hflow, hstands, hstart, hrun⟩ :=
    run_eq_exec forkFiles .strict "fork.evc" hok hdistinct v.1 v.2 hv hready.1
  have hforks := hready.2
  rw [← hcode, hflow.ends] at hforks
  refine ⟨v, hv, code, flow, u, start, hcode, hstands, hforks, hstart, hrun ?_⟩
  simp only [Flow.forks, Bool.and_eq_true] at hforks
  exact hforks.1.1

end EvScript
