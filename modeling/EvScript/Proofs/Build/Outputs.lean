import EvScript.Build
import EvScript.Proofs.Compile.Listable
import EvScript.Proofs.Compile.Rereading

/-!
# What a Build Leaves in the Output Directory

A script is compiled within a build as it would be by itself, whatever was told and printed before.
If it is not compiled to the end, the output directory is left as it was. If it is, its own output
file is replaced and no other; without a listing that file is left **empty**.

## Main results

* `output_kept_iff_of_failed` — when a script that fails leaves its output file as it was.
-/

namespace EvScript

open CompileM

variable {fs : Files} {mode : ReadMode} {path name : String} {b b' : Build} {f : Fault}

/-! ### A script within a build -/

/-- The state in which a script begins within a build. -/
def Build.start (b : Build) (path : String) : CompileState :=
  { CompileState.start path with
    printed := b.printed ++ [announcement path], log := b.log
    lexErrors := b.lexErrors, syntaxErrors := b.syntaxErrors }

/-- A run lies in itself, whatever it says. -/
def Shift.unheard : Shift := { Shift.same with heard := false }

theorem Build.matches_start (b : Build) (path : String) :
    (CompileState.start path).Matches .unheard (.any path) (b.start path) := by
  have hsame : (CompileState.start path).Matches .same (.any path) (.start path) :=
    .refl (standing_start path) rfl
  exact { hsame with
    graph := { hsame.graph with scope := fun x => { hsame.graph.scope x with } }
    params := { hsame.params with }
    printed := fun h => nomatch h
    log := fun h => nomatch h }

/-- Within a build a script ends as it does by itself, with the same code. -/
theorem meets_compileScript (fs : Files) (mode : ReadMode) (path : String) (b : Build) :
    Meets .unheard (.any path) Eq
      ((compileScript fs mode path).ended, (compileScript fs mode path).state)
      (ending (compileFile fs mode (fs.entries.length + 1) path) (b.start path)) := by
  rw [compileScript_eq]
  exact tracks_compileFile (fun _ _ => rfl) (Files.alike_of_forall (fun _ => .of_bytes rfl) _ path)
    _ _ (b.matches_start path)

/-! ### One script -/

/-- What a build does when a script has been compiled. -/
def Build.finish (b : Build) (path : String) :
    Except Fault Unit × CompileState → Except Fault Unit × Build
  | (ended, s) =>
    let b := { b with
      printed := s.printed, log := s.log
      lexErrors := s.lexErrors, syntaxErrors := s.syntaxErrors }
    match ended with
    | .error f => (.error f, b)
    | .ok () => match b.write (outputName path) "" with
      | .error f => (.error f, b)
      | .ok opened => match s.file.code.print with
        | .error f => (.error f, opened)
        | .ok text => match opened.write (outputName path) text with
          | .error f => (.error f, opened)
          | .ok written => (.ok (), written)

theorem buildScript_eq (fs : Files) (mode : ReadMode) (path : String) (b : Build) :
    buildScript fs mode path b =
      b.finish path (ending (compileFile fs mode (fs.entries.length + 1) path) (b.start path)) :=
  rfl

/-- What is in an output file. -/
def Build.content? (b : Build) (name : String) : Option String := b.output.bind (·.find? name)

/-- What is written for code: its listing, or nothing if there is none. -/
def Assembly.written (code : Assembly) : String := code.print.toOption.getD ""

theorem Table.insert_insert {κ α : Type} [DecidableEq κ] (t : Table κ α) (key : κ) (a a' : α) :
    (t.insert key a).insert key a' = t.insert key a' := by
  obtain ⟨es⟩ := t
  simp only [insert, mk.injEq]
  induction es with
  | nil => simp [insertIn]
  | cons e es ih =>
    by_cases he : e.1 = key
    · simp [insertIn, he]
    · simp [insertIn, he, ih]

/-- A script that is not compiled to the end fails and leaves the output directory alone. -/
theorem buildScript_of_error {e : Fault} (h : (compileScript fs mode path).ended = .error e)
    (b : Build) :
    ∃ e' b', buildScript fs mode path b = (.error e', b') ∧ b'.output = b.output := by
  have hmeets := meets_compileScript fs mode path b
  rw [h] at hmeets
  rw [buildScript_eq]
  generalize ending (compileFile fs mode (fs.entries.length + 1) path)
    (b.start path) = r at hmeets ⊢
  obtain ⟨e' | _, s⟩ := r
  · exact ⟨e', _, rfl, rfl⟩
  · exact hmeets.elim

/-- A script that is compiled to the end replaces its output file if there is an output directory,
and fails if there is none, or no listing. -/
theorem buildScript_of_ok (h : (compileScript fs mode path).ended = .ok ()) {code : Assembly}
    (hcode : code = (compileScript fs mode path).state.file.code) (b : Build) :
    ∃ b', b'.output = b.output.map (·.insert (outputName path) code.written) ∧
      buildScript fs mode path b = ((match b.output with
        | none => .error (.noFile (joinPath outputDirectory (outputName path)))
        | some _ => code.print.map fun _ => ()), b') := by
  have hmeets := meets_compileScript fs mode path b
  rw [h] at hmeets
  rw [buildScript_eq]
  generalize ending (compileFile fs mode (fs.entries.length + 1) path)
    (b.start path) = r at hmeets ⊢
  obtain ⟨e' | _, s⟩ := r
  · exact hmeets.elim
  · have hsame : s.file.code = code := hmeets.2.code.trans hcode.symm
    obtain ⟨printed, log, lexErrors, syntaxErrors, output⟩ := b
    cases output with
    | none => exact ⟨_, rfl, rfl⟩
    | some files =>
      rw [Build.finish]
      simp only [Build.write, hsame, Assembly.written]
      cases code.print with
      | error e => exact ⟨_, rfl, rfl⟩
      | ok text =>
        refine ⟨_, ?_, rfl⟩
        exact congrArg some (Table.insert_insert files (outputName path) "" text)

theorem content?_of_output_eq (h : b'.output = b.output) (name : String) :
    b'.content? name = b.content? name := by
  rw [Build.content?, h, Build.content?]

theorem content?_insert_of_ne {file text : String}
    (h : b'.output = b.output.map (·.insert file text)) (hne : name ≠ file) :
    b'.content? name = b.content? name := by
  rw [Build.content?, Build.content?, h]
  cases b.output with
  | none => rfl
  | some files => exact files.find?_insert_of_ne text hne

theorem content?_insert_self {file text : String}
    (h : b'.output = b.output.map (·.insert file text)) (hdir : b.output.isSome = true) :
    b'.content? file = some text := by
  rw [Build.content?, h]
  obtain ⟨files, hfiles⟩ := Option.isSome_iff_exists.mp hdir
  rw [hfiles]
  exact files.find?_insert_self file text

/-- A script that fails although it is compiled to the end, with an output directory, has an
unlistable statement, and its output file is emptied. -/
theorem emptied_of_buildScript (h : buildScript fs mode path b = (.error f, b'))
    (hok : (compileScript fs mode path).ended = .ok ()) {code : Assembly}
    (hcode : code = (compileScript fs mode path).state.file.code) (hdir : b.output.isSome = true) :
    code.print = .error f ∧ b'.output = b.output.map (·.insert (outputName path) "") := by
  obtain ⟨b₁, houtput, hbuild⟩ := buildScript_of_ok hok hcode b
  rw [hbuild, Prod.mk.injEq] at h
  obtain ⟨herror, rfl⟩ := h
  obtain ⟨files, hfiles⟩ := Option.isSome_iff_exists.mp hdir
  rw [hfiles] at herror
  cases hprint : code.print with
  | error e =>
    rw [hprint] at herror
    cases herror
    rw [Assembly.written, hprint] at houtput
    exact ⟨rfl, houtput⟩
  | ok text =>
    rw [hprint] at herror
    cases herror

/-- A script that is not compiled to the end, or has no output directory, changes no output file. -/
theorem output_of_buildScript (h : buildScript fs mode path b = (.error f, b'))
    (hkept : (compileScript fs mode path).ended ≠ .ok () ∨ b.output = none) :
    b'.output = b.output := by
  cases hended : (compileScript fs mode path).ended with
  | error e =>
    obtain ⟨_, _, hfails, houtput⟩ := buildScript_of_error hended b
    rw [hfails, Prod.mk.injEq] at h
    exact h.2 ▸ houtput
  | ok u =>
    have hnone := hkept.resolve_left fun hne => hne hended
    obtain ⟨b₁, houtput, hbuild⟩ := buildScript_of_ok hended rfl b
    rw [hbuild, Prod.mk.injEq] at h
    rw [← h.2, houtput, hnone]
    rfl

/-! ### A script that fails -/

/-- **When a script that fails leaves its output file as it was.** Whatever fails, other output
files are not touched. The output file of the script itself is kept exactly if the script was not
compiled to the end, if there is no output directory, or if the file was empty before. Otherwise the
file is empty afterwards, whatever was in it; and this is the fault of an unlistable statement. -/
theorem output_kept_iff_of_failed (fs : Files) (mode : ReadMode) (path : String) (b b' : Build)
    (f : Fault) (code : Assembly) (hcode : code = (compileScript fs mode path).state.file.code)
    (h : buildScript fs mode path b = (.error f, b')) :
    (∀ name, name ≠ outputName path → b'.content? name = b.content? name) ∧
    (b'.content? (outputName path) = b.content? (outputName path) ↔
      (compileScript fs mode path).ended ≠ .ok () ∨ b.output = none ∨
        b.content? (outputName path) = some "") ∧
    ((compileScript fs mode path).ended = .ok () → b.output ≠ none →
      b'.content? (outputName path) = some "" ∧
        ∃ a ∈ scriptArrivals fs mode path, code.Lists a.label ∧
          a.statement.Unlistable a.state f) := by
  by_cases hkept : (compileScript fs mode path).ended ≠ .ok () ∨ b.output = none
  · have hsame := content?_of_output_eq (output_of_buildScript h hkept)
    refine ⟨fun name _ => hsame name, iff_of_true (hsame _) ?_, fun hok hdir => ?_⟩
    · exact hkept.imp_right .inl
    · exact (hkept.elim (· hok) hdir).elim
  · obtain ⟨hended, hdir⟩ := not_or.mp hkept
    have hok := not_not.mp hended
    obtain ⟨hprint, houtput⟩ :=
      emptied_of_buildScript h hok hcode (Option.isSome_iff_ne_none.mpr hdir)
    have hempty := content?_insert_self houtput (Option.isSome_iff_ne_none.mpr hdir)
    refine ⟨fun name hne => content?_insert_of_ne houtput hne, ?_, fun _ _ => ⟨hempty, ?_⟩⟩
    · rw [hempty]
      constructor
      · intro hsame
        exact .inr (.inr hsame.symm)
      · rintro (hne | hnone | hsame)
        · exact (hne hok).elim
        · exact (hdir hnone).elim
        · exact hsame.symm
    · exact unlistable_of_print hok hcode hprint

/-- An output directory with a listing in it. -/
def filledBuild : Build := ⟨[], [], [], [], some ⟨[("flag.ev", "_f:\n\t_RET()")]⟩⟩

/-- The script fails because of a flag. -/
def failsForFlag : Except Fault Unit × Build → Bool
  | (.error .flagOperand, _) => true
  | _ => false

theorem eq_of_failsForFlag {r : Except Fault Unit × Build} (h : failsForFlag r = true) :
    ∃ b', r = (.error .flagOperand, b') := by
  rw [failsForFlag.eq_def] at h
  split at h
  · exact ⟨_, rfl⟩
  · cases h

set_option maxRecDepth 100000 in
/-- A script with a flag that is built again: its listing is lost. -/
theorem listing_lost_for_flag : ∃ b',
    buildScript flagFiles .strict "flag.evc" filledBuild = (.error .flagOperand, b') ∧
      filledBuild.content? "flag.ev" = some "_f:\n\t_RET()" ∧ b'.content? "flag.ev" = some "" := by
  have hfails : failsForFlag (buildScript flagFiles .strict "flag.evc" filledBuild) = true := by
    decide +kernel
  have hends : (compileScript flagFiles .strict "flag.evc").endsWith (fun _ => true) = true := by
    decide +kernel
  obtain ⟨b', hbuild⟩ := eq_of_failsForFlag hfails
  obtain ⟨state, hscript, -⟩ := Outcome.eq_of_endsWith hends
  have hname : outputName "flag.evc" = "flag.ev" := by decide
  have hempty := ((output_kept_iff_of_failed flagFiles .strict "flag.evc"
    filledBuild b' .flagOperand
    _ rfl hbuild).2.2 (congrArg Outcome.ended hscript) (fun h => nomatch h)).1
  exact ⟨b', hbuild, by decide, hname ▸ hempty⟩

end EvScript
