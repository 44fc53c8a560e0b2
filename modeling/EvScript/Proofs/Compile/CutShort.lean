import EvScript.Proofs.Compile.Runs
import EvScript.Proofs.Grammar.Programs

/-!
# Files That Are Cut Short

A program ends where no further entry can begin, and what stands there is not looked at. So a file
can be compiled without an error although its last functions have no code. A file is compiled as a
whole if and only if all its tokens are a sentence, and cut short if and only if some first part of
it is a sentence and the next token begins no entry.

## Main results

* `cut_short_iff` — when a file is compiled without its last part.
-/

namespace EvScript

open CompileM

variable {fs : Files} {path : String} {finish : Token} {ts us : List Token} {tree : Tree}

theorem IsProgram.rest_eq_nil_iff (hfinish : finish.kind = .finish)
    (h : IsProgram finish ts tree us) : us = [] ↔ Sentence finish ts := by
  constructor
  · rintro rfl
    exact ⟨[tree], h.derives⟩
  · intro hsentence
    obtain ⟨trees, hd⟩ := hsentence
    cases hd with
    | call hbody => exact (h.unique hfinish (isProgram_of_derives (.call hbody) (by simp))).2

/-- It leaves tokens exactly if a sentence stands in front of one that begins no entry. -/
theorem IsProgram.rest_ne_nil_iff (hfinish : finish.kind = .finish)
    (h : IsProgram finish ts tree us) :
    us ≠ [] ↔ ∃ u t v, ts = u ++ t :: v ∧ Sentence finish u ∧
      ¬ CanStart finish (.call .entry) t := by
  constructor
  · intro hne
    obtain ⟨t, v, rfl⟩ := List.exists_cons_of_ne_nil hne
    exact ⟨tree.tokens, t, v, h.tokens_append.symm, sentence_of_derives h.derives, h.ends t rfl⟩
  · rintro ⟨u, t, v, rfl, hsentence, hstart⟩
    obtain ⟨tree', hd⟩ := hsentence.exists_derives (t :: v)
    have hprogram := isProgram_of_derives hd (by simpa using hstart)
    rw [(h.unique hfinish hprogram).2]
    exact List.cons_ne_nil t v

/-- The tokens of a file, if there is one and it is a text. -/
def Files.script? (fs : Files) (path : String) : Option Script :=
  ((fs.bytes? path).bind String.fromUTF8?).map Script.ofText

theorem Files.finish_of_script? {script : Script} (h : fs.script? path = some script) :
    script.finish.kind = .finish := by
  obtain ⟨text, -, rfl⟩ := Option.map_eq_some_iff.mp h
  rfl

/-- **Reading a file strictly** comes to its program, and to the errors in front of the token
behind it. -/
theorem yields_loadProgram_iff {s s' : CompileState} :
    Yields (loadProgram fs .strict path) s tree s' ↔ ∃ script next,
      fs.script? path = some script ∧ readProgram script = .ok ⟨tree, next⟩ ∧
      { s with lexErrors := s.lexErrors ++ script.errorsBefore next } = s' := by
  unfold loadProgram Files.script?
  cases hbytes : fs.bytes? path with
  | none => simp
  | some bytes =>
    cases htext : String.fromUTF8? bytes with
    | none => simp [htext]
    | some text =>
      cases hread : readProgram (.ofText text) with
      | error t => simp [htext, hread]
      | ok p =>
        obtain ⟨tree', next⟩ := p
        simp only [htext, hread, yields_bind, yields_modify, yields_pure, Option.bind_some,
          Option.map_some]
        grind

/-- **When a file is cut short.** Let a file be compiled to the end, by itself or as an import. Its
tokens are those of the program that was read and those that were left; exactly the entries of the
program have been compiled. No tokens were left if and only if all of them are a sentence, and some
were left if and only if a sentence stands in front of a token that begins no entry. -/
theorem cut_short_iff (fs : Files) (r : Run) (hok : (r.ending fs .strict).1 = .ok ()) :
    ∃ script tree us, fs.script? r.path = some script ∧
      readProgram script = .ok ⟨tree, us.headD script.finish⟩ ∧
      tree.tokens ++ us = script.tokens ∧
      Yields (compileEntries fs (fileImporter fs .strict r.depth) tree.entries)
        { r.start with lexErrors :=
            r.start.lexErrors ++ script.errorsBefore (us.headD script.finish) }
        () (r.ending fs .strict).2 ∧
      (us = [] ↔ Sentence script.finish script.tokens) ∧
      (us ≠ [] ↔ ∃ u t v, script.tokens = u ++ t :: v ∧ Sentence script.finish u ∧
        ¬ CanStart script.finish (.call .entry) t) := by
  have hyields : Yields (compileFile fs .strict (r.depth + 1) r.path) r.start ()
      (r.ending fs .strict).2 := Prod.ext hok rfl
  rw [compileFile_succ] at hyields
  obtain ⟨tree, s, hload, hentries⟩ := hyields.bind
  obtain ⟨script, next, hscript, hread, rfl⟩ := yields_loadProgram_iff.mp hload
  have hfinish := Files.finish_of_script? hscript
  obtain ⟨us, hprogram, rfl⟩ := (readProgram_ok_iff hfinish).mp hread
  exact ⟨script, tree, us, hscript, hread, hprogram.tokens_append, hentries,
    hprogram.rest_eq_nil_iff hfinish, hprogram.rest_ne_nil_iff hfinish⟩

/-- A script with a mark too many behind its first function. -/
def strayFiles : Files :=
  ⟨[("stray.evc", ("command c(int x):5;function f()\x7bc(1);\x7d;" ++
    "function g()\x7bc(2);\x7d").toUTF8)]⟩

set_option maxRecDepth 100000 in
theorem strayFiles_visits : ∃ state,
    compileScript strayFiles .strict "stray.evc" = ⟨.ok (), state⟩ ∧
    labelNamesOf (scriptVisits strayFiles .strict "stray.evc") = ["_f"] := by
  have hcheck : (compileScript strayFiles .strict "stray.evc").endsWith (fun _ =>
      decide (labelNamesOf (scriptVisits strayFiles .strict "stray.evc") = ["_f"])) = true := by
    decide +kernel
  obtain ⟨state, hscript, hvisits⟩ := Outcome.eq_of_endsWith hcheck
  exact ⟨state, hscript, of_decide_eq_true hvisits⟩

set_option maxRecDepth 100000 in
theorem strayFiles_left : ((strayFiles.script? "stray.evc").map fun script =>
    (readProgram script).toOption.map fun p =>
      (script.tokens.drop p.tree.tokens.length).map (·.text)) =
    some (some [";", "function", "g", "(", ")", "\x7b", "c", "(", "2", ")", ";", "\x7d"]) := by
  decide +kernel

/-- The second function is not compiled, and there is no error. -/
theorem stray_mark_cuts : (compileScript strayFiles .strict "stray.evc").ended = .ok () ∧
    labelNamesOf (scriptVisits strayFiles .strict "stray.evc") = ["_f"] ∧
    ∃ script us, ∃ tree : Tree, strayFiles.script? "stray.evc" = some script ∧
      tree.tokens ++ us = script.tokens ∧
      us.map (·.text) = [";", "function", "g", "(", ")", "\x7b", "c", "(", "2", ")", ";", "\x7d"] ∧
      ¬ Sentence script.finish script.tokens ∧
      ∃ u t v, script.tokens = u ++ t :: v ∧ Sentence script.finish u ∧
        ¬ CanStart script.finish (.call .entry) t := by
  obtain ⟨state, hscript, hvisits⟩ := strayFiles_visits
  have hend : (mainRun strayFiles "stray.evc").ending strayFiles .strict = (.ok (), state) := by
    rw [ending_mainRun, hscript]
  obtain ⟨script, tree, us, hfile, hread, htokens, -, hnil, hne⟩ :=
    cut_short_iff strayFiles (mainRun strayFiles "stray.evc") (congrArg Prod.fst hend)
  have hleft := strayFiles_left
  have hfile : strayFiles.script? "stray.evc" = some script := hfile
  rw [hfile, Option.map_some, hread, ← htokens] at hleft
  have hus : us.map (·.text) =
      [";", "function", "g", "(", ")", "\x7b", "c", "(", "2", ")", ";", "\x7d"] := by
    simpa [Except.toOption] using hleft
  have hus' : us ≠ [] := by
    rintro rfl
    cases hus
  exact ⟨congrArg Outcome.ended hscript, hvisits, script, us, tree, hfile, htokens, hus,
    fun h => hus' (hnil.mpr h), hne.mp hus'⟩

end EvScript
