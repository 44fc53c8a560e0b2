import EvScript.Proofs.Compile.Rereading
import EvScript.Proofs.Grammar.Heeded
import EvScript.Proofs.Grammar.Mending

/-!
# Layout

Comments, blanks and lines do not matter for what is compiled. If the tokens of two texts, as far as
reading goes, have the same kinds and texts, then compiling them has the same outcome up to places:
the same tree, code, output and declarations. If strict reading fails, it may do so at different
tokens.

## Main results

* `layout_moves_places_only` — layout changes nothing but places.
-/

namespace EvScript

open CompileM ScopeGraph

variable {mode : ReadMode}

/-- The outcomes agree in code, in the place in the scopes, in what was printed and in the levels of
the log; what is declared agrees up to places. -/
structure Outcome.SameButPlaces (o o' : Outcome) : Prop where
  code : o'.state.file.code = o.state.file.code
  cursor : o'.state.file.cursor = o.state.file.cursor
  printed : o'.state.printed = o.state.printed
  levels : o'.state.log.map (·.level) = o.state.log.map (·.level)
  graph : o.state.graph.Shifted .same o'.state.graph

variable {fs : Files} {path text text' : String}

theorem CompileState.Matches.sameButPlaces {τ : FileQueries} {o o' : Outcome}
    (h : o.state.Matches .same τ o'.state) : o.SameButPlaces o' :=
  ⟨h.code, h.cursor.trans (Cursor.past_empty _), h.printed rfl, h.log rfl, h.graph⟩

theorem fromUTF8?_toUTF8 (text : String) : String.fromUTF8? text.toUTF8 = some text :=
  dif_pos text.isValidUTF8

/-- Reading a text that is a program, strictly. -/
theorem loadProgram_put {p : Program} (fs : Files) (path : String)
    (h : readProgram (.ofText text) = .ok p) :
    loadProgram (fs.put path text) .strict path = (do
      modify fun s =>
        { s with lexErrors := s.lexErrors ++ (Script.ofText text).errorsBefore p.next }
      return p.tree) := by
  rw [loadProgram, Files.bytes?_put_self]
  simp only [fromUTF8?_toUTF8, h]

/-- Reading a text that is none. -/
theorem loadProgram_put_of_error {t : Token} (fs : Files) (path : String)
    (h : readProgram (.ofText text) = .error t) :
    loadProgram (fs.put path text) .strict path = throw (.unreadable path t) := by
  rw [loadProgram, Files.bytes?_put_self]
  simp only [fromUTF8?_toUTF8, h]

/-- Reading a text with repair. -/
theorem loadProgram_put_repair (fs : Files) (path text : String) :
    loadProgram (fs.put path text) .repair path = (do
      let m := mendRule .program (.ofText text)
      modify fun s =>
        { s with
          lexErrors := s.lexErrors ++ (Script.ofText text).errorsBefore m.furthest
          syntaxErrors := s.syntaxErrors ++ m.errors.map fun t => (path, t) }
      return m.tree) := by
  rw [loadProgram, Files.bytes?_put_self]
  simp only [fromUTF8?_toUTF8]

/-- A text that cannot be read as a program ends the compilation before it begins. -/
theorem compileScript_of_unreadable {t : Token} (h : readProgram (.ofText text) = .error t) :
    compileScript (fs.put path text) .strict path =
      ⟨.error (.unreadable path t), .start path⟩ := by
  have hload : ending (loadProgram (fs.put path text) .strict path) (.start path) =
      (.error (.unreadable path t), .start path) := by
    rw [loadProgram_put_of_error fs path h]
    rfl
  rw [compileScript_eq, compileFile_succ, ending_bind, hload]

theorem readAlike_of_bare {p p' : Program} (h : readProgram (.ofText text) = .ok p)
    (h' : readProgram (.ofText text') = .ok p') (hbare : p'.tree.bare = p.tree.bare) :
    ReadAlike .strict (fs.put path text) (fs.put path text') path := by
  intro π τ
  rw [loadProgram_put fs path h, loadProgram_put fs path h']
  exact Tracks.bind (.modify fun s s' hs => { hs with }) fun _ _ _ => .pure hbare

/-- Texts with the same tokens, read with repair. -/
theorem readAlike_repair (h : (Script.ofText text').tokens.map Token.bare =
      (Script.ofText text).tokens.map Token.bare) :
    ReadAlike .repair (fs.put path text) (fs.put path text') path := by
  intro π τ
  rw [loadProgram_put_repair, loadProgram_put_repair]
  exact Tracks.bind (.modify fun s s' hs => { hs with }) fun _ _ _ =>
    .pure (mendRule_bare .program h rfl)

/-- Files that read alike hold the same program but for places, or none. -/
theorem ReadAlike.tree? {fs' : Files} (h : ReadAlike mode fs fs' path) :
    (fs'.tree? mode path).map Tree.bare = (fs.tree? mode path).map Tree.bare := by
  have hmeets := h .same (.any path) _ _ (.refl (standing_start path) rfl)
  unfold Files.tree? result?
  generalize ending (loadProgram fs mode path) (.start path) = r at hmeets ⊢
  generalize ending (loadProgram fs' mode path) (.start path) = r' at hmeets ⊢
  obtain ⟨e | a, t⟩ := r <;> obtain ⟨e' | b, t'⟩ := r'
  · rfl
  · exact hmeets.elim
  · exact hmeets.elim
  · exact congrArg some hmeets.1

theorem tree?_put (fs : Files) (path text : String) : (fs.put path text).tree? .strict path =
      (readProgram (.ofText text)).toOption.map (·.tree) := by
  rw [Files.tree?]
  cases h : readProgram (.ofText text) with
  | error t =>
    rw [loadProgram_put_of_error fs path h]
    rfl
  | ok p =>
    rw [loadProgram_put fs path h]
    rfl

/-- Scripts that read alike, with all files that they import, have the same outcome but for
places. -/
theorem compileScript_alike {fs' : Files} (hread : ∀ q, ReadAlike mode fs fs' q)
    (hfind : ∀ q name, findImport fs' q name = findImport fs q name)
    (hlength : fs'.entries.length = fs.entries.length) (path : String) :
    (compileScript fs mode path).SameButPlaces (compileScript fs' mode path) ∧
      (compileScript fs' mode path).ended.mapError Fault.bare =
        (compileScript fs mode path).ended.mapError Fault.bare := by
  have hmeets := tracks_compileFile hfind
    (Files.alike_of_forall hread (fs.entries.length + 1) path) _ _
    (.refl (standing_start path) rfl : CompileState.Matches .same (.any path) _ _)
  rw [compileScript_eq, compileScript_eq, hlength]
  generalize ending (compileFile fs mode (fs.entries.length + 1) path) (.start path) = r
    at hmeets ⊢
  generalize ending (compileFile fs' mode (fs.entries.length + 1) path) (.start path) = r'
    at hmeets ⊢
  obtain ⟨e | a, t⟩ := r <;> obtain ⟨e' | b, t'⟩ := r'
  · exact ⟨hmeets.2.sameButPlaces, congrArg Except.error hmeets.1⟩
  · exact hmeets.elim
  · exact hmeets.elim
  · exact ⟨hmeets.2.sameButPlaces, rfl⟩

theorem mapError_message_of_bare {x x' : Except Fault Unit}
    (h : x'.mapError Fault.bare = x.mapError Fault.bare) :
    x'.mapError Fault.message = x.mapError Fault.message := by
  have hmessage : ∀ y : Except Fault Unit,
      y.mapError Fault.message = (y.mapError Fault.bare).mapError Fault.message := by
    rintro (e | _)
    · exact congrArg Except.error e.message_bare.symm
    · rfl
  rw [hmessage x', h, ← hmessage x]

/-- The tokens of a script that count when it is read: strictly, those in front of the one at which
reading comes to an end; with repair, all of them. -/
def ReadMode.heeds : ReadMode → Script → List Token
  | .strict, s => s.heeded
  | .repair, s => s.tokens

/-- Texts whose tokens count alike read alike, or they are read strictly and neither can be. -/
theorem readAlike_of_heeds (fs : Files) (path : String)
    (h : (mode.heeds (.ofText text')).map Token.bare = (mode.heeds (.ofText text)).map Token.bare) :
    ReadAlike mode (fs.put path text) (fs.put path text') path ∨
      mode = .strict ∧ readProgram (.ofText text) = .error (Script.ofText text).halt ∧
        readProgram (.ofText text') = .error (Script.ofText text').halt := by
  cases mode with
  | repair => exact .inl (readAlike_repair h)
  | strict =>
    rcases readProgram_of_heeded h with ⟨p, p', hread, hread', hbare⟩ | hread
    · exact .inl (readAlike_of_bare hread hread' hbare)
    · exact .inr ⟨rfl, hread⟩

/-- **Layout does not matter.** Let two texts have tokens of the same kinds and texts, as far as
they count when they are read. Then, with the same other files, both are read as programs with the
same tree but for places, or neither can be read. The outcomes of compiling them have the same
code, that is labels, strings and listing, and differ in places only. Both come to the end, or both
end with the same fault and message; if the texts cannot be read, the faults tell the tokens at
which reading comes to an end. -/
theorem layout_moves_places_only (fs : Files) (mode : ReadMode) (path text text' : String)
    (h : (mode.heeds (.ofText text')).map Token.bare =
      (mode.heeds (.ofText text)).map Token.bare) :
    let o := compileScript (fs.put path text) mode path
    let o' := compileScript (fs.put path text') mode path
    ((fs.put path text').tree? mode path).map Tree.bare =
        ((fs.put path text).tree? mode path).map Tree.bare ∧
      o.SameButPlaces o' ∧ o'.state.file.code.print = o.state.file.code.print ∧
      (o'.ended.mapError Fault.bare = o.ended.mapError Fault.bare ∧
          o'.ended.mapError Fault.message = o.ended.mapError Fault.message ∨
        mode = .strict ∧ o.ended = .error (.unreadable path (Script.ofText text).halt) ∧
          o'.ended = .error (.unreadable path (Script.ofText text').halt)) := by
  intro o o'
  rcases readAlike_of_heeds fs path h with halike | ⟨rfl, hread, hread'⟩
  · have hall : ∀ q, ReadAlike mode (fs.put path text) (fs.put path text') q := by
      intro q
      by_cases hq : q = path
      · exact hq ▸ halike
      · exact Files.readAlike_put_of_ne hq
    obtain ⟨hsame, hended⟩ : o.SameButPlaces o' ∧
        o'.ended.mapError Fault.bare = o.ended.mapError Fault.bare :=
      compileScript_alike hall (fun _ _ => Files.findImport_put _) rfl path
    exact ⟨halike.tree?, hsame, by rw [hsame.code],
      .inl ⟨hended, mapError_message_of_bare hended⟩⟩
  · have ho : o = _ := compileScript_of_unreadable hread
    have ho' : o' = _ := compileScript_of_unreadable hread'
    have hstart : o.state.Matches .same (.any path) o'.state := by
      rw [ho, ho']
      exact .refl (standing_start path) rfl
    refine ⟨?_, hstart.sameButPlaces, by rw [hstart.code], .inr ⟨rfl, ?_, ?_⟩⟩
    · rw [tree?_put, tree?_put, hread, hread']
      rfl
    · rw [ho]
    · rw [ho']

/-- A script on one line. -/
def plainText : String := "int v:7;function f()\x7bv=1;\x7d"

/-- The script with comments, on several lines and with a mark behind it. -/
def laidOutText : String := "int v:7; // one\nfunction f()\n\x7b v=1; /* two */ \x7d;"

set_option maxRecDepth 100000 in
/-- Both scripts have the same outcome but for places, though different tokens stand behind their
programs. -/
theorem plainText_laid_out :
    (Script.ofText laidOutText).heeded.map Token.bare =
        (Script.ofText plainText).heeded.map Token.bare ∧
      (Script.ofText laidOutText).halt.kind ≠ (Script.ofText plainText).halt.kind ∧
      (compileScript (Files.put ⟨[]⟩ "a.evc" plainText) .strict "a.evc").SameButPlaces
        (compileScript (Files.put ⟨[]⟩ "a.evc" laidOutText) .strict "a.evc") := by
  have hread : (Script.ofText laidOutText).heeded.map Token.bare =
        (Script.ofText plainText).heeded.map Token.bare ∧
      (Script.ofText laidOutText).halt.kind ≠ (Script.ofText plainText).halt.kind := by
    decide +kernel
  obtain ⟨-, hsame, -, -⟩ :=
    layout_moves_places_only ⟨[]⟩ .strict "a.evc" plainText laidOutText hread.1
  exact ⟨hread.1, hread.2, hsame⟩

end EvScript
