import EvScript.Proofs.Compile.Retracing

/-!
# Files that Read Alike

If in two collections of files a file reads alike, up to places, and so do the files that it imports
and those that these import, then compiling it does the same in both. A file whose imports end
within some number of files is compiled in the same way under every limit from there on.
-/

namespace EvScript

open CompileM ScopeGraph

variable {s s' t : CompileState} {n n' : Nat}
variable {π : Shift} {τ : FileQueries} {fs fs' : Files} {mode : ReadMode} {path : String}

/-! ### Imported files -/

theorem CompileState.Matches.fresh (h : s.Matches π τ s') (path : String) :
    (s.fresh path).Matches π (.any path) (s'.fresh path) where
  here := h.here.start
  there := h.there.start
  graph := h.graph.start
  cursor := h.graph.cursor_start
  params := h.params
  path := rfl
  path' := rfl
  code := rfl
  locals := rfl
  printed := h.printed
  log := h.log
  free htop := absurd htop (Nat.ne_of_gt (Nat.lt_of_le_of_lt (Nat.zero_le _) h.here.rooted.top_lt))

theorem CompileState.Matches.back {t' : CompileState} (h : s.Matches π τ s')
    (ht : t.Matches π (.any path) t') (hscoped : { t with file := s.file }.Scoped)
    (hscoped' : { t' with file := s'.file }.Scoped) :
    { t with file := s.file }.Matches π τ { t' with file := s'.file } where
  here := ⟨hscoped.ordered, hscoped.rooted, ht.here.serials⟩
  there := ⟨hscoped'.ordered, hscoped'.rooted, ht.there.serials⟩
  graph := ht.graph
  cursor := h.cursor
  params := ht.params
  path := h.path
  path' := h.path'
  code := h.code
  locals := h.locals
  printed := ht.printed
  log := ht.log
  free := h.free

/-- The step comes back to its place in the scopes. -/
def Returns (step : CompileM Unit) : Prop :=
  ∀ s, Along step s [] fun _ t => t.file.cursor = s.file.cursor

theorem tracks_inFile {step step' : CompileM Unit} (h : Tracks π (.any path) Eq step step')
    (hreturns : Returns step) (hreturns' : Returns step') :
    Tracks π τ (fun a b => b = a.past π.scopes) (inFile path step) (inFile path step') := by
  intro s s' hs
  have hmeets := h _ _ (hs.fresh path)
  have hscoped := (along_inFile (hreturns (s.fresh path)) hs.here.scoped).2.1.inOrder
  have hscoped' := (along_inFile (hreturns' (s'.fresh path)) hs.there.scoped).2.1.inOrder
  rw [state_inFile] at hscoped hscoped'
  rw [ending_inFile, ending_inFile]
  generalize ending step (s.fresh path) = r at hmeets hscoped ⊢
  generalize ending step' (s'.fresh path) = r' at hmeets hscoped' ⊢
  obtain ⟨e | _, t⟩ := r <;> obtain ⟨e' | _, t'⟩ := r'
  · exact ⟨hmeets.1, hs.back hmeets.2 hscoped hscoped'⟩
  · exact hmeets.elim
  · exact hmeets.elim
  · exact ⟨hmeets.2.cursor, hs.back hmeets.2 hscoped hscoped'⟩

theorem returns_compileFile (fs : Files) (mode : ReadMode) (n : Nat) (path : String) :
    Returns (compileFile fs mode n path) := by
  intro s
  cases n with
  | zero => exact (Keeps.throw _).along_of fun _ _ h => h.throw.elim
  | succ n => exact (along_compileFile (importsBehind_fileImporter fs mode n) path s).forget

theorem tracks_fileImporter
    (h : Tracks π (.any path) Eq (compileFile fs mode n path) (compileFile fs' mode n' path)) :
    Tracks π τ (fun a b => b = a.past π.scopes) (fileImporter fs mode n path)
      (fileImporter fs' mode n' path) :=
  (tracks_printLine _).bind fun _ _ _ =>
    tracks_inFile h (returns_compileFile fs mode n path) (returns_compileFile fs' mode n' path)

/-! ### What is imported -/

/-- The paths of the files that the file at a path imports. -/
def Files.imports (fs : Files) (mode : ReadMode) (path : String) : List String :=
  (fs.tree? mode path).toList.flatMap fun tree =>
    (entriesImports tree.entries).filterMap (findImport fs path)

/-- The file at a path reads alike in both collections of files. -/
def ReadAlike (mode : ReadMode) (fs fs' : Files) (path : String) : Prop :=
  ∀ π τ, Tracks π τ (fun a b => b.bare = a.bare) (loadProgram fs mode path)
    (loadProgram fs' mode path)

/-- The file at a path reads alike in both collections of files, and so do those that it leads to,
as deep as each side looks. -/
def Files.Alike (mode : ReadMode) (fs fs' : Files) : Nat → Nat → String → Prop
  | 0, 0, _ => True
  | n + 1, n' + 1, path => ReadAlike mode fs fs' path ∧
    ∀ q ∈ fs.imports mode path, Alike mode fs fs' n n' q
  | _, _, _ => False

/-- A file that has the same bytes reads the same. -/
theorem ReadAlike.of_bytes (h : fs'.bytes? path = fs.bytes? path) : ReadAlike mode fs fs' path := by
  intro π τ
  unfold loadProgram
  rw [h]
  split
  · exact .throw _
  · split
    · exact .throw _
    · dsimp only
      split
      · split
        · exact .throw _
        · exact Tracks.bind (.modify fun s s' hs => { hs with }) fun _ _ _ => .pure rfl
      · exact Tracks.bind (.modify fun s s' hs => { hs with }) fun _ _ _ => .pure rfl

/-- All files read alike. -/
theorem Files.alike_of_forall (h : ∀ q, ReadAlike mode fs fs' q) (n : Nat) (path : String) :
    Files.Alike mode fs fs' n n path := by
  induction n generalizing path with
  | zero => trivial
  | succ n ih => exact ⟨h path, fun q _ => ih q⟩

/-! ### Files -/

/-- Entries that differ in places only. -/
theorem tracks_compileEntries_of_bare {importer importer' : Importer} {es es' : List Entry}
    (h : bareEntries es' = bareEntries es) (hasks : ∀ n ∈ entriesNames es, τ.asks n)
    (himport : ImportAlike π τ (entriesImports es) fs fs' importer importer')
    (hself : ImportAlike .same (.any τ.path) (entriesImports es') fs' fs' importer' importer') :
    Tracks π τ Eq (compileEntries fs importer es) (compileEntries fs' importer' es') := by
  have hbare := tracks_compileEntries es' (fun _ _ => trivial) hself
  rw [h] at hbare
  exact (tracks_compileEntries es hasks himport).trans_same hbare rfl fun _ _ _ _ _ => rfl

theorem importAlike_fileImporter {names : List String}
    (hfind : ∀ path name, findImport fs' path name = findImport fs path name)
    (h : ∀ name ∈ names, ∀ q ∈ findImport fs τ.path name,
      Tracks π (.any q) Eq (compileFile fs mode n q) (compileFile fs' mode n' q)) :
    ImportAlike π τ names fs fs' (fileImporter fs mode n) (fileImporter fs' mode n') where
  behind := importsBehind_fileImporter fs mode n
  behind' := importsBehind_fileImporter fs' mode n'
  find name _ := hfind τ.path name
  tracks name hname q hq := tracks_fileImporter (h name hname q hq)

theorem Files.mem_imports {tree : Tree} {name q : String} (htree : fs.tree? mode path = some tree)
    (hname : name ∈ entriesImports tree.entries) (hq : findImport fs path name = some q) :
    q ∈ fs.imports mode path := by
  rw [Files.imports, htree]
  exact List.mem_flatMap.mpr ⟨tree, List.mem_singleton_self tree,
    List.mem_filterMap.mpr ⟨name, hname, hq⟩⟩

theorem Files.tree?_of_yields {tree : Tree}
    (h : Yields (loadProgram fs mode path) s tree t) : fs.tree? mode path = some tree := by
  rw [Files.tree?, result?_loadProgram fs mode path _ s]
  exact h.result?

/-- **Files that read alike are compiled alike.** -/
theorem tracks_compileFile (hfind : ∀ path name, findImport fs' path name = findImport fs path name)
    (h : Files.Alike mode fs fs' n n' path) :
    Tracks π (.any path) Eq (compileFile fs mode n path) (compileFile fs' mode n' path) := by
  induction n' generalizing n fs fs' π path with
  | zero =>
    cases n with
    | zero => exact .throw _
    | succ n => exact h.elim
  | succ n' ih =>
    cases n with
    | zero => exact h.elim
    | succ n =>
      intro s s' hs
      rw [compileFile_succ, compileFile_succ]
      refine (h.1 π (.any path) s s' hs).bind ?_
      intro tree tree' t t' hload hload' hbare ht
      have himport : ∀ name ∈ entriesImports tree.entries, ∀ q ∈ findImport fs path name,
          Tracks π (.any q) Eq (compileFile fs mode n q) (compileFile fs' mode n' q) :=
        fun name hname q hq =>
          ih hfind (h.2 q (Files.mem_imports (Files.tree?_of_yields hload) hname hq))
      have hself : ∀ q, Tracks .same (.any q) Eq (compileFile fs' mode n' q)
          (compileFile fs' mode n' q) :=
        fun q => ih (fun _ _ => rfl) (Files.alike_of_forall (fun _ => .of_bytes rfl) n' q)
      have hentries : Tracks π (.any path) Eq
          (compileEntries fs (fileImporter fs mode n) tree.entries)
          (compileEntries fs' (fileImporter fs' mode n') tree'.entries) := by
        refine tracks_compileEntries_of_bare ?_ ?_ ?_ ?_
        · rw [← Tree.entries_bare, ← Tree.entries_bare, hbare]
        · exact fun _ _ => trivial
        · exact importAlike_fileImporter hfind himport
        · exact importAlike_fileImporter (fun _ _ => rfl) fun _ _ q _ => hself q
      exact hentries t t' ht

theorem importAlike_self (fs : Files) (mode : ReadMode) (n : Nat) (τ : FileQueries)
    (names : List String) :
    ImportAlike π τ names fs fs (fileImporter fs mode n) (fileImporter fs mode n) :=
  importAlike_fileImporter (fun _ _ => rfl) fun _ _ q _ =>
    tracks_compileFile (fun _ _ => rfl) (Files.alike_of_forall (fun _ => .of_bytes rfl) n q)

/-! ### Other texts for a file -/

/-- The files with a text at a path, in the place of what was there. -/
def Files.put (fs : Files) (path text : String) : Files := ⟨(path, text.toUTF8) :: fs.entries⟩

namespace Files

variable {q text text' : String}

theorem bytes?_put_self : (fs.put path text).bytes? path = some text.toUTF8 := by
  simp [bytes?, put]

theorem bytes?_put_of_ne (h : q ≠ path) : (fs.put path text).bytes? q = fs.bytes? q := by
  rw [bytes?, put, List.find?_cons_of_neg, bytes?]
  simpa using h.symm

theorem findImport_put (name : String) :
    findImport (fs.put path text') q name = findImport (fs.put path text) q name := by
  have hhas : (fs.put path text').has = (fs.put path text).has := by
    funext q
    by_cases hq : q = path
    · rw [hq, has, has, bytes?_put_self, bytes?_put_self]
      rfl
    · rw [has, has, bytes?_put_of_ne hq, bytes?_put_of_ne hq]
  rw [findImport, findImport, hhas]

/-- The other files are the same. -/
theorem readAlike_put_of_ne (h : q ≠ path) :
    ReadAlike mode (fs.put path text) (fs.put path text') q :=
  .of_bytes (by rw [bytes?_put_of_ne h, bytes?_put_of_ne h])

end Files

theorem standing_start (path : String) :
    Standing (CompileState.start path).graph (CompileState.start path).file.cursor
      (CompileState.start path).unseen.size :=
  ⟨ordered_empty.start, .start .empty, SerialsBelow.add (fun _ _ h => nomatch h) rfl⟩

theorem compileScript_eq (fs : Files) (mode : ReadMode) (path : String) :
    compileScript fs mode path =
      ⟨(ending (compileFile fs mode (fs.entries.length + 1) path) (.start path)).1,
        (ending (compileFile fs mode (fs.entries.length + 1) path) (.start path)).2⟩ := rfl

end EvScript
