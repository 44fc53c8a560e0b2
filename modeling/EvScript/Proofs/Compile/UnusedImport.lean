import EvScript.Proofs.Compile.Behind
import EvScript.Proofs.Compile.ImportDepth
import EvScript.Proofs.Compile.Positions
import EvScript.Proofs.Syntax.AddedImport

/-!
# Unused Imports

Adding `import m;` to a script has three effects on its run: the file that `m` names is gone
through, its scopes and commands lie behind those that were there, and its global scope stands under
the name `m`. The run without the import goes on beside the one with it, past a gap
(`Undisturbed.matches_mount`), and since no name that is asked for begins with `m`, both make the
same code. That imports may nest one level less in the imported file is a matter of counting: a
chain of imports has no file twice.

## Main results

* `unused_import_keeps_code` — an import that is not asked for leaves the code as it was.
-/

namespace EvScript

open CompileM ScopeGraph

variable {τ : FileQueries} {s t : CompileState}
variable {fs : Files} {mode : ReadMode} {path m pm : String} {n : Nat}

/-- The file at a path, if it asks for no name that begins with `m`. -/
def FileQueries.without (path m : String) : FileQueries :=
  ⟨path, fun name => (nameParts name).1.head? ≠ some m⟩

/-- The file at a path comes to the end by itself, with imports nested up to `n` deep. -/
def Files.Compiles (fs : Files) (mode : ReadMode) (n : Nat) (path : String) : Prop :=
  ∃ t, Yields (compileFile fs mode n path) (.start path) () t

/-! ### Entries -/

theorem tracks_compileEntries_self {π : Shift} {es : List Entry}
    (hasks : ∀ name ∈ entriesNames es, τ.asks name) :
    Tracks π τ Eq (compileEntries fs (fileImporter fs mode n) es)
      (compileEntries fs (fileImporter fs mode n) es) :=
  tracks_compileEntries_of_bare rfl hasks (importAlike_self ..) (importAlike_self ..)

/-- An import goes through another file and puts its scopes into the global one. -/
theorem yields_importAll {other : Cursor} {importer : Importer} {pos : Pos}
    (hfind : findImport fs s.file.path m = some pm) (h : Yields (importer pm) s other t) :
    Yields (compileEntry fs importer (.importAll (some m) pos)) s ()
      { t with graph := t.file.cursor.mount t.graph other m } := by
  have hname : Yields (importByName fs importer (some m) pos) s (m, other) t := by
    simp only [importByName, need, pure_bind]
    refine yields_bind.mpr ⟨s, s, yields_get.mpr ⟨rfl, rfl⟩, ?_⟩
    rw [hfind]
    exact yields_bind_pure.mpr ⟨other, h, rfl⟩
  exact yields_bind.mpr ⟨(m, other), t, hname, rfl⟩

/-- **Entries with an unused import among them** come to the end if they do so without it, in a
state that matches. -/
theorem yields_of_inserts {pos : Pos} {es es' : List Entry}
    (hfind : findImport fs path m = some pm) (hm : fs.Compiles mode n pm)
    (h : Inserts (.importAll (some m) pos) es es') :
    ∀ {s t : CompileState}, s.Matches .same (.without path m) s → s.file.cursor.top = 0 →
      (∀ name ∈ entriesNames es, (FileQueries.without path m).asks name) →
      Yields (compileEntries fs (fileImporter fs mode n) es) s () t →
      ∃ π t', Yields (compileEntries fs (fileImporter fs mode n) es') s () t' ∧
        t.Matches π (.without path m) t' := by
  induction h with
  | here =>
    intro s t hs htop hasks hy
    obtain ⟨_, hm⟩ := hm
    obtain ⟨other, u, hu, hundisturbed⟩ := yields_fileImporter hs hm
    have hfind' : findImport fs s.file.path m = some pm := by rwa [hs.path]
    obtain ⟨_, t', ht', -, hmatch⟩ := (tracks_compileEntries_self hasks).yields
      (hundisturbed.matches_mount hs htop fun _ hname => hname) hy
    exact ⟨_, t', yields_bind.mpr ⟨(), _, yields_importAll hfind' hu, ht'⟩, hmatch⟩
  | @later e es es' _ ih =>
    intro s t hs htop hasks hy
    obtain ⟨_, u, he, hy⟩ := hy.bind
    have hasksEntry : ∀ name ∈ e.names, (FileQueries.without path m).asks name := fun name hname =>
      hasks name (List.mem_append_left _ hname)
    have hu := (tracks_compileEntry e hasksEntry (importAlike_self ..)).self hs he
    have htop' : u.file.cursor.top = 0 := by
      have hcursor := (along_compileEntry (importsBehind_fileImporter fs mode n) e s
        hs.here.scoped).2.2 () u he
      rw [hcursor, htop]
    obtain ⟨π, t', ht', hmatch⟩ := ih hu htop'
      (fun name hname => hasks name (List.mem_append_right _ hname)) hy
    exact ⟨π, t', yields_bind.mpr ⟨(), u, he, ht'⟩, hmatch⟩
  | @inside name es es' rest _ ih =>
    intro s t hs htop hasks hy
    obtain ⟨_, w, hspace, hy⟩ := hy.bind
    obtain ⟨word, _, hneed, hspace⟩ := hspace.bind
    obtain ⟨_, u, henter, hspace⟩ := hspace.bind
    obtain ⟨_, v, hentries, hleave⟩ := hspace.bind
    obtain ⟨hword, rfl⟩ := hneed.need
    have hu := (tracks_enterScope (Scope.shifted_fresh .same (some word)) ⟨rfl, rfl⟩
      ⟨rfl, rfl⟩).self hs henter
    have htop' : u.file.cursor.top = 0 := by
      obtain rfl := henter.modify
      exact htop
    obtain ⟨π, v', hv', hmatch⟩ := ih hu htop'
      (fun name hname => hasks name (List.mem_append_left _ hname)) hentries
    obtain ⟨_, w', hw', -, hmatch⟩ := tracks_leaveScope.yields hmatch hleave
    obtain ⟨_, t', ht', -, hmatch⟩ := (tracks_compileEntries_self fun name hname =>
      hasks name (List.mem_append_right _ hname)).yields hmatch hy
    refine ⟨π, t', yields_bind.mpr ⟨(), w', ?_, ht'⟩, hmatch⟩
    exact yields_bind.mpr ⟨word, _, hneed, yields_bind.mpr ⟨(), u, henter,
      yields_bind.mpr ⟨(), v', hv', hw'⟩⟩⟩

/-! ### Files -/

/-- A file that is imported is there. -/
theorem mem_of_findImport {name q : String} (h : findImport fs path name = some q) :
    q ∈ (fs.entries.map Prod.fst).toFinset := by
  have hhas : fs.has q = true := List.find?_some h
  rw [Files.has, Files.bytes?, Option.isSome_map, List.find?_isSome] at hhas
  obtain ⟨e, he, heq⟩ := hhas
  exact List.mem_toFinset.mpr (List.mem_map.mpr ⟨e, he, beq_iff_eq.mp heq⟩)

theorem mem_of_leads {q : String} (hpath : path ∈ (fs.entries.map Prod.fst).toFinset)
    (h : fs.Leads mode path q) : q ∈ (fs.entries.map Prod.fst).toFinset := by
  cases h with
  | refl => exact hpath
  | tail _ hq =>
    obtain ⟨_, -, hq⟩ := List.mem_flatMap.mp hq
    obtain ⟨_, -, hfind⟩ := List.mem_filterMap.mp hq
    exact mem_of_findImport hfind

theorem ended_of_yields
    (h : Yields (compileFile fs mode (fs.entries.length + 1) path) (.start path) () t) :
    compileScript fs mode path = ⟨.ok (), t⟩ := by
  rw [compileScript_eq, h.ends]

/-- **A script that comes to the end does so where it is imported**, where imports may nest one
level less. -/
theorem compiles_of_ended (hfind : findImport fs path m = some pm)
    (h : (compileScript fs mode pm).ended = .ok ()) : fs.Compiles mode fs.entries.length pm := by
  have hy := compileScript_ended_iff.mp h
  have hstart : (CompileState.start pm).Matches .same (.any pm) (.start pm) :=
    .refl (standing_start pm) rfl
  have hcard := (nestsWithin_of_yields hstart hy).card fun _ =>
    mem_of_leads (mem_of_findImport hfind)
  have hlength : (fs.entries.map Prod.fst).toFinset.card ≤ fs.entries.length :=
    (List.toFinset_card_le _).trans_eq (List.length_map _)
  have halike := (hcard.mono hlength).alike (Nat.le_succ _)
  obtain ⟨_, t, ht, -, -⟩ := (tracks_compileFile (fun _ _ => rfl) halike).yields_back hstart hy
  exact ⟨t, ht⟩

/-! ### Scripts -/

variable {text text' : String} {p p' : Program}

/-- Reading a program leaves the errors of the lexer behind, and nothing else. -/
theorem yields_loadProgram_put (fs : Files) (path : String)
    (h : readProgram (.ofText text) = .ok p) (s : CompileState) :
    ∃ errors, Yields (loadProgram (fs.put path text) .strict path) s p.tree
      { s with lexErrors := errors } := by
  rw [loadProgram_put fs path h]
  exact ⟨_, yields_bind.mpr ⟨(), _, rfl, rfl⟩⟩

theorem CompileState.Matches.errors {π : Shift} {s' : CompileState}
    (h : s.Matches π τ s') (es es' : List LexError) :
    { s with lexErrors := es }.Matches π τ { s' with lexErrors := es' } :=
  { h with }

/-- The imports of a file that comes to the end do not lead back to it, so they are the same with
another text for it. -/
theorem importAlike_put (hread : readProgram (.ofText text) = .ok p) (hpath : τ.path = path)
    (hy : Yields (compileFile (fs.put path text) .strict (n + 1) path) (.start path) () t) :
    ImportAlike .same τ (entriesImports p.tree.entries) (fs.put path text) (fs.put path text')
      (fileImporter (fs.put path text) .strict n) (fileImporter (fs.put path text') .strict n) := by
  have htree : (fs.put path text).tree? .strict path = some p.tree := by
    rw [tree?_put, hread]
    rfl
  have hnests : (fs.put path text).NestsWithin .strict (n + 1) path :=
    nestsWithin_of_yields (.refl (standing_start path) rfl) hy
  refine importAlike_fileImporter (fun _ _ => Files.findImport_put _) fun name hname q hq => ?_
  rw [hpath] at hq
  have hleads := hnests.not_leads (Files.mem_imports htree hname hq)
  exact tracks_compileFile (fun _ _ => Files.findImport_put _) (Files.alike_put hleads n)

/-- **A file with an unused import** comes to the end if it does so without it, with the same
code. -/
theorem yields_put_of_inserts (hread : readProgram (.ofText text) = .ok p)
    (hread' : readProgram (.ofText text') = .ok p')
    (hinserts : Inserts (.importAll (some m) .start) (bareEntries p.tree.entries)
      (bareEntries p'.tree.entries))
    (hfind : findImport (fs.put path text') path m = some pm)
    (hm : (fs.put path text').Compiles .strict n pm)
    (hasks : ∀ name ∈ entriesNames p.tree.entries, (FileQueries.without path m).asks name)
    (hy : Yields (compileFile (fs.put path text) .strict (n + 1) path) (.start path) () t) :
    ∃ t', Yields (compileFile (fs.put path text') .strict (n + 1) path) (.start path) () t' ∧
      t'.file.code = t.file.code := by
  have himport : ImportAlike .same (.without path m) (entriesImports p.tree.entries)
      (fs.put path text) (fs.put path text') (fileImporter (fs.put path text) .strict n)
      (fileImporter (fs.put path text') .strict n) := importAlike_put hread rfl hy
  rw [compileFile_succ] at hy
  obtain ⟨tree, u, hload, hentries⟩ := hy.bind
  obtain ⟨errors, hload₀⟩ := yields_loadProgram_put fs path hread (.start path)
  obtain ⟨errors', hload'⟩ := yields_loadProgram_put fs path hread' (.start path)
  obtain ⟨rfl, rfl⟩ := hload₀.unique hload
  have hstart : ∀ τ : FileQueries, path = τ.path →
      (CompileState.start path).Matches .same τ (.start path) :=
    fun _ => .refl (standing_start path)
  -- the entries without places, then with the import among them, then with places again
  obtain ⟨_, t₁, ht₁, -, hmatch₁⟩ := (tracks_compileEntries p.tree.entries hasks himport).yields
    ((hstart _ rfl).errors errors errors') hentries
  rw [← entriesNames_bare] at hasks
  obtain ⟨π, t₂, ht₂, hmatch₂⟩ :=
    yields_of_inserts hfind hm hinserts ((hstart _ rfl).errors errors' errors') rfl hasks ht₁
  have hself : ImportAlike .same (.any path) (entriesImports p'.tree.entries) (fs.put path text')
      (fs.put path text') (fileImporter (fs.put path text') .strict n)
      (fileImporter (fs.put path text') .strict n) := importAlike_self ..
  obtain ⟨_, t', ht', -, hmatch'⟩ := (tracks_compileEntries p'.tree.entries
    (fun _ _ => trivial) hself).yields_back ((hstart _ rfl).errors errors' errors') ht₂
  refine ⟨t', ?_, hmatch'.code.symm.trans (hmatch₂.code.trans hmatch₁.code)⟩
  rw [compileFile_succ]
  exact yields_bind.mpr ⟨p'.tree, _, hload', ht'⟩

/-- **An unused import does not change the code.** Let a script be compiled to the end, and let
`import m;` be added to its text as one more entry, among the entries of the program or of a
namespace. If `m` names a file that is compiled to the end, and the script asks for no name that
begins with `m`, then the script with the import is compiled to the end too, with the same code:
labels, strings and listing.

A file that leads back to the script is no longer compiled to the end once the script imports it, so
it is not among those that `m` may name. Both texts are read without repair, since the import is
added among the entries of a program. -/
theorem unused_import_keeps_code (fs : Files) (path text text' m pm : String)
    (hadds : (Script.ofText text).AddsImport m (.ofText text'))
    (hends : (compileScript (fs.put path text) .strict path).ended = .ok ())
    (hfind : findImport (fs.put path text') path m = some pm)
    (hm : (compileScript (fs.put path text') .strict pm).ended = .ok ())
    (hasks : ∀ tree ∈ (fs.put path text).tree? .strict path,
      ∀ name ∈ entriesNames tree.entries, (nameParts name).1.head? ≠ some m) :
    let o := compileScript (fs.put path text) .strict path
    let o' := compileScript (fs.put path text') .strict path
    o'.ended = .ok () ∧ o'.state.file.code = o.state.file.code ∧
      o'.state.file.code.print = o.state.file.code.print := by
  intro o o'
  obtain ⟨p, p', hread, hread', hinserts⟩ := hadds.readProgram rfl rfl
  have htree : (fs.put path text).tree? .strict path = some p.tree := by
    rw [tree?_put, hread]
    rfl
  obtain ⟨t', ht', hcode⟩ := yields_put_of_inserts hread hread' hinserts hfind
    (compiles_of_ended hfind hm) (hasks p.tree htree) (compileScript_ended_iff.mp hends)
  have ho' : o' = ⟨.ok (), t'⟩ := ended_of_yields ht'
  rw [ho']
  exact ⟨rfl, hcode, congrArg Assembly.print hcode⟩

/-- A script with a namespace, and a qualified name that leads into it. -/
def spacedText : String :=
  "int w:8;namespace n\x7bint v:7;int u:6;\x7dfunction f()\x7bn::v=1;\x7d"

/-- The script with an import between the entries of the namespace. -/
def importingText : String :=
  "int w:8;namespace n\x7bint v:7;import b;int u:6;\x7dfunction f()\x7bn::v=1;\x7d"

/-- The imported file has such a namespace too. -/
def importedFiles : Files := ⟨[("b.evc", "namespace n\x7bint v:5;\x7d".toUTF8)]⟩

set_option maxRecDepth 100000 in
/-- The import is added in the namespace. -/
theorem spacedText_addsImport :
    (Script.ofText spacedText).AddsImport "b" (.ofText importingText) := by
  let row (text : String) : List Token := (Script.ofText text).tokens.map Token.bare
  let token (kind : Kind) (text : String) : Token := ⟨kind, text, .start, 0, 0⟩
  let spaced (inside : List Token) : List Token := row "int w:8;" ++
    ((token (.keyword .namespaceKw) "namespace" :: token .name "n" ::
      token (.mark .openBrace) "\x7b" :: inside ++ [token (.mark .closeBrace) "\x7d"]) ++
      row "function f()\x7bn::v=1;\x7d")
  have hrow : EntryRow (row "int w:8;") ∧ EntryRow (row "int v:7;") ∧ EntryRow (row "int u:6;") ∧
      EntryRow (row "function f()\x7bn::v=1;\x7d") := by
    refine ⟨?_, ?_, ?_, ?_⟩
    all_goals exact Script.entryRow rfl (by decide +kernel)
  have hadds : AddsImport "b" (spaced (row "int v:7;" ++ row "int u:6;"))
      (spaced (row "int v:7;" ++ (importTokens "b" ++ row "int u:6;"))) :=
    .inside hrow.1 hrow.2.2.2 rfl rfl rfl rfl (by decide +kernel) (.here hrow.2.1 hrow.2.2.1)
  have htokens : row spacedText = spaced (row "int v:7;" ++ row "int u:6;") ∧
      row importingText = spaced (row "int v:7;" ++ (importTokens "b" ++ row "int u:6;")) := by
    decide +kernel
  rw [← htokens.1, ← htokens.2] at hadds
  exact hadds.script (by decide +kernel)

set_option maxRecDepth 100000 in
/-- The import does not change the code, though the imported file has a namespace of the name that
the script asks for. -/
theorem importingText_keeps_code :
    (compileScript (importedFiles.put "a.evc" spacedText) .strict "a.evc").ended = .ok () ∧
      findImport (importedFiles.put "a.evc" importingText) "a.evc" "b" = some "b.evc" ∧
      (compileScript (importedFiles.put "a.evc" importingText) .strict "b.evc").ended = .ok () ∧
      ((importedFiles.put "a.evc" spacedText).tree? .strict "a.evc").map
        (fun tree => entriesNames tree.entries) = some ["n::v"] ∧
      (compileScript (importedFiles.put "a.evc" importingText) .strict "a.evc").ended = .ok () ∧
      (compileScript (importedFiles.put "a.evc" importingText) .strict "a.evc").state.file.code =
        (compileScript (importedFiles.put "a.evc" spacedText) .strict "a.evc").state.file.code := by
  have hcheck : ((compileScript (importedFiles.put "a.evc" spacedText) .strict "a.evc").endsWith
        fun _ => true) = true ∧
      findImport (importedFiles.put "a.evc" importingText) "a.evc" "b" = some "b.evc" ∧
      ((compileScript (importedFiles.put "a.evc" importingText) .strict "b.evc").endsWith
        fun _ => true) = true ∧
      ((importedFiles.put "a.evc" spacedText).tree? .strict "a.evc").map
        (fun tree => entriesNames tree.entries) = some ["n::v"] ∧
      (nameParts "n::v").1.head? ≠ some "b" := by
    decide +kernel
  obtain ⟨hends, hfind, hm, hnames, hfree⟩ := hcheck
  obtain ⟨t, ht, -⟩ := Outcome.eq_of_endsWith hends
  obtain ⟨u, hu, -⟩ := Outcome.eq_of_endsWith hm
  have hasks : ∀ tree ∈ (importedFiles.put "a.evc" spacedText).tree? .strict "a.evc",
      ∀ name ∈ entriesNames tree.entries, (nameParts name).1.head? ≠ some "b" := by
    intro tree htree name hname
    rw [Option.mem_def.mp htree, Option.map_some, Option.some_inj] at hnames
    rw [hnames] at hname
    exact List.mem_singleton.mp hname ▸ hfree
  obtain ⟨hends', hcode, -⟩ := unused_import_keeps_code importedFiles "a.evc" spacedText
    importingText "b" "b.evc" spacedText_addsImport (congrArg Outcome.ended ht) hfind
    (congrArg Outcome.ended hu) hasks
  exact ⟨congrArg Outcome.ended ht, hfind, congrArg Outcome.ended hu, hnames, hends', hcode⟩

/-- A file that imports the script. -/
def leadingBackFiles : Files := ⟨[("b.evc", "import a;".toUTF8)]⟩

set_option maxRecDepth 100000 in
-- why the file that `m` names is to be compiled with the import in place: without it, a file that
-- leads back to the script is compiled to the end as well
example :
    let ends (text path : String) : Bool :=
      (compileScript (leadingBackFiles.put "a.evc" text) .strict path).endsWith fun _ => true
    (ends "int w:8;" "a.evc" && ends "int w:8;" "b.evc") = true ∧
      (ends "int w:8;import b;" "a.evc" || ends "int w:8;import b;" "b.evc") = false := by
  decide +kernel

end EvScript
