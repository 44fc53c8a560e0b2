import EvScript.Proofs.Compile.Visibility
import EvScript.Proofs.Scope.Imports

/-!
# What an Import Brings

Where an entry of a program stands, the scopes are tidy and the place is not in a block. Each entry
leaves it so, and gives the scopes that were there neither another name nor another parent. So the
namespaces of a file are the children of its global scope that have a name, and what an import
brings can be said by these.

## Main results

* `imports_carry_names` — what names an import brings, and under what names they stand.
-/

namespace EvScript

open CompileM ScopeGraph

variable {scope x : Scope}

namespace CompileState

variable {s t u : CompileState}

/-- The scopes are in order and tidy, and the place is not in a block. -/
structure AtEntry (s : CompileState) : Prop extends s.Scoped where
  tidy : s.graph.Tidy
  outside : ¬ s.graph.IsBlock s.file.cursor.here

/-- From `s` to `t` the place is the same, and the scopes that were there are what they were: global
scopes, namespaces with a name, or blocks. -/
structure Tidies (s t : CompileState) : Prop where
  atEntry : t.AtEntry
  cursor : t.file.cursor = s.file.cursor
  size_le : s.graph.size ≤ t.graph.size
  name : ∀ y < s.graph.size, (t.graph.scope y).name = (s.graph.scope y).name
  parent : ∀ y < s.graph.size, (t.graph.scope y).parent = (s.graph.scope y).parent

theorem Tidies.trans (h : s.Tidies t) (h' : t.Tidies u) : s.Tidies u where
  atEntry := h'.atEntry
  cursor := h'.cursor.trans h.cursor
  size_le := Nat.le_trans h.size_le h'.size_le
  name y hy := (h'.name y (Nat.lt_of_lt_of_le hy h.size_le)).trans (h.name y hy)
  parent y hy := (h'.parent y (Nat.lt_of_lt_of_le hy h.size_le)).trans (h.parent y hy)

/-- A place that is kept is still not in a block. -/
theorem AtEntry.tidies (hs : s.AtEntry) (ht : t.Scoped) (htidy : t.graph.Tidy)
    (hcursor : t.file.cursor = s.file.cursor) (hsize : s.graph.size ≤ t.graph.size)
    (hname : ∀ y < s.graph.size, (t.graph.scope y).name = (s.graph.scope y).name)
    (hparent : ∀ y < s.graph.size, (t.graph.scope y).parent = (s.graph.scope y).parent) :
    s.Tidies t := by
  refine ⟨⟨ht, htidy, ?_⟩, hcursor, hsize, hname, hparent⟩
  have hlt := hs.rooted.here_lt
  rw [hcursor, isBlock_congr (hname _ hlt) (hparent _ hlt)]
  exact hs.outside

theorem Tidies.of_sameScopes (hs : s.AtEntry) (h : SameScopes s t) : s.Tidies t := by
  refine hs.tidies (hs.of_sameScopes h) ?_ h.2 ?_ ?_ ?_
  · rw [h.1]
    exact hs.tidy
  · rw [h.1]
  · exact fun _ _ => by rw [h.1]
  · exact fun _ _ => by rw [h.1]

/-- A fresh file begins at its global scope. -/
theorem AtEntry.fresh (hs : s.AtEntry) (path : String) : (s.fresh path).AtEntry where
  toScoped := (hs.toScoped.fresh path).toScoped
  tidy := hs.tidy.start hs.ordered
  outside h := h.2 (hs.toScoped.fresh path).rooted.parent

theorem AtEntry.declare {f : Scope → Scope} (hs : s.AtEntry)
    (hcursor : t.file.cursor = s.file.cursor)
    (hgraph : t.graph = s.graph.modify s.file.cursor.here f)
    (hname : ∀ x, (f x).name = x.name) (hparent : ∀ x, (f x).parent = x.parent)
    (hchildren : ∀ x, (f x).children = x.children)
    (hdistinct : ∀ x : Scope, x.Distinct → (f x).Distinct) : s.Tidies t := by
  have hproceeds := hs.toScoped.proceeds_modify hs.toScoped.top_le_here hname hparent hchildren
  have hsame : SameScopes { s with graph := s.graph.modify s.file.cursor.here f } t :=
    ⟨hgraph, hcursor⟩
  have htidies : s.Tidies { s with graph := s.graph.modify s.file.cursor.here f } :=
    hs.tidies hproceeds.inOrder (hs.tidy.modify hname hparent hchildren hdistinct) rfl
      hproceeds.size_le (fun y _ => field_scope_modify hname y) fun y _ =>
        field_scope_modify hparent y
  exact htidies.trans (.of_sameScopes htidies.atEntry hsame)

end CompileState

/-! ### Steps that leave tidy scopes -/

namespace CompileM

variable {α β : Type} {m : CompileM α}

/-- Where an entry may stand, the step leaves tidy scopes if it goes on. -/
def StaysTidy (m : CompileM α) : Prop :=
  ∀ s a t, s.AtEntry → Yields m s a t → s.Tidies t

theorem Keeps.staysTidy (h : Keeps scopes m) : StaysTidy m :=
  fun _ _ _ hs hy => .of_sameScopes hs (h.sameScopes hy)

theorem StaysTidy.bind {f : α → CompileM β} (hm : StaysTidy m) (hf : ∀ a, StaysTidy (f a)) :
    StaysTidy (m >>= f) := by
  intro s b t hs hy
  obtain ⟨a, u, hu, ht⟩ := hy.bind
  have hsu := hm s a u hs hu
  exact hsu.trans (hf a u b t hsu.atEntry ht)

end CompileM

theorem Scope.Distinct.addVariable (h : x.Distinct) (v : Variable) :
    ({ x with vars := x.vars.insert v.name v } : Scope).Distinct := by
  intro α shelf hshelf
  have hold := h _ _ hshelf
  cases hshelf with
  | vars => exact hold.insert _ _
  | _ => exact hold

theorem Scope.Distinct.addCommand (h : x.Distinct) (d : Command) :
    ({ x with commands := x.commands.insert d.name d } : Scope).Distinct := by
  intro α shelf hshelf
  have hold := h _ _ hshelf
  cases hshelf with
  | commands => exact hold.insert _ _
  | _ => exact hold

theorem Scope.Distinct.addFunction (h : x.Distinct) (f : Function) :
    ({ x with functions := x.functions.insert f.name f } : Scope).Distinct := by
  intro α shelf hshelf
  have hold := h _ _ hshelf
  cases hshelf with
  | functions => exact hold.insert _ _
  | _ => exact hold

theorem staysTidy_define (level : Level) (d : Definition) : StaysTidy (define level d) := by
  refine (keeps_compileDefinition level true d).staysTidy.bind fun ⟨v, instrs⟩ => ?_
  have hadd : StaysTidy (onGraph fun c g => c.addVariable g v) := by
    intro s _ t hs hy
    obtain rfl := hy.onGraph
    exact hs.declare rfl rfl (fun _ => rfl) (fun _ => rfl) (fun _ => rfl) fun _ h => h.addVariable v
  exact hadd.bind fun _ => (Keeps.pure _).staysTidy

theorem staysTidy_declareCommand (d : CommandDecl) : StaysTidy (declareCommand d) := by
  intro s _ t hs hy
  obtain ⟨_, _, _, rfl⟩ := yields_declareCommand hy
  exact hs.declare rfl rfl (fun _ => rfl) (fun _ => rfl) (fun _ => rfl) fun _ h => h.addCommand _

theorem CompileState.AtEntry.tidies_openFunction {s : CompileState} (hs : s.AtEntry)
    (f : FunctionDecl) (name : String) (result : Option ResultType) :
    s.Tidies (s.openFunction f name result) :=
  hs.declare rfl rfl (fun _ => rfl) (fun _ => rfl) (fun _ => rfl) fun _ h => h.addFunction _

theorem tidies_compileBlock (hname : scope.name = none)
    (hchildren : scope.children = []) {b : Block} {s t : CompileState} {l last : LabelId}
    (hs : s.AtEntry) (hy : Yields (compileBlock scope l b) s last t) : s.Tidies t := by
  have hblock := along_compileBlock hname hchildren b s l
  have ht := hblock.scoped hs.toScoped hy
  obtain ⟨-, -, hpost⟩ := hblock hs.toScoped
  have hleaves := hpost last t hy
  exact hs.tidies ht (hleaves.gains.tidy hs.ordered ht.ordered hs.tidy) hleaves.cursor
    (Nat.le_of_lt hleaves.gains.size_lt) (fun y hy => hleaves.gains.name_eq hy)
    fun y hy => hleaves.gains.parent_eq hy

theorem staysTidy_compileFunction (f : FunctionDecl) : StaysTidy (compileFunction f) := by
  rw [compileFunction_eq]
  intro s _ t hs hy
  obtain ⟨head, u, hhead, hy⟩ := hy.bind
  obtain ⟨last, hblock, -⟩ := hy.bind_pure
  obtain ⟨name, parameters, result, -, -, -, rfl, rfl⟩ := yields_beginFunction hhead
  have hopen := hs.tidies_openFunction f name result
  exact hopen.trans (tidies_compileBlock rfl rfl hopen.atEntry hblock)

/-! ### Imports -/

variable {fs : Files} {mode : ReadMode} {n : Nat} {s t u : CompileState} {m : String}

/-- The file that a name stands for in a state compiles to the end when it is imported, and `u` is
the state at the end of its run. -/
def Brings (fs : Files) (mode : ReadMode) (n : Nat) (s : CompileState) (m : String)
    (u : CompileState) : Prop :=
  ∃ path v, findImport fs s.file.path m = some path ∧
    Yields (printLine (announcement path)) s () v ∧
    Yields (compileFile fs mode n path) (v.fresh path) () u

theorem yields_importByName {name : Option String} {pos : Pos} {r : String × Cursor} :
    Yields (importByName fs (fileImporter fs mode n) name pos) s r t ↔
      ∃ u, name = some r.1 ∧ Brings fs mode n s r.1 u ∧ u.file.cursor = r.2 ∧
        { u with file := s.file } = t := by
  obtain ⟨m, other⟩ := r
  unfold importByName
  constructor
  · intro hy
    obtain ⟨m', _, hneed, hy⟩ := hy.bind
    obtain ⟨rfl, rfl⟩ := hneed.need
    replace hy := hy.get_bind
    cases hfind : findImport fs s.file.path m' with
    | none =>
      rw [hfind] at hy
      exact hy.stop.elim
    | some path =>
      rw [hfind] at hy
      obtain ⟨_, hrun, hr⟩ := hy.bind_pure
      obtain ⟨rfl, rfl⟩ := Prod.mk.inj hr
      obtain ⟨_, v, hprint, hfile⟩ := hrun.bind
      obtain ⟨u, hu, hcursor, rfl⟩ := yields_inFile.mp hfile
      refine ⟨u, rfl, ⟨path, v, hfind, hprint, hu⟩, hcursor, ?_⟩
      rw [← hprint.modify]
  · rintro ⟨u, rfl, ⟨path, v, hfind, hprint, hu⟩, rfl, rfl⟩
    refine yields_bind.mpr ⟨m, s, yields_need.mpr ⟨rfl, rfl⟩, ?_⟩
    refine yields_bind.mpr ⟨s, s, yields_get.mpr ⟨rfl, rfl⟩, ?_⟩
    rw [hfind]
    refine yields_bind.mpr ⟨_, _, yields_bind.mpr ⟨(), v, hprint, yields_inFile.mpr
      ⟨u, hu, rfl, rfl⟩⟩, ?_⟩
    rw [← hprint.modify]
    exact yields_pure.mpr ⟨rfl, rfl⟩

/-- The global scope of a file that compiles to the end is put into that of the importing file. -/
theorem Brings.yields_importAll (h : Brings fs mode n s m u) (pos : Pos) :
    Yields (compileEntry fs (fileImporter fs mode n) (.importAll (some m) pos)) s () { u with
      file := s.file
      graph := s.file.cursor.mount u.graph u.file.cursor m } := by
  rw [compileEntry]
  exact yields_bind.mpr ⟨(m, u.file.cursor), _, yields_importByName.mpr ⟨u, rfl, h, rfl, rfl⟩,
    yields_onGraph.mpr rfl⟩

theorem Brings.yields_importFrom (h : Brings fs mode n s m u) (pos : Pos) :
    Yields (compileEntry fs (fileImporter fs mode n) (.importFrom (some m) (some true) pos)) s ()
      { u with
        file := s.file
        graph := s.file.cursor.takeAll u.graph u.file.cursor } := by
  rw [compileEntry]
  exact yields_bind.mpr ⟨(m, u.file.cursor), _, yields_importByName.mpr ⟨u, rfl, h, rfl, rfl⟩,
    yields_onGraph.mpr rfl⟩

/-- The place in a file that was imported, beside that of the file that imports it; the scopes that
were there before have not changed. -/
structure Alongside (s u : CompileState) : Prop where
  beside : s.file.cursor.Beside u.file.cursor u.graph
  imported : Imported s u.file.cursor { u with file := s.file }

/-- Files leave tidy scopes, so their global scopes come to stand beside others. -/
theorem Brings.alongside (hn : ∀ path, StaysTidy (compileFile fs mode n path)) (hs : s.AtEntry)
    (h : Brings fs mode n s m u) : Alongside s u := by
  have hyields : Yields (importByName fs (fileImporter fs mode n) (some m) .start) s
      (m, u.file.cursor) { u with file := s.file } :=
    yields_importByName.mpr ⟨u, rfl, h, rfl, rfl⟩
  have himport : Along (importByName fs (fileImporter fs mode n) (some m) .start) s [] _ :=
    along_importByName (importsBehind_fileImporter fs mode n) (some m) .start s
  have ht : CompileState.Scoped { u with file := s.file } := himport.scoped hs.toScoped hyields
  have himported := (himport hs.toScoped).2.2 _ _ hyields
  obtain ⟨path, v, -, hprint, hu⟩ := h
  have hv := ((keeps_printLine _).staysTidy s () v hs hprint).atEntry
  have htidies := hn path (v.fresh path) () u (hv.fresh path) hu
  refine ⟨⟨ht.ordered, htidies.atEntry.tidy, ht.rooted, htidies.atEntry.rooted, ?_, ?_, ?_⟩,
    himported⟩
  · exact himported.top_lt hs.toScoped
  · rw [htidies.cursor]
    rfl
  · rw [htidies.cursor]
    rfl

/-- Behind an import, the scopes that were there before are what they were if what is done with
those of the file leaves their names and parents. -/
theorem Alongside.tidies (h : Alongside s u) (hs : s.AtEntry) {g : ScopeGraph}
    (hscoped : CompileState.Scoped { u with file := s.file, graph := g }) (htidy : g.Tidy)
    (hsize : g.size = u.graph.size) (hname : ∀ y < s.graph.size,
      (g.scope y).name = (u.graph.scope y).name ∧ (g.scope y).parent = (u.graph.scope y).parent) :
    s.Tidies { u with file := s.file, graph := g } := by
  have hsame : ∀ y < s.graph.size, u.graph.scope y = s.graph.scope y := h.imported.same
  refine hs.tidies hscoped htidy rfl ?_ (fun y hy => ?_) fun y hy => ?_
  · exact hsize ▸ Nat.le_of_lt h.imported.size_lt
  · rw [← hsame y hy]
    exact (hname y hy).1
  · rw [← hsame y hy]
    exact (hname y hy).2

theorem Alongside.tidies_mount (h : Alongside s u) (hs : s.AtEntry) (m : String) : s.Tidies { u with
      file := s.file
      graph := s.file.cursor.mount u.graph u.file.cursor m } := by
  have hb := h.beside
  refine h.tidies hs (h.imported.proceeds_mount hs.toScoped ⟨hb.ordered, hb.rooted⟩ m).inOrder
    (hb.tidy.mount hb.lt hb.rooted'.top_lt hb.rooted.parent hb.rooted'.parent m) size_mount ?_
  intro y hy
  have hne : y ≠ u.file.cursor.top := by
    rw [h.imported.top]
    exact Nat.ne_of_lt hy
  rw [hb.scope_mount, if_neg hne]
  split
  · rename_i htop
    rw [← htop]
    exact ⟨rfl, rfl⟩
  · exact ⟨rfl, rfl⟩

/-- The declarations of a file are taken over. -/
theorem Alongside.tidies_takeAll (h : Alongside s u) (hs : s.AtEntry) : s.Tidies { u with
      file := s.file
      graph := s.file.cursor.takeAll u.graph u.file.cursor } := by
  have hb := h.beside
  refine h.tidies hs (h.imported.proceeds_takeAll hs.toScoped ⟨hb.ordered, hb.rooted⟩).inOrder
    (hb.tidy.takeAll hb.rooted.top_lt hb.rooted.parent) size_takeAll fun y _ => ?_
  by_cases htop : y = s.file.cursor.top
  · rw [htop, scope_takeAll _ _ hb.rooted.top_lt]
    exact ⟨rfl, rfl⟩
  · rw [scope_takeAll_of_ne htop]
    exact ⟨rfl, rfl⟩

/-! ### Entries and files -/

/-- Going into a namespace. -/
theorem atEntry_enterScope {name : String} (hs : s.AtEntry)
    (hy : Yields (enterScope { name := some name }) s () t) :
    t.AtEntry ∧ t.file.cursor = (s.file.cursor.enterNew s.graph { name := some name }).1 ∧
      t.graph = (s.file.cursor.enterNew s.graph { name := some name }).2 := by
  have henter : Along (enterScope { name := some name }) s [] _ := along_enterScope rfl
  obtain ⟨hcursor, hgraph⟩ := (henter hs.toScoped).2.2 () t hy
  refine ⟨⟨henter.scoped hs.toScoped hy, ?_, fun hblock => ?_⟩, hcursor, hgraph⟩
  · rw [hgraph]
    exact hs.tidy.enterNew hs.ordered hs.rooted.here_lt hs.outside name
  · have hname := hblock.1
    rw [hcursor, hgraph] at hname
    rw [show (s.file.cursor.enterNew s.graph { name := some name }).1.here = s.graph.size from rfl,
      scope_enterNew hs.rooted.here_lt, if_pos rfl] at hname
    cases hname

theorem place_enterNew {c : Cursor} {g : ScopeGraph} (hc : c.here < g.size)
    {y : ScopeId} (hy : y < g.size) :
    ((c.enterNew g scope).2.scope y).name = (g.scope y).name ∧
      ((c.enterNew g scope).2.scope y).parent = (g.scope y).parent := by
  rw [scope_enterNew hc, if_neg (Nat.ne_of_lt hy)]
  split
  · rename_i hyc
    rw [hyc]
    exact ⟨rfl, rfl⟩
  · exact ⟨rfl, rfl⟩

mutual

/-- **An entry leaves tidy scopes.** -/
theorem staysTidy_compileEntry (hn : ∀ path, StaysTidy (compileFile fs mode n path)) :
    ∀ e : Entry, StaysTidy (compileEntry fs (fileImporter fs mode n) e)
  | .define d => by
    rw [compileEntry]
    exact (staysTidy_define .top d).bind fun _ => (Keeps.pure _).staysTidy
  | .command d => by
    rw [compileEntry]
    exact staysTidy_declareCommand d
  | .function f => by
    rw [compileEntry]
    exact staysTidy_compileFunction f
  | .importAll name pos => by
    rw [compileEntry]
    intro s _ t hs hy
    obtain ⟨⟨m, other⟩, _, himport, hy⟩ := hy.bind
    obtain ⟨u, -, hbrings, rfl, rfl⟩ := yields_importByName.mp himport
    obtain rfl := hy.onGraph
    exact (hbrings.alongside hn hs).tidies_mount hs m
  | .importFrom name everything pos => by
    rw [compileEntry]
    intro s _ t hs hy
    obtain ⟨⟨m, other⟩, _, himport, hy⟩ := hy.bind
    obtain ⟨u, -, hbrings, rfl, rfl⟩ := yields_importByName.mp himport
    dsimp only at hy
    split at hy
    · exact hy.stop.elim
    · obtain rfl := hy.onGraph
      exact (hbrings.alongside hn hs).tidies_takeAll hs
    · exact hy.throw.elim
  | .space name entries => by
    rw [compileEntry]
    intro s _ t hs hy
    obtain ⟨name, -, hy⟩ := hy.need_bind
    obtain ⟨_, u, henter, hy⟩ := hy.bind
    obtain ⟨_, v, hentries, hleave⟩ := hy.bind
    obtain ⟨hu, hcursor, hgraph⟩ := atEntry_enterScope hs henter
    have huv := staysTidy_compileEntries hn entries u () v hu hentries
    -- the way back leads to the place the namespace was entered from
    have hback : v.file.cursor = ⟨s.file.cursor.top, s.graph.size,
        s.file.cursor.here :: s.file.cursor.enclosing⟩ := huv.cursor.trans hcursor
    have hleaves := along_leaveScope (congrArg Cursor.enclosing hback)
    obtain ⟨hcursor', hgraph'⟩ := (hleaves huv.atEntry.toScoped).2.2 () t hleave
    have hplace : ∀ y < s.graph.size, (u.graph.scope y).name = (s.graph.scope y).name ∧
        (u.graph.scope y).parent = (s.graph.scope y).parent := fun y hy => by
      rw [hgraph]
      exact place_enterNew hs.rooted.here_lt hy
    have hsize : s.graph.size ≤ u.graph.size := by
      rw [hgraph, size_enterNew]
      exact Nat.le_succ _
    have hlt : ∀ y < s.graph.size, y < u.graph.size := fun y hy => Nat.lt_of_lt_of_le hy hsize
    refine hs.tidies (hleaves.scoped huv.atEntry.toScoped hleave) ?_ ?_ ?_ ?_ ?_
    · rw [hgraph']
      exact huv.atEntry.tidy
    · rw [hcursor', hback]
    · rw [hgraph']
      exact Nat.le_trans hsize huv.size_le
    · intro y hy
      rw [hgraph', huv.name y (hlt y hy), (hplace y hy).1]
    · intro y hy
      rw [hgraph', huv.parent y (hlt y hy), (hplace y hy).2]
  | .inert rule => by
    rw [compileEntry]
    exact (Keeps.pure _).staysTidy

/-- **Entries leave tidy scopes.** -/
theorem staysTidy_compileEntries (hn : ∀ path, StaysTidy (compileFile fs mode n path)) :
    ∀ es : List Entry, StaysTidy (compileEntries fs (fileImporter fs mode n) es)
  | [] => by
    rw [compileEntries]
    exact (Keeps.pure _).staysTidy
  | e :: es => by
    rw [compileEntries]
    exact (staysTidy_compileEntry hn e).bind fun _ => staysTidy_compileEntries hn es

end

/-- **Files leave tidy scopes.** -/
theorem staysTidy_compileFile (fs : Files) (mode : ReadMode) :
    ∀ (n : Nat) (path : String), StaysTidy (compileFile fs mode n path)
  | 0, path => (Keeps.throw _).staysTidy
  | n + 1, path => by
    rw [compileFile_succ]
    exact (keeps_loadProgram fs mode path).staysTidy.bind fun tree =>
      staysTidy_compileEntries (staysTidy_compileFile fs mode n) tree.entries

/-! ### The entries of runs -/

mutual

/-- The entries inside an entry that a compilation comes to, each with the state at that moment. -/
def entryEntries (fs : Files) (importer : Importer) : Entry → CompileState →
    List (Entry × CompileState)
  | .space name entries, s =>
    onward (need .word name >>= fun name => enterScope { name := some name }) s fun _ t =>
      entriesEntries fs importer entries t
  | _, _ => []

/-- The entries that a compilation of entries comes to. -/
def entriesEntries (fs : Files) (importer : Importer) : List Entry → CompileState →
    List (Entry × CompileState)
  | [], _ => []
  | e :: es, s => (e, s) :: entryEntries fs importer e s ++
    onward (compileEntry fs importer e) s fun _ t => entriesEntries fs importer es t

end

/-- The entries that a run comes to, each with the state at that moment. -/
def Run.entriesMet (fs : Files) (mode : ReadMode) (r : Run) : List (Entry × CompileState) :=
  onward (loadProgram fs mode r.path) r.start fun tree t =>
    entriesEntries fs (fileImporter fs mode r.depth) tree.entries t

mutual

theorem atEntry_of_mem_entryEntries : ∀ (e : Entry) (s : CompileState), s.AtEntry →
    ∀ x ∈ entryEntries fs (fileImporter fs mode n) e s, x.2.AtEntry
  | .space name entries, s, hs, x, hx => by
    rw [entryEntries] at hx
    obtain ⟨_, t, hy, hx⟩ := mem_onward.mp hx
    obtain ⟨name, -, henter⟩ := hy.need_bind
    exact atEntry_of_mem_entriesEntries entries t (atEntry_enterScope hs henter).1 x hx
  | .define _, _, _, _, hx | .command _, _, _, _, hx | .function _, _, _, _, hx
  | .importAll _ _, _, _, _, hx | .importFrom _ _ _, _, _, _, hx | .inert _, _, _, _, hx =>
    by simp [entryEntries] at hx

theorem atEntry_of_mem_entriesEntries : ∀ (es : List Entry) (s : CompileState), s.AtEntry →
    ∀ x ∈ entriesEntries fs (fileImporter fs mode n) es s, x.2.AtEntry
  | [], _, _, _, hx => by simp [entriesEntries] at hx
  | e :: es, s, hs, x, hx => by
    rw [entriesEntries, List.cons_append] at hx
    rcases List.mem_cons.mp hx with rfl | hx
    · exact hs
    rcases List.mem_append.mp hx with hx | hx
    · exact atEntry_of_mem_entryEntries e s hs x hx
    · obtain ⟨_, t, hy, hx⟩ := mem_onward.mp hx
      have hst := staysTidy_compileEntry (staysTidy_compileFile fs mode n) e s () t hs hy
      exact atEntry_of_mem_entriesEntries es t hst.atEntry x hx

end

theorem lasts_atEntry (fs : Files) (mode : ReadMode) :
    Lasts fs mode CompileState.AtEntry CompileState.AtEntry where
  start := id
  load hs h := ((keeps_loadProgram fs mode _).staysTidy _ _ _ hs h).atEntry
  enter hs h := (atEntry_enterScope hs h).1
  entry _ hs h := (staysTidy_compileEntry (staysTidy_compileFile fs mode _) _ _ _ _ hs h).atEntry
  fresh hs h := ((keeps_printLine _).staysTidy _ _ _ hs h).atEntry.fresh _

/-- A script begins where entries may stand. -/
theorem atEntry_start (path : String) : (CompileState.start path).AtEntry where
  ordered := ordered_empty.start
  rooted := .start .empty
  tidy := tidy_empty.start ordered_empty
  outside h := h.2 (Cursor.Rooted.start .empty).parent

/-- **Every entry that a run of a script comes to** stands among tidy scopes. -/
theorem atEntry_of_mem_entriesMet {path : String} {r : Run} {e : Entry}
    (hr : r ∈ scriptRuns fs mode path) (hs : (e, s) ∈ r.entriesMet fs mode) : s.AtEntry := by
  have hstart := (lasts_atEntry fs mode).scriptRuns (atEntry_start path) hr
  obtain ⟨tree, t, hload, hx⟩ := mem_onward.mp hs
  have ht := ((keeps_loadProgram fs mode r.path).staysTidy r.start tree t hstart hload).atEntry
  exact atEntry_of_mem_entriesEntries tree.entries t ht (e, s) hx

/-! ### Names behind an import -/

/-- **An import carries the names of a file.** Let a run of a script come to an entry in the state
`s`, and let a file compile to the end when it is imported there; `u` is the state at the end of its
run, in which the place is its global scope. The names are those of any kind of declaration.

* If the entry imports the file under its name, which has no colon in it, and no namespace in the
  global scope has this name, then the entry goes on, and behind it the name of the file, `::` and
  any name, plain or qualified, mean what that name means in `u`.
* If the entry imports everything from the file, and no namespace in the global scope has the name
  of one in the global scope of the file, then the entry goes on, and behind it any name means what
  it means in `u`, and if it means nothing there, what it meant in `s`. -/
theorem imports_carry_names (fs : Files) (mode : ReadMode) (path : String) (r : Run)
    (hr : r ∈ scriptRuns fs mode path) (e : Entry) (s : CompileState)
    (hs : (e, s) ∈ r.entriesMet fs mode) (m : String) (pos : Pos) (u : CompileState)
    (hu : Brings fs mode r.depth s m u) {α : Type} (shelf : Shelf α) (hshelf : IsShelf shelf) :
    (u.file.cursor.here = u.file.cursor.top ∧ u.file.cursor.enclosing = []) ∧
    (e = .importAll (some m) pos → ':' ∉ m.toList →
      (∀ x ∈ (s.graph.scope s.file.cursor.top).children, (s.graph.scope x).name ≠ some m) →
      ∃ t, Yields (compileEntry fs (fileImporter fs mode r.depth) e) s () t ∧
        ∀ q, t.meaning shelf (m ++ "::" ++ q) = u.meaning shelf q) ∧
    (e = .importFrom (some m) (some true) pos →
      (∀ x ∈ (s.graph.scope s.file.cursor.top).children,
        ∀ y ∈ (u.graph.scope u.file.cursor.top).children,
        ∀ p, (s.graph.scope x).name = some p → (u.graph.scope y).name ≠ some p) →
      ∃ t, Yields (compileEntry fs (fileImporter fs mode r.depth) e) s () t ∧
        ∀ q, t.meaning shelf q = (u.meaning shelf q).or (s.meaning shelf q)) := by
  have hentry := atEntry_of_mem_entriesMet hr hs
  have halong := hu.alongside (staysTidy_compileFile fs mode r.depth) hentry
  have hb := halong.beside
  -- the global scope is one of those that were there before the import
  have htop : u.graph.scope s.file.cursor.top = s.graph.scope s.file.cursor.top :=
    halong.imported.same _ hentry.rooted.top_lt
  have hchild : ∀ x ∈ (s.graph.scope s.file.cursor.top).children,
      u.graph.scope x = s.graph.scope x := fun x hx =>
    halong.imported.same x (hentry.ordered.child hx).2
  refine ⟨⟨hb.here, hb.enclosing⟩, ?_, ?_⟩
  · rintro rfl hm hfresh
    refine ⟨_, hu.yields_importAll pos, fun q => ?_⟩
    refine hb.resolve_mount hm (halong.tidies_mount hentry m).atEntry.rooted ?_ hshelf q
    rw [htop]
    intro x hx
    rw [hchild x hx]
    exact hfresh x hx
  · rintro rfl hapart
    refine ⟨_, hu.yields_importFrom pos, fun q => ?_⟩
    have hbefore : s.file.cursor.resolve u.graph shelf q = s.meaning shelf q :=
      Cursor.resolve_of_same hentry.ordered hb.ordered hentry.tidy hb.tidy hentry.rooted
        (Nat.le_of_lt halong.imported.size_lt) (fun y hy => halong.imported.same y hy) hshelf q
    rw [← hbefore]
    refine hb.resolve_takeAll ?_ hshelf q
    intro x hx y hy p hp
    rw [htop] at hx
    rw [hchild x hx] at hp
    exact hapart x hx y hy p hp

/-- A file that is imported under its name and then taken over. -/
def libraryFiles : Files :=
  ⟨[("main.evc", ("import lib;from lib import *;int x:1;").toUTF8),
    ("lib.evc", ("int v:5;namespace n\x7bint w:6;\x7d").toUTF8)]⟩

/-- Whether both imports of `libraryFiles` find the variable of the namespace, as expected. -/
def libraryFound : Bool :=
  match (mainRun libraryFiles "main.evc").entriesMet libraryFiles .strict with
    | (.importAll (some "lib") pos, s) :: (.importFrom (some "lib") (some true) pos', s') :: _ =>
      (match ending (importByName libraryFiles (fileImporter libraryFiles .strict 2)
          (some "lib") pos) s with
        | (.ok (_, other), t) =>
          decide ((other.resolve t.graph (·.vars) "n::w").map (·.storage) = some (some 6))
        | _ => false) &&
      (match ending (importByName libraryFiles (fileImporter libraryFiles .strict 2)
          (some "lib") pos') s' with
        | (.ok (_, other), t) =>
          decide ((other.resolve t.graph (·.vars) "n::w").map (·.storage) = some (some 6)) &&
          (t.graph.scope other.top).children.all fun x =>
            decide ((t.graph.scope x).name = some "n")
        | _ => false) &&
      decide ((s.graph.scope s.file.cursor.top).children = []) &&
      ((s'.graph.scope s'.file.cursor.top).children.all fun x =>
        decide ((s'.graph.scope x).name = some "lib")) &&
      (s.meaning (·.vars) "lib::n::w").isNone && (s'.meaning (·.vars) "n::w").isNone
    | _ => false

set_option maxRecDepth 100000 in
/-- Behind the first import the variable of the namespace is found under the name of the file, and
behind the second one without it. -/
theorem library_names_carried :
    ∃ r ∈ scriptRuns libraryFiles .strict "main.evc",
      (∃ pos s t, (Entry.importAll (some "lib") pos, s) ∈ r.entriesMet libraryFiles .strict ∧
        Yields (compileEntry libraryFiles (fileImporter libraryFiles .strict r.depth)
          (.importAll (some "lib") pos)) s () t ∧
        s.meaning (·.vars) "lib::n::w" = none ∧
        (t.meaning (·.vars) ("lib" ++ "::" ++ "n::w")).map (·.storage) = some (some 6)) ∧
      ∃ pos s t, (Entry.importFrom (some "lib") (some true) pos, s) ∈
          r.entriesMet libraryFiles .strict ∧
        Yields (compileEntry libraryFiles (fileImporter libraryFiles .strict r.depth)
          (.importFrom (some "lib") (some true) pos)) s () t ∧
        s.meaning (·.vars) "n::w" = none ∧
        (t.meaning (·.vars) "n::w").map (·.storage) = some (some 6) := by
  have hcheck : libraryFound = true := by
    decide +kernel
  unfold libraryFound at hcheck
  split at hcheck
  · rename_i pos s pos' s' rest hmet
    simp only [Bool.and_eq_true, decide_eq_true_eq, Option.isNone_iff_eq_none] at hcheck
    obtain ⟨⟨⟨⟨⟨himport, himport'⟩, hnone⟩, hlib⟩, hs⟩, hs'⟩ := hcheck
    split at himport
    · rename_i m other t hend
      split at himport'
      · rename_i m' other' t' hend'
        rw [Bool.and_eq_true, decide_eq_true_eq] at himport'
        rw [decide_eq_true_eq] at himport
        obtain ⟨u, hm, hu, rfl, rfl⟩ := yields_importByName.mp hend
        obtain ⟨u', hm', hu', rfl, rfl⟩ := yields_importByName.mp hend'
        obtain rfl := Option.some.inj hm
        obtain rfl := Option.some.inj hm'
        have hmain := mainRun_mem libraryFiles .strict "main.evc"
        have hmem : (Entry.importAll (some "lib") pos, s) ∈
            (mainRun libraryFiles "main.evc").entriesMet libraryFiles .strict := by
          rw [hmet]
          exact List.mem_cons_self
        have hmem' : (Entry.importFrom (some "lib") (some true) pos', s') ∈
            (mainRun libraryFiles "main.evc").entriesMet libraryFiles .strict := by
          rw [hmet]
          exact List.mem_cons_of_mem _ List.mem_cons_self
        obtain ⟨-, hcarry, -⟩ := imports_carry_names libraryFiles .strict "main.evc" _ hmain _ s
          hmem "lib" pos u hu (·.vars) .vars
        obtain ⟨-, -, hcarry'⟩ := imports_carry_names libraryFiles .strict "main.evc" _ hmain _ s'
          hmem' "lib" pos' u' hu' (·.vars) .vars
        obtain ⟨t, ht, hnames⟩ := hcarry rfl (by decide) (by simp [hnone])
        obtain ⟨t', ht', hnamesInside⟩ := hcarry' rfl fun x hx y hy p hp hp' => by
          have hx := of_decide_eq_true (List.all_eq_true.mp hlib x hx)
          have hy := of_decide_eq_true (List.all_eq_true.mp himport'.2 y hy)
          rw [hx] at hp
          rw [show (u'.graph.scope y).name = some "n" from hy] at hp'
          exact absurd (Option.some.inj (hp.trans hp'.symm)) (by decide)
        refine ⟨_, hmain, ⟨pos, s, t, hmem, ht, hs, ?_⟩, pos', s', t', hmem', ht', hs', ?_⟩
        · rw [hnames "n::w"]
          exact himport
        · rw [hnamesInside "n::w", hs', Option.or_none]
          exact himport'.1
      · cases himport'
    · cases himport
  · cases hcheck

end EvScript
