import EvScript.Proofs.Compile.Imports
import EvScript.Proofs.Compile.Uses

/-!
# Where Variables Come from

What a name means in the body of a function is a parameter of the function, a variable that was
defined in the body before, or one that some file defines outside of functions. The locals of other
functions are out of reach: their scopes are blocks, and from outside no name leads into a block.

Along a run, scopes that are no blocks have only what was defined outside of functions, and the
scopes that a body makes have only its parameters and the variables that were defined on the way.
-/

namespace EvScript

open CompileM ScopeGraph

variable {g : ScopeGraph} {id x y : ScopeId} {f : Scope → Scope} {c : Cursor} {name : Option String}
  {path : String} {vs : List Variable} {a : Arrival} {w : Use}

/-! ### Definitions outside of functions -/

mutual

/-- The variables that an entry defines. -/
def entryDefinitions : Entry → List Definition
  | .define d => [d]
  | .space _ entries => entriesDefinitions entries
  | _ => []

/-- The variables that entries define. -/
def entriesDefinitions : List Entry → List Definition
  | [] => []
  | e :: es => entryDefinitions e ++ entriesDefinitions es

end

/-- The variables that files define outside of functions. -/
def Files.definitions (fs : Files) (mode : ReadMode) : List Definition :=
  fs.entries.flatMap fun e => (fs.tree? mode e.1).toList.flatMap fun tree =>
    entriesDefinitions tree.entries

/-- A definition of some file, compiled outside of functions, makes the variable. -/
def Files.Defines (fs : Files) (mode : ReadMode) (v : Variable) : Prop :=
  ∃ d ∈ fs.definitions mode, ∃ s is t, EvScript.Defines .top d s v is t

variable {K : Variable → Prop} {s t u : CompileState} {v : Variable}

theorem ScopeGraph.isBlock_modify
    (hname : ∀ s, (f s).name = s.name) (hparent : ∀ s, (f s).parent = s.parent) :
    (g.modify id f).IsBlock x ↔ g.IsBlock x :=
  isBlock_congr (field_scope_modify hname x) (field_scope_modify hparent x)

namespace CompileState

/-- The variables in scopes that are no blocks have the property. -/
def Knows (s : CompileState) (K : Variable → Prop) : Prop :=
  ∀ x, ¬ s.graph.IsBlock x → ∀ v ∈ (s.graph.scope x).vars.values, K v

/-- Scopes that are no blocks have the variables they had, and were no blocks. -/
theorem Knows.of_same (h : s.Knows K) (hblock : ∀ x, ¬ t.graph.IsBlock x → ¬ s.graph.IsBlock x)
    (hvars : ∀ x, ¬ t.graph.IsBlock x → (t.graph.scope x).vars = (s.graph.scope x).vars) :
    t.Knows K := by
  intro x hx v hv
  rw [hvars x hx] at hv
  exact h x (hblock x hx) v hv

theorem Knows.of_graph (h : s.Knows K) (hgraph : t.graph = s.graph) : t.Knows K :=
  h.of_same (fun x hx => hgraph ▸ hx) fun x _ => by rw [hgraph]

theorem Knows.modify (h : s.Knows K)
    (hgraph : t.graph = s.graph.modify id f) (hname : ∀ x, (f x).name = x.name)
    (hparent : ∀ x, (f x).parent = x.parent) (hvars : ∀ x, (f x).vars = x.vars) : t.Knows K := by
  refine h.of_same (fun x hx hold => hx ?_) fun x _ => ?_
  · rw [hgraph]
    exact (isBlock_modify hname hparent).mpr hold
  · rw [hgraph]
    exact field_scope_modify hvars x

theorem Knows.addVariable (h : s.Knows K) (hv : K v)
    (hgraph : t.graph = c.addVariable s.graph v) : t.Knows K := by
  intro x hx w hw
  have hscope : t.graph.scope x = s.graph.scope x ∨ t.graph.scope x =
      { s.graph.scope x with vars := (s.graph.scope x).vars.insert v.name v } := by
    rw [hgraph, Cursor.addVariable, scope_modify]
    split
    · rename_i hid
      exact .inr (by rw [hid.1])
    · exact .inl rfl
  rw [IsBlock] at hx
  rcases hscope with hscope | hscope
  · rw [hscope] at hx hw
    exact h x hx w hw
  · rw [hscope] at hx hw
    rcases Table.mem_values_insert hw with rfl | hw
    · exact hv
    · exact h x hx w hw

theorem Knows.enterNew {name : String} (h : s.Knows K) (hc : c.here < s.graph.size)
    (hgraph : t.graph = (c.enterNew s.graph { name := some name }).2) : t.Knows K := by
  intro x hx w hw
  rw [hgraph, IsBlock] at hx
  rw [hgraph] at hw
  rw [scope_enterNew hc] at hx hw
  split at hw
  · cases hw
  · rename_i hnew
    rw [if_neg hnew] at hx
    split at hw
    · rename_i hhere
      rw [if_pos hhere] at hx
      exact h _ hx w hw
    · rename_i hhere
      rw [if_neg hhere] at hx
      exact h x hx w hw

theorem Knows.gainsBlock (h : s.Knows K) (hgains : s.graph.GainsBlock x t.graph) : t.Knows K := by
  intro y hy w hw
  rcases Nat.lt_or_ge y s.graph.size with hlt | hge
  · rw [isBlock_congr (hgains.name_eq hlt) (hgains.parent_eq hlt)] at hy
    obtain ⟨children, -, hscope⟩ := hgains.exists_scope_eq hlt
    rw [hscope] at hw
    exact h y hy w hw
  · rcases Nat.lt_or_ge y t.graph.size with hlt | hout
    · refine absurd ⟨hgains.name y hge, ?_⟩ hy
      rcases Nat.eq_or_lt_of_le hge with rfl | hgt
      · rw [hgains.child]
        exact Option.some_ne_none _
      · obtain ⟨p, hp, -⟩ := hgains.parent y hgt hlt
        rw [hp]
        exact Option.some_ne_none _
    · rw [scope_of_size_le hout] at hw
      cases hw

/-- A fresh file. -/
theorem Knows.fresh (h : s.Knows K) (path : String) : (s.fresh path).Knows K := by
  intro x hx w hw
  have hscope : (s.fresh path).graph.scope x = if x = s.graph.size then {} else s.graph.scope x :=
    scope_start x
  rw [IsBlock] at hx
  rw [hscope] at hx hw
  split at hw
  · cases hw
  · rename_i hne
    rw [if_neg hne] at hx
    exact h x hx w hw

theorem Knows.mount (h : u.Knows K) (hb : s.file.cursor.Beside u.file.cursor u.graph)
    {name : String} (hgraph : t.graph = s.file.cursor.mount u.graph u.file.cursor name) :
    t.Knows K := by
  intro x hx w hw
  rw [hgraph, IsBlock] at hx
  rw [hgraph] at hw
  rw [hb.scope_mount] at hx hw
  by_cases htop : x = s.file.cursor.top
  · rw [if_pos htop] at hx hw
    exact h _ hx w hw
  · rw [if_neg htop] at hx hw
    by_cases hother : x = u.file.cursor.top
    · rw [if_pos hother] at hw
      refine h u.file.cursor.top (fun hblock => hblock.2 hb.rooted'.parent) w hw
    · rw [if_neg hother] at hx hw
      exact h x hx w hw

theorem Knows.takeAll (h : u.Knows K) (hb : s.file.cursor.Beside u.file.cursor u.graph)
    (hgraph : t.graph = s.file.cursor.takeAll u.graph u.file.cursor) : t.Knows K := by
  intro x hx w hw
  rw [hgraph, IsBlock] at hx
  rw [hgraph] at hw
  by_cases htop : x = s.file.cursor.top
  · rw [htop, scope_takeAll _ _ hb.rooted.top_lt] at hw
    rcases Table.mem_values_merge hw with hw | hw
    · exact h s.file.cursor.top (fun hblock => hblock.2 hb.rooted.parent) w hw
    · exact h u.file.cursor.top (fun hblock => hblock.2 hb.rooted'.parent) w hw
  · rw [scope_takeAll_of_ne htop] at hx hw
    exact h x hx w hw

end CompileState

/-! ### Entries and files -/

/-- The entries define variables with the property only. -/
def DefinesOnly (K : Variable → Prop) (ds : List Definition) : Prop :=
  ∀ d ∈ ds, ∀ s v is t, Defines .top d s v is t → K v

theorem knows_define {d : Definition} {is : List Instr} (hd : DefinesOnly K [d]) (hs : s.Knows K)
    (h : Yields (define .top d) s is t) : t.Knows K := by
  obtain ⟨⟨v, js⟩, u, hv, h⟩ := h.bind
  obtain ⟨_, _, hadd, h⟩ := h.bind
  obtain rfl := hadd.onGraph
  obtain ⟨-, rfl⟩ := h.pure
  have hsame := (keeps_compileDefinition .top true d).sameScopes hv
  have hK := hd d List.mem_cons_self s v js u (defines_of_yields hv)
  exact (hs.of_graph hsame.1).addVariable hK rfl

theorem knows_declareCommand {d : CommandDecl} (hs : s.Knows K)
    (h : Yields (declareCommand d) s () t) : t.Knows K := by
  obtain ⟨_, _, _, rfl⟩ := yields_declareCommand h
  exact hs.modify rfl (fun _ => rfl) (fun _ => rfl) fun _ => rfl

theorem knows_openFunction {f : FunctionDecl} {name : String} {result : Option ResultType}
    (hs : s.Knows K) : (s.openFunction f name result).Knows K :=
  hs.modify rfl (fun _ => rfl) (fun _ => rfl) fun _ => rfl

/-- A function leaves a block behind. -/
theorem knows_compileFunction {f : FunctionDecl} (hs : s.AtEntry) (hk : s.Knows K)
    (h : Yields (compileFunction f) s () t) : t.Knows K := by
  rw [compileFunction_eq] at h
  obtain ⟨head, u, hhead, h⟩ := h.bind
  obtain ⟨last, hblock, -⟩ := h.bind_pure
  obtain ⟨name, parameters, result, -, -, -, rfl, rfl⟩ := yields_beginFunction hhead
  have hname : (parameterScope parameters).name = none := rfl
  have hopen := (hs.tidies_openFunction f name result).atEntry
  have hleaves := (along_compileBlock hname rfl f.body _ _ hopen.toScoped).2.2 _ _ hblock
  exact (knows_openFunction hk).gainsBlock hleaves.gains

variable {fs : Files} {mode : ReadMode} {n : Nat}

/-- A file puts only variables with the property into scopes that are no blocks. -/
def KnowsFiles (K : Variable → Prop) (fs : Files) (mode : ReadMode) (n : Nat) : Prop :=
  ∀ path s t, s.AtEntry → s.Knows K → Yields (compileFile fs mode n path) s () t → t.Knows K

theorem Brings.knows (hn : KnowsFiles K fs mode n) (hs : s.AtEntry) (hk : s.Knows K) {m : String}
    (h : Brings fs mode n s m u) : u.Knows K := by
  obtain ⟨path, w, -, hprint, hu⟩ := h
  have hw := ((keeps_printLine _).staysTidy s () w hs hprint).atEntry
  have hwk : w.Knows K := hk.of_graph ((keeps_printLine _).sameScopes hprint).1
  exact hn path (w.fresh path) u (hw.fresh path) (hwk.fresh path) hu

theorem graph_of_leaveScope (h : Yields leaveScope s () t) : t.graph = s.graph := by
  replace h := h.get_bind
  split at h
  · rw [← h.modify]
  · rw [← h.tell]

/-- Where a function stands, the scopes that are no blocks hold variables with the property. -/
def MeetsKnowing (K : Variable → Prop) (fns : List (FunctionDecl × CompileState)) : Prop :=
  ∀ x ∈ fns, x.2.AtEntry ∧ x.2.Knows K

mutual

theorem knows_compileEntry (hn : KnowsFiles K fs mode n) : ∀ (e : Entry) {s t : CompileState},
    DefinesOnly K (entryDefinitions e) → s.AtEntry → s.Knows K →
    Yields (compileEntry fs (fileImporter fs mode n) e) s () t →
    t.Knows K ∧ MeetsKnowing K (entryVisits fs (fileImporter fs mode n) e s)
  | .define d, s, t, hd, hs, hk, h => by
    rw [compileEntry] at h
    obtain ⟨_, hdefine, -⟩ := h.bind_pure
    exact ⟨knows_define hd hk hdefine, by simp [MeetsKnowing, entryVisits]⟩
  | .command d, s, t, _, hs, hk, h => by
    rw [compileEntry] at h
    exact ⟨knows_declareCommand hk h, by simp [MeetsKnowing, entryVisits]⟩
  | .function f, s, t, _, hs, hk, h => by
    rw [compileEntry] at h
    refine ⟨knows_compileFunction hs hk h, fun x hx => ?_⟩
    rw [entryVisits, List.mem_singleton] at hx
    rw [hx]
    exact ⟨hs, hk⟩
  | .importAll name pos, s, t, _, hs, hk, h => by
    rw [compileEntry] at h
    obtain ⟨⟨m, other⟩, _, himport, h⟩ := h.bind
    obtain ⟨u, -, hbrings, rfl, rfl⟩ := yields_importByName.mp himport
    obtain rfl := h.onGraph
    have hb := (hbrings.alongside (staysTidy_compileFile fs mode n) hs).beside
    exact ⟨(hbrings.knows hn hs hk).mount hb rfl, by simp [MeetsKnowing, entryVisits]⟩
  | .importFrom name everything pos, s, t, _, hs, hk, h => by
    rw [compileEntry] at h
    obtain ⟨⟨m, other⟩, _, himport, h⟩ := h.bind
    obtain ⟨u, -, hbrings, rfl, rfl⟩ := yields_importByName.mp himport
    dsimp only at h
    split at h
    · exact h.stop.elim
    · obtain rfl := h.onGraph
      have hb := (hbrings.alongside (staysTidy_compileFile fs mode n) hs).beside
      exact ⟨(hbrings.knows hn hs hk).takeAll hb rfl, by simp [MeetsKnowing, entryVisits]⟩
    · exact h.throw.elim
  | .space name entries, s, t, hd, hs, hk, h => by
    rw [compileEntry] at h
    obtain ⟨name, _, hneed, h⟩ := h.bind
    obtain ⟨rfl, rfl⟩ := hneed.need
    obtain ⟨_, u, henter, h⟩ := h.bind
    obtain ⟨_, w, hentries, hleave⟩ := h.bind
    obtain ⟨hu, -, hgraph⟩ := atEntry_enterScope hs henter
    have huk := hk.enterNew hs.rooted.here_lt hgraph
    rw [entryVisits, henter.state]
    obtain ⟨hw, hvisits⟩ := knows_compileEntries hn entries hd hu huk hentries
    exact ⟨hw.of_graph (graph_of_leaveScope hleave), hvisits⟩
  | .inert rule, s, t, _, hs, hk, h => by
    rw [compileEntry] at h
    obtain ⟨-, rfl⟩ := h.pure
    exact ⟨hk, by simp [MeetsKnowing, entryVisits]⟩

/-- **Entries put only what they define into scopes that are no blocks.** -/
theorem knows_compileEntries (hn : KnowsFiles K fs mode n) : ∀ (es : List Entry)
    {s t : CompileState}, DefinesOnly K (entriesDefinitions es) → s.AtEntry → s.Knows K →
    Yields (compileEntries fs (fileImporter fs mode n) es) s () t →
    t.Knows K ∧ MeetsKnowing K (visits fs (fileImporter fs mode n) es s)
  | [], s, t, _, hs, hk, h => by
    rw [compileEntries] at h
    obtain ⟨-, rfl⟩ := h.pure
    exact ⟨hk, by simp [MeetsKnowing, visits]⟩
  | e :: es, s, t, hd, hs, hk, h => by
    rw [compileEntries] at h
    obtain ⟨_, u, he, hes⟩ := h.bind
    obtain ⟨hfirst, hrest⟩ := List.forall_mem_append.mp hd
    obtain ⟨hu, hvisits⟩ := knows_compileEntry hn e hfirst hs hk he
    have hue := (staysTidy_compileEntry (staysTidy_compileFile fs mode n) e s () u hs he).atEntry
    obtain ⟨ht, hvisits'⟩ := knows_compileEntries hn es hrest hue hu hes
    rw [visits, he.state]
    exact ⟨ht, List.forall_mem_append.mpr ⟨hvisits, hvisits'⟩⟩

end

theorem definesOnly_of_loadProgram {tree : Tree} (h : Yields (loadProgram fs mode path) s tree t) :
    DefinesOnly (fs.Defines mode) (entriesDefinitions tree.entries) := by
  intro d hd s' v is t' hv
  obtain ⟨e, he, htree⟩ := exists_entry_of_loadProgram h
  refine ⟨d, List.mem_flatMap.mpr ⟨e, he, ?_⟩, s', is, t', hv⟩
  rw [htree]
  exact List.mem_flatMap.mpr ⟨tree, by simp, hd⟩

/-- **Files put only what files define into scopes that are no blocks.** -/
theorem knowsFiles (fs : Files) (mode : ReadMode) : ∀ n,
    KnowsFiles (fs.Defines mode) fs mode n := by
  intro n
  induction n with
  | zero => exact fun path s t _ _ h => h.throw.elim
  | succ n ih =>
    intro path s t hs hk h
    rw [compileFile_succ] at h
    obtain ⟨tree, u, hload, h⟩ := h.bind
    have hload' : Keeps scopes (loadProgram fs mode path) := keeps_loadProgram fs mode path
    have hu := (hload'.staysTidy s tree u hs hload).atEntry
    have huk := hk.of_graph (hload'.sameScopes hload).1
    exact (knows_compileEntries ih tree.entries
      (definesOnly_of_loadProgram hload) hu huk h).1

/-! ### Bodies of functions -/

/-- The variable that a statement defines. -/
def Arrival.defined? (a : Arrival) : Option Variable :=
  match a.statement with
  | .define d => a.state.defined? d
  | _ => none

variable {V W : List Arrival} {parameters : List Variable}

/-- The variables in the scopes of `t` were there in `s`, or were defined on the way. -/
def AddsDefined (V : List Arrival) (s t : CompileState) : Prop :=
  ∀ y, ∀ v ∈ (t.graph.scope y).vars.values, v ∈ (s.graph.scope y).vars.values ∨
    ∃ a ∈ V, a.defined? = some v

theorem AddsDefined.of_graph (h : t.graph = s.graph) : AddsDefined V s t :=
  fun _ _ hv => .inl (h ▸ hv)

theorem AddsDefined.append (h : AddsDefined V s t) (h' : AddsDefined W t u) :
    AddsDefined (V ++ W) s u := by
  intro y v hv
  rcases h' y v hv with hv | ⟨a, ha, hv⟩
  · rcases h y v hv with hv | ⟨a, ha, hv⟩
    · exact .inl hv
    · exact .inr ⟨a, List.mem_append_left W ha, hv⟩
  · exact .inr ⟨a, List.mem_append_right V ha, hv⟩

/-- On a way on which all blocks are left again, the current scope gets variables and blocks. -/
structure Unfolds (V : List Arrival) (s t : CompileState) : Prop extends Widens s t where
  inOrder : t.Scoped
  vars : AddsDefined V s t

/-- On the way to a place inside, too; the place is the same or in a new scope. -/
structure Inside (V : List Arrival) (s t : CompileState) : Prop where
  inOrder : t.Scoped
  top : t.file.cursor.top = s.file.cursor.top
  here : t.file.cursor.here = s.file.cursor.here ∨ s.graph.size ≤ t.file.cursor.here
  grows : s.graph.Grows s.file.cursor.here t.graph
  vars : AddsDefined V s t

theorem Unfolds.of_sameScopes (hs : s.Scoped) (h : SameScopes s t) : Unfolds V s t :=
  ⟨.of_sameScopes h, hs.of_sameScopes h, .of_graph h.1⟩

theorem Unfolds.append (hs : s.Scoped) (h : Unfolds V s t) (h' : Unfolds W t u) :
    Unfolds (V ++ W) s u :=
  ⟨h.toWidens.trans hs h'.toWidens, h'.inOrder, h.vars.append h'.vars⟩

theorem Unfolds.behind (hs : s.Scoped) (h : Unfolds V s t) (h' : Inside W t u) :
    Inside (V ++ W) s u := by
  have hgrows := h'.grows
  have hhere := h'.here
  rw [h.cursor] at hgrows hhere
  refine ⟨h'.inOrder, h'.top.trans (by rw [h.cursor]), ?_, h.grows.trans hs.rooted.here_lt hgrows,
    h.vars.append h'.vars⟩
  exact hhere.imp_right (Nat.le_trans h.grows.size_le)

/-- A scope that has been entered. -/
theorem entered_of_yields {scope : Scope} (hchildren : scope.children = []) (hs : s.Scoped)
    (hy : Yields (enterScope scope) s () t) : t.Scoped ∧
      t.file.cursor = (s.file.cursor.enterNew s.graph scope).1 ∧
      t.graph = (s.file.cursor.enterNew s.graph scope).2 := by
  have henter : Along (enterScope scope) s [] _ := along_enterScope hchildren
  exact ⟨henter.scoped hs hy, (henter hs).2.2 () t hy⟩

theorem mem_vars_enterNew {scope : Scope} (hc : c.here < g.size)
    (hv : v ∈ ((c.enterNew g scope).2.scope y).vars.values) :
    y = g.size ∧ v ∈ scope.vars.values ∨ v ∈ (g.scope y).vars.values := by
  rw [scope_enterNew hc] at hv
  split at hv
  · rename_i hy
    exact .inl ⟨hy, hv⟩
  · split at hv
    · rename_i hy
      rw [hy]
      exact .inr hv
    · exact .inr hv

/-- **A way in a block** that was entered. -/
theorem Inside.enter (hs : s.Scoped) (hy : Yields (enterScope {}) s () t) (h : Inside V t u) :
    Inside V s u := by
  obtain ⟨-, hcursor, hgraph⟩ := entered_of_yields rfl hs hy
  have hhere : t.file.cursor.here = s.graph.size := by rw [hcursor]; rfl
  have hgrows := h.grows
  rw [hhere, hgraph] at hgrows
  have hgains := hgrows.gainsBlock hs.rooted.here_lt rfl
  refine ⟨h.inOrder, h.top.trans (by rw [hcursor]; rfl), .inr ?_, hgains.grows, fun y v hv => ?_⟩
  · rcases h.here with hsame | hnew
    · rw [hsame, hhere]
    · rw [hgraph, size_enterNew] at hnew
      exact Nat.le_of_succ_le hnew
  · refine (h.vars y v hv).imp_left fun hv => ?_
    rw [hgraph] at hv
    rcases mem_vars_enterNew hs.rooted.here_lt hv with ⟨-, hv⟩ | hv
    · cases hv
    · exact hv

/-- A block around a way is left again. -/
theorem Unfolds.block {w : CompileState} (hs : s.Scoped) (hy : Yields (enterScope {}) s () t)
    (h : Unfolds V t u) (hleave : Yields leaveScope u () w) : Unfolds V s w := by
  obtain ⟨-, hcursor, -⟩ := entered_of_yields rfl hs hy
  have hback : u.file.cursor = ⟨s.file.cursor.top, s.graph.size,
      s.file.cursor.here :: s.file.cursor.enclosing⟩ := h.cursor.trans hcursor
  have hleaves := along_leaveScope (congrArg Cursor.enclosing hback)
  obtain ⟨hcursor', hgraph⟩ := (hleaves h.inOrder).2.2 () w hleave
  have hinside : Inside V t u :=
    ⟨h.inOrder, by rw [h.cursor], .inl (by rw [h.cursor]), h.grows, h.vars⟩
  have hblock := hinside.enter hs hy
  refine ⟨⟨hcursor'.trans (by rw [hback]), ?_⟩, hleaves.scoped h.inOrder hleave, fun y v hv => ?_⟩
  · rw [hgraph]
    exact hblock.grows
  · rw [hgraph] at hv
    exact hblock.vars y v hv

theorem addsDefined_leaf {pos : Pos} {l last : LabelId} {x : Statement} (hx : x.isLeaf = true)
    (h : Yields (compileStatement pos l x) s last t) : AddsDefined [⟨l, x, s⟩] s t := by
  cases x with
  | define d =>
    obtain ⟨v, is, u, hv, rfl⟩ := yields_compileStatement_define h
    have hsame := (keeps_compileDefinition .body true d).sameScopes hv
    intro y z hz
    rw [Cursor.addVariable, scope_modify] at hz
    split at hz
    · rename_i hid
      rcases Table.mem_values_insert hz with rfl | hz
      · exact .inr ⟨_, List.mem_singleton_self _, defined?_of_yields hv⟩
      · rw [hid.1, ← hsame.1]
        exact .inl hz
    · rw [hsame.1] at hz
      exact .inl hz
  | assign a =>
    exact .of_graph ((keeps_compileStatement_assign _ _ a).sameScopes h).1
  | call c => exact .of_graph ((keeps_compileStatement_call _ _ c).sameScopes h).1
  | inert rule =>
    rw [compileStatement] at h
    obtain ⟨-, rfl⟩ := h.pure
    exact .of_graph rfl
  | branch _ _ _ _ => cases hx
  | select _ _ _ => cases hx

/-- **In a body, scopes get the variables that are defined in it.** -/
theorem bodyInvariant_unfolds :
    BodyInvariant (fun V s t => s.Scoped → Unfolds V s t) fun V s t => s.Scoped → Inside V s t where
  nil hs := .of_sameScopes hs (.refl _)
  append h h' hs := (h hs).append hs (h' (h hs).inOrder)
  leaf {pos l last x s t} hx _ hy hs := by
    have halong := along_compileStatement pos x s l
    exact ⟨(halong hs).2.2 _ _ hy, halong.scoped hs hy, addsDefined_leaf hx hy⟩
  branch _ hy hs := .of_sameScopes hs ((keeps_openBranch _ _).sameScopes hy)
  select _ hy hs := .of_sameScopes hs ((keeps_openSelect _ _ _).sameScopes hy)
  case _ hy hs := .of_sameScopes hs ((keeps_openCase _ _ _).sameScopes hy)
  jump _ hy hs := .of_sameScopes hs ((keeps_onCode _).sameScopes hy)
  block hy h hleave hs := .block hs hy (h (entered_of_yields rfl hs hy).1) hleave
  here hs := ⟨hs, rfl, .inl rfl, .refl _ _, .of_graph rfl⟩
  behind h h' hs := (h hs).behind hs (h' (h hs).inOrder)
  enter hy h hs := .enter hs hy (h (entered_of_yields rfl hs hy).1)

/-! ### What names mean in a body -/

theorem mem_of_mem_insertAll {table : Table String Variable}
    (hv : v ∈ (vs.foldl (fun t v => t.insert v.name v) table).values) :
    v ∈ vs ∨ v ∈ table.values := by
  induction vs generalizing table with
  | nil => exact .inr hv
  | cons w vs ih =>
    rcases ih hv with hv | hv
    · exact .inl (List.mem_cons_of_mem w hv)
    · rcases Table.mem_values_insert hv with rfl | hv
      · exact .inl List.mem_cons_self
      · exact .inr hv

theorem ScopeGraph.Path.named {a b : ScopeId} {ps : List String}
    (h : g.Path a ps b) (hps : ps ≠ []) : ∃ n, (g.scope b).name = some n := by
  induction ps generalizing a with
  | nil => exact absurd rfl hps
  | cons p ps ih =>
    obtain ⟨x, -, hname, hpath⟩ := h
    cases ps with
    | nil =>
      obtain rfl : x = b := hpath
      exact ⟨p, hname⟩
    | cons q ps => exact ih hpath (List.cons_ne_nil _ _)

/-- Going up from a new scope one comes to new scopes, and at last to the one that got the block.
That is as far as one comes if it is no block itself. -/
theorem ScopeGraph.GainsBlock.le_or_eq_of_around {g' : ScopeGraph}
    (h : GainsBlock x g g') (hx : x < g.size) (hout : ¬ g.IsBlock x) {z : ScopeId}
    (ha : g'.Around y z) (hy : g.size ≤ y) : g.size ≤ z ∨ z = x := by
  have hparent : ∀ {y p : ScopeId}, g.size ≤ y → (g'.scope y).parent = some p →
      g.size ≤ p ∨ p = x := by
    intro y p hy hp
    rcases Nat.eq_or_lt_of_le hy with rfl | hgt
    · rw [h.child] at hp
      exact .inr (Option.some.inj hp).symm
    · obtain ⟨q, hq, hle⟩ := h.parent y hgt (lt_size_of_parent hp)
      rw [hp] at hq
      obtain rfl := Option.some.inj hq
      exact .inl hle
  induction ha with
  | parent hp hname => exact hparent hy hp
  | further hp hname hrest ih =>
    rcases hparent hy hp with hle | rfl
    · exact ih hle
    · -- a scope without a name that is no block has no parent
      refine absurd ⟨h.name_eq hx ▸ hname, ?_⟩ hout
      rw [← h.parent_eq hx]
      cases hrest with
      | parent hp => rw [hp]; exact Option.some_ne_none _
      | further hp => rw [hp]; exact Option.some_ne_none _

/-- **What a name means in the body of a function**: a variable of a scope around the function that
is no block, a parameter, or a variable that was defined on the way. -/
theorem meaning_in_body {s₁ : CompileState} (hs : s.AtEntry)
    (henter : Yields (enterScope (parameterScope parameters)) s () s₁) (hu : Inside V s₁ u)
    (hv : u.meaning? name = some v) :
    (∃ x, ¬ s.graph.IsBlock x ∧ v ∈ (s.graph.scope x).vars.values) ∨ v ∈ parameters ∨
      ∃ a ∈ V, a.defined? = some v := by
  obtain ⟨-, hcursor, hgraph⟩ := entered_of_yields rfl hs.toScoped henter
  have hhere : s₁.file.cursor.here = s.graph.size := by rw [hcursor]; rfl
  have hlt := hs.rooted.here_lt
  have hgrows := hu.grows
  rw [hhere, hgraph] at hgrows
  have hgains := hgrows.gainsBlock hlt rfl
  -- scopes that were there have their variables, and new ones those of the body
  have hold : ∀ x < s.graph.size, ¬ s.graph.IsBlock x → v ∈ (u.graph.scope x).vars.values →
      ∃ x, ¬ s.graph.IsBlock x ∧ v ∈ (s.graph.scope x).vars.values := by
    intro x hx hout hvx
    obtain ⟨children, -, hscope⟩ := hgains.exists_scope_eq hx
    rw [hscope] at hvx
    exact ⟨x, hout, hvx⟩
  have hnew : ∀ x, s.graph.size ≤ x → v ∈ (u.graph.scope x).vars.values →
      v ∈ parameters ∨ ∃ a ∈ V, a.defined? = some v := by
    intro x hx hvx
    refine (hu.vars x v hvx).imp_left fun hvx => ?_
    rw [hgraph] at hvx
    rcases mem_vars_enterNew hlt hvx with ⟨-, hvx⟩ | hvx
    · rcases mem_of_mem_insertAll hvx with hvx | hvx
      · exact hvx
      · cases hvx
    · rw [scope_of_size_le hx] at hvx
      cases hvx
  obtain ⟨n, rfl, hresolve⟩ := Option.bind_eq_some_iff.mp hv
  have htop : u.file.cursor.top = s.file.cursor.top := by rw [hu.top, hcursor]; rfl
  by_cases hplain : IsPlain n
  · obtain ⟨x, hsees, hlookup⟩ :=
      Cursor.exists_sees_of_resolve hu.inOrder.ordered hu.inOrder.rooted hplain hresolve
    have hvx := Table.mem_values_of_find? hlookup
    have hhere' : s.graph.size ≤ u.file.cursor.here := by
      rcases hu.here with hsame | hle
      · rw [hsame, hhere]
      · rw [hgraph, size_enterNew] at hle
        exact Nat.le_of_succ_le hle
    rcases hsees with rfl | rfl | haround
    · rw [htop] at hvx
      exact .inl (hold _ hs.rooted.top_lt (fun hblock => hblock.2 hs.rooted.parent) hvx)
    · exact .inr (hnew _ hhere' hvx)
    · rcases hgains.le_or_eq_of_around hlt hs.outside haround hhere' with hle | rfl
      · exact .inr (hnew x hle hvx)
      · exact .inl (hold _ hlt hs.outside hvx)
  · obtain ⟨x, hpath, hlookup⟩ :=
      Cursor.exists_path_of_resolve hu.inOrder.ordered hu.inOrder.rooted hplain hresolve
    have hvx := Table.mem_values_of_find? hlookup
    obtain ⟨p, hname⟩ := hpath.named fun hnil => hplain (nameParts_fst_eq_nil_iff.mp hnil)
    -- new scopes have no names
    have hx : x < s.graph.size := by
      refine Nat.lt_of_not_le fun hle => ?_
      rw [hgains.name x hle] at hname
      cases hname
    refine .inl (hold x hx (fun hblock => ?_) hvx)
    rw [hgains.name_eq hx, hblock.1] at hname
    cases hname

/-! ### Where variables are declared -/

/-- A declaration that the body of a function can use: a parameter or a statement of the body, by
its number, or a definition outside of functions. -/
inductive Source where
  | parameter (i : Nat)
  | body (i : Nat)
  | outside (d : Definition)
  deriving DecidableEq

/-- The number that a parameter names, if it names one. -/
def Param.number (p : Param) : Option Int := p.read.toOption.bind (·.storage)

/-- The declaration names the number, or none, and makes the variable; `V` are the arrivals of the
body. -/
inductive Declared (fs : Files) (mode : ReadMode) (f : FunctionDecl) (V : List Arrival) :
    Source → Option Int → Variable → Prop where
  | parameter {i : Nat} {p : Param} {vs : List Variable} {v : Variable} :
      (f.params.getD [])[i]? = some p → parameterVariables (f.params.getD []) [] = .ok vs →
      vs[i]? = some v → Declared fs mode f V (.parameter i) p.number v
  | body {i : Nat} {a : Arrival} {d : Definition} {v : Variable} : V[i]? = some a →
      a.statement = .define d → a.state.defined? d = some v →
      Declared fs mode f V (.body i) d.number v
  | outside {d : Definition} {v : Variable} {s t : CompileState} {is : List Instr} :
      d ∈ fs.definitions mode → Defines .top d s v is t →
      Declared fs mode f V (.outside d) d.number v

variable {f : FunctionDecl}

theorem parameterVariables_cons {p : Param} {ps : List Param} {given : List Int}
    (h : parameterVariables (p :: ps) given = .ok vs) :
    ∃ q ws, p.read = .ok q ∧ parameterVariables ps (q.toVariable given).2 = .ok ws ∧
      vs = (q.toVariable given).1 :: ws := by
  rw [parameterVariables] at h
  cases hq : p.read with
  | error e =>
    rw [hq] at h
    cases h
  | ok q =>
    rw [hq] at h
    cases hws : parameterVariables ps (q.toVariable given).2 with
    | error e =>
      simp only [bind, Except.bind, hws] at h
      cases h
    | ok ws =>
      simp only [bind, Except.bind, hws] at h
      cases h
      exact ⟨q, ws, rfl, hws, rfl⟩

theorem length_parameterVariables {ps : List Param} {given : List Int}
    (h : parameterVariables ps given = .ok vs) : vs.length = ps.length := by
  induction ps generalizing given vs with
  | nil =>
    cases h
    rfl
  | cons p ps ih =>
    obtain ⟨q, ws, -, hws, rfl⟩ := parameterVariables_cons h
    rw [List.length_cons, List.length_cons, ih hws]

theorem Files.Defines.declared (h : fs.Defines mode v) :
    ∃ source number, Declared fs mode f V source number v := by
  obtain ⟨d, hd, s, is, t, hv⟩ := h
  exact ⟨_, _, .outside hd hv⟩

theorem declared_of_mem_parameters (h : parameterVariables (f.params.getD []) [] = .ok parameters)
    (hv : v ∈ parameters) : ∃ source number, Declared fs mode f V source number v := by
  obtain ⟨i, hi, hget⟩ := List.getElem_of_mem hv
  have hlt : i < (f.params.getD []).length := length_parameterVariables h ▸ hi
  exact ⟨_, _, .parameter (List.getElem?_eq_getElem hlt) h
    ((List.getElem?_eq_getElem hi).trans (congrArg some hget))⟩

theorem declared_of_defined (ha : a ∈ V) (hv : a.defined? = some v) :
    ∃ source number, Declared fs mode f V source number v := by
  obtain ⟨i, hi, hget⟩ := List.getElem_of_mem ha
  unfold Arrival.defined? at hv
  split at hv
  · rename_i d hd
    exact ⟨_, _, .body ((List.getElem?_eq_getElem hi).trans (congrArg some hget)) hd hv⟩
  · cases hv

/-- In the scopes of a function that a script comes to, there is what files define. -/
theorem knows_of_mem_scriptVisits (hok : (compileScript fs mode path).ended = .ok ())
    (hf : (f, t) ∈ scriptVisits fs mode path) : t.AtEntry ∧ t.Knows (fs.Defines mode) := by
  have h := compileScript_ended_iff.mp hok
  rw [compileFile_succ] at h
  obtain ⟨tree, s, hload, h⟩ := h.bind
  rw [scriptVisits_eq, fileVisits, hload.onward] at hf
  have hkeeps : Keeps scopes (loadProgram fs mode path) := keeps_loadProgram fs mode path
  have hstart : (CompileState.start path).Knows (fs.Defines mode) := by
    intro x _ v hv
    rw [show (CompileState.start path).graph.scope x = _ from scope_start x] at hv
    split at hv
    · cases hv
    · rw [scope_of_size_le (Nat.zero_le _)] at hv
      cases hv
  have hs := (hkeeps.staysTidy _ tree s (atEntry_start path) hload).atEntry
  have hsk := hstart.of_graph (hkeeps.sameScopes hload).1
  exact (knows_compileEntries (knowsFiles fs mode _) tree.entries
    (definesOnly_of_loadProgram hload) hs hsk h).2 (f, t) hf

/-- **Whatever a name means in the body of a function was declared** by a parameter of the function,
by a statement of the body, or outside of functions. -/
theorem exists_declared_of_meaning (hok : (compileScript fs mode path).ended = .ok ())
    (hf : (f, t) ∈ scriptVisits fs mode path) (ha : a ∈ bodyArrivals f t)
    (hv : a.state.meaning? name = some v) :
    ∃ source number, Declared fs mode f (bodyArrivals f t) source number v := by
  obtain ⟨ht, hk⟩ := knows_of_mem_scriptVisits hok hf
  obtain ⟨-, t', hfun, -⟩ := compileFunction_of_mem_scriptVisits hok hf
  obtain ⟨funcName, parameters, result, s₁, s₂, -, hparameters, henter, hcovers, -⟩ :=
    bodyInvariant_unfolds.compileFunction hfun
  have hopen := (ht.tidies_openFunction f funcName result).atEntry
  obtain ⟨V₁, V₂, hV⟩ := List.append_of_mem ha
  have hinside := hcovers.each V₁ a V₂ hV (entered_of_yields rfl hopen.toScoped henter).1
  rcases meaning_in_body hopen henter hinside hv with ⟨x, hx, hvx⟩ | hv | ⟨b, hb, hv⟩
  · exact (knows_openFunction hk x hx v hvx).declared
  · exact declared_of_mem_parameters hparameters hv
  · refine declared_of_defined ?_ hv
    rw [hV]
    exact List.mem_append_left _ hb

/-! ### What uses are about -/

theorem meaning_of_mem_argUses {a : Arg} (h : w ∈ a.uses s) (hv : w.used? = some v) :
    ∃ name, s.meaning? name = some v := by
  unfold Arg.uses at h
  split at h
  · rename_i name _
    obtain ⟨x, hx, rfl⟩ := List.mem_map.mp h
    obtain ⟨hx, -⟩ := Option.filter_eq_some_iff.mp (Option.mem_toList.mp hx)
    obtain rfl := Option.some.inj hv
    exact ⟨some name, hx⟩
  · cases h

theorem meaning_of_mem_callUses {c : Call} {result : Use} (h : w ∈ c.uses result s)
    (hv : w.used? = some v) : w = result ∨ ∃ name, s.meaning? name = some v := by
  unfold Call.uses at h
  obtain ⟨d, -, h⟩ := List.mem_flatMap.mp h
  rcases List.mem_append.mp h with h | h
  · obtain ⟨a, -, h⟩ := List.mem_flatMap.mp h
    exact .inr (meaning_of_mem_argUses h hv)
  · split at h
    · exact .inl (List.mem_singleton.mp h)
    · cases h

theorem meaning_of_mem_assignedUses {a : Assigned} {x : Variable} (h : w ∈ a.uses x s)
    (hv : w.used? = some v) : x = v ∨ ∃ name, s.meaning? name = some v := by
  unfold Assigned.uses at h
  split at h
  · rw [List.mem_singleton.mp h] at hv
    exact .inl (Option.some.inj hv)
  · rw [List.mem_singleton.mp h] at hv
    exact .inl (Option.some.inj hv)
  · rcases meaning_of_mem_callUses h hv with rfl | hname
    · exact .inl (Option.some.inj hv)
    · exact .inr hname
  · cases h
  · cases h

theorem meaning_of_mem_map {make : Variable → Use} (hmake : ∀ x, (make x).used? = some x)
    (h : w ∈ (s.meaning? name).toList.map make)
    (hv : w.used? = some v) : ∃ name, s.meaning? name = some v := by
  obtain ⟨x, hx, rfl⟩ := List.mem_map.mp h
  rw [hmake] at hv
  obtain rfl := Option.some.inj hv
  exact ⟨name, Option.mem_toList.mp hx⟩

theorem meaning_of_mem_callUses_answer {c : Call} (h : w ∈ c.uses .answer s)
    (hv : w.used? = some v) : ∃ name, s.meaning? name = some v := by
  rcases meaning_of_mem_callUses h hv with rfl | hname
  · cases hv
  · exact hname

theorem meaning_of_mem_conditionUses {c : Condition} (h : w ∈ c.uses s)
    (hv : w.used? = some v) : ∃ name, s.meaning? name = some v := by
  unfold Condition.uses at h
  split at h
  · rcases List.mem_append.mp h with h | h
    · obtain ⟨call, -, h⟩ := List.mem_flatMap.mp h
      exact meaning_of_mem_callUses_answer h hv
    · split at h
      · unfold LeftOperand.comparand at h
        split at h
        · rw [List.mem_singleton.mp h] at hv
          cases hv
        · exact meaning_of_mem_map (fun _ => rfl) h hv
      · cases h
  · cases h
  · split at h
    · exact meaning_of_mem_map (fun _ => rfl) h hv
    · cases h

theorem meaning_of_mem_subjectUses {c : Condition} (h : w ∈ c.subjectUses s)
    (hv : w.used? = some v) : ∃ name, s.meaning? name = some v := by
  unfold Condition.subjectUses at h
  split at h
  · rcases List.mem_append.mp h with h | h
    · exact meaning_of_mem_callUses_answer h hv
    · obtain ⟨-, -, rfl⟩ := List.mem_map.mp h
      cases hv
  · exact meaning_of_mem_map (fun _ => rfl) h hv
  · cases h

/-- **What a statement uses** has a name there, or is defined there. -/
theorem meaning_of_mem_uses (h : w ∈ a.uses) (hv : w.used? = some v) :
    a.defined? = some v ∨ ∃ name, a.state.meaning? name = some v := by
  obtain ⟨l, x, s⟩ := a
  cases x with
  | define d =>
    obtain ⟨x, hx, h⟩ := List.mem_flatMap.mp h
    unfold Definition.uses at h
    split at h
    · cases h
    · obtain ⟨value, -, h⟩ := List.mem_flatMap.mp h
      rcases meaning_of_mem_assignedUses h hv with rfl | hname
      · exact .inl (Option.mem_toList.mp hx)
      · exact .inr hname
  | assign a =>
    change w ∈ a.uses s at h
    unfold Assignment.uses at h
    split at h
    · obtain ⟨x, hx, h⟩ := List.mem_flatMap.mp h
      obtain ⟨value, -, h⟩ := List.mem_flatMap.mp h
      rcases meaning_of_mem_assignedUses h hv with rfl | hname
      · exact .inr ⟨a.name, Option.mem_toList.mp hx⟩
      · exact .inr hname
    · cases h
  | call c => exact .inr (meaning_of_mem_callUses_answer h hv)
  | branch c _ _ _ =>
    obtain ⟨condition, -, h⟩ := List.mem_flatMap.mp h
    exact .inr (meaning_of_mem_conditionUses h hv)
  | select subject _ _ =>
    obtain ⟨condition, -, h⟩ := List.mem_flatMap.mp h
    exact .inr (meaning_of_mem_subjectUses h hv)
  | inert rule => cases h

/-- **Whatever is used in the body of a function was declared** by a parameter of the function, by a
statement of the body, or outside of functions. -/
theorem exists_declared_of_use (hok : (compileScript fs mode path).ended = .ok ())
    (hf : (f, t) ∈ scriptVisits fs mode path) (ha : a ∈ bodyArrivals f t)
    (hw : w ∈ a.uses) (hv : w.used? = some v) :
    ∃ source number, Declared fs mode f (bodyArrivals f t) source number v := by
  rcases meaning_of_mem_uses hw hv with hdefined | ⟨name, hname⟩
  · exact declared_of_defined ha hdefined
  · exact exists_declared_of_meaning hok hf ha hname

end EvScript
