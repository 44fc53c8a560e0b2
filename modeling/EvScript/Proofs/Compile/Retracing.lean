import EvScript.Proofs.Compile.Tracking

/-!
# Programs without Places

Statements, declarations and entries are tracked by the same without places. An import is tracked if
compiling the imported file is: on both sides its scopes stand behind all scopes that were there.
-/

namespace EvScript

open CompileM ScopeGraph

/-! ### The names that are asked for -/

mutual

/-- The names in a block. -/
def Block.names : Block → List String
  | .absent => []
  | .of _ statements => statementsNames statements

/-- The names in statements. -/
def statementsNames : List Statement → List String
  | [] => []
  | x :: xs => x.names ++ statementsNames xs

/-- The names in a statement. -/
def Statement.names : Statement → List String
  | .define d => d.names
  | .assign a => a.names
  | .call c => c.names
  | .branch condition body _ otherwise =>
    conditionNames condition ++ body.names ++ otherwiseNames otherwise
  | .select subject cases _ => conditionNames subject ++ casesNames cases
  | .inert _ => []

/-- The names in the block of an `else`. -/
def otherwiseNames : Option Block → List String
  | none => []
  | some b => b.names

/-- The names in cases. -/
def casesNames : List Case → List String
  | [] => []
  | c :: cs => c.names ++ casesNames cs

/-- The names in a case. -/
def Case.names : Case → List String
  | .default body => body.names
  | .labelled _ name body => name.toList ++ body.names

end

mutual

/-- The names in an entry. -/
def Entry.names : Entry → List String
  | .define d => d.names
  | .function f => f.body.names
  | .space _ entries => entriesNames entries
  | .command _ | .importAll _ _ | .importFrom _ _ _ | .inert _ => []

/-- The names in entries. -/
def entriesNames : List Entry → List String
  | [] => []
  | e :: es => e.names ++ entriesNames es

end

/-! Names are the same without places. -/

mutual

theorem Block.names_bare : ∀ b : Block, b.bare.names = b.names
  | .absent => rfl
  | .of _ statements => statementsNames_bare statements

theorem statementsNames_bare : ∀ xs : List Statement,
    statementsNames (bareStatements xs) = statementsNames xs
  | [] => rfl
  | x :: xs => by
    rw [bareStatements, statementsNames, statementsNames, x.names_bare, statementsNames_bare xs]

theorem Statement.names_bare : ∀ s : Statement, s.bare.names = s.names
  | .define d => d.names_bare
  | .assign a => a.names_bare
  | .call c => c.names_bare
  | .branch condition body _ otherwise => by
    rw [Statement.bare, Statement.names, Statement.names, conditionNames_map_bare,
      body.names_bare, otherwiseNames_bare otherwise]
  | .select subject cases _ => by
    rw [Statement.bare, Statement.names, Statement.names, conditionNames_map_bare,
      casesNames_bare cases]
  | .inert _ => rfl

theorem otherwiseNames_bare : ∀ o : Option Block,
    otherwiseNames (bareOtherwise o) = otherwiseNames o
  | none => rfl
  | some b => b.names_bare

theorem casesNames_bare : ∀ cs : List Case, casesNames (bareCases cs) = casesNames cs
  | [] => rfl
  | c :: cs => by rw [bareCases, casesNames, casesNames, c.names_bare, casesNames_bare cs]

theorem Case.names_bare : ∀ c : Case, c.bare.names = c.names
  | .default body => body.names_bare
  | .labelled _ name body => by
    rw [Case.bare, Case.names, Case.names, body.names_bare]

end

mutual

theorem Entry.names_bare : ∀ e : Entry, e.bare.names = e.names
  | .define d => d.names_bare
  | .function f => f.body.names_bare
  | .space _ entries => entriesNames_bare entries
  | .command _ | .importAll _ _ | .importFrom _ _ _ | .inert _ => rfl

theorem entriesNames_bare : ∀ es : List Entry, entriesNames (bareEntries es) = entriesNames es
  | [] => rfl
  | e :: es => by rw [bareEntries, entriesNames, entriesNames, e.names_bare, entriesNames_bare es]

end

variable {π : Shift} {τ : FileQueries}

/-! ### Statements -/

theorem tracks_compileElseIfs (label : LabelId) (elseIfs : List ElseIf) :
    Tracks π τ Eq (compileElseIfs label elseIfs) (compileElseIfs label (bareElseIfs elseIfs)) := by
  cases elseIfs with
  | nil => exact .pure rfl
  | cons => exact (tracks_onCode _).bind fun _ _ _ => .throw _

/-- Statements in a scope of their own, which holds the same on both sides. -/
theorem tracks_inside {scope scope' : Scope} (hscope : Scope.Shifted π scope scope')
    (hempty : scope.children = [] ∧ scope.commands = .empty)
    (hempty' : scope'.children = [] ∧ scope'.commands = .empty) {k k' : CompileM LabelId}
    (hk : Tracks π τ Eq k k') {α : Type} {f f' : LabelId → CompileM α}
    (hf : ∀ label, Tracks π τ Eq (f label) (f' label)) :
    Tracks π τ Eq
      (do
        enterScope scope
        let label ← k
        leaveScope
        f label)
      (do
        enterScope scope'
        let label ← k'
        leaveScope
        f' label) :=
  (tracks_enterScope hscope hempty hempty').bind fun _ _ _ => hk.bind fun label _ h =>
    tracks_leaveScope.bind fun _ _ _ => h ▸ hf label

mutual

theorem tracks_compileBlock {scope scope' : Scope} (hscope : Scope.Shifted π scope scope')
    (hempty : scope.children = [] ∧ scope.commands = .empty)
    (hempty' : scope'.children = [] ∧ scope'.commands = .empty) (label : LabelId) :
    ∀ b : Block, (∀ n ∈ b.names, τ.asks n) →
      Tracks π τ Eq (compileBlock scope label b) (compileBlock scope' label b.bare)
  | .absent, _ => (tracks_enterScope hscope hempty hempty').bind fun _ _ _ => .throw _
  | .of _ statements, hasks =>
    tracks_inside hscope hempty hempty' (tracks_compileStatements _ _ label statements hasks)
      fun _ => .pure rfl

theorem tracks_compileStatements (pos pos' : Pos) (label : LabelId) :
    ∀ ss : List Statement, (∀ n ∈ statementsNames ss, τ.asks n) →
      Tracks π τ Eq (compileStatements pos label ss)
        (compileStatements pos' label (bareStatements ss))
  | [], _ => .pure rfl
  | s :: ss, hasks => by
    refine (tracks_compileStatement pos pos' label s fun n hn => hasks n ?_).bind
      fun label _ hlabel => ?_
    · exact List.mem_append_left _ hn
    · subst hlabel
      exact tracks_compileStatements pos pos' label ss fun n hn =>
        hasks n (List.mem_append_right _ hn)

theorem tracks_compileStatement (pos pos' : Pos) (label : LabelId) :
    ∀ s : Statement, (∀ n ∈ s.names, τ.asks n) →
      Tracks π τ Eq (compileStatement pos label s) (compileStatement pos' label s.bare)
  | .define d, hasks => by
    refine (tracks_define .body d hasks).bind_same fun instrs => ?_
    exact (tracks_onCode _).bind fun _ _ _ => .pure rfl
  | .assign a, hasks => by
    refine (tracks_compileAssignment a hasks).bind_same fun instrs => ?_
    exact (tracks_onCode _).bind fun _ _ _ => .pure rfl
  | .call c, hasks => by
    refine tracks_resolveCall_bind hasks (fun d d' args hd hargs => ?_) fun f f' args args' => ?_
    · refine (tracks_compileCommandCall _ _ hd hargs _ _).bind_same fun i => ?_
      exact (tracks_onCode _).bind fun _ _ _ => .pure rfl
    · exact (tracks_warn _ _ _ _).bind fun _ _ _ => .pure rfl
  | .branch condition body elseIfs otherwise, hasks => by
    have hcondition : ∀ n ∈ conditionNames condition, τ.asks n := fun n hn =>
      hasks n (List.mem_append_left _ (List.mem_append_left _ hn))
    refine (tracks_onCode _).bind_same fun after => ?_
    refine (tracks_onCode _).bind_same fun inside => ?_
    refine (tracks_need _ Condition.bare rfl).bind fun c _ ⟨hc, h⟩ => ?_
    subst hc h
    refine (tracks_compileCondition c (fun n hn => hcondition n ?_) inside).bind
      fun instrs _ h => ?_
    · exact List.mem_append_left _ hn
    subst h
    refine (tracks_onCode _).bind fun _ _ _ => ?_
    refine (tracks_compileInside inside after body fun n hn => hasks n ?_).bind fun _ _ _ => ?_
    · exact List.mem_append_left _ (List.mem_append_right _ hn)
    refine (tracks_compileElseIfs label elseIfs).bind fun _ _ _ => ?_
    refine (tracks_compileElse label after otherwise fun n hn => hasks n ?_).bind fun _ _ _ => ?_
    · exact List.mem_append_right _ hn
    exact .pure rfl
  | .select subject cases switchPos, hasks => by
    refine (tracks_compileSubject subject (fun n hn => hasks n ?_) _ _).bind fun instrs _ h => ?_
    · exact List.mem_append_left _ hn
    subst h
    refine (tracks_onCode _).bind fun _ _ _ => (tracks_onCode _).bind_same fun after => ?_
    refine (tracks_compileCases label after cases fun n hn => hasks n ?_).bind fun _ _ _ => ?_
    · exact List.mem_append_right _ hn
    exact .pure rfl
  | .inert _, _ => .pure rfl

theorem tracks_compileInside (label after : LabelId) : ∀ b : Block, (∀ n ∈ b.names, τ.asks n) →
      Tracks π τ Eq (compileInside label after b) (compileInside label after b.bare)
  | .absent, _ => .pure rfl
  | .of _ statements, hasks =>
    tracks_inside (Scope.shifted_fresh π none) ⟨rfl, rfl⟩ ⟨rfl, rfl⟩
      (tracks_compileStatements _ _ label statements hasks) fun _ => tracks_onCode _

theorem tracks_compileElse (label after : LabelId) :
    ∀ o : Option Block, (∀ n ∈ otherwiseNames o, τ.asks n) →
      Tracks π τ Eq (compileElse label after o) (compileElse label after (bareOtherwise o))
  | none, _ => .pure rfl
  | some body, hasks => by
    refine (tracks_compileBlock (Scope.shifted_fresh π none) ⟨rfl, rfl⟩ ⟨rfl, rfl⟩ label body
      hasks).bind_same fun _ => ?_
    exact tracks_onCode _

theorem tracks_compileCases (label after : LabelId) :
    ∀ cs : List Case, (∀ n ∈ casesNames cs, τ.asks n) →
      Tracks π τ Eq (compileCases label after cs) (compileCases label after (bareCases cs))
  | [], _ => .pure rfl
  | c :: cs, hasks => by
    refine (tracks_compileCase label after c fun n hn => hasks n ?_).bind fun _ _ _ => ?_
    · exact List.mem_append_left _ hn
    · exact tracks_compileCases label after cs fun n hn => hasks n (List.mem_append_right _ hn)

theorem tracks_compileCase (label after : LabelId) : ∀ c : Case, (∀ n ∈ c.names, τ.asks n) →
      Tracks π τ Eq (compileCase label after c) (compileCase label after c.bare)
  | .default body, hasks => by
    refine (tracks_compileBlock (Scope.shifted_fresh π none) ⟨rfl, rfl⟩ ⟨rfl, rfl⟩ label body
      hasks).bind_same fun _ => ?_
    exact tracks_onCode _
  | .labelled number name body, hasks => by
    refine (tracks_lift_same _).bind_same fun number => ?_
    refine (tracks_onCode _).bind_same fun inside => ?_
    refine (tracks_caseWord number fun n hn => hasks n ?_).bind fun word _ h => ?_
    · exact List.mem_append_left _ (Option.mem_toList.mpr hn)
    subst h
    cases word with
    | none => exact .pure rfl
    | some word =>
      refine (tracks_target _).bind_same fun there => ?_
      refine (tracks_onCode _).bind fun _ _ _ => ?_
      exact tracks_compileInside inside after body fun n hn =>
        hasks n (List.mem_append_right _ hn)

end

/-! ### Declarations -/

/-- A new command on both sides. Its serial number is the next one that is free. -/
theorem tracks_addCommand (name : String) (number : Option Int) {result result' : Option ResultType}
    (hresult : result'.map ResultType.bare = result.map ResultType.bare) {ps ps' : List Param}
    (hps : ps'.map Param.bare = ps.map Param.bare) (pos pos' : Pos) :
    Tracks π τ Eq
      (do
        let serial := (← get).unseen.size
        modify fun s => { s with unseen := s.unseen.push ps }
        onGraph fun c g => c.addCommand g ⟨name, number, result, serial, pos⟩)
      (do
        let serial := (← get).unseen.size
        modify fun s => { s with unseen := s.unseen.push ps' }
        onGraph fun c g => c.addCommand g ⟨name, number, result', serial, pos'⟩) := by
  intro s s' hs
  -- a place with one more serial number
  have hstanding : ∀ {g : ScopeGraph} {c : Cursor} {u : Array (List Param)} {p : List Param}
      {d : Command}, Standing g c u.size → d.serial = u.size →
      Standing (c.addCommand g d) c (u.push p).size := by
    intro g c u p d h hserial
    rw [Array.size_push]
    have hmore : Standing g c (u.size + 1) :=
      ⟨h.ordered, h.rooted, h.serials.mono (Nat.le_succ _)⟩
    refine hmore.declare (fun _ => rfl) (fun _ => rfl) (fun _ => rfl) fun e he => ?_
    rcases Table.mem_entries_insert he with rfl | he
    · exact hserial ▸ Nat.lt_succ_self _
    · exact hmore.serials _ e he
  refine ⟨rfl, { hs with here := ?_, there := ?_, graph := ?_, params := hs.params.push hps }⟩
  · exact hstanding hs.here rfl
  · exact hstanding hs.there rfl
  · show (s.file.cursor.addCommand s.graph _).Shifted π (s'.file.cursor.addCommand s'.graph _)
    rw [hs.cursor]
    refine hs.graph.modify_declared (fun t t' ht => ?_) ?_ ?_ _
    · refine ⟨ht.name, ht.animations, ?_, ht.functions, ht.vars, ht.parent⟩
      simp only [Table.map_insert, ht.commands]
      congr 1
      simp only [Command.past, hresult, ← hs.params.shift_size, Gap.shift_empty]
    · exact fun _ => rfl
    · exact fun _ => rfl

theorem tracks_declareCommand (d : CommandDecl) :
    Tracks π τ Eq (declareCommand d) (declareCommand d.bare) := by
  obtain ⟨name, number, params, result, pos⟩ := d
  unfold declareCommand CommandDecl.bare
  cases name with
  | none => exact tracks_stop _ _ _ _
  | some name =>
    refine (tracks_lift_same _).bind_same fun number => ?_
    refine (tracks_lift _ (resultOf_bare result)).bind fun result _ h => ?_
    subst h
    refine tracks_addCommand name number ?_ ?_ pos .start
    · cases result <;> rfl
    · cases params with
      | none => rfl
      | some ps => exact Param.map_bare_bare ps

theorem shifted_parameterScope (vs : List Variable) :
    Scope.Shifted π (parameterScope vs) (parameterScope (vs.map Variable.bare)) := by
  refine ⟨rfl, rfl, rfl, rfl, ?_, rfl⟩
  have h : ∀ t t' : Table String Variable, t'.map Variable.bare = t.map Variable.bare →
      ((vs.map Variable.bare).foldl (fun t v => t.insert v.name v) t').map Variable.bare =
        (vs.foldl (fun t v => t.insert v.name v) t).map Variable.bare := by
    induction vs with
    | nil => exact fun _ _ ht => ht
    | cons v vs ih =>
      intro t t' ht
      refine ih _ _ ?_
      rw [Table.map_insert, Table.map_insert, ht]
      rfl
  exact h .empty .empty rfl

theorem tracks_compileFunction (f : FunctionDecl) (hasks : ∀ n ∈ f.body.names, τ.asks n) :
    Tracks π τ Eq (compileFunction f) (compileFunction f.bare) := by
  obtain ⟨common, name, params, result, body, pos⟩ := f
  unfold compileFunction FunctionDecl.bare
  cases name with
  | none => exact tracks_stop _ _ _ _
  | some name =>
    have hparams : (params.map (List.map Param.bare)).getD [] =
        (params.getD []).map Param.bare := by
      cases params <;> rfl
    dsimp only
    rw [hparams]
    refine (tracks_lift _ (parameterVariables_bare _ [])).bind fun vs _ h => ?_
    subst h
    refine (tracks_lift _ (resultOf_bare result)).bind fun result _ h => ?_
    subst h
    refine (tracks_onCode _).bind_same fun label => ?_
    refine .get_bind fun s s' hs => ?_
    rw [hs.code]
    refine (tracks_addFunction ?_).bind fun _ _ _ => ?_
    · cases result <;> rfl
    refine Tracks.bind (.modify fun t t' ht => { ht with locals := rfl }) fun _ _ _ => ?_
    refine (tracks_compileBlock (shifted_parameterScope vs) ⟨rfl, rfl⟩ ⟨rfl, rfl⟩ label body
      hasks).bind fun _ _ _ => ?_
    exact .pure rfl

/-! ### Imports -/

mutual

/-- The names of the files that an entry imports. -/
def Entry.imports : Entry → List String
  | .importAll name _ => name.toList
  | .importFrom name _ _ => name.toList
  | .space _ entries => entriesImports entries
  | .define _ | .command _ | .function _ | .inert _ => []

/-- The names of the files that entries import. -/
def entriesImports : List Entry → List String
  | [] => []
  | e :: es => e.imports ++ entriesImports es

end

/-- Both importers compile the files that are imported by these names alike. -/
structure ImportAlike (π : Shift) (τ : FileQueries) (names : List String) (fs fs' : Files)
    (importer importer' : Importer) : Prop where
  behind : ImportsBehind importer
  behind' : ImportsBehind importer'
  find : ∀ name ∈ names, findImport fs' τ.path name = findImport fs τ.path name
  tracks : ∀ name ∈ names, ∀ path ∈ findImport fs τ.path name,
    Tracks π τ (fun a b => b = a.past π.scopes) (importer path) (importer' path)

variable {fs fs' : Files} {importer importer' : Importer} {names : List String}

theorem ImportAlike.mono (h : ImportAlike π τ names fs fs' importer importer')
    {names' : List String} (hsub : ∀ name ∈ names', name ∈ names) :
    ImportAlike π τ names' fs fs' importer importer' :=
  ⟨h.behind, h.behind', fun name hname => h.find name (hsub name hname),
    fun name hname => h.tracks name (hsub name hname)⟩

theorem Standing.scoped {s : CompileState} {n : Nat} (h : Standing s.graph s.file.cursor n) :
    s.Scoped :=
  ⟨h.ordered, h.rooted⟩

theorem tracks_importByName {name : Option String} (pos pos' : Pos)
    (h : ImportAlike π τ name.toList fs fs' importer importer') :
    Tracks π τ (fun a b => b = (a.1, a.2.past π.scopes)) (importByName fs importer name pos)
      (importByName fs' importer' name pos') := by
  cases name with
  | none => exact .throw _
  | some m =>
    have hmem : m ∈ (some m).toList := List.mem_singleton_self m
    simp only [importByName, need, pure_bind]
    refine .get_bind fun s s' hs => ?_
    rw [hs.path, hs.path', h.find m hmem]
    cases hfind : findImport fs τ.path m with
    | none => exact tracks_stop _ _ _ _
    | some path =>
      exact (h.tracks m hmem path hfind).bind fun other other' hother => .pure (hother ▸ rfl)

theorem tracks_import_bind {name : Option String} (pos pos' : Pos)
    (h : ImportAlike π τ name.toList fs fs' importer importer')
    {k k' : String × Cursor → CompileM Unit}
    (hk : ∀ m other s s' t t', s.Scoped → Imported s other t → s'.Scoped →
      Imported s' (other.past π.scopes) t' → t.Matches π τ t' →
      Meets π τ Eq (ending (k (m, other)) t) (ending (k' (m, other.past π.scopes)) t')) :
    Tracks π τ Eq (importByName fs importer name pos >>= k)
      (importByName fs' importer' name pos' >>= k') := by
  intro s s' hs
  refine (tracks_importByName pos pos' h s s' hs).bind ?_
  rintro ⟨m, other⟩ _ t t' hy hy' rfl ht
  have hbehind : Along (importByName fs importer name pos) s [] fun r t => Imported s r.2 t :=
    along_importByName h.behind name pos s
  have hbehind' : Along (importByName fs' importer' name pos') s' [] fun r t => Imported s' r.2 t :=
    along_importByName h.behind' name pos' s'
  have hscoped := hs.here.scoped
  have hscoped' := hs.there.scoped
  exact hk m other s s' t t' hscoped ((hbehind hscoped).2.2 _ t hy) hscoped'
    ((hbehind' hscoped').2.2 _ t' hy') ht

/-! ### Entries -/

mutual

theorem tracks_compileEntry : ∀ e : Entry, (∀ n ∈ e.names, τ.asks n) →
    ImportAlike π τ e.imports fs fs' importer importer' →
    Tracks π τ Eq (compileEntry fs importer e) (compileEntry fs' importer' e.bare)
  | .define d, hasks, _ => (tracks_define .top d hasks).bind fun _ _ _ => .pure rfl
  | .command d, _, _ => tracks_declareCommand d
  | .function f, hasks, _ => tracks_compileFunction f hasks
  | .importAll name pos, _, himport => by
    refine tracks_import_bind pos .start himport ?_
    intro m other s s' t t' hs h hs' h' ht
    refine ⟨rfl, { ht with here := ?_, there := ?_, graph := ?_ }⟩
    · have hscoped := (h.proceeds_mount hs ht.here.scoped m).inOrder
      exact ⟨hscoped.ordered, hscoped.rooted, ht.here.serials.mount m⟩
    · have hscoped := (h'.proceeds_mount hs' ht.there.scoped m).inOrder
      exact ⟨hscoped.ordered, hscoped.rooted, ht.there.serials.mount m⟩
    · show (t.file.cursor.mount t.graph other m).Shifted π
        (t'.file.cursor.mount t'.graph (other.past π.scopes) m)
      rw [ht.cursor]
      exact ht.graph.mount t.file.cursor other m
  | .importFrom name everything pos, _, himport => by
    refine tracks_import_bind pos .start himport ?_
    intro m other s s' t t' hs h hs' h' ht
    cases everything with
    | none => exact tracks_stop _ _ _ _ t t' ht
    | some everything =>
      cases everything with
      | false => exact Tracks.throw _ t t' ht
      | true =>
        refine ⟨rfl, { ht with here := ?_, there := ?_, graph := ?_ }⟩
        · have hscoped := (h.proceeds_takeAll hs ht.here.scoped).inOrder
          exact ⟨hscoped.ordered, hscoped.rooted, ht.here.serials.takeAll⟩
        · have hscoped := (h'.proceeds_takeAll hs' ht.there.scoped).inOrder
          exact ⟨hscoped.ordered, hscoped.rooted, ht.there.serials.takeAll⟩
        · show (t.file.cursor.takeAll t.graph other).Shifted π
            (t'.file.cursor.takeAll t'.graph (other.past π.scopes))
          rw [ht.cursor]
          refine ht.graph.takeAll t.file.cursor ?_
          rw [h.top]
          exact Nat.ne_of_gt (Nat.lt_of_le_of_lt (Nat.zero_le _) hs.rooted.top_lt)
  | .space name entries, hasks, himport => by
    refine (tracks_need_same _ name).bind_same fun name => ?_
    refine (tracks_enterScope (Scope.shifted_fresh π (some name)) ⟨rfl, rfl⟩ ⟨rfl, rfl⟩).bind
      fun _ _ _ => ?_
    refine (tracks_compileEntries entries hasks himport).bind fun _ _ _ => ?_
    exact tracks_leaveScope.mono fun _ _ _ => rfl
  | .inert _, _, _ => .pure rfl

theorem tracks_compileEntries : ∀ es : List Entry, (∀ n ∈ entriesNames es, τ.asks n) →
    ImportAlike π τ (entriesImports es) fs fs' importer importer' →
    Tracks π τ Eq (compileEntries fs importer es) (compileEntries fs' importer' (bareEntries es))
  | [], _, _ => .pure rfl
  | e :: es, hasks, himport => by
    refine (tracks_compileEntry e (fun n hn => hasks n ?_) (himport.mono fun n hn => ?_)).bind
      fun _ _ _ => ?_
    · exact List.mem_append_left _ hn
    · exact List.mem_append_left _ hn
    · exact tracks_compileEntries es (fun n hn => hasks n (List.mem_append_right _ hn))
        (himport.mono fun n hn => List.mem_append_right _ hn)

end

end EvScript
