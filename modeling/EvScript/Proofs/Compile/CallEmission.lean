import EvScript.Proofs.Compile.FunctionCode
import EvScript.Proofs.Compile.Rereading
import EvScript.Proofs.Compile.Uses
import EvScript.Proofs.Syntax.CallStatements

/-!
# What Becomes of Calls

A call that is written as a statement should end up as a command of the code, or else in the log.
This is true of the calls that a compilation comes to. But a case that is neither a number nor the
name of an integer constant is left out with its block, and the calls below an `unless`, a `while`,
a `for` and a `with` are sunk (`EvScript.Proofs.Syntax.CallStatements`), both without a word.

## Main results

* `calls_perm_script` — each call statement becomes a command, is told of, or is lost with its
  block.
-/

namespace EvScript

open CompileM

variable {arm : Option LabelId} {a : Arrival}
variable {s t : CompileState} {pos : Pos} {l after : LabelId} {number : Option Numeral}
  {name : Option String} {fs : Files} {importer : Importer} {mode : ReadMode} {path : String}

/-! ### Cases that are left out -/

/-- A case that is left out: the label under which its switch goes, the case, and the state in which
the compilation comes to it. -/
structure Omission where
  label : LabelId
  number : Option Numeral
  name : Option String
  body : Block
  state : CompileState

/-- A case is left out if it is neither a number nor the name of an integer constant. -/
def Case.omissions (l : LabelId) : Case → CompileState → List Omission
  | .default _, _ => []
  | .labelled number name body, s =>
    if caseTested number name s then [] else [⟨l, number, name, body, s⟩]

/-- The cases of a switch that are left out. -/
def caseOmissions (l after : LabelId) : List Case → CompileState → List Omission
  | [], _ => []
  | c :: cs, s => c.omissions l s ++
    onward (compileCase l after c) s fun _ t => caseOmissions l after cs t

/-- The cases that are left out at a statement. -/
def Arrival.omissions : Arrival → List Omission
  | ⟨l, .select subject cases pos, s⟩ =>
    onward (openSelect l subject pos) s fun after t => caseOmissions l after cases t
  | _ => []

/-- The case is passed over: the compilation goes on, and neither the log nor the instructions of a
label are changed. -/
def Omission.PassedOver (o : Omission) : Prop :=
  ∃ t,
    (∀ after, Yields (compileCase o.label after (.labelled o.number o.name o.body)) o.state () t) ∧
    t.log = o.state.log ∧
    ∀ x, (t.file.code.label x).instrs = (o.state.file.code.label x).instrs

/-- The head of a case makes a label and reads the case. There is an arm exactly if there is a word
to test for; otherwise that is all. -/
theorem exists_of_openCase (h : Yields (openCase l number name) s arm t) :
    ∃ inside u word v, Yields (newChild l) s inside u ∧ Yields (readCase number name) u word v ∧
      arm.isSome = word.isSome ∧ (arm = none → v = t) := by
  obtain ⟨n, hn, h⟩ := h.lift_bind
  obtain ⟨inside, u, hinside, h⟩ := h.bind
  obtain ⟨word, v, hword, h⟩ := h.bind
  refine ⟨inside, u, word, v, hinside,
    yields_bind.mpr ⟨n, u, yields_lift.mpr ⟨hn, rfl⟩, hword⟩, ?_⟩
  cases word with
  | none =>
    obtain ⟨rfl, rfl⟩ := h.pure
    exact ⟨rfl, fun _ => rfl⟩
  | some word =>
    obtain ⟨_, _, -, h⟩ := h.bind
    obtain ⟨_, -, rfl⟩ := h.bind_pure
    exact ⟨rfl, nofun⟩

theorem isSome_of_openCase (h : Yields (openCase l number name) s arm t) :
    arm.isSome = caseTested number name s := by
  obtain ⟨inside, u, word, v, hinside, hread, harm, -⟩ := exists_of_openCase h
  obtain ⟨-, rfl⟩ := hinside.onCode
  rw [harm, (yields_readCase hread).2.1]
  rfl

theorem passedOver_of_openCase (h : Yields (openCase l number name) s none t) (body : Block) :
    Omission.PassedOver ⟨l, number, name, body, s⟩ := by
  refine ⟨t, fun after => ?_, ?_⟩
  · rw [compileCase_labelled]
    exact yields_bind.mpr ⟨none, t, h, yields_pure.mpr ⟨rfl, rfl⟩⟩
  obtain ⟨inside, u, word, v, hinside, hread, -, hlast⟩ := exists_of_openCase h
  obtain rfl := hlast rfl
  obtain ⟨n, -, hword⟩ := hread.lift_bind
  refine ⟨?_, fun x => ?_⟩
  · have hkeeps : Keeps CompileState.log (caseWord n name) := keeps_caseWord n name
    have hlog := hkeeps.yields hword
    obtain ⟨-, rfl⟩ := hinside.onCode
    exact hlog
  · rw [((silent_caseWord n name).code hword).label, yields_newChild_instrs hinside]

/-! ### Calls that are come to -/

namespace Arrival

/-- The call that the statement is. -/
def call? : Arrival → Option Call
  | ⟨_, .call c, _⟩ => some c
  | _ => none

/-- The command that the statement calls. -/
def command? (a : Arrival) : Option Command := a.call?.bind a.state.called?

/-- The call that the statement is, and those of the cases that are left out at it. -/
def calls (a : Arrival) : List Call := a.call?.toList ++ a.omissions.flatMap (·.body.calls)

end Arrival

/-- The calls are those of the cases that are left out and those of the arrivals, and cases that are
left out are passed over. -/
structure Comprises (O : List Omission) (V : List Arrival) (cs : List Call) : Prop where
  calls : (O.flatMap (·.body.calls) ++ V.flatMap Arrival.calls).Perm cs
  passedOver : ∀ o ∈ O, o.PassedOver
  inside : ∀ a ∈ V, ∀ o ∈ a.omissions, o.PassedOver

namespace Comprises

variable {O O' : List Omission} {V W : List Arrival} {cs ds : List Call}

theorem nil : Comprises [] [] [] :=
  ⟨.nil, nofun, nofun⟩

theorem append (h : Comprises O V cs) (h' : Comprises O' W ds) :
    Comprises (O ++ O') (V ++ W) (cs ++ ds) where
  calls := by
    simp only [List.flatMap_append]
    refine .trans ?_ (h.calls.append h'.calls)
    simp only [List.append_assoc]
    exact .append_left _ (List.perm_append_comm_assoc _ _ _)
  passedOver o ho := (List.mem_append.mp ho).elim (h.passedOver o) (h'.passedOver o)
  inside a ha := (List.mem_append.mp ha).elim (h.inside a) (h'.inside a)

theorem single (h : a.omissions = []) : Comprises [] [a] a.call?.toList :=
  ⟨by simp [Arrival.calls, h], nofun, by simp [h]⟩

theorem select (hcall : a.call? = none) (h : Comprises a.omissions V cs) :
    Comprises [] (a :: V) cs where
  calls := by simpa [Arrival.calls, hcall] using h.calls
  passedOver := nofun
  inside := List.forall_mem_cons.mpr ⟨h.passedOver, h.inside⟩

end Comprises

mutual

theorem comprises_compileBlock : ∀ (b : Block) {scope : Scope} {s t : CompileState}
    {l last : LabelId}, Yields (compileBlock scope l b) s last t →
    Comprises [] (blockArrivals scope l b s) b.calls
  | .absent, scope, s, t, l, last, h => .nil
  | .of pos xs, scope, s, t, l, last, h => by
    rw [compileBlock] at h
    obtain ⟨_, s₁, h₁, h⟩ := h.bind
    obtain ⟨_, s₂, h₂, h⟩ := h.bind
    rw [blockArrivals, h₁.onward, Block.calls]
    exact comprises_compileStatements pos xs h₂

theorem comprises_compileStatements (pos : Pos) : ∀ (xs : List Statement) {s t : CompileState}
    {l last : LabelId}, Yields (compileStatements pos l xs) s last t →
    Comprises [] (statementsArrivals pos l xs s) (statementsCalls xs)
  | [], s, t, l, last, h => .nil
  | x :: xs, s, t, l, last, h => by
    rw [compileStatements] at h
    obtain ⟨next, u, hx, hxs⟩ := h.bind
    rw [statementsArrivals, hx.onward, statementsCalls]
    exact (comprises_compileStatement pos x hx).append (comprises_compileStatements pos xs hxs)

theorem comprises_compileStatement (pos : Pos) : ∀ (x : Statement) {s t : CompileState}
    {l last : LabelId}, Yields (compileStatement pos l x) s last t →
    Comprises [] (statementArrivals l x s) x.calls
  | .define _, s, t, l, last, h | .assign _, s, t, l, last, h | .call _, s, t, l, last, h
  | .inert _, s, t, l, last, h => .single rfl
  | .branch c body elseIfs otherwise, s, t, l, last, h => by
    rw [compileStatement_branch] at h
    obtain ⟨arms, s₁, h₁, h⟩ := h.bind
    obtain ⟨_, s₂, h₂, h⟩ := h.bind
    obtain ⟨_, s₃, h₃, h⟩ := h.bind
    obtain ⟨_, s₄, h₄, h⟩ := h.bind
    -- a condition behind an `else` ends the compilation, so there is none
    obtain ⟨rfl, -⟩ := yields_compileElseIfs h₃
    rw [statementArrivals, h₁.onward, h₂.onward, h₃.onward, Statement.calls]
    exact (Comprises.single rfl).append
      ((comprises_compileInside body h₂).append (comprises_compileElse otherwise h₄))
  | .select subject cases switchPos, s, t, l, last, h => by
    rw [compileStatement_select] at h
    obtain ⟨after, s₁, h₁, h⟩ := h.bind
    obtain ⟨_, s₂, h₂, h⟩ := h.bind
    rw [statementArrivals, h₁.onward, Statement.calls]
    refine .select rfl ?_
    rw [Arrival.omissions, h₁.onward]
    exact comprises_compileCases cases h₂

theorem comprises_compileInside : ∀ (b : Block) {s t : CompileState} {l after : LabelId},
    Yields (compileInside l after b) s () t → Comprises [] (insideArrivals l b s) b.calls
  | .absent, s, t, l, after, h => .nil
  | .of pos xs, s, t, l, after, h => by
    rw [compileInside] at h
    obtain ⟨_, s₁, h₁, h⟩ := h.bind
    obtain ⟨_, s₂, h₂, h⟩ := h.bind
    rw [insideArrivals, h₁.onward, Block.calls]
    exact comprises_compileStatements pos xs h₂

theorem comprises_compileElse : ∀ (o : Option Block) {s t : CompileState} {l after : LabelId},
    Yields (compileElse l after o) s () t → Comprises [] (elseArrivals l o s) (otherwiseCalls o)
  | none, s, t, l, after, h => .nil
  | some body, s, t, l, after, h => by
    rw [compileElse] at h
    obtain ⟨last, u, hbody, h⟩ := h.bind
    exact comprises_compileBlock body hbody

theorem comprises_compileCases : ∀ (cs : List Case) {s t : CompileState} {l after : LabelId},
    Yields (compileCases l after cs) s () t →
    Comprises (caseOmissions l after cs s) (casesArrivals l after cs s) (casesCalls cs)
  | [], s, t, l, after, h => .nil
  | c :: cs, s, t, l, after, h => by
    rw [compileCases] at h
    obtain ⟨_, u, hc, hcs⟩ := h.bind
    rw [caseOmissions, casesArrivals, hc.onward, hc.onward, casesCalls]
    exact (comprises_compileCase c hc).append (comprises_compileCases cs hcs)

theorem comprises_compileCase : ∀ (c : Case) {s t : CompileState} {l after : LabelId},
    Yields (compileCase l after c) s () t →
    Comprises (c.omissions l s) (caseArrivals l c s) c.calls
  | .default body, s, t, l, after, h => by
    rw [compileCase] at h
    obtain ⟨last, u, hbody, h⟩ := h.bind
    exact comprises_compileBlock body hbody
  | .labelled number name body, s, t, l, after, h => by
    rw [compileCase_labelled] at h
    obtain ⟨arm, u, hopen, harm⟩ := h.bind
    have htested := isSome_of_openCase hopen
    rw [caseArrivals, hopen.onward, Case.omissions, ← htested, Case.calls]
    -- either the case is left out and nothing of it is come to, or it is the other way round
    cases arm with
    | none => exact ⟨by simp, by simpa using passedOver_of_openCase hopen body, nofun⟩
    | some inside => simpa using comprises_compileInside body harm

end

theorem comprises_compileFunction {f : FunctionDecl} (h : Yields (compileFunction f) s () t) :
    Comprises [] (bodyArrivals f s) f.body.calls := by
  rw [compileFunction_eq] at h
  obtain ⟨head, u, hhead, h⟩ := h.bind
  obtain ⟨last, _, hblock, -⟩ := h.bind
  rw [bodyArrivals, hhead.onward]
  exact comprises_compileBlock f.body hblock

mutual

theorem comprises_compileEntry : ∀ (e : Entry) {s t : CompileState},
    Yields (compileEntry fs importer e) s () t →
    Comprises [] (arrivalsOf (entryVisits fs importer e s)) e.calls
  | .function f, s, t, h => by
    rw [compileEntry] at h
    rw [entryVisits, arrivalsOf, List.flatMap_singleton]
    exact comprises_compileFunction h
  | .space name entries, s, t, h => by
    rw [compileEntry] at h
    obtain ⟨_, _, hneed, h⟩ := h.bind
    obtain ⟨rfl, rfl⟩ := hneed.need
    obtain ⟨_, u, henter, h⟩ := h.bind
    obtain ⟨_, v, hentries, -⟩ := h.bind
    rw [entryVisits, henter.state, Entry.calls]
    exact comprises_compileEntries entries hentries
  | .define _, s, t, h | .command _, s, t, h | .importAll _ _, s, t, h
  | .importFrom _ _ _, s, t, h | .inert _, s, t, h => .nil

theorem comprises_compileEntries : ∀ (es : List Entry) {s t : CompileState},
    Yields (compileEntries fs importer es) s () t →
    Comprises [] (arrivalsOf (visits fs importer es s)) (entriesCalls es)
  | [], s, t, h => .nil
  | e :: es, s, t, h => by
    rw [compileEntries] at h
    obtain ⟨_, u, he, hes⟩ := h.bind
    rw [visits, he.state, arrivalsOf,
      List.flatMap_append, entriesCalls]
    exact (comprises_compileEntry e he).append (comprises_compileEntries es hes)

end

theorem fits_of_loadProgram {tree : Tree} (h : Yields (loadProgram fs mode path) s tree t) :
    tree.rule? = some .program ∧ tree.Fits := by
  obtain ⟨_, text, -, ⟨p, hp, rfl⟩ | rfl⟩ := exists_text_of_loadProgram h
  · exact fits_of_readProgram rfl hp
  · exact fits_mendRule _ _

/-- **The calls of a script** that is compiled to the end are those that the compilation comes to,
those of cases that are left out, and those that are sunk. -/
theorem comprises_compileScript (hok : (compileScript fs mode path).ended = .ok ()) :
    ∃ tree, fs.tree? mode path = some tree ∧
      tree.calls.Perm ((scriptArrivals fs mode path).flatMap Arrival.calls ++ tree.sunk) ∧
      ∀ a ∈ scriptArrivals fs mode path, ∀ o ∈ a.omissions, o.PassedOver := by
  have h := compileScript_ended_iff.mp hok
  rw [compileFile_succ] at h
  obtain ⟨tree, s, hload, h⟩ := h.bind
  obtain ⟨hrule, hfits⟩ := fits_of_loadProgram hload
  have hentries := comprises_compileEntries tree.entries h
  rw [scriptArrivals, scriptVisits_eq, fileVisits, hload.onward]
  exact ⟨tree, Files.tree?_of_yields hload,
    (tree.calls_perm_entries hrule hfits).trans (hentries.calls.symm.append_right _),
    hentries.inside⟩

/-! ### Commands that are called -/

/-- The numbers of the commands that are called under a label. -/
def commandsAt (V : List Arrival) (x : LabelId) : List (Option Int) :=
  (V.filter (·.label = x)).filterMap fun a => a.command?.map Command.number

theorem commandsAt_append (V W : List Arrival) (x : LabelId) :
    commandsAt (V ++ W) x = commandsAt V x ++ commandsAt W x := by
  simp [commandsAt]

/-- A call of something else than a command is warned of. -/
def Arrival.Warned (a : Arrival) : Prop :=
  ∀ c, a.call? = some c → a.command? = none → ∃ pos t message,
    Yields (compileStatement pos a.label a.statement) a.state a.label t ∧
      t.log = a.state.log ++ [⟨.warning, message⟩]

/-- From `c` to `c'`, each label gets the commands that are called there, in their order, perhaps
with other instructions in between; and calls of functions are warned of. -/
structure Emits (V : List Arrival) (c c' : Assembly) : Prop where
  code : ∀ x, ∃ more, (c'.label x).instrs = (c.label x).instrs ++ more ∧
    (commandsAt V x).Sublist (more.map Instr.command)
  warned : ∀ a ∈ V, a.Warned

namespace Emits

variable {V W : List Arrival} {c c' c'' : Assembly}

theorem append (h : Emits V c c') (h' : Emits W c' c'') : Emits (V ++ W) c c'' where
  code x := by
    obtain ⟨more, hmore, hsub⟩ := h.code x
    obtain ⟨more', hmore', hsub'⟩ := h'.code x
    refine ⟨more ++ more', by rw [hmore', hmore, List.append_assoc], ?_⟩
    rw [commandsAt_append, List.map_append]
    exact hsub.append hsub'
  warned a ha := (List.mem_append.mp ha).elim (h.warned a) (h'.warned a)

theorem of_gains_nil {l : Nat} {is : List Instr} (h : c.Gains l is c') : Emits [] c c' :=
  ⟨fun x => ⟨_, h x, List.nil_sublist _⟩, nofun⟩

theorem of_same (h : ∀ x, (c'.label x).instrs = (c.label x).instrs) : Emits [] c c' :=
  .of_gains_nil (Assembly.gains_nil 0 h)

theorem of_call?_eq_none {l : Nat} {is : List Instr} (h : c.Gains l is c')
    (ha : a.call? = none) : Emits [a] c c' where
  code x := ⟨_, h x, by
    rw [commandsAt, List.filterMap_eq_nil_iff.mpr]
    · exact List.nil_sublist _
    · intro b hb
      rw [List.mem_singleton.mp (List.mem_of_mem_filter hb), Arrival.command?, ha]
      rfl⟩
  warned b hb d hd := by
    rw [List.mem_singleton.mp hb, ha] at hd
    cases hd

end Emits

theorem command_of_compileCommandCall {d : Command} {args : List Arg} {wanted : Option ValueType}
    {storage : Option Int} {i : Instr}
    (h : Yields (compileCommandCall pos d args wanted storage) s i t) : i.command = d.number := by
  obtain ⟨operands, u, -, h⟩ := yields_bind.mp (yields_compileCommandCall.mp h).2
  unfold placeResult at h
  split at h
  · obtain ⟨_, -, rfl⟩ := h.bind_pure
    rfl
  · obtain ⟨rfl, -⟩ := h.pure
    rfl

theorem log_of_warnFunctionCall {u : Unit} (h : Yields (warnFunctionCall pos) s u t) :
    ∃ message, t.log = s.log ++ [⟨.warning, message⟩] := by
  obtain ⟨place, v, hplace, h⟩ := h.bind
  have hkeeps : Keeps CompileState.log (CompileM.place pos) := keeps_place pos
  rw [← h.tell, ← hkeeps.yields hplace]
  exact ⟨_, rfl⟩

/-- **A call** puts the number of its command under its label, or is warned of. -/
theorem emits_call {l last : Nat} {c : Call} (hl : l < s.file.code.labels.size)
    (h : Yields (compileStatement pos l (.call c)) s last t) :
    Emits [⟨l, .call c, s⟩] s.file.code t.file.code := by
  obtain ⟨is, hleaves, hgains⟩ := gains_leaf rfl hl h
  refine ⟨fun x => ⟨_, hgains x, ?_⟩, fun a ha => ?_⟩
  · cases hleaves with
    | call hcalled _ hi =>
      have hcommand := command_of_compileCommandCall hi
      by_cases hx : l = x <;>
        simp [commandsAt, Arrival.command?, Arrival.call?, hcalled, hx, hcommand]
    | functionCall hcalled =>
      by_cases hx : l = x <;> simp [commandsAt, Arrival.command?, Arrival.call?, hcalled, hx]
  · rw [List.mem_singleton.mp ha]
    intro d hd hnone
    obtain rfl : c = d := Option.some.inj hd
    have hstep := h
    rw [compileStatement] at h
    obtain ⟨⟨callee, args⟩, u, hresolve, h⟩ := h.bind
    have hcalled := called?_of_yields hresolve
    obtain ⟨-, -, rfl⟩ := yields_resolveCall.mp hresolve
    cases callee with
    | command d => simp [Arrival.command?, Arrival.call?, hcalled] at hnone
    | function f =>
      obtain ⟨_, hwarn, rfl⟩ := h.bind_pure
      obtain ⟨message, hlog⟩ := log_of_warnFunctionCall hwarn
      exact ⟨pos, t, message, hstep, hlog⟩

/-- **A body emits the commands of its arrivals.** -/
theorem bodyInvariant_emits :
    BodyInvariant (fun V s t => Emits V s.file.code t.file.code) fun _ _ _ => True where
  nil := .of_same fun _ => rfl
  append h h' := h.append h'
  leaf {pos l last x s t} hx hl h := by
    obtain ⟨is, -, hgains⟩ := gains_leaf hx hl h
    cases x with
    | call c => exact emits_call hl h
    | branch _ _ _ _ => cases hx
    | select _ _ _ => cases hx
    | _ => exact .of_call?_eq_none hgains rfl
  branch hl h := by
    obtain ⟨is, -, hgains⟩ := gains_openBranch hl h
    exact .of_call?_eq_none hgains rfl
  select hl h := by
    obtain ⟨is, -, hgains⟩ := gains_openSelect hl h
    exact .of_call?_eq_none hgains rfl
  case hl h := by
    obtain ⟨is, hgains, -⟩ := gains_openCase hl h
    exact .of_gains_nil hgains
  jump hl h := by
    obtain rfl := h.jump
    exact .of_gains_nil (Assembly.gains_emit (fun _ => rfl) hl)
  block hs h hu := by rwa [yields_leaveScope_code hu, ← yields_enterScope_code hs]
  here := trivial
  behind _ _ := trivial
  enter _ _ := trivial

theorem addsUp_emits : AddsUp Emits where
  same h := .of_same h.instrs
  append h h' := h.append h'
  function h := by
    obtain ⟨name, parameters, result, s₁, s₂, -, -, henter, hbody, hleave⟩ :=
      bodyInvariant_emits.compileFunction h
    have hall := hbody.all
    rw [yields_enterScope_code henter] at hall
    rw [yields_leaveScope_code hleave]
    exact (Emits.of_same fun x => Assembly.instrs_newLabel _ _ x).append hall

/-! ### The fates of calls -/

/-- By its name a label is found exactly if no later label has the same name. -/
theorem find?_label_iff (fs : Files) (mode : ReadMode) (path : String) {code : Assembly}
    (hcode : code = (compileScript fs mode path).state.file.code) {x : LabelId}
    (hx : x < code.labels.size) : code.byName.find? (code.label x).name = some x ↔
      ∀ y, x < y → y < code.labels.size → code.text y ≠ code.text x := by
  obtain ⟨t, hlaw, hreplay, -⟩ := exists_record fs mode path
  rw [← hcode] at hreplay
  have hconsistent : code.Consistent := hreplay ▸ Assembly.consistent_empty.replay hlaw
  have hlatest : code.Latest := by
    have hempty : Assembly.empty.Latest := fun x h => absurd h (Nat.not_lt_zero x)
    exact hreplay ▸ hempty.replay hlaw
  rw [hlatest.find?_eq_iff hconsistent.tied hx]
  refine forall_congr' fun y => imp_congr_right fun _ => imp_congr_right fun hy => ?_
  exact not_congr (hconsistent.text_eq_iff hy hx).symm

theorem flatMap_calls_perm (A : List Arrival) :
    (A.flatMap Arrival.calls).Perm (A.filterMap Arrival.call? ++
      (A.flatMap Arrival.omissions).flatMap (·.body.calls)) := by
  rw [List.filterMap_eq_flatMap_toList, List.flatMap_assoc]
  exact (List.flatMap_append_perm A _ _).symm

/-- **The calls that are written as statements** of a script that is compiled to the end: they are
those that the compilation comes to, those of cases that are left out, and those that are sunk.
Under every label there are the commands that are called there, and calls of functions are warned
of. What is not come to is passed over without an entry of the log or an instruction. So nothing
gets lost exactly if there are no calls in cases that are left out and no calls are sunk; and a
label stays in the listing exactly if no later label has its name. -/
theorem calls_perm_script (fs : Files) (mode : ReadMode) (path : String)
    (hok : (compileScript fs mode path).ended = .ok ()) :
    ∃ tree code A O, fs.tree? mode path = some tree ∧
      code = (compileScript fs mode path).state.file.code ∧
      A = scriptArrivals fs mode path ∧ O = A.flatMap Arrival.omissions ∧
      tree.calls.Perm (A.filterMap Arrival.call? ++ (O.flatMap (·.body.calls) ++ tree.sunk)) ∧
      (tree.calls.Perm (A.filterMap Arrival.call?) ↔
        (∀ o ∈ O, o.body.calls = []) ∧ tree.sunk = []) ∧
      (∀ x, (commandsAt A x).Sublist ((code.label x).instrs.map Instr.command)) ∧
      (∀ x < code.labels.size, code.byName.find? (code.label x).name = some x ↔
        ∀ y, x < y → y < code.labels.size → code.text y ≠ code.text x) ∧
      (∀ a ∈ A, a.Warned) ∧ (∀ o ∈ O, o.PassedOver) ∧
      ∀ a ∈ A, ∀ rule, a.statement = .inert rule → ∀ pos,
        Yields (compileStatement pos a.label a.statement) a.state a.label a.state := by
  obtain ⟨tree, htree, hcalls, hpassed⟩ := comprises_compileScript hok
  have hemits := addsUp_emits.compileScript hok
  have hperm := hcalls.trans ((flatMap_calls_perm _).append_right tree.sunk)
  rw [List.append_assoc] at hperm
  refine ⟨tree, _, _, _, htree, rfl, rfl, rfl, hperm, ⟨fun hall => ?_, fun hnone => ?_⟩,
    fun x => ?_, fun x hx => find?_label_iff fs mode path rfl hx, hemits.warned, fun o ho => ?_,
    fun a _ rule ha pos => ?_⟩
  · -- the other calls are none, as they would make the list longer
    have hlength := (hall.symm.trans hperm).length_eq
    rw [List.length_append, List.length_append] at hlength
    exact ⟨List.flatMap_eq_nil_iff.mp (List.eq_nil_of_length_eq_zero (by omega)),
      List.eq_nil_of_length_eq_zero (by omega)⟩
  · rwa [List.flatMap_eq_nil_iff.mpr hnone.1, hnone.2, List.append_nil, List.append_nil] at hperm
  · obtain ⟨more, hmore, hsub⟩ := hemits.code x
    rwa [hmore, show (Assembly.empty.label x).instrs = [] from rfl, List.nil_append]
  · obtain ⟨a, ha, ho⟩ := List.mem_flatMap.mp ho
    exact hpassed a ha o ho
  · rw [ha, compileStatement]
    exact yields_pure.mpr ⟨rfl, rfl⟩

/-- A script with a call in a `while`, and one in a case that is the name of a variable. -/
def droppedFiles : Files :=
  ⟨[("dropped.evc", ("command c(int x):5;int v:9;function f()\x7bwhile(v==1)\x7bc(1);\x7d" ++
    "switch(v)\x7bcase v:c(2);\x7dc(3);\x7d").toUTF8)]⟩

set_option maxRecDepth 100000 in
/-- Of three calls one is in the code, and the log is empty. -/
theorem two_calls_dropped : ∃ state tree,
    compileScript droppedFiles .strict "dropped.evc" = ⟨.ok (), state⟩ ∧ state.log = [] ∧
      droppedFiles.tree? .strict "dropped.evc" = some tree ∧ tree.calls.length = 3 ∧
      tree.sunk.length = 1 ∧
      (state.file.code.labels.toList.flatMap (·.instrs)).countP (·.command = some 5) = 1 ∧
      ¬ tree.calls.Perm
        ((scriptArrivals droppedFiles .strict "dropped.evc").filterMap Arrival.call?) := by
  have hcheck : (compileScript droppedFiles .strict "dropped.evc").endsWith (fun state =>
      state.log = [] && (droppedFiles.tree? .strict "dropped.evc").any (fun tree =>
        tree.calls.length = 3 && tree.sunk.length = 1) &&
      (state.file.code.labels.toList.flatMap (·.instrs)).countP (·.command = some 5) = 1) =
      true := by
    decide +kernel
  obtain ⟨state, hscript, hstate⟩ := Outcome.eq_of_endsWith hcheck
  obtain ⟨tree, code, A, O, htree, -, hA, -, -, hnone, -⟩ :=
    calls_perm_script droppedFiles .strict "dropped.evc" (congrArg Outcome.ended hscript)
  rw [htree] at hstate
  simp only [Option.any_some, Bool.and_eq_true, decide_eq_true_eq] at hstate
  obtain ⟨⟨hlog, hcalls, hsunk⟩, hcount⟩ := hstate
  refine ⟨state, tree, hscript, hlog, htree, hcalls, hsunk, hcount, fun hperm => ?_⟩
  rw [(hnone.mp (hA ▸ hperm)).2] at hsunk
  cases hsunk

end EvScript
