import EvScript.Proofs.Compile.ScriptRecord

/-!
# Which Branches Are Guarded

Whether the inside of an `if` or the block of a case is entered by a test depends on what is to be
tested: a number compared with something in a register, a flag, a case that is a number or the name
of an integer constant. Everything else compiles as well, but then no instruction leads to the label
that was made for the branch, and its code is never run.

## Main results

* `tests_at_gates` — which branches have a test that leads to them.
-/

namespace EvScript

open CompileM Registry

variable {name : Option String} {known : Option Int → Prop}
variable {s s' : CompileState}

/-! ### What is tested -/

/-- There is something to test at the gate. -/
def Gate.tested (x : Gate) : Bool :=
  match x.guard with
  | .condition c => c.tested x.state
  | .case _ number name => caseTested number name x.state

/-- The subject of the switch is not the call of a function. -/
def Switch.takesValue (x : Switch) : Bool :=
  match x.subject.map Condition.form with
  | some (.call c) => (x.state.called? c).isSome
  | _ => true

/-! ### Questions -/

/-- **A question is asked exactly for what is tested.** -/
theorem isSome_question {x : Gate} (h : x.Asked) : x.question.isSome = x.tested := by
  obtain ⟨label, inside, guard, state⟩ := x
  cases guard with
  | condition c =>
    obtain ⟨query, u, hask⟩ := h
    show ((result? (askCondition c) state).bind _).isSome = c.tested state
    rw [hask.result?]
    exact question_of_askCondition hask
  | case switch number name =>
    obtain ⟨word, u, hread⟩ := h
    show ((result? (readCase number name) state).join.map _).isSome = caseTested number name state
    rw [hread.result?, Option.join_some, Option.isSome_map]
    exact (yields_readCase hread).2.1

/-- The switch takes a value, as the last thing that is done for its subject, or it does nothing
for its subject. -/
def Switch.Opens (x : Switch) : Prop :=
  (x.takesValue = true ∧ ∃ setup storage, x.code = setup ++ [switchInstr storage]) ∨
    (x.takesValue = false ∧ x.code = [])

theorem opens_of_compileSubject {x : Switch} {u : CompileState}
    (h : Yields (compileSubject x.subject x.pos) x.state x.code u) : x.Opens := by
  unfold Switch.Opens Switch.takesValue
  generalize x.code = code at h ⊢
  obtain ⟨c, hsubject, hswitches, -⟩ := switches_of_compileSubject h
  rw [hsubject, Option.map_some]
  cases hswitches with
  | function hf hd => exact .inr ⟨by simp [hf, hd], rfl⟩
  | @command _ _ _ i _ hf hd _ _ => exact .inl ⟨by simp [hf, hd], [i], _, rfl⟩
  | named hf _ => exact .inl ⟨by simp [hf], [], _, rfl⟩

/-! ### Instructions that lead to a label -/

/-- The instruction leads to the label. -/
def Assembly.leadsTo (a : Assembly) (y : LabelId) (i : Instr) : Bool :=
  i.isControl && a.destination i == some y

/-- The number is that of a jump or a test. -/
def movesControl (number : Option Int) : Bool := (⟨number, []⟩ : Instr).isControl

/-- If no command moves control, and every name means one label, the instructions that lead to a
label are those of the edits that do. -/
theorem Assembly.filter_leadsTo {t : List Edit}
    (h : Lawful known empty t) (hu : (empty.replay t).Unclashed)
    (hplain : ∀ number, known number → movesControl number = false) (l y : LabelId) :
    ((empty.replay t).label l).instrs.filter ((empty.replay t).leadsTo y) =
      (t.filter (Edit.aimsAt y)).flatMap (Edit.under (empty.replay t) l) := by
  rw [instrs_replay h, label_of_size_le (Nat.zero_le l), List.nil_append, List.filter_flatMap]
  generalize hcode : empty.replay t = code at *
  have hlead : ∀ e ∈ t, (e.under code l).filter (code.leadsTo y) =
      if Edit.aimsAt y e then e.under code l else [] := by
    intro e he
    obtain ⟨b, hlaw, -⟩ := exists_lawful_of_mem h he
    have hsize : ∀ z, e.aim = some z → code.labelNamed (code.target z) = some z := by
      intro z hz
      refine hu.labelNamed_target ?_
      rw [← hcode]
      exact aim_lt_replay h he hz
    cases e with
    | put x is =>
      refine List.filter_eq_nil_iff.mpr fun i hi => ?_
      have hfit : i.Fit known b.strings.length := by
        simp only [Edit.under] at hi
        split at hi
        · exact hlaw.2 i hi
        · cases hi
      cases hc : i.isControl with
      | false => simp [leadsTo, hc]
      | true =>
        have hno : i.isControl = false := hplain _ (hfit.known hc)
        rw [hno] at hc
        cases hc
    | jump x z =>
      simp only [Edit.under, Edit.aimsAt, Edit.aim]
      split
      · simp [leadsTo, Instr.isControl, hsize z rfl, List.filter_cons]
      · simp
    | test x q z =>
      have htest : (q.aimed (code.target z)).isControl = true := by
        simp [Instr.isControl, hlaw.2.2.1]
      simp only [Edit.under, Edit.aimsAt, Edit.aim]
      split
      · simp [leadsTo, htest, hsize z rfl, List.filter_cons]
      · simp
    | _ => rfl
  clear h hcode
  induction t with
  | nil => rfl
  | cons e t ih =>
    rw [List.flatMap_cons, hlead e List.mem_cons_self, List.filter_cons,
      ih fun e he => hlead e (List.mem_cons_of_mem _ he)]
    split
    · rw [List.flatMap_cons]
    · rfl

/-! ### Gates in code -/

/-- The test of a gate as an instruction, if there is one. -/
def Gate.entry (x : Gate) (code : Assembly) : List Instr :=
  (x.question.map (·.aimed (code.target x.inside))).toList

/-- What is done before the test of a gate: nothing for a condition, the code of the subject for
a case. -/
def Gate.opener (x : Gate) : List Instr :=
  match x.guard with
  | .condition _ => []
  | .case switch _ _ => switch.code

theorem Gate.flatMap_under_tests (x : Gate) (code : Assembly) (l : LabelId) :
    x.tests.flatMap (Edit.under code l) = if l = x.label then x.entry code else [] := by
  unfold tests entry
  cases x.question with
  | none => simp
  | some q => simp [Edit.under, eq_comm]

/-- The test of a gate stands under its label, behind what is done before it. -/
theorem Gate.entry_behind {x : Gate} {t : List Edit}
    (h : Lawful known .empty t) (htested : x.Tested t) (hopened : x.Opened t) :
    ∃ front rest, ((Assembly.empty.replay t).label x.label).instrs = front ++ x.opener ++ rest ∧
      ∀ i ∈ x.entry (Assembly.empty.replay t), i ∈ rest := by
  rw [Assembly.instrs_replay h, Assembly.label_of_size_le (Nat.zero_le x.label), List.nil_append]
  generalize Assembly.empty.replay t = code
  -- the test is among the edits that lead to the label of the gate, wherever these stand
  have hmem : ∀ i ∈ x.entry code, ∀ u : List Edit, u.filter (Edit.aimsAt x.inside) = x.tests →
      i ∈ u.flatMap (Edit.under code x.label) := by
    intro i hi u hu
    have hself : x.tests.flatMap (Edit.under code x.label) = x.entry code := by
      rw [x.flatMap_under_tests, if_pos rfl]
    rw [← hself, ← hu] at hi
    obtain ⟨e, he, hi⟩ := List.mem_flatMap.mp hi
    exact List.mem_flatMap.mpr ⟨e, (List.mem_filter.mp he).1, hi⟩
  cases hguard : x.guard with
  | condition c =>
    rw [opener, hguard]
    exact ⟨[], _, rfl, fun i hi => hmem i hi t htested.only⟩
  | case switch number name =>
    rw [Opened, hguard] at hopened
    rw [opener, hguard]
    obtain ⟨-, t₁, t₂, rfl, hfree⟩ := hopened
    refine ⟨t₁.flatMap (Edit.under code x.label), t₂.flatMap (Edit.under code x.label), ?_,
      fun i hi => hmem i hi t₂ ?_⟩
    · simp [Edit.under]
    · have honly := htested.only
      rw [List.filter_append, filter_aimsAt_eq_nil hfree] at honly
      exact honly

/-- No command that a file declares moves control. -/
def Files.plain (fs : Files) (mode : ReadMode) : Bool :=
  (fs.commands mode).all fun d => (optionalInt d.number).toOption.all (!movesControl ·)

theorem Files.movesControl_of_plain {fs : Files} {mode : ReadMode} (h : fs.plain mode = true) :
    ∀ number, fs.Declares mode number → movesControl number = false := by
  rintro number ⟨d, hd, hnumber⟩
  have hall := List.all_eq_true.mp h d hd
  rw [hnumber] at hall
  simpa [Except.toOption] using hall

/-- **Which branches are guarded.** Take a script that is compiled to the end, and a gate of it:
an `if` with its inside, or a case with its block. If there is something to test, exactly one edit
leads to the label of the gate, the test under the label of the statement, and it stands behind
the code of the subject if the gate is a case; otherwise none does. The code of the subject takes
a value unless the subject is the call of a function. If labels have different names and no
declared command moves control, the instructions of the whole code that lead to the label of the
gate are its test and no other. -/
theorem tests_at_gates (fs : Files) (mode : ReadMode) (path : String)
    (hok : (compileScript fs mode path).ended = .ok ()) :
    ∃ code t, code = (compileScript fs mode path).state.file.code ∧
      Lawful (fs.Declares mode) .empty t ∧ code = Assembly.empty.replay t ∧
      ∀ v ∈ arrivalsOf (scriptVisits fs mode path), ∀ x ∈ v.gates,
        x.question.isSome = x.tested ∧
        t.filter (Edit.aimsAt x.inside) = x.tests ∧
        (∀ switch number name, x.guard = .case switch number name → switch.Opens) ∧
        (∃ front rest, (code.label x.label).instrs = front ++ x.opener ++ rest ∧
          ∀ i ∈ x.entry code, i ∈ rest) ∧
        (code.Distinct → fs.plain mode = true → ∀ l,
          (code.label l).instrs.filter (code.leadsTo x.inside) =
            if l = x.label then x.entry code else []) := by
  obtain ⟨t, hlaw, hcode, hstretch⟩ := exists_record fs mode path
  refine ⟨_, t, rfl, hlaw, hcode, fun v hv x hx => ?_⟩
  obtain ⟨-, htested, hopened⟩ := (hstretch hok).gates v hv x hx
  rw [hcode]
  refine ⟨isSome_question htested.asked, htested.only, fun switch number name hguard => ?_,
    Gate.entry_behind hlaw htested hopened, fun hdistinct hplain l => ?_⟩
  · rw [Gate.Opened, hguard] at hopened
    obtain ⟨⟨u, hsubject⟩, -⟩ := hopened
    exact opens_of_compileSubject hsubject
  · have hu := (Assembly.consistent_empty.replay hlaw).tied.unclashed hdistinct
    rw [Assembly.filter_leadsTo hlaw hu (Files.movesControl_of_plain hplain), htested.only,
      x.flatMap_under_tests]

/-- A script that compares a variable with a number by its name, and with the number itself. -/
def namedFiles : Files :=
  ⟨[("named.evc", ("command c(int x):5;int v:9;function f()\x7bconst int YES=0;" ++
    "if(v==YES)\x7bc(1);\x7dif(v==0)\x7bc(2);\x7d\x7d").toUTF8)]⟩

/-- There is such a gate in the script, and the code it guards is not empty. -/
def someGate (code : Assembly) (tested : Bool) (arrivals : List Arrival) : Bool :=
  arrivals.any fun v => v.gates.any fun x =>
    x.tested == tested && !(code.label x.inside).instrs.isEmpty

set_option maxRecDepth 100000 in
theorem namedFiles_gates : ∃ state,
    compileScript namedFiles .strict "named.evc" = ⟨.ok (), state⟩ ∧ state.file.code.Distinct ∧
      namedFiles.plain .strict = true ∧ ∀ tested,
        someGate state.file.code tested (arrivalsOf (scriptVisits namedFiles .strict "named.evc")) =
          true := by
  have hcheck : (compileScript namedFiles .strict "named.evc").endsWith (fun state =>
      decide state.file.code.Distinct && (namedFiles.plain .strict &&
        [true, false].all fun tested => someGate state.file.code tested
          (arrivalsOf (scriptVisits namedFiles .strict "named.evc")))) = true := by
    decide +kernel
  obtain ⟨state, hscript, hstate⟩ := Outcome.eq_of_endsWith hcheck
  simp only [Bool.and_eq_true, decide_eq_true_eq, List.all_eq_true] at hstate
  obtain ⟨hdistinct, hplain, hgates⟩ := hstate
  exact ⟨state, hscript, hdistinct, hplain, fun tested => hgates tested (by cases tested <;> simp)⟩

/-- The `if` with the number is entered by one test; nothing leads to the inside of the `if` with
the name, though there is code in it. -/
theorem name_is_never_entered : ∃ code,
    code = (compileScript namedFiles .strict "named.evc").state.file.code ∧ ∀ tested,
    ∃ v ∈ arrivalsOf (scriptVisits namedFiles .strict "named.evc"), ∃ x ∈ v.gates,
      x.tested = tested ∧ (code.label x.inside).instrs ≠ [] ∧
      (x.entry code).length = (if tested then 1 else 0) ∧
      ∀ l, (code.label l).instrs.filter (code.leadsTo x.inside) =
        if l = x.label then x.entry code else [] := by
  obtain ⟨state, hscript, hdistinct, hplain, hgates⟩ := namedFiles_gates
  have hstate : state = (compileScript namedFiles .strict "named.evc").state :=
    (congrArg Outcome.state hscript).symm
  obtain ⟨code, t, hcode, -, -, hall⟩ :=
    tests_at_gates namedFiles .strict "named.evc" (congrArg Outcome.ended hscript)
  refine ⟨code, hcode, fun tested => ?_⟩
  have hgate := hgates tested
  rw [hstate, ← hcode] at hdistinct hgate
  simp only [someGate, List.any_eq_true, Bool.and_eq_true, beq_iff_eq, Bool.not_eq_true',
    List.isEmpty_eq_false_iff] at hgate
  obtain ⟨v, hv, x, hx, htested, hinstrs⟩ := hgate
  obtain ⟨hasked, -, -, -, hleads⟩ := hall v hv x hx
  refine ⟨v, hv, x, hx, htested, hinstrs, ?_, hleads hdistinct hplain⟩
  rw [htested] at hasked
  unfold Gate.entry
  cases hq : x.question <;> rw [hq] at hasked <;> subst hasked <;> rfl

end EvScript
