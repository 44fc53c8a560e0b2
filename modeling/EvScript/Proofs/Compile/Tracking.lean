import EvScript.Proofs.Compile.Matching

/-!
# Compiling without Places

What is compiled from a program depends on its places in the texts of messages and in the places of
declarations only. Each step is tracked by the step that compiles the part without places. Names
must not begin with the one that is hidden, so the **names** that a part of a program asks for are
listed.
-/

namespace EvScript

open CompileM ScopeGraph

variable {c c' : Command}

/-! ### The names that are asked for -/

/-- The name that an argument is. -/
def ArgValue.names : ArgValue → List String
  | .name n => [n]
  | _ => []

/-- The names in a call: what is called, and the arguments. -/
def Call.names (c : Call) : List String :=
  c.name.toList ++ (c.args.getD []).flatMap (·.value.names)

/-- The names in what is given to a variable. -/
def AssignedValue.names : AssignedValue → List String
  | .call c => c.names
  | _ => []

/-- The names in a definition. -/
def Definition.names (d : Definition) : List String := d.value.toList.flatMap (·.value.names)

/-- The names in an assignment. -/
def Assignment.names (a : Assignment) : List String :=
  a.name.toList ++ a.value.toList.flatMap (·.value.names)

/-- The names in the left side of a comparison. -/
def LeftOperand.names (l : LeftOperand) : List String :=
  l.name.toList ++ l.call.toList.flatMap Call.names

/-- The names in a condition. -/
def ConditionForm.names : ConditionForm → List String
  | .comparison left _ _ => left.names
  | .call c => c.names
  | .name n => n.toList

/-- The names in a condition that may be absent. -/
def conditionNames (c : Option Condition) : List String := c.toList.flatMap (·.form.names)

/-! Names are the same without places. -/

@[simp] theorem Call.names_bare (c : Call) : c.bare.names = c.names := by
  obtain ⟨name, _ | args, pos⟩ := c
  · rfl
  · simp [Call.names, Call.bare, Arg.bare, List.flatMap_map]

@[simp] theorem AssignedValue.names_bare (v : AssignedValue) : v.bare.names = v.names := by
  cases v with
  | call c => exact c.names_bare
  | _ => rfl

@[simp] theorem Definition.names_bare (d : Definition) : d.bare.names = d.names := by
  obtain ⟨fixed, type, name, number, _ | value, pos⟩ := d
  · rfl
  · simp [Definition.names, Definition.bare, Assigned.bare]

@[simp] theorem Assignment.names_bare (a : Assignment) : a.bare.names = a.names := by
  obtain ⟨name, operator, _ | value, pos⟩ := a
  · rfl
  · simp [Assignment.names, Assignment.bare, Assigned.bare]

@[simp] theorem ConditionForm.names_bare (f : ConditionForm) : f.bare.names = f.names := by
  cases f with
  | comparison left comparator right =>
    obtain ⟨_ | call, name, pos⟩ := left
    · rfl
    · simp [ConditionForm.names, ConditionForm.bare, LeftOperand.names, LeftOperand.bare]
  | call c => exact c.names_bare
  | name n => rfl

@[simp] theorem conditionNames_map_bare (c : Option Condition) :
    conditionNames (c.map Condition.bare) = conditionNames c := by
  cases c with
  | none => rfl
  | some c => simp [conditionNames, Condition.bare]

/-! ### Types and parameters -/

theorem typeOf_bare (o : Option TypeWord) :
    typeOf (o.map TypeWord.bare) = (typeOf o).map fun r => (r.1.bare, r.2) := by
  cases o with
  | none => rfl
  | some t =>
    show t.bare.toType.map _ = (t.toType.map _).map _
    unfold TypeWord.toType TypeWord.bare
    cases ValueType.ofWord? t.text <;> rfl

theorem resultOf_bare (o : Option TypeWord) :
    resultOf (o.map TypeWord.bare) = (resultOf o).map (Option.map ResultType.bare) := by
  cases o with
  | none => rfl
  | some t =>
    show t.bare.toType.map _ = (t.toType.map _).map _
    unfold TypeWord.toType TypeWord.bare
    cases ValueType.ofWord? t.text <;> rfl

/-- A parameter without its place. -/
def Parameter.bare (p : Parameter) : Parameter := { p with pos := .start }

theorem Param.read_bare (p : Param) : p.bare.read = p.read.map Parameter.bare := by
  obtain ⟨type, name, storage, pos⟩ := p
  cases name with
  | none => rfl
  | some name =>
    simp only [Param.read, Param.bare, typeOf_bare]
    cases storage with
    | none => cases typeOf type <;> rfl
    | some s =>
      dsimp only
      cases s.read <;> cases typeOf type <;> rfl

theorem Param.map_bare_bare (ps : List Param) :
    (ps.map Param.bare).map Param.bare = ps.map Param.bare := by
  rw [List.map_map]
  refine List.map_congr_left fun p _ => ?_
  obtain ⟨type, name, storage, pos⟩ := p
  cases type <;> rfl

theorem parameterVariables_bare (ps : List Param) (given : List Int) :
    parameterVariables (ps.map Param.bare) given =
      (parameterVariables ps given).map (List.map Variable.bare) := by
  induction ps generalizing given with
  | nil => rfl
  | cons p ps ih =>
    rw [List.map_cons, parameterVariables, parameterVariables, Param.read_bare]
    cases p.read with
    | error e => rfl
    | ok parameter =>
      have hvariable : parameter.bare.toVariable given =
          ((parameter.toVariable given).1.bare, (parameter.toVariable given).2) := by
        unfold Parameter.toVariable Parameter.bare
        cases parameter.storage <;> rfl
      simp only [Except.map, bind, Except.bind, hvariable, ih]
      cases parameterVariables ps (parameter.toVariable given).2 <;> rfl

variable {π : Shift} {τ : FileQueries}

/-! ### Arguments -/

theorem eq_none_or_exists_of_map_eq {α β : Type} {f f' : α → β} {a b : Option α}
    (h : b.map f' = a.map f) :
    (a = none ∧ b = none) ∨ ∃ x y, a = some x ∧ b = some y ∧ f' y = f x := by
  cases a <;> cases b <;> simp_all

/-- Variables that differ in places only are alike in what is read of them. -/
theorem Variable.fields_of_bare {v v' : Variable} (h : v'.bare = v.bare) :
    v'.type = v.type ∧ v'.storage = v.storage ∧ v'.constant = v.constant := by
  cases v
  cases v'
  cases h
  exact ⟨rfl, rfl, rfl⟩

theorem tracks_ofArgument (pos pos' : Pos) (a : Argument) :
    Tracks π τ Eq (Operand.ofArgument pos a) (Operand.ofArgument pos' a) := by
  cases a with
  | number q => exact (tracks_lift_same _).bind fun _ _ h => .pure (h ▸ rfl)
  | text index => exact .pure rfl
  | truth => exact (tracks_place _ _).bind fun _ _ _ => tracks_stopWith _ _
  | other => exact tracks_stop _ _ _ _
  | stored type storage => cases type <;> first | exact .pure rfl | exact tracks_stop _ _ _ _

theorem tracks_evaluate (a : Arg) (hasks : ∀ n ∈ a.value.names, τ.asks n) :
    Tracks π τ Eq (evaluate a) (evaluate a.bare) := by
  obtain ⟨value, pos⟩ := a
  unfold evaluate Arg.bare
  cases value with
  | name name =>
    refine (tracks_resolveVariable fun n hn => hasks n ?_).bind fun v v' hv => ?_
    · exact List.mem_singleton.mpr (Option.some.inj hn).symm
    · rcases eq_none_or_exists_of_map_eq hv with ⟨rfl, rfl⟩ | ⟨x, y, rfl, rfl, hxy⟩
      · exact tracks_stop _ _ _ _
      · obtain ⟨htype, hstorage, hconstant⟩ := Variable.fields_of_bare hxy
        dsimp only
        rw [htype, hstorage, hconstant]
        cases x.constant <;> exact .pure rfl
  | string literal =>
    refine (tracks_need_same _ _).bind fun s _ hs => ?_
    subst hs
    refine (tracks_printLine _).bind fun _ _ _ => (tracks_onCode _).bind fun _ _ hi => ?_
    exact .pure (hi ▸ rfl)
  | number n => exact (tracks_lift_same _).bind fun _ _ h => .pure (h ▸ rfl)
  | absent => exact .throw _

theorem tracks_operandsOf (pos pos' : Pos) {args : List Arg}
    (hasks : ∀ n ∈ args.flatMap (·.value.names), τ.asks n) :
    Tracks π τ Eq (operandsOf pos args) (operandsOf pos' (args.map Arg.bare)) := by
  refine .mapM fun a ha => (tracks_evaluate a fun n hn => hasks n ?_).bind fun x _ hx => ?_
  · exact List.mem_flatMap.mpr ⟨a, ha, hn⟩
  · exact hx ▸ tracks_ofArgument pos pos' x

/-! ### Calls -/

theorem tracks_seekReturn (serial i : Nat) {ps ps' : List Param}
    (h : ps'.map Param.bare = ps.map Param.bare) :
    Tracks π τ Eq (seekReturn serial i ps) (seekReturn (π.serials.shift serial) i ps') := by
  induction ps generalizing i ps' with
  | nil =>
    obtain rfl := List.map_eq_nil_iff.mp h
    exact .pure rfl
  | cons p ps ih =>
    obtain ⟨p', ps', rfl, hp, hps⟩ := List.map_eq_cons_iff.mp h
    rw [seekReturn, seekReturn]
    refine Tracks.bind (.modify fun s s' hs => { hs with here := ?_, there := ?_, params := ?_ })
      fun _ _ _ => ?_
    · simpa using hs.here
    · simpa using hs.there
    · exact hs.params.modify hps serial
    -- both parameters read the same
    have hread : p'.read.map Parameter.bare = p.read.map Parameter.bare := by
      rw [← Param.read_bare, ← Param.read_bare, hp]
    refine (tracks_lift_of_map_eq hread).bind fun a b hab => ?_
    have hstorage : b.storage = a.storage := by
      cases a
      cases b
      cases hab
      rfl
    rw [hstorage]
    split
    · exact (tracks_tell _ _ _).bind fun _ _ _ => .pure rfl
    · exact ih (i + 1) hps

/-- Commands that differ in places only, their serial numbers past the gap, are alike in what is
read of them. -/
theorem Command.fields_of_past (h : c'.past .empty = c.past π.serials) :
    c'.number = c.number ∧ c'.result.map ResultType.bare = c.result.map ResultType.bare ∧
      c'.serial = π.serials.shift c.serial := by
  obtain ⟨name, number, result, serial, pos⟩ := c
  obtain ⟨name', number', result', serial', pos'⟩ := c'
  obtain ⟨-, rfl, hresult, hserial, -⟩ := Command.mk.inj h
  exact ⟨rfl, hresult, Gap.shift_empty.symm.trans hserial⟩

theorem tracks_returnIndex (h : c'.past .empty = c.past π.serials) :
    Tracks π τ Eq (returnIndex c) (returnIndex c') := by
  refine .get_bind fun s s' hs => ?_
  rw [(Command.fields_of_past h).2.2]
  refine tracks_seekReturn c.serial 0 ?_
  have hsame := hs.params.same c.serial
  cases hu : s.unseen[c.serial]? <;> cases hu' : s'.unseen[π.serials.shift c.serial]? <;>
    simp_all

theorem ResultType.map_type_of_bare {r r' : Option ResultType}
    (h : r'.map ResultType.bare = r.map ResultType.bare) :
    r'.map (·.type) = r.map (·.type) := by
  rcases eq_none_or_exists_of_map_eq h with ⟨rfl, rfl⟩ | ⟨x, y, rfl, rfl, hxy⟩
  · rfl
  · cases x
    cases y
    cases hxy
    rfl

theorem tracks_compileCommandCall (pos pos' : Pos)
    (h : c'.past .empty = c.past π.serials) {args : List Arg}
    (hasks : ∀ n ∈ args.flatMap (·.value.names), τ.asks n) (wanted : Option ValueType)
    (storage : Option Int) :
    Tracks π τ Eq (compileCommandCall pos c args wanted storage)
      (compileCommandCall pos' c' (args.map Arg.bare) wanted storage) := by
  obtain ⟨hnumber, hresult, -⟩ := Command.fields_of_past h
  have htype := ResultType.map_type_of_bare hresult
  have hsome : c'.result.isSome = c.result.isSome := by
    rw [← Option.isSome_map, htype, Option.isSome_map]
  have hrest : Tracks π τ Eq (operandsOf pos args >>= placeResult c storage)
      (operandsOf pos' (args.map Arg.bare) >>= placeResult c' storage) := by
    refine (tracks_operandsOf pos pos' hasks).bind fun operands _ hoperands => ?_
    subst hoperands
    unfold placeResult
    rw [hsome, hnumber]
    split
    · exact (tracks_returnIndex h).bind fun _ _ hi => .pure (hi ▸ rfl)
    · exact .pure rfl
  unfold compileCommandCall compileCall
  simp only [Option.isSome_map]
  rw [htype]
  cases wanted with
  | none => exact hrest
  | some w =>
    refine (tracks_need_same _ _).bind fun r _ hr => ?_
    subst hr
    split
    · exact (tracks_stop _ _ _ _).bind fun _ _ (_ : True) => hrest
    · exact hrest

/-- Both sides call a command with the same declaration, or both call a function. -/
def Callee.Alike (π : Shift) : Callee → Callee → Prop
  | .command c, .command c' => c'.past .empty = c.past π.serials
  | .function _, .function _ => True
  | _, _ => False

theorem tracks_resolveCall (c : Call) (hasks : ∀ n ∈ c.names, τ.asks n) :
    Tracks π τ (fun a b => a.1.Alike π b.1 ∧ c.args = some a.2 ∧ b.2 = a.2.map Arg.bare)
      (resolveCall c) (resolveCall c.bare) := by
  obtain ⟨name, args, pos⟩ := c
  unfold resolveCall Call.bare
  cases name with
  | none => exact tracks_stop _ _ _ _
  | some name =>
    have hname : ∀ n ∈ some name, τ.asks n := fun n hn =>
      hasks n (List.mem_append_left _ (Option.mem_toList.mpr hn))
    refine (tracks_need _ (List.map Arg.bare) rfl).bind fun args args' hargs => ?_
    refine (tracks_resolve (fun _ _ h x => (h.scope x).commands) hname).bind
      fun command command' hcommand => ?_
    rcases eq_none_or_exists_of_map_eq hcommand with ⟨rfl, rfl⟩ | ⟨d, d', rfl, rfl, hd⟩
    · refine (tracks_resolve (fun _ _ h x => (h.scope x).functions) hname).bind
        fun function function' hfunction => ?_
      rcases eq_none_or_exists_of_map_eq hfunction with ⟨rfl, rfl⟩ | ⟨f, f', rfl, rfl, -⟩
      · exact tracks_stop _ _ _ _
      · exact .pure ⟨trivial, hargs⟩
    · exact .pure ⟨hd, hargs⟩

/-- Going on from a call on both sides: with a command and its arguments, or with a function. -/
theorem tracks_resolveCall_bind {α : Type} {R : α → α → Prop} {c : Call}
    (hasks : ∀ n ∈ c.names, τ.asks n) {k k' : Callee × List Arg → CompileM α}
    (hcommand : ∀ d d' args, d'.past .empty = d.past π.serials →
      (∀ n ∈ args.flatMap (·.value.names), τ.asks n) →
      Tracks π τ R (k (.command d, args)) (k' (.command d', args.map Arg.bare)))
    (hfunction : ∀ f f' args args',
      Tracks π τ R (k (.function f, args)) (k' (.function f', args'))) :
    Tracks π τ R (resolveCall c >>= k) (resolveCall c.bare >>= k') := by
  refine (tracks_resolveCall c hasks).bind ?_
  rintro ⟨callee, args⟩ ⟨callee', args'⟩ ⟨halike, hargs, h⟩
  obtain rfl : args' = args.map Arg.bare := h
  cases callee <;> cases callee'
  · refine hcommand _ _ _ halike fun n hn => hasks n (List.mem_append_right _ ?_)
    rwa [hargs]
  · exact halike.elim
  · exact halike.elim
  · exact hfunction _ _ _ _

/-! ### Variables -/

theorem tracks_constantOf (a : Assigned) (type : ValueType) :
    Tracks π τ Eq (constantOf a type) (constantOf a.bare type) := by
  obtain ⟨value, pos⟩ := a
  unfold constantOf Assigned.bare
  cases value with
  | number n =>
    dsimp only [AssignedValue.bare]
    split
    · exact tracks_lift_same _
    · exact .throw _
  | truth b =>
    cases type <;> first
      | exact .throw _
      | exact tracks_stopWith _ _
      | exact .pure rfl
  | string | call c | absent => exact tracks_stop _ _ _ _

theorem tracks_compileAssigned (a : Assigned) (hasks : ∀ n ∈ a.value.names, τ.asks n)
    (type : ValueType) (storage : Option Int) :
    Tracks π τ Eq (compileAssigned a type storage) (compileAssigned a.bare type storage) := by
  obtain ⟨value, pos⟩ := a
  unfold compileAssigned Assigned.bare
  cases value with
  | number n =>
    dsimp only [AssignedValue.bare]
    split
    · exact (tracks_lift_same _).bind fun _ _ h => .pure (h ▸ rfl)
    · exact .throw _
  | truth b =>
    cases type <;> first
      | exact .throw _
      | exact tracks_stopWith _ _
      | exact .pure rfl
  | string => exact tracks_stop _ _ _ _
  | call c =>
    refine tracks_resolveCall_bind hasks (fun d d' args hd hargs => ?_) fun f f' args args' => ?_
    · exact tracks_compileCommandCall _ _ hd hargs _ _
    · exact tracks_stop _ _ _ _
  | absent => exact tracks_stop _ _ _ _

theorem tracks_allocate (level : Level) (type : ValueType) (pos pos' : Pos) :
    Tracks π τ Eq (allocate level type pos) (allocate level type pos') := by
  cases level with
  | top =>
    exact (tracks_place pos pos').bind fun _ _ _ =>
      (tracks_tell _ _ _).bind fun _ _ _ => .pure rfl
  | body =>
    refine Tracks.bind (R := Eq) ?_ fun _ _ h => .pure (h ▸ rfl)
    unfold allocateLocal
    dsimp only
    split
    · rw [stop_bind, stop_bind]
      exact tracks_stop _ _ _ _
    · refine .get_bind fun s s' hs => ?_
      rw [hs.locals]
      split
      · refine Tracks.bind (.modify fun t t' ht => { ht with locals := ?_ }) fun _ _ _ =>
          .pure rfl
        show t'.file.locals ++ _ = t.file.locals ++ _
        rw [ht.locals]
      · exact tracks_stop _ _ _ _

theorem tracks_giveValue (mutable : Bool) {v v' : Variable} (hv : v'.bare = v.bare)
    (value : Option Assigned) (hasks : ∀ a ∈ value, ∀ n ∈ a.value.names, τ.asks n) :
    Tracks π τ (fun a b => b.1.bare = a.1.bare ∧ b.2 = a.2) (giveValue mutable v value)
      (giveValue mutable v' (value.map Assigned.bare)) := by
  have htype : v'.type = v.type := congrArg (·.type) hv
  have hstorage : v'.storage = v.storage := congrArg (·.storage) hv
  cases value with
  | none => exact .pure ⟨hv, rfl⟩
  | some a =>
    cases mutable with
    | true =>
      show Tracks π τ _ (compileAssigned _ _ _ >>= _) (compileAssigned _ _ _ >>= _)
      rw [htype, hstorage]
      exact (tracks_compileAssigned a (hasks a rfl) _ _).bind fun _ _ h => .pure ⟨hv, h ▸ rfl⟩
    | false => exact tracks_stop _ _ _ _

theorem tracks_compileDefinition (level : Level) (mutable : Bool) (d : Definition)
    (hasks : ∀ n ∈ d.names, τ.asks n) :
    Tracks π τ (fun a b => b.1.bare = a.1.bare ∧ b.2 = a.2) (compileDefinition level mutable d)
      (compileDefinition level mutable d.bare) := by
  obtain ⟨isConst, type, name, storage, value, pos⟩ := d
  rw [compileDefinition_eq, compileDefinition_eq, Definition.bare]
  refine (tracks_lift _ (typeOf_bare type)).bind fun ⟨word, type⟩ _ htype => ?_
  subst htype
  refine (tracks_need_same _ name).bind_same fun name => ?_
  refine (tracks_lift_same (optionalInt storage)).bind_same fun number => ?_
  have hvalue : ∀ storage : Option Int, Tracks π τ (fun a b => b.1.bare = a.1.bare ∧ b.2 = a.2)
      (giveValue mutable ⟨type, word.text, name, storage, none, pos⟩ value)
      (giveValue mutable ⟨type, word.text, name, storage, none, .start⟩ (value.map .bare)) := by
    refine fun storage => tracks_giveValue mutable (by rfl) value fun a ha n hn => ?_
    exact hasks n (List.mem_flatMap.mpr ⟨a, Option.mem_toList.mpr ha, hn⟩)
  cases isConst with
  | true =>
    cases value with
    | none => exact tracks_stop _ _ _ _
    | some a => exact (tracks_constantOf a type).bind fun _ _ h => .pure ⟨h ▸ rfl, rfl⟩
  | false =>
    cases number with
    | some i => exact hvalue (some i)
    | none =>
      refine (tracks_allocate level type pos .start).bind fun storage _ h => ?_
      exact h ▸ hvalue storage

theorem tracks_define (level : Level) (d : Definition) (hasks : ∀ n ∈ d.names, τ.asks n) :
    Tracks π τ Eq (define level d) (define level d.bare) := by
  refine (tracks_compileDefinition level true d hasks).bind fun ⟨v, instrs⟩ ⟨v', _⟩ ⟨hv, h⟩ => ?_
  exact (tracks_addVariable hv).bind fun _ _ _ => .pure h.symm

theorem tracks_compileAssignment (a : Assignment) (hasks : ∀ n ∈ a.names, τ.asks n) :
    Tracks π τ Eq (compileAssignment a) (compileAssignment a.bare) := by
  obtain ⟨name, operator, value, pos⟩ := a
  unfold compileAssignment Assignment.bare
  refine (tracks_need_same _ operator).bind_same fun operator => ?_
  split
  · exact (tracks_warn _ _ _ _).bind fun _ _ _ => .pure rfl
  · refine (tracks_resolveVariable fun n hn => hasks n ?_).bind fun v v' hv => ?_
    · exact List.mem_append_left _ (Option.mem_toList.mpr hn)
    · refine (tracks_need_of_map_eq _ hv).bind fun v v' hv => ?_
      obtain ⟨htype, hstorage, -⟩ := Variable.fields_of_bare hv
      cases value with
      | none => exact .throw _
      | some value =>
        rw [htype, hstorage]
        refine (tracks_compileAssigned value (fun n hn => hasks n ?_) _ _).bind fun _ _ h =>
          .pure (h ▸ rfl)
        exact List.mem_append_right _ (List.mem_append_left _ hn)

/-! ### Conditions -/

theorem tracks_compileLeft (l : LeftOperand) (hasks : ∀ n ∈ l.names, τ.asks n) :
    Tracks π τ Eq (compileLeft l) (compileLeft l.bare) := by
  obtain ⟨call, name, pos⟩ := l
  unfold compileLeft LeftOperand.bare
  cases call with
  | some c =>
    have hcall : ∀ n ∈ c.names, τ.asks n := fun n hn =>
      hasks n (List.mem_append_right _ (List.mem_append_left _ hn))
    refine tracks_resolveCall_bind hcall (fun d d' args hd hargs => ?_) fun f f' args args' => ?_
    · have htype := ResultType.map_type_of_bare (Command.fields_of_past hd).2.1
      refine (tracks_need_of_map_eq _ htype).bind fun r r' hr => ?_
      refine (tracks_compileCommandCall _ _ hd hargs _ _).bind fun i _ hi => ?_
      exact .pure (hi ▸ hr ▸ rfl)
    · exact (tracks_warn _ _ _ _).bind fun _ _ _ => .pure rfl
  | none =>
    cases name with
    | none => exact .pure rfl
    | some name =>
      refine (tracks_resolveVariable fun n hn => hasks n ?_).bind fun v v' hv => ?_
      · exact List.mem_append_left _ (Option.mem_toList.mpr hn)
      · rcases eq_none_or_exists_of_map_eq hv with ⟨rfl, rfl⟩ | ⟨x, y, rfl, rfl, hxy⟩
        · exact tracks_stop _ _ _ _
        · obtain ⟨htype, hstorage, hconstant⟩ := Variable.fields_of_bare hxy
          dsimp only
          rw [htype, hstorage, hconstant]
          split
          · exact tracks_stop _ _ _ _
          · exact .pure rfl

theorem tracks_compileComparison (left : Compared) (comparator : Option String)
    (right : Option RightOperand) (destination : LabelId) :
    Tracks π τ Eq (compileComparison left comparator right destination)
      (compileComparison left comparator right destination) := by
  unfold compileComparison
  refine (tracks_need_same _ _).bind_same fun word => ?_
  refine (tracks_need_same _ _).bind_same fun word => ?_
  refine (tracks_onCode _).bind_same fun index => ?_
  refine (tracks_need_same _ _).bind_same fun right => ?_
  split
  · exact .pure rfl
  · refine (tracks_lift_same _).bind_same fun value => ?_
    split
    · split
      · exact (tracks_target _).bind fun _ _ h => .pure (h ▸ rfl)
      · exact .pure rfl
    · exact .pure rfl

theorem tracks_compileCondition (c : Condition) (hasks : ∀ n ∈ c.form.names, τ.asks n)
    (destination : LabelId) :
    Tracks π τ Eq (compileCondition c destination) (compileCondition c.bare destination) := by
  obtain ⟨form, pos⟩ := c
  unfold compileCondition Condition.bare
  cases form with
  | comparison left comparator right =>
    refine (tracks_compileLeft left hasks).bind fun left _ h => ?_
    exact h ▸ tracks_compileComparison _ _ _ _
  | call c => exact .pure rfl
  | name name =>
    refine (tracks_resolveVariable fun n hn => hasks n (Option.mem_toList.mpr hn)).bind
      fun v v' hv => ?_
    rcases eq_none_or_exists_of_map_eq hv with ⟨rfl, rfl⟩ | ⟨x, y, rfl, rfl, hxy⟩
    · exact tracks_stop _ _ _ _
    · obtain ⟨htype, hstorage, -⟩ := Variable.fields_of_bare hxy
      refine (tracks_target _).bind_same fun there => ?_
      rw [htype, hstorage]
      split <;> exact .pure rfl

theorem tracks_compileSubject (subject : Option Condition)
    (hasks : ∀ n ∈ conditionNames subject, τ.asks n) (pos pos' : Pos) :
    Tracks π τ Eq (compileSubject subject pos)
      (compileSubject (subject.map Condition.bare) pos') := by
  unfold compileSubject
  refine (tracks_need _ Condition.bare rfl).bind fun ⟨form, _⟩ c' ⟨hc, hc'⟩ => ?_
  subst hc hc'
  have hform : ∀ n ∈ form.names, τ.asks n := fun n hn => hasks n (List.mem_append_left _ hn)
  -- the storage of a variable that is switched on
  have hstored : ∀ name, (∀ n ∈ name, τ.asks n) → Tracks π τ Eq
      (do
        let v ← need .valueType (← resolveVariable name)
        return [switchInstr v.storage])
      (do
        let v ← need .valueType (← resolveVariable name)
        return [switchInstr v.storage]) := by
    intro name hname
    refine (tracks_resolveVariable hname).bind fun v v' hv => ?_
    refine (tracks_need_of_map_eq _ hv).bind fun v v' hv => .pure ?_
    rw [(Variable.fields_of_bare hv).2.1]
  cases form with
  | call c =>
    refine tracks_resolveCall_bind hform (fun d d' args hd hargs => ?_) fun f f' args args' => ?_
    · refine (tracks_need_of_map_eq _ (Command.fields_of_past hd).2.1).bind fun _ _ _ => ?_
      exact (tracks_compileCommandCall _ _ hd hargs _ _).bind fun _ _ hi => .pure (hi ▸ rfl)
    · exact (tracks_warn _ _ _ _).bind fun _ _ _ => .pure rfl
  | name name => exact hstored name fun n hn => hform n (Option.mem_toList.mpr hn)
  | comparison left comparator right => exact hstored none fun _ h => nomatch h

theorem tracks_caseWord (number : Option Int) {name : Option String}
    (hasks : ∀ n ∈ name, τ.asks n) :
    Tracks π τ Eq (caseWord number name) (caseWord number name) := by
  cases number with
  | some i => exact (tracks_lift_same _).bind fun _ _ h => .pure (h ▸ rfl)
  | none =>
    refine (tracks_resolveVariable hasks).bind fun v v' hv => ?_
    refine (tracks_need_of_map_eq _ hv).bind fun v v' hv => .pure ?_
    obtain ⟨htype, -, hconstant⟩ := Variable.fields_of_bare hv
    rw [htype, hconstant]

end EvScript
