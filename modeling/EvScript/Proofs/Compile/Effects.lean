import EvScript.Proofs.Compile.Yields

/-!
# The Effects of Single Steps

A small step of a compilation may tell the log something or print a line, put a string into the
table, look at parameters of a command, and give out a register. What is true of these **effects**,
and of sequences if it is true of their parts, is true of all such steps. They end early in two
ways: they are stopped, and the log says why, or a fault comes up that is told nowhere.
-/

namespace EvScript

variable {s t : CompileState} {c : Call} {args : List Arg} {storage : Option Int}

/-- What a step may do to the state besides telling and printing. -/
inductive Effect where
  /-- To put a string into the table. -/
  | intern (text : String)
  /-- To look at parameters of a command. -/
  | params
  /-- To give out a register. -/
  | register
  /-- To tell about a mistake and go on. -/
  | complaint

/-! ### Faults that are told nowhere -/

/-- The fault can come up in a compilation, and nothing is told about it. -/
def Fault.isUntold : Fault → Bool
  | .stopped | .notMember _ _ | .unprintable _ | .flagOperand | .noWord | .noIndex | .outOfRange =>
    false
  | _ => true

/-- If the computation ends with a fault, it is one that is told nowhere. -/
def Untold {α : Type} (x : Except Fault α) : Prop := ∀ e, x = .error e → e.isUntold = true

theorem Untold.ok {α : Type} {a : α} : Untold (.ok a : Except Fault α) := nofun

theorem Untold.error {α : Type} {e : Fault} (h : e.isUntold = true) :
    Untold (.error e : Except Fault α) := by
  intro e' he
  cases he
  exact h

/-- One computation after another. -/
theorem Untold.bind {α β : Type} {x : Except Fault α} {f : α → Except Fault β} (hx : Untold x)
    (hf : ∀ a, Untold (f a)) : Untold (x >>= f) := by
  cases x with
  | error e => exact .error (hx e rfl)
  | ok a => exact hf a

theorem Untold.map {α β : Type} {x : Except Fault α} {f : α → β} (hx : Untold x) :
    Untold (x.map f) := by
  cases x with
  | error e => exact .error (hx e rfl)
  | ok a => exact .ok

/-- That a number cannot be stored is told nowhere. -/
theorem untold_encode (q : Number.Quantity) : Untold (encode q) := by
  unfold encode
  cases q.encode with
  | error e => exact .error rfl
  | ok a => exact .ok

theorem untold_intOfText (text : String) : Untold (intOfText text) := by
  unfold intOfText
  split
  · exact .error rfl
  · dsimp only
    split
    · exact .error rfl
    · exact .ok

/-- Nor is it told that a numeral has no text. -/
theorem Numeral.untold_word (n : Numeral) : Untold n.word := by
  unfold Numeral.word
  split
  · exact .ok
  · exact .error rfl

theorem Numeral.untold_toReal (n : Numeral) : Untold n.toReal := by
  refine n.untold_word.bind fun text => ?_
  unfold realOfText
  split
  · exact .ok
  · exact .error rfl

theorem untold_optionalInt (n : Option Numeral) : Untold (optionalInt n) := by
  cases n with
  | none => exact .ok
  | some n => exact (n.untold_word.bind untold_intOfText).map

theorem TypeWord.untold_toType (t : TypeWord) : Untold t.toType := by
  unfold TypeWord.toType
  split
  · exact .ok
  · exact .error rfl

theorem untold_typeOf (t : Option TypeWord) : Untold (typeOf t) := by
  cases t with
  | none => exact .error rfl
  | some t => exact t.untold_toType.map

theorem untold_resultOf (t : Option TypeWord) : Untold (resultOf t) := by
  cases t with
  | none => exact .ok
  | some t => exact t.untold_toType.map

theorem Param.untold_read (p : Param) : Untold p.read := by
  unfold Param.read
  split
  · exact .error rfl
  · dsimp only
    split
    · exact (untold_typeOf _).bind fun _ => .ok
    · rename_i storage _
      refine Untold.bind ?_ fun _ => (untold_typeOf _).bind fun _ => .ok
      cases storage with
      | result => exact .ok
      | register n => exact untold_optionalInt n

/-- What is wrong with parameters is told nowhere. -/
theorem untold_parameterVariables (ps : List Param) (given : List Int) :
    Untold (parameterVariables ps given) := by
  induction ps generalizing given with
  | nil => exact .ok
  | cons p ps ih => exact p.untold_read.bind fun _ => (ih _).bind fun _ => .ok

namespace CompileM

variable {α β ε : Type} {may : Effect → Prop}
variable {f : α → CompileM β}

/-- A step that looks around, tells, prints, and has no effects but those that are allowed. What
comes next in a sequence may rely on a value that the first part can come to. -/
inductive DoesOnly (may : Effect → Prop) : {α : Type} → CompileM α → Prop where
  | pure {α : Type} (a : α) : DoesOnly may (Pure.pure a : CompileM α)
  | throw {α : Type} {e : Fault} : e.isUntold = true → DoesOnly may (throw e : CompileM α)
  | bind {α β : Type} {m : CompileM α} {f : α → CompileM β} : DoesOnly may m →
      (∀ a s t, Yields m s a t → DoesOnly may (f a)) → DoesOnly may (m >>= f)
  | place (pos : Pos) : DoesOnly may (place pos)
  | resolve {α : Type} (shelf : Shelf α) (name : Option String) : DoesOnly may (resolve shelf name)
  | tell {level : LogLevel} (message : String) : (level = .error → may .complaint) →
      DoesOnly may (tell level message)
  | stopWith {α : Type} (message : String) : DoesOnly may (stopWith message : CompileM α)
  | printLine (line : String) : DoesOnly may (printLine line)
  | errors (lexed : List LexError → List LexError)
      (parsed : List (String × Token) → List (String × Token)) :
      DoesOnly may (modify fun s =>
        { s with lexErrors := lexed s.lexErrors, syntaxErrors := parsed s.syntaxErrors })
  | intern {text : String} : may (.intern text) → DoesOnly may (intern text)
  | returnIndex (c : Command) : may .params → DoesOnly may (returnIndex c)
  | allocateLocal (type : ValueType) (pos : Pos) : may .register →
      DoesOnly may (allocateLocal type pos)

/-- A sequence does what its parts do. -/
theorem DoesOnly.then {m : CompileM α} (hm : DoesOnly may m)
    (hf : ∀ a, DoesOnly may (f a)) : DoesOnly may (m >>= f) :=
  hm.bind fun a _ _ _ => hf a

/-- So does a step for each element of a list. -/
theorem DoesOnly.mapM {as : List α} (hf : ∀ a ∈ as, DoesOnly may (f a)) :
    DoesOnly may (as.mapM f) := by
  induction as with
  | nil => exact .pure _
  | cons a as ih =>
    obtain ⟨ha, has⟩ := List.forall_mem_cons.mp hf
    rw [List.mapM_cons]
    exact ha.then fun _ => (ih has).then fun _ => .pure _

theorem DoesOnly.need (what : Absent) (o : Option α) : DoesOnly may (need what o) := by
  cases o with
  | none => exact .throw rfl
  | some a => exact .pure a

/-- A check that tells nothing has no effect. -/
theorem DoesOnly.lift {x : Except Fault α} (h : Untold x) : DoesOnly may (lift id x) := by
  cases x with
  | error e => exact .throw (h e rfl)
  | ok a => exact .pure a

theorem DoesOnly.warn (message : String) (pos : Pos) : DoesOnly may (warn message pos) :=
  (DoesOnly.place pos).then fun _ => .tell _ nofun

theorem DoesOnly.stop (message : String) (pos : Pos) :
    DoesOnly may (stop message pos : CompileM α) :=
  (DoesOnly.place pos).then fun _ => .stopWith _

end CompileM

open CompileM

variable {may : Effect → Prop}

/-! ### What is allowed -/

/-- If the argument is a string, it may come into the table. -/
def Arg.Allows (a : Arg) (may : Effect → Prop) : Prop :=
  ∀ literal, a.value = .string (some literal) → may (.intern (unquote literal))

/-- A call may be made with all its arguments. -/
structure Call.Allows (c : Call) (may : Effect → Prop) : Prop where
  params : may .params
  args : ∀ args, c.args = some args → ∀ a ∈ args, a.Allows may

/-- If a value is a call, the call may be made. -/
def Assigned.Allows (a : Assigned) (may : Effect → Prop) : Prop :=
  ∀ c, a.value = .call c → c.Allows may

/-- All that a call does is allowed, whatever its arguments are. -/
structure Effect.Calls (may : Effect → Prop) : Prop where
  params : may .params
  intern : ∀ text, may (.intern text)

/-- What may be done by calls in general may be done by each of them. -/
theorem Effect.Calls.call (h : Effect.Calls may) (c : Call) : c.Allows may :=
  ⟨h.params, fun _ _ _ _ _ _ => h.intern _⟩

theorem Effect.Calls.assigned (h : Effect.Calls may) (a : Assigned) : a.Allows may :=
  fun c _ => h.call c

/-! ### Steps without effects -/

theorem doesOnly_ofArgument (pos : Pos) (a : Argument) :
    DoesOnly may (Operand.ofArgument pos a) := by
  cases a with
  | number q => exact (DoesOnly.lift (untold_encode q)).then fun _ => .pure _
  | text index => exact .pure _
  | truth => exact (DoesOnly.place pos).then fun _ => .stopWith _
  | other => exact .stop _ _
  | stored type storage => cases type <;> first | exact .pure _ | exact .stop _ _

/-- Looking up what is called has no effect. -/
theorem doesOnly_resolveCall (c : Call) : DoesOnly may (resolveCall c) := by
  unfold resolveCall
  split
  · exact .stop _ _
  · refine (DoesOnly.need _ _).then fun args => (DoesOnly.resolve _ _).then fun command => ?_
    split
    · exact .pure _
    · refine (DoesOnly.resolve _ _).then fun function => ?_
      split
      · exact .pure _
      · exact .stop _ _

theorem doesOnly_constantOf (a : Assigned) (type : ValueType) :
    DoesOnly may (constantOf a type) := by
  unfold constantOf
  split
  · split
    · exact .lift ((untold_intOfText _).bind fun _ => untold_encode _)
    · exact .throw rfl
  · split
    · exact .pure _
    · exact .stopWith _
    · exact .stopWith _
    · exact .throw rfl
  · exact .stop _ _
  · exact .stop _ _
  · exact .stop _ _

theorem doesOnly_caseWord (number : Option Int) (name : Option String) :
    DoesOnly may (caseWord number name) := by
  unfold caseWord
  split
  · exact (DoesOnly.lift (untold_encode _)).then fun _ => .pure _
  · exact (DoesOnly.resolve _ _).then fun _ => (DoesOnly.need _ _).then fun _ => .pure _

/-- Reading a file notes syntax errors at most. -/
theorem doesOnly_loadProgram (fs : Files) (mode : ReadMode) (path : String) :
    DoesOnly may (loadProgram fs mode path) := by
  unfold loadProgram
  split
  · exact .throw rfl
  · split
    · exact .throw rfl
    · dsimp only
      split
      · split
        · exact .throw rfl
        · exact (DoesOnly.errors (· ++ _) id).then fun _ => .pure _
      · exact (DoesOnly.errors (· ++ _) (· ++ _)).then fun _ => .pure _

/-- The tree of a file is read from its text, strictly or with repair. -/
theorem exists_text_of_loadProgram {fs : Files} {mode : ReadMode} {path : String} {tree : Tree}
    (h : Yields (loadProgram fs mode path) s tree t) :
    ∃ bytes text, fs.bytes? path = some bytes ∧
      ((∃ p, readProgram (.ofText text) = .ok p ∧ p.tree = tree) ∨
        (mendRule .program (.ofText text)).tree = tree) := by
  unfold loadProgram at h
  split at h
  · exact h.throw.elim
  · rename_i bytes hbytes
    split at h
    · exact h.throw.elim
    · rename_i text _
      refine ⟨bytes, text, hbytes, ?_⟩
      cases mode with
      | strict =>
        dsimp only at h
        split at h
        · exact h.throw.elim
        · rename_i p hp
          obtain ⟨_, _, -, h⟩ := h.bind
          exact .inl ⟨p, hp, h.pure.1⟩
      | repair =>
        obtain ⟨_, _, -, h⟩ := h.bind
        exact .inr h.pure.1

/-! ### Calls -/

/-- What a call by a name calls: a command, and if there is none, a function. -/
def CompileState.callee? (s : CompileState) (name : String) : Option Callee :=
  ((s.file.cursor.resolve s.graph (·.commands) name).map .command).or
    ((s.file.cursor.resolve s.graph (·.functions) name).map .function)

/-- Commands are looked up before functions. -/
theorem callee?_eq_command {name : String} {d : Command} : s.callee? name = some (.command d) ↔
      s.file.cursor.resolve s.graph (·.commands) name = some d := by
  rw [CompileState.callee?]
  cases s.file.cursor.resolve s.graph (·.commands) name with
  | none => simp
  | some command => simp

/-- A call has a name that means what is called, and arguments. -/
theorem yields_resolveCall {callee : Callee} : Yields (resolveCall c) s (callee, args) t ↔
      (∃ name, c.name = some name ∧ s.callee? name = some callee) ∧ c.args = some args ∧ s = t := by
  unfold resolveCall CompileState.callee?
  cases c.name with
  | none => simp
  | some name =>
    simp only [yields_bind, yields_need, yields_resolve]
    constructor
    · rintro ⟨args', _, ⟨hargs, rfl⟩, found, _, ⟨⟨_, hname, hfound⟩, rfl⟩, h⟩
      obtain rfl := Option.some.inj hname
      cases found with
      | some d =>
        obtain ⟨heq, rfl⟩ := h.pure
        cases heq
        exact ⟨⟨name, rfl, by rw [hfound]; rfl⟩, hargs, rfl⟩
      | none =>
        obtain ⟨found', _, hfunction, h⟩ := h.bind
        obtain ⟨⟨_, hname, hfunction⟩, rfl⟩ := hfunction.resolve
        obtain rfl := Option.some.inj hname
        cases found' with
        | none => exact h.stop.elim
        | some f =>
          obtain ⟨heq, rfl⟩ := h.pure
          cases heq
          exact ⟨⟨name, rfl, by rw [hfound, hfunction]; rfl⟩, hargs, rfl⟩
    · rintro ⟨⟨_, hname, hcallee⟩, hargs, rfl⟩
      obtain rfl := Option.some.inj hname
      refine ⟨args, s, ⟨hargs, rfl⟩, _, s, ⟨⟨name, rfl, rfl⟩, rfl⟩, ?_⟩
      cases hd : s.file.cursor.resolve s.graph (·.commands) name with
      | some d =>
        rw [hd] at hcallee
        cases hcallee
        exact yields_pure.mpr ⟨rfl, rfl⟩
      | none =>
        rw [hd] at hcallee
        refine yields_bind.mpr ⟨_, s, yields_resolve.mpr ⟨⟨name, rfl, rfl⟩, rfl⟩, ?_⟩
        cases hf : s.file.cursor.resolve s.graph (·.functions) name with
        | none =>
          rw [hf] at hcallee
          cases hcallee
        | some f =>
          rw [hf] at hcallee
          cases hcallee
          exact yields_pure.mpr ⟨rfl, rfl⟩

theorem yields_resolveCall_command {d : Command} : Yields (resolveCall c) s (.command d, args) t ↔
      (∃ name, c.name = some name ∧ s.file.cursor.resolve s.graph (·.commands) name = some d) ∧
        c.args = some args ∧ s = t := by
  simp only [yields_resolveCall, callee?_eq_command]

alias ⟨CompileM.Yields.resolveCall_command, _⟩ := yields_resolveCall_command

/-- An argument puts its string into the table and does nothing else. -/
theorem doesOnly_evaluate {a : Arg} (h : a.Allows may) : DoesOnly may (evaluate a) := by
  unfold evaluate
  split
  · refine (DoesOnly.resolve _ _).then fun v => ?_
    split
    · exact .stop _ _
    · split <;> exact .pure _
  · rename_i hvalue
    refine (DoesOnly.need _ _).bind fun text _ _ htext => (DoesOnly.printLine _).then fun _ => ?_
    obtain ⟨rfl, -⟩ := htext.need
    exact (DoesOnly.intern (h text hvalue)).then fun _ => .pure _
  · exact (DoesOnly.lift (Numeral.untold_toReal _)).then fun _ => .pure _
  · exact .throw rfl

theorem doesOnly_operandsOf (pos : Pos) (h : ∀ a ∈ args, a.Allows may) :
    DoesOnly may (operandsOf pos args) :=
  .mapM fun a ha => (doesOnly_evaluate (h a ha)).then fun _ => doesOnly_ofArgument pos _

/-- Looking for the place of a result uses up parameters. -/
theorem doesOnly_placeResult {c : Command} {operands : List Operand}
    (h : may .params) : DoesOnly may (placeResult c storage operands) := by
  unfold placeResult
  split
  · exact (DoesOnly.returnIndex c h).then fun _ => .pure _
  · exact .pure _

/-- A call uses up parameters and does what its arguments do. -/
theorem doesOnly_compileCommandCall {pos : Pos} {c : Command}
    {wanted : Option ValueType} (hparams : may .params)
    (h : ∀ a ∈ args, a.Allows may) :
    DoesOnly may (compileCommandCall pos c args wanted storage) := by
  have hrest : DoesOnly may (operandsOf pos args >>= placeResult c storage) :=
    (doesOnly_operandsOf pos h).then fun _ => doesOnly_placeResult hparams
  unfold compileCommandCall compileCall
  simp only [Option.isSome_map]
  cases wanted with
  | none => exact hrest
  | some w =>
    refine (DoesOnly.need _ _).then fun r => ?_
    split
    · exact (DoesOnly.stop _ _).then fun _ => hrest
    · exact hrest

/-- What follows on a call may count on its arguments. -/
theorem doesOnly_resolveCall_bind {β : Type} {next : Callee × List Arg → CompileM β}
    (h : c.Allows may) (hfunction : ∀ f args, DoesOnly may (next (.function f, args)))
    (hcommand : ∀ d args, (∀ a ∈ args, a.Allows may) → DoesOnly may (next (.command d, args))) :
    DoesOnly may (resolveCall c >>= next) := by
  refine (doesOnly_resolveCall c).bind fun ⟨callee, args⟩ s t hcall => ?_
  cases callee with
  | function f => exact hfunction f args
  | command d => exact hcommand d args (h.args args (yields_resolveCall.mp hcall).2.1)

/-! ### Definitions and assignments -/

/-- A value does what its call does. -/
theorem doesOnly_compileAssigned {a : Assigned} {type : ValueType}
    (h : a.Allows may) : DoesOnly may (compileAssigned a type storage) := by
  unfold compileAssigned
  split
  · split
    · exact (DoesOnly.lift ((untold_intOfText _).bind fun _ => untold_encode _)).then fun _ =>
        .pure _
    · exact .throw rfl
  · split
    · exact .stopWith _
    · exact .pure _
    · exact .pure _
    · exact .throw rfl
  · exact .stop _ _
  · rename_i c hvalue
    have hc := h c hvalue
    exact doesOnly_resolveCall_bind hc (fun _ _ => .stop _ _) fun _ _ =>
      doesOnly_compileCommandCall hc.params
  · exact .stop _ _

/-- Outside of functions a complaint is made in place of giving out a register. -/
theorem doesOnly_allocate {level : Level} (type : ValueType) (pos : Pos) (h : may .register)
    (htop : level = .top → may .complaint) : DoesOnly may (allocate level type pos) := by
  cases level with
  | top =>
    exact (DoesOnly.place pos).then fun _ =>
      (DoesOnly.tell _ fun _ => htop rfl).then fun _ => .pure _
  | body => exact (DoesOnly.allocateLocal type pos h).then fun _ => .pure _

theorem doesOnly_giveValue {mutable : Bool} {v : Variable} {value : Option Assigned}
    (h : ∀ a, value = some a → a.Allows may) : DoesOnly may (giveValue mutable v value) := by
  cases value with
  | none => exact .pure _
  | some a =>
    cases mutable with
    | true => exact (doesOnly_compileAssigned (h a rfl)).then fun _ => .pure _
    | false => exact .stop _ _

/-- A definition gets a register and does what its value does. -/
theorem doesOnly_compileDefinition {level : Level} {mutable : Bool} {d : Definition}
    (hregister : may .register) (htop : level = .top → may .complaint)
    (h : ∀ a, d.value = some a → a.Allows may) :
    DoesOnly may (compileDefinition level mutable d) := by
  rw [compileDefinition_eq]
  refine (DoesOnly.lift (untold_typeOf _)).then fun ⟨word, type⟩ => (DoesOnly.need _ _).then
    fun name => (DoesOnly.lift (untold_optionalInt _)).then fun number => ?_
  split
  · split
    · exact (doesOnly_constantOf _ _).then fun _ => .pure _
    · exact .stop _ _
  · cases number with
    | some n => exact doesOnly_giveValue h
    | none => exact (doesOnly_allocate _ _ hregister htop).then fun _ => doesOnly_giveValue h

theorem doesOnly_compileAssignment {a : Assignment} (h : ∀ v, a.value = some v → v.Allows may) :
    DoesOnly may (compileAssignment a) := by
  unfold compileAssignment
  refine (DoesOnly.need _ _).then fun operator => ?_
  split
  · exact (DoesOnly.warn _ _).then fun _ => .pure _
  · refine (DoesOnly.resolve _ _).then fun v => (DoesOnly.need _ _).then fun v => ?_
    split
    · exact (doesOnly_compileAssigned (h _ ‹_›)).then fun _ => .pure _
    · exact .throw rfl

/-! ### Conditions and subjects -/

/-- Of the left side of a comparison only a call has effects. -/
theorem doesOnly_compileLeft {l : LeftOperand} (h : ∀ c, l.call = some c → c.Allows may) :
    DoesOnly may (compileLeft l) := by
  unfold compileLeft
  split
  · rename_i c hcall
    refine doesOnly_resolveCall_bind (h c hcall)
      (fun _ _ => (DoesOnly.warn _ _).then fun _ => .pure _) fun _ _ hargs => ?_
    exact (DoesOnly.need _ _).then fun _ =>
      (doesOnly_compileCommandCall (h c hcall).params hargs).then fun _ => .pure _
  · refine (DoesOnly.resolve _ _).then fun v => ?_
    split
    · exact .stop _ _
    · split
      · exact .stop _ _
      · exact .pure _
  · exact .pure _

theorem doesOnly_compileSubject {subject : Option Condition} (pos : Pos)
    (h : ∀ c ∈ subject, ∀ call, c.form = .call call → call.Allows may) :
    DoesOnly may (compileSubject subject pos) := by
  unfold compileSubject
  refine (DoesOnly.need _ _).bind fun c _ _ hc => ?_
  obtain ⟨rfl, -⟩ := hc.need
  split
  · rename_i call hform
    have hallows := h c rfl call hform
    refine doesOnly_resolveCall_bind hallows
      (fun _ _ => (DoesOnly.warn _ _).then fun _ => .pure _) fun _ _ hargs => ?_
    exact (DoesOnly.need _ _).then fun _ =>
      (doesOnly_compileCommandCall hallows.params hargs).then fun _ => .pure _
  · exact (DoesOnly.resolve _ _).then fun _ => (DoesOnly.need _ _).then fun _ => .pure _
  · exact (DoesOnly.resolve _ _).then fun _ => (DoesOnly.need _ _).then fun _ => .pure _

end EvScript
