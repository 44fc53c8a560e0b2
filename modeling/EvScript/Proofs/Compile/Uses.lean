import EvScript.Proofs.Compile.StatementCode

/-!
# Where Register Operands Come from

A compiled script has operands that name a register only where a statement **uses** a variable or
the answer register. The operand of a use is the storage of the variable in the space of its type,
or, whatever the type is, in the work registers if the variable is compared, switched on or filled
with a result. Under every label of the finished code, the register operands are those of the uses
of the statements that are compiled there, no more and no fewer.
-/

namespace EvScript

open CompileM Registry

variable {is : List Instr} {i : Instr} {storage : Option Int} {o : Operand}
  {operands : List Operand} {d : Definition} {v : Variable}

/-! ### Register operands -/

/-- The operand names a register or a flag. -/
def Operand.isRegister (o : Operand) : Bool :=
  match o.kind with
  | .work | .flag | .sysFlag => true
  | _ => false

/-- The register operands of an instruction. -/
def Instr.registers (i : Instr) : List Operand := i.operands.filter Operand.isRegister

/-- The register operands of the instructions under a label. -/
def Assembly.registersAt (c : Assembly) (x : LabelId) : List Operand :=
  (c.label x).instrs.flatMap Instr.registers

@[simp] theorem isRegister_ofString (index : Nat) : (Operand.ofString index).isRegister = false :=
  rfl

@[simp] theorem isRegister_value (data : Option Int) : Operand.isRegister ⟨.value, data⟩ = false :=
  rfl

@[simp] theorem isRegister_target (c : Assembly) (x : LabelId) : (c.target x).isRegister = false :=
  rfl

/-! ### Uses -/

/-- The operands that the variables of a type are kept in. -/
def ValueType.space : ValueType → OperandKind
  | .flag => .flag
  | .sysFlag => .sysFlag
  | _ => .work

/-- How a statement uses a variable, or the answer register. -/
inductive Use where
  /-- The variable is given a number or a truth value. -/
  | given (v : Variable)
  /-- The variable takes the result of a command. -/
  | filled (v : Variable)
  /-- The variable is passed to a command. -/
  | passed (v : Variable)
  /-- The variable is compared with a number. -/
  | compared (v : Variable)
  /-- The variable is a condition. -/
  | asked (v : Variable)
  /-- The variable is switched on. -/
  | switched (v : Variable)
  /-- The answer register takes a result, or is compared or switched on. -/
  | answer
  deriving DecidableEq

namespace Use

/-- The variable that is used. -/
def used? : Use → Option Variable
  | .given v | .filled v | .passed v | .compared v | .asked v | .switched v => some v
  | .answer => none

/-- The operand that the use leaves in the code. -/
def operand : Use → Operand
  | .given v | .passed v | .asked v => ⟨v.type.space, v.storage⟩
  | .compared v | .switched v => ⟨.work, v.storage⟩
  | .filled v => ⟨.work, some (v.storage.getD answerRegister)⟩
  | .answer => ⟨.work, some answerRegister⟩

/-- What is checked before a variable is used. Nothing is asked of a variable that is filled or
switched on, and a constant may be given a value. -/
def Proper : Use → Prop
  | .given v => v.type = .integer ∨ v.type = .flag ∨ v.type = .sysFlag
  | .passed v => v.constant = none ∧ (v.type.inRegister = true ∨ v.type = .flag ∨ v.type = .sysFlag)
  | .compared v => v.constant = none ∧ v.type.inRegister = true
  | .asked v => v.type = .flag ∨ v.type = .sysFlag
  | .filled _ | .switched _ | .answer => True

end Use

/-- The variable that a definition in a body defines. -/
def CompileState.defined? (s : CompileState) (d : Definition) : Option Variable :=
  (result? (compileDefinition .body true d) s).map (·.1)

/-- A name that means a variable and no constant is passed as that variable. -/
def Arg.uses (a : Arg) (s : CompileState) : List Use :=
  match a.value with
  | .name name => ((s.meaning? (some name)).filter (·.constant.isNone)).toList.map .passed
  | _ => []

/-- The uses of a call, the result of which is a use of its own. Calls of functions use nothing. -/
def Call.uses (c : Call) (result : Use) (s : CompileState) : List Use :=
  (s.called? c).toList.flatMap fun d =>
    (c.args.getD []).flatMap (·.uses s) ++ if d.result.isSome then [result] else []

/-- The uses of giving a value to a variable. -/
def Assigned.uses (a : Assigned) (v : Variable) (s : CompileState) : List Use :=
  match a.value with
  | .number _ | .truth _ => [.given v]
  | .call c => c.uses (.filled v) s
  | .string | .absent => []

/-- The uses of the definition of a variable. A constant has its value in the scope. -/
def Definition.uses (d : Definition) (v : Variable) (s : CompileState) : List Use :=
  if d.isConst then [] else d.value.toList.flatMap (·.uses v s)

/-- The uses of an assignment. Only plain assignments have code. -/
def Assignment.uses (a : Assignment) (s : CompileState) : List Use :=
  if a.operator = some "=" then
    (s.meaning? a.name).toList.flatMap fun v => a.value.toList.flatMap (·.uses v s)
  else []

/-- The uses of finding the left side of a comparison. -/
def LeftOperand.setup (l : LeftOperand) (s : CompileState) : List Use :=
  l.call.toList.flatMap (·.uses .answer s)

/-- The use that comparing the left side is. -/
def LeftOperand.comparand (l : LeftOperand) (s : CompileState) : List Use :=
  match l.call with
  | some _ => [.answer]
  | none => (s.meaning? l.name).toList.map .compared

/-- The uses of a condition. -/
def Condition.uses (c : Condition) (s : CompileState) : List Use :=
  match c.form with
  | .comparison left _ _ => left.setup s ++ if c.tested s then left.comparand s else []
  | .call _ => []
  | .name name => if c.tested s then (s.meaning? name).toList.map .asked else []

/-- The uses of the subject of a switch. -/
def Condition.subjectUses (c : Condition) (s : CompileState) : List Use :=
  match c.form with
  | .call call => call.uses .answer s ++ (s.called? call).toList.map fun _ => .answer
  | .name name => (s.meaning? name).toList.map .switched
  | .comparison _ _ _ => []

/-- The uses of a statement in a state, without those of the statements in it. -/
def Statement.uses : Statement → CompileState → List Use
  | .define d, s => (s.defined? d).toList.flatMap fun v => d.uses v s
  | .assign a, s => a.uses s
  | .call c, s => c.uses .answer s
  | .branch c _ _ _, s => c.toList.flatMap (·.uses s)
  | .select subject _ _, s => subject.toList.flatMap (·.subjectUses s)
  | .inert _, _ => []

/-- The uses of a statement that a compilation comes to. -/
def Arrival.uses (a : Arrival) : List Use := a.statement.uses a.state

/-- The uses of those statements whose code goes under a label. -/
def usesAt (V : List Arrival) (x : LabelId) : List Use :=
  (V.filter (·.label = x)).flatMap Arrival.uses

theorem mem_usesAt {V : List Arrival} {x : LabelId} {u : Use} :
    u ∈ usesAt V x ↔ ∃ a ∈ V, a.label = x ∧ u ∈ a.uses := by
  simp [usesAt, and_assoc]

theorem usesAt_append (V W : List Arrival) (x : LabelId) :
    usesAt (V ++ W) x = usesAt V x ++ usesAt W x := by
  simp [usesAt]

/-! ### Uses in the same scopes -/

variable {s t : CompileState} {pos : Pos}

theorem SameScopes.argUses (h : SameScopes s t) (a : Arg) : a.uses t = a.uses s := by
  simp only [Arg.uses, h.meaning?]

theorem SameScopes.callUses (h : SameScopes s t) (c : Call) (result : Use) :
    c.uses result t = c.uses result s := by
  simp only [Call.uses, h.called?, h.argUses]

theorem SameScopes.assignedUses (h : SameScopes s t) (a : Assigned) (v : Variable) :
    a.uses v t = a.uses v s := by
  simp only [Assigned.uses, h.callUses]

theorem SameScopes.tested (h : SameScopes s t) (c : Condition) : c.tested t = c.tested s := by
  simp only [Condition.tested, LeftOperand.type?, h.meaning?, h.called?]

theorem SameScopes.conditionUses (h : SameScopes s t) (c : Condition) : c.uses t = c.uses s := by
  simp only [Condition.uses, LeftOperand.setup, LeftOperand.comparand, h.tested, h.meaning?,
    h.callUses]

/-! ### The uses of instructions -/

/-- The register operands of the instructions are those of the uses, and these are proper. -/
structure Explains (us : List Use) (is : List Instr) : Prop where
  registers : (is.flatMap Instr.registers).Perm (us.map Use.operand)
  proper : ∀ u ∈ us, u.Proper

theorem explains_nil : Explains [] [] := ⟨.refl _, by simp⟩

theorem Explains.append {us ws : List Use} {js : List Instr} (h : Explains us is)
    (h' : Explains ws js) : Explains (us ++ ws) (is ++ js) := by
  refine ⟨?_, fun u hu => (List.mem_append.mp hu).elim (h.proper u) (h'.proper u)⟩
  rw [List.flatMap_append, List.map_append]
  exact h.registers.append h'.registers

theorem explains_singleton {us : List Use} (h : i.registers = us.map Use.operand)
    (hproper : ∀ u ∈ us, u.Proper) : Explains us [i] :=
  ⟨by simp [h], hproper⟩

/-! ### Calls -/

theorem operand_of_stored {type : ValueType}
    (h : Yields (Operand.ofArgument pos (.stored type storage)) s o t) :
    o = ⟨type.space, storage⟩ ∧
      (type.inRegister = true ∨ type = .flag ∨ type = .sysFlag) := by
  cases (yields_ofArgument h).1 with
  | register htype => cases type <;> first | exact ⟨rfl, .inl htype⟩ | cases htype
  | flag | sysFlag => exact ⟨rfl, by simp⟩

theorem isRegister_of_ofArgument {x : Argument} (hx : ∀ type storage, x ≠ .stored type storage)
    (h : Yields (Operand.ofArgument pos x) s o t) : o.isRegister = false := by
  cases (yields_ofArgument h).1 with
  | number | text => rfl
  | _ => exact absurd rfl (hx _ _)

theorem ofConstant_ne_stored (type : ValueType) (q : Number.Quantity) (type' : ValueType)
    (storage : Option Int) : Argument.ofConstant type q ≠ .stored type' storage := by
  unfold Argument.ofConstant
  split <;> simp

theorem explains_argument {a : Arg} (h : Yields (do Operand.ofArgument pos (← evaluate a)) s o t) :
    [o].filter Operand.isRegister = (a.uses s).map Use.operand ∧ ∀ u ∈ a.uses s, u.Proper := by
  obtain ⟨x, t', hx, ho⟩ := h.bind
  unfold Arg.uses
  cases comesTo_of_evaluate hx with
  | constant hvalue hm hc =>
    have hno := isRegister_of_ofArgument (ofConstant_ne_stored _ _) ho
    simp [hvalue, hm, hno, Option.filter, hc]
  | @stored name v hvalue hm hc =>
    obtain ⟨rfl, htype⟩ := operand_of_stored ho
    have hreg : Operand.isRegister ⟨v.type.space, v.storage⟩ = true := by
      cases v.type <;> rfl
    simp [hvalue, hm, hreg, Option.filter, hc, Use.operand, Use.Proper, htype]
  | text hvalue | number hvalue => simp [hvalue, isRegister_of_ofArgument (by simp) ho]

theorem explains_operandsOf {args : List Arg} (h : Yields (operandsOf pos args) s operands t) :
    operands.filter Operand.isRegister = (args.flatMap (·.uses s)).map Use.operand ∧
      ∀ u ∈ args.flatMap (·.uses s), u.Proper := by
  induction args generalizing s operands with
  | nil =>
    obtain ⟨rfl, -⟩ := h.pure
    exact ⟨rfl, by simp⟩
  | cons a args ih =>
    rw [operandsOf, List.mapM_cons] at h
    obtain ⟨o, u, ho, h⟩ := h.bind
    obtain ⟨os, hos, rfl⟩ := h.bind_pure
    have hsame : SameScopes s u := by
      obtain ⟨x, t', hx, ho⟩ := ho.bind
      obtain ⟨-, rfl⟩ := yields_ofArgument ho
      exact (keeps_evaluate _).sameScopes hx
    obtain ⟨hfirst, hproper⟩ := explains_argument ho
    obtain ⟨hrest, hproper'⟩ := ih hos
    simp only [hsame.argUses] at hrest hproper'
    rw [List.flatMap_cons, List.map_append, ← hfirst, ← hrest, ← List.filter_append]
    exact ⟨rfl, List.forall_mem_append.mpr ⟨hproper, hproper'⟩⟩

theorem registers_of_placeResult {d : Command}
    {result : Use} (hd : storage.isSome = true → d.result.isSome = true)
    (hresult : result.operand = ⟨.work, some (storage.getD answerRegister)⟩)
    (h : Yields (placeResult d storage operands) s i t) :
    i.registers.Perm (operands.filter Operand.isRegister ++
      (if d.result.isSome then [result] else []).map Use.operand) := by
  unfold placeResult at h
  have hiff : (d.result.isSome || storage.isSome) = d.result.isSome := by
    cases hs : storage.isSome
    · simp
    · simp [hd hs]
  rw [hiff] at h
  split at h
  · rename_i hsome
    obtain ⟨index, -, rfl⟩ := h.bind_pure
    have hreg : Operand.isRegister ⟨.work, some (storage.getD answerRegister)⟩ = true := rfl
    simp only [Instr.registers, insertOperand, if_pos hsome, List.map_singleton, hresult]
    rw [List.filter_append, List.filter_cons_of_pos hreg]
    refine List.perm_middle.trans ((List.perm_append_singleton _ _).symm.trans ?_)
    rw [← List.filter_append, List.take_append_drop]
  · rename_i hnone
    obtain ⟨rfl, -⟩ := h.pure
    simp [Instr.registers, hnone]

/-- **The register operands of a call** are the variables among its arguments and the place of its
result. -/
theorem explains_compileCommandCall {c : Call} {d : Command} {args : List Arg}
    {wanted : Option ValueType} {result : Use}
    (hd : s.called? c = some d) (hargs : c.args = some args)
    (hwanted : storage.isSome = true → wanted.isSome = true)
    (hresult : result.operand = ⟨.work, some (storage.getD answerRegister)⟩)
    (hproper : result.Proper)
    (h : Yields (compileCommandCall pos d args wanted storage) s i t) :
    Explains (c.uses result s) [i] := by
  obtain ⟨hreturns, h⟩ := yields_compileCommandCall.mp h
  obtain ⟨operands, u, hops, hplace⟩ := h.bind
  obtain ⟨hoperands, hargsProper⟩ := explains_operandsOf hops
  have hstored : storage.isSome = true → d.result.isSome = true := by
    intro hs
    obtain ⟨type, rfl⟩ := Option.isSome_iff_exists.mp (hwanted hs)
    have htype := hreturns type rfl
    cases hr : d.result with
    | none => simp [hr] at htype
    | some r => rfl
  have huses : c.uses result s =
      args.flatMap (·.uses s) ++ if d.result.isSome then [result] else [] := by
    simp [Call.uses, hd, hargs]
  have hregisters := registers_of_placeResult hstored hresult hplace
  rw [huses]
  refine ⟨?_, fun u hu => ?_⟩
  · rw [List.flatMap_singleton, List.map_append, ← hoperands]
    exact hregisters
  · rcases List.mem_append.mp hu with hu | hu
    · exact hargsProper u hu
    · split at hu
      · rw [List.mem_singleton.mp hu]
        exact hproper
      · exact absurd hu List.not_mem_nil

/-! ### Values and definitions -/

theorem explains_compileAssigned {a : Assigned}
    (h : Yields (compileAssigned a v.type v.storage) s i t) : Explains (a.uses v s) [i] := by
  unfold Assigned.uses
  cases gives_of_compileAssigned h with
  | number hvalue htype =>
    rw [hvalue]
    refine explains_singleton ?_ (by simp [Use.Proper, htype])
    simp only [List.map_singleton, Use.operand, ValueType.space, htype]
    rfl
  | flag hvalue htype | sysFlag hvalue htype =>
    rw [hvalue]
    refine explains_singleton ?_ (by simp [Use.Proper, htype])
    simp [Instr.registers, flagInstr, Operand.isRegister, Use.operand, ValueType.space, htype]
  | call hvalue hcalled hargs hi =>
    rw [hvalue]
    exact explains_compileCommandCall hcalled hargs (fun _ => rfl) rfl trivial hi

/-- **The register operands of a definition.** -/
theorem Defines.explains {level : Level}
    (h : Defines level d s v is t) : Explains (d.uses v s) is := by
  unfold Definition.uses
  cases h with
  | constant hconst hvalue hc => simpa [hconst] using explains_nil
  | bare hconst hvalue hstorage => simpa [hconst, hvalue] using explains_nil
  | @valued type word name storage a i u t hconst hvalue hstorage hi =>
    have hsame := (keeps_storageFor _ _ _ _).sameScopes hstorage
    have hassigned := explains_compileAssigned
      (v := ⟨type, word, name, storage, none, d.pos⟩) hi
    rw [hsame.assignedUses] at hassigned
    simpa [hconst, hvalue] using hassigned

theorem defined?_of_yields
    (h : Yields (compileDefinition .body true d) s (v, is) t) : s.defined? d = some v := by
  rw [CompileState.defined?, h.result?]
  rfl

/-- **The register operands of an assignment.** -/
theorem explains_compileAssignment {a : Assignment}
    (h : Yields (compileAssignment a) s is t) : Explains (a.uses s) is := by
  unfold Assignment.uses
  cases sets_of_yields h with
  | other hother => simpa [hother] using explains_nil
  | plain hoperator hv hvalue hi =>
    simpa [hoperator, hv, hvalue] using explains_compileAssigned hi

/-! ### Conditions and subjects -/

theorem LeftOperand.Finds.explains {l : LeftOperand} {left : Compared} (h : l.Finds s left) :
    Explains (l.setup s) left.instrs ∧ ∀ type storage, left.value = some (type, storage) →
      type.inRegister = true → ∃ u, l.comparand s = [u] ∧ u.operand = ⟨.work, storage⟩ ∧
        u.Proper := by
  unfold LeftOperand.setup LeftOperand.comparand
  cases h with
  | function hc hcalled => exact ⟨by simpa [hc, Call.uses, hcalled] using explains_nil, nofun⟩
  | @command c d args result i _ hc hcalled hargs _ hi =>
    have hcode : Explains (c.uses .answer s) [i] :=
      explains_compileCommandCall hcalled hargs (by simp) rfl trivial hi
    refine ⟨by simpa [hc] using hcode, fun type storage hvalue _ => ⟨.answer, by simp [hc], ?_⟩⟩
    cases hvalue
    exact ⟨rfl, trivial⟩
  | nothing hc _ => exact ⟨by simpa [hc] using explains_nil, nofun⟩
  | @named v hc hv hconst =>
    refine ⟨by simpa [hc] using explains_nil, fun type storage hvalue hreg => ?_⟩
    cases hvalue
    exact ⟨.compared v, by simp [hc, hv], rfl, hconst, hreg⟩

theorem explains_flagQuestion {kind : OperandKind} (hkind : v.type.space = kind)
    (htype : v.type = .flag ∨ v.type = .sysFlag) :
    Explains [.asked v] [⟨some Opcode.flagJump, [⟨kind, v.storage⟩]⟩] := by
  refine explains_singleton ?_ (by simpa [Use.Proper] using htype)
  subst hkind
  rcases htype with htype | htype <;>
    simp [Instr.registers, Operand.isRegister, Use.operand, ValueType.space, htype]

/-- The register operands of a question. -/
theorem explains_askCondition {c : Condition} {query : Query}
    (h : Yields (askCondition c) s query t) :
    Explains (c.uses s) (query.setup ++ query.question.toList) := by
  have htested := question_of_askCondition h
  unfold Condition.uses
  rw [← htested]
  cases asks_of_askCondition h with
  | compared hf hfinds _ hv hreg _ =>
    obtain ⟨hsetup, hcomparand⟩ := hfinds.explains
    obtain ⟨u, hu, hoperand, hproper⟩ := hcomparand _ _ hv hreg
    rw [hf]
    refine hsetup.append ?_
    rw [if_pos Option.isSome_some, hu]
    exact explains_singleton (by rw [List.map_singleton, hoperand]; rfl) (by simpa using hproper)
  | uncompared hf hfinds _ =>
    rw [hf]
    exact hfinds.explains.1.append explains_nil
  | call hf => simpa [hf] using explains_nil
  | flag hf hv htype =>
    simp only [hf, hv]
    rcases htype with ⟨htype, rfl⟩ | ⟨htype, rfl⟩
    · exact explains_flagQuestion (by rw [htype]; rfl) (.inl htype)
    · exact explains_flagQuestion (by rw [htype]; rfl) (.inr htype)
  | other hf _ _ _ => simpa [hf] using explains_nil

/-- Knowing where to go adds no register operand. -/
theorem registers_aimed (query : Query) (c : Assembly) (x : LabelId) :
    (query.aimed (c.target x)).flatMap Instr.registers =
      (query.setup ++ query.question.toList).flatMap Instr.registers := by
  rw [Query.aimed, List.flatMap_append, List.flatMap_append]
  cases query.question with
  | none => rfl
  | some q => simp [Instr.registers, Instr.aimed]

/-- **The register operands of a condition.** -/
theorem explains_compileCondition {c : Condition} {destination : LabelId}
    (h : Yields (compileCondition c destination) s is t) : Explains (c.uses s) is := by
  obtain ⟨query, hquery, rfl⟩ := yields_compileCondition h
  obtain ⟨hregisters, hproper⟩ := explains_askCondition hquery
  exact ⟨registers_aimed query _ _ ▸ hregisters, hproper⟩

/-- **The register operands of the subject of a switch.** -/
theorem explains_compileSubject {subject : Option Condition}
    (h : Yields (compileSubject subject pos) s is t) :
    Explains (subject.toList.flatMap (·.subjectUses s)) is := by
  obtain ⟨c, rfl, hswitches, -⟩ := switches_of_compileSubject h
  rw [Option.toList_some, List.flatMap_singleton]
  unfold Condition.subjectUses
  cases hswitches with
  | function hf hcalled => simpa [hf, Call.uses, hcalled] using explains_nil
  | @command call d args i _ hf hcalled hargs hi =>
    have hcode : Explains (call.uses .answer s) [i] :=
      explains_compileCommandCall hcalled hargs (by simp) rfl trivial hi
    have hswitch : Explains [.answer] [switchInstr (some answerRegister)] :=
      explains_singleton rfl (by simp [Use.Proper])
    simpa [hf, hcalled] using hcode.append hswitch
  | named hf hv =>
    simp only [hf, hv]
    exact explains_singleton rfl (by simp [Use.Proper])

/-- **The register operands of a statement** are those of its uses. -/
theorem explains_of_leaves {x : Statement} (h : x.Leaves s is) : Explains (x.uses s) is := by
  cases h with
  | define hv => simpa [Statement.uses, defined?_of_yields hv] using (defines_of_yields hv).explains
  | assign ha => exact explains_compileAssignment ha
  | call hcalled hargs hi =>
    exact explains_compileCommandCall hcalled hargs (by simp) rfl trivial hi
  | functionCall hcalled => simpa [Statement.uses, Call.uses, hcalled] using explains_nil
  | branch hsame hcondition =>
    have hcode := explains_compileCondition hcondition
    rw [hsame.conditionUses] at hcode
    simpa [Statement.uses] using hcode
  | select hsubject => exact explains_compileSubject hsubject
  | inert => exact explains_nil

/-! ### Code -/

namespace Assembly

variable {c c' : Assembly} {l : Nat}

theorem registersAt_congr {x : LabelId} (h : (c'.label x).instrs = (c.label x).instrs) :
    c'.registersAt x = c.registersAt x := by
  rw [registersAt, h, registersAt]

theorem Gains.registersAt (h : c.Gains l is c') (x : LabelId) :
    c'.registersAt x = c.registersAt x ++ if l = x then is.flatMap Instr.registers else [] := by
  rw [Assembly.registersAt, h x, List.flatMap_append, Assembly.registersAt]
  split <;> rfl

end Assembly

/-- From `c` to `c'`, each label gets the register operands of the uses of the arrivals there. -/
structure Accounts (V : List Arrival) (c c' : Assembly) : Prop where
  registers : ∀ x, (c'.registersAt x).Perm (c.registersAt x ++ (usesAt V x).map Use.operand)
  proper : ∀ a ∈ V, ∀ u ∈ a.uses, u.Proper

namespace Accounts

variable {V W : List Arrival} {c c' c'' : Assembly} {l : Nat}

/-- Code without new register operands. -/
theorem of_same (h : ∀ x, c'.registersAt x = c.registersAt x) : Accounts [] c c' :=
  ⟨fun x => by simp [h x, usesAt], by simp⟩

theorem append (h : Accounts V c c') (h' : Accounts W c' c'') : Accounts (V ++ W) c c'' := by
  refine ⟨fun x => ?_, fun a ha => (List.mem_append.mp ha).elim (h.proper a) (h'.proper a)⟩
  rw [usesAt_append, List.map_append, ← List.append_assoc]
  exact (h'.registers x).trans ((h.registers x).append_right _)

/-- Instructions that the uses of a statement explain, put under its label. -/
theorem of_gains {x : Statement} (hx : Explains (x.uses s) is)
    (h : c.Gains l is c') : Accounts [⟨l, x, s⟩] c c' := by
  refine ⟨fun y => ?_, by simpa [Arrival.uses] using hx.proper⟩
  rw [h.registersAt]
  refine List.Perm.append_left _ ?_
  by_cases hy : l = y
  · simpa [usesAt, hy, Arrival.uses] using hx.registers
  · simp [usesAt, hy]

theorem of_gains_nil (his : ∀ i ∈ is, i.registers = []) (h : c.Gains l is c') :
    Accounts [] c c' := by
  have hnone : is.flatMap Instr.registers = [] := List.flatMap_eq_nil_iff.mpr his
  refine .of_same fun x => ?_
  rw [h.registersAt, hnone, ite_self, List.append_nil]

end Accounts

/-- **A body has the register operands of its arrivals.** -/
theorem bodyInvariant_accounts :
    BodyInvariant (fun V s t => Accounts V s.file.code t.file.code) fun _ _ _ => True where
  nil := .of_same fun _ => rfl
  append h h' := h.append h'
  leaf hx hl h := by
    obtain ⟨is, hleaves, hgains⟩ := gains_leaf hx hl h
    exact .of_gains (explains_of_leaves hleaves) hgains
  branch hl h := by
    obtain ⟨is, hleaves, hgains⟩ := gains_openBranch hl h
    exact .of_gains (explains_of_leaves (hleaves _ _ _)) hgains
  select hl h := by
    obtain ⟨is, hleaves, hgains⟩ := gains_openSelect hl h
    exact .of_gains (explains_of_leaves (hleaves _)) hgains
  case hl h := by
    obtain ⟨is, hgains, his⟩ := gains_openCase hl h
    refine .of_gains_nil (fun i hi => ?_) hgains
    obtain ⟨-, -, -, -, -, -, -, rfl⟩ := his i hi
    rfl
  jump hl h := by
    obtain rfl := h.jump
    refine .of_gains_nil (fun i hi => ?_) (Assembly.gains_emit (fun _ => rfl) hl)
    rw [List.mem_singleton.mp hi]
    rfl
  block hs h hu := by rwa [yields_leaveScope_code hu, ← yields_enterScope_code hs]
  here := trivial
  behind _ _ := trivial
  enter _ _ := trivial

theorem accounts_compileFunction {f : FunctionDecl} (h : Yields (compileFunction f) s () t) :
    Accounts (bodyArrivals f s) s.file.code t.file.code := by
  obtain ⟨name, parameters, result, s₁, s₂, -, -, henter, hbody, hleave⟩ :=
    bodyInvariant_accounts.compileFunction h
  have hnew : Accounts [] s.file.code s₁.file.code := .of_same fun x => by
    rw [yields_enterScope_code henter]
    exact Assembly.registersAt_congr (Assembly.instrs_newLabel _ _ x)
  rw [yields_leaveScope_code hleave]
  exact hnew.append hbody.all

/-! ### Scripts -/

theorem addsUp_accounts : AddsUp Accounts where
  same h := .of_same fun x => Assembly.registersAt_congr (h.instrs x)
  append h h' := h.append h'
  function h := accounts_compileFunction h

/-- **The register operands of a script** that is compiled to the end: under every label they are
those of the uses of the statements whose code goes there, and all these uses are proper. -/
theorem registers_of_script {fs : Files} {mode : ReadMode} {path : String}
    (hok : (compileScript fs mode path).ended = .ok ()) :
    (∀ x, ((compileScript fs mode path).state.file.code.registersAt x).Perm
      ((usesAt (scriptArrivals fs mode path) x).map Use.operand)) ∧
    ∀ a ∈ scriptArrivals fs mode path, ∀ u ∈ a.uses, u.Proper := by
  obtain ⟨hregisters, hproper⟩ := addsUp_accounts.compileScript hok
  exact ⟨fun x => (hregisters x).trans (.of_eq rfl), hproper⟩

end EvScript
