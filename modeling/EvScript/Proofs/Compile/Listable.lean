import EvScript.Proofs.Code.Listings
import EvScript.Proofs.Compile.Uses
import EvScript.Proofs.Number.Printing

/-!
# Which Scripts Can be Listed

A statement is **unlistable** if it uses a flag, since flags have no names to be listed with; if it
passes or compares with a literal that is too large for 64 bits, since that is stored as infinity;
or if it calls a command with an unknown number. The listing of a script that is compiled to the end
fails exactly if there is an unlistable statement under a label that is listed.

## Main results

* `listed_iff_no_flag` — which scripts have a listing.
-/

namespace EvScript

open CompileM Registry Number

variable {n storage : Option Int} {os ps : List Operand} {o : Operand} {args : List Arg}
  {d : Command} {wanted : Option ValueType} {i : Instr} {e : Fault}

/-! ### Literals and commands in a script -/

/-- The literal in the place of a number. -/
def Numeral.literal? (n : Numeral) : Option Literal := n.literal.bind Literal.ofText?

/-- The literal that an argument is. -/
def Arg.literals (a : Arg) : List Literal :=
  match a.value with
  | .number n => n.literal?.toList
  | _ => []

/-- The literals among the arguments of a call. -/
def Call.literals (c : Call) : List Literal := (c.args.getD []).flatMap Arg.literals

/-- The call that is given to a variable. -/
def Assigned.call? (a : Assigned) : Option Call :=
  match a.value with
  | .call c => some c
  | _ => none

/-- The call that a condition begins with. -/
def Condition.leftCall? (c : Condition) : Option Call :=
  match c.form with
  | .comparison left _ _ => left.call
  | _ => none

/-- The call that is switched on. -/
def Condition.subjectCall? (c : Condition) : Option Call :=
  match c.form with
  | .call call => some call
  | _ => none

/-- The literal that a condition compares with, if it is tested. -/
def Condition.literals (c : Condition) (s : CompileState) : List Literal :=
  match c.form with
  | .comparison _ _ right =>
    if c.tested s then ((right.bind (·.number)).bind (·.literal?)).toList else []
  | _ => []

/-- The call that a statement makes, without those of the statements in it. -/
def Statement.call? : Statement → Option Call
  | .define d => if d.isConst then none else d.value.bind (·.call?)
  | .assign a => if a.operator = some "=" then a.value.bind (·.call?) else none
  | .call c => some c
  | .branch c _ _ _ => c.bind (·.leftCall?)
  | .select subject _ _ => subject.bind (·.subjectCall?)
  | .inert _ => none

/-- The command that a statement calls. -/
def Statement.command? (x : Statement) (s : CompileState) : Option Command :=
  x.call?.bind s.called?

/-- The literals of a call that calls a command. -/
def Call.passed (c : Option Call) (s : CompileState) : List Literal :=
  c.toList.flatMap fun c => (s.called? c).toList.flatMap fun _ => c.literals

@[simp] theorem Call.passed_none (s : CompileState) : Call.passed none s = [] := rfl

/-- The literals that a statement passes to a command or compares with. -/
def Statement.literals (x : Statement) (s : CompileState) : List Literal :=
  Call.passed x.call? s ++
    match x with
    | .branch c _ _ _ => c.toList.flatMap (·.literals s)
    | _ => []

/-- The literal is too large for 64 bits. -/
def Number.Literal.TooLarge (l : Literal) : Prop :=
  (2 ^ 1024 - 2 ^ 970) * 10 ^ l.places ≤ l.digits

/-- Why the code of a statement cannot be listed. -/
inductive Statement.Unlistable (x : Statement) (s : CompileState) : Fault → Prop where
  | flag {u : Use} : u ∈ x.uses s → u.operand.kind = .flag → x.Unlistable s .flagOperand
  | infinite {l : Literal} : l ∈ x.literals s → l.TooLarge →
      x.Unlistable s (.unprintable .infinite)
  | command {d : Command} {n : Int} : x.command? s = some d → d.number = some n →
      Registry.command.name? n = none →
      x.Unlistable s (.notMember Registry.command.title (some n))

/-! ### Operands -/

/-- The operand is a register, a flag, a string, or a value that can be printed. -/
def Operand.Settled (o : Operand) : Prop :=
  match o.kind with
  | .value => ∃ word text, o.data = some word ∧ printWord word = .ok text
  | .command | .macroString => False
  | _ => True

/-- The operand is the word of a literal that was read as a fraction. -/
def Operand.Holds (l : Literal) (o : Operand) : Prop :=
  ∃ word, o = ⟨.value, some word⟩ ∧ (Quantity.real l.toDouble).encode = .ok word

theorem Operand.settled_of_encode_int {n word : Int} (h : (Quantity.int n).encode = .ok word) :
    Operand.Settled ⟨.value, some word⟩ := by
  obtain ⟨text, htext⟩ := printWord_of_encode_int h
  exact ⟨word, text, rfl, htext⟩

theorem toReal_eq_ok_iff {n : Numeral} {x : Binary .double} :
    n.toReal = .ok x ↔ ∃ l, n.literal? = some l ∧ x = l.toDouble := by
  unfold Numeral.toReal Numeral.word Numeral.literal?
  cases n.literal with
  | none => exact ⟨fun h => (nomatch h), fun ⟨_, h, _⟩ => (nomatch h)⟩
  | some text =>
    show realOfText text = .ok x ↔ ∃ l, Literal.ofText? text = some l ∧ x = l.toDouble
    unfold realOfText
    cases Literal.ofText? text with
    | none => exact ⟨fun h => (nomatch h), fun ⟨_, h, _⟩ => (nomatch h)⟩
    | some l =>
      constructor
      · intro h
        exact ⟨l, rfl, (Except.ok.inj h).symm⟩
      · rintro ⟨_, hl, rfl⟩
        cases hl
        rfl

variable {s t : CompileState} {pos : Pos} {ls : List Literal} {is js : List Instr}

/-- Operands are settled, but for words of the literals, and each literal has its operand. -/
structure Bears (ls : List Literal) (os : List Operand) : Prop where
  operand : ∀ o ∈ os, o.Settled ∨ ∃ l ∈ ls, o.Holds l
  literal : ∀ l ∈ ls, ∃ o ∈ os, o.Holds l

theorem bears_nil_of_settled (h : ∀ o ∈ os, o.Settled) : Bears [] os :=
  ⟨fun o ho => .inl (h o ho), nofun⟩

theorem Bears.append {ms : List Literal} (h : Bears ls os)
    (h' : Bears ms ps) : Bears (ls ++ ms) (os ++ ps) := by
  refine ⟨fun o ho => ?_, fun l hl => ?_⟩
  · rcases List.mem_append.mp ho with ho | ho
    · exact (h.operand o ho).imp_right fun ⟨l, hl, hold⟩ => ⟨l, List.mem_append_left _ hl, hold⟩
    · exact (h'.operand o ho).imp_right fun ⟨l, hl, hold⟩ => ⟨l, List.mem_append_right _ hl, hold⟩
  · rcases List.mem_append.mp hl with hl | hl
    · obtain ⟨o, ho, hold⟩ := h.literal l hl
      exact ⟨o, List.mem_append_left _ ho, hold⟩
    · obtain ⟨o, ho, hold⟩ := h'.literal l hl
      exact ⟨o, List.mem_append_right _ ho, hold⟩

theorem Bears.of_mem_iff (h : Bears ls os) (hmem : ∀ o, o ∈ ps ↔ o ∈ os) : Bears ls ps := by
  refine ⟨fun o ho => h.operand o ((hmem o).mp ho), fun l hl => ?_⟩
  obtain ⟨o, ho, hold⟩ := h.literal l hl
  exact ⟨o, (hmem o).mpr ho, hold⟩

theorem settled_of_ofArgument {x : Argument} (hx : ∀ y, x ≠ .number (.real y))
    (h : Yields (Operand.ofArgument pos x) s o t) : o.Settled := by
  cases (yields_ofArgument h).1 with
  | @number q word hword =>
    cases q with
    | int n => exact Operand.settled_of_encode_int (encode_eq_ok_iff.mp hword)
    | real y => exact absurd rfl (hx y)
  | _ => trivial

theorem ofConstant_ne_real (type : ValueType) (n : Int) (x : Binary .double) :
    Argument.ofConstant type (.int n) ≠ .number (.real x) := by
  cases type <;> simp [Argument.ofConstant]

theorem bears_argument {a : Arg}
    (h : Yields (do Operand.ofArgument pos (← evaluate a)) s o t) : Bears a.literals [o] := by
  obtain ⟨x, t', hx, ho⟩ := h.bind
  have hsettled : (∀ y, x ≠ .number (.real y)) → Bears [] [o] := fun hne =>
    bears_nil_of_settled fun p hp => by
      rw [List.mem_singleton.mp hp]
      exact settled_of_ofArgument hne ho
  unfold Arg.literals
  cases comesTo_of_evaluate hx with
  | constant hvalue =>
    rw [hvalue]
    exact hsettled fun y => ofConstant_ne_real _ _ y
  | stored hvalue | text hvalue =>
    rw [hvalue]
    exact hsettled (by simp)
  | number hvalue hy =>
    obtain ⟨l, hl, rfl⟩ := toReal_eq_ok_iff.mp hy
    obtain ⟨@⟨_, word, hword⟩, -⟩ := yields_ofArgument ho
    have hold : Operand.Holds l ⟨.value, some word⟩ := ⟨word, rfl, encode_eq_ok_iff.mp hword⟩
    rw [hvalue]
    dsimp only
    rw [hl, Option.toList_some]
    exact ⟨fun p hp => .inr ⟨l, List.mem_cons_self, List.mem_singleton.mp hp ▸ hold⟩,
      fun m hm => ⟨_, List.mem_cons_self, List.mem_singleton.mp hm ▸ hold⟩⟩

theorem bears_operandsOf {operands : List Operand} (h : Yields (operandsOf pos args) s operands t) :
    Bears (args.flatMap Arg.literals) operands := by
  induction args generalizing s operands with
  | nil =>
    obtain ⟨rfl, -⟩ := h.pure
    exact bears_nil_of_settled nofun
  | cons a args ih =>
    rw [operandsOf, List.mapM_cons] at h
    obtain ⟨o, u, ho, h⟩ := h.bind
    obtain ⟨os, hos, rfl⟩ := h.bind_pure
    exact (bears_argument ho).append (ih hos)

/-! ### Instructions -/

/-- The operands of the instructions carry the literals, and their commands have names, but for the
command that is called. -/
structure Embeds (ls : List Literal) (d : Option Command) (is : List Instr) : Prop where
  bears : Bears ls (is.flatMap (·.operands))
  named : ∀ i ∈ is, (∃ name, commandName i.command = .ok name) ∨ ∃ c ∈ d, i.command = c.number
  called : ∀ c ∈ d, ∃ i ∈ is, i.command = c.number

theorem embeds_nil : Embeds [] none [] :=
  ⟨bears_nil_of_settled nofun, nofun, nofun⟩

theorem isSome_name?_opcode : ∀ n ∈ [Opcode.jump, Opcode.compareJump, Opcode.switch,
    Opcode.caseJump, Opcode.flagSet, Opcode.flagReset, Opcode.flagJump, Opcode.loadValue,
    Opcode.sysFlagSet, Opcode.sysFlagReset], (Registry.command.name? n).isSome = true := by
  decide +kernel

theorem exists_commandName {n : Int} (h : (Registry.command.name? n).isSome = true) :
    ∃ name, commandName (some n) = .ok name := by
  obtain ⟨name, hname⟩ := Option.isSome_iff_exists.mp h
  exact ⟨name, by simp only [commandName, hname]⟩

theorem embeds_of_settled (hos : ∀ i ∈ is, ∀ o ∈ i.operands, o.Settled)
    (hcommand : ∀ i ∈ is, ∃ name, commandName i.command = .ok name) : Embeds [] none is := by
  refine ⟨bears_nil_of_settled fun o ho => ?_, fun i hi => .inl (hcommand i hi), nofun⟩
  obtain ⟨i, hi, ho⟩ := List.mem_flatMap.mp ho
  exact hos i hi o ho

theorem Embeds.append {d : Option Command} {ms : List Literal} (h : Embeds ls d is)
    (h' : Embeds ms none js) : Embeds (ls ++ ms) d (is ++ js) where
  bears := by
    rw [List.flatMap_append]
    exact h.bears.append h'.bears
  named i hi := by
    rcases List.mem_append.mp hi with hi | hi
    · exact h.named i hi
    · exact (h'.named i hi).imp_right nofun
  called c hc := by
    obtain ⟨i, hi, hcommand⟩ := h.called c hc
    exact ⟨i, List.mem_append_left _ hi, hcommand⟩

/-- **A call bears the literals among its arguments.** -/
theorem embeds_compileCommandCall {c : Call} (hargs : c.args = some args)
    (h : Yields (compileCommandCall pos d args wanted storage) s i t) :
    Embeds c.literals (some d) [i] := by
  obtain ⟨-, h⟩ := yields_compileCommandCall.mp h
  obtain ⟨operands, u, hops, hplace⟩ := h.bind
  have hbears := bears_operandsOf hops
  rw [show args.flatMap Arg.literals = c.literals by rw [Call.literals, hargs]; rfl] at hbears
  have hembeds : ∀ os, Bears c.literals os → Embeds c.literals (some d) [⟨d.number, os⟩] :=
    fun os hos => ⟨by simpa using hos, by simp, by simp⟩
  unfold placeResult at hplace
  split at hplace
  · obtain ⟨index, -, rfl⟩ := hplace.bind_pure
    -- the place of the result does not matter
    have hregister : Bears [] [⟨.work, some (storage.getD answerRegister)⟩] :=
      bears_nil_of_settled fun o ho => by
        rw [List.mem_singleton.mp ho]
        trivial
    refine hembeds _ ((hregister.append hbears).of_mem_iff fun o => ?_)
    rw [insertOperand, List.mem_append, List.mem_cons, List.mem_append, List.mem_singleton,
      or_left_comm, ← List.mem_append, List.take_append_drop]
  · obtain ⟨rfl, -⟩ := hplace.pure
    exact hembeds _ hbears

theorem embeds_call {c : Call} (hcalled : s.called? c = some d) (hargs : c.args = some args)
    (h : Yields (compileCommandCall pos d args wanted storage) s i t) :
    Embeds (Call.passed (some c) s) (s.called? c) [i] := by
  rw [hcalled, Call.passed, Option.toList_some, List.flatMap_singleton, hcalled,
    Option.toList_some, List.flatMap_singleton]
  exact embeds_compileCommandCall hargs h

theorem embeds_compileAssigned {a : Assigned} {type : ValueType}
    (h : Yields (compileAssigned a type storage) s i t) :
    Embeds (Call.passed a.call? s) (a.call?.bind s.called?) [i] := by
  unfold Assigned.call?
  cases gives_of_compileAssigned h with
  | number hvalue _ hword =>
    rw [hvalue]
    obtain ⟨m, -, hm⟩ := bind_eq_ok_iff.mp hword
    have hsettled := Operand.settled_of_encode_int (encode_eq_ok_iff.mp hm)
    refine embeds_of_settled ?_ ?_
    · simpa using ⟨trivial, hsettled⟩
    · simpa using exists_commandName (isSome_name?_opcode _ (by simp))
  | @flag b hvalue | @sysFlag b hvalue =>
    rw [hvalue]
    refine embeds_of_settled (by simp [flagInstr, Operand.Settled]) ?_
    simpa [flagInstr] using exists_commandName (isSome_name?_opcode _ (by cases b <;> simp))
  | call hvalue hcalled hargs hi =>
    rw [hvalue]
    exact embeds_call hcalled hargs hi

theorem SameScopes.passed (h : SameScopes s t) (c : Option Call) :
    Call.passed c t = Call.passed c s := by
  simp only [Call.passed, h.called?]

theorem Defines.embeds {level : Level} {d : Definition} {v : Variable}
    (h : Defines level d s v is t) :
    Embeds (Call.passed (Statement.define d).call? s) ((Statement.define d).command? s) is := by
  unfold Statement.command? Statement.call?
  cases h with
  | constant hconst hvalue hc => simpa [hconst] using embeds_nil
  | bare hconst hvalue hstorage => simpa [hconst, hvalue] using embeds_nil
  | valued hconst hvalue hstorage hi =>
    have hsame := (keeps_storageFor _ _ _ _).sameScopes hstorage
    have hassigned := embeds_compileAssigned hi
    rw [hsame.passed, funext hsame.called?] at hassigned
    simpa [hconst, hvalue] using hassigned

theorem embeds_compileAssignment {a : Assignment} (h : Yields (compileAssignment a) s is t) :
    Embeds (Call.passed (Statement.assign a).call? s) ((Statement.assign a).command? s) is := by
  unfold Statement.command? Statement.call?
  cases sets_of_yields h with
  | other hother => simpa [hother] using embeds_nil
  | plain hoperator _ hvalue hi => simpa [hoperator, hvalue] using embeds_compileAssigned hi

/-! ### Conditions and subjects -/

theorem LeftOperand.Finds.embeds {l : LeftOperand} {left : Compared} (h : l.Finds s left) :
    Embeds (Call.passed l.call s) (l.call.bind s.called?) left.instrs := by
  cases h with
  | function hc hcalled => simpa [hc, Call.passed, hcalled] using embeds_nil
  | command hc hcalled hargs _ hi => simpa [hc] using embeds_call hcalled hargs hi
  | nothing hc _ => simpa [hc] using embeds_nil
  | named hc _ _ => simpa [hc] using embeds_nil

theorem embeds_flagQuestion (kind : OperandKind) (hkind : kind = .flag ∨ kind = .sysFlag)
    (storage : Option Int) (there : Nat) :
    Embeds [] none ((flagQuestion kind storage).aimed (.ofString there)) := by
  refine embeds_of_settled ?_ ?_
  · rcases hkind with rfl | rfl <;>
      simp [flagQuestion, Query.aimed, Instr.aimed, Operand.Settled, Operand.ofString]
  · simpa [flagQuestion, Query.aimed, Instr.aimed] using
      exists_commandName (isSome_name?_opcode _ (by simp))

/-- **The code of a condition** has the literals of its call, and the one it compares with. -/
theorem embeds_compileCondition {c : Condition} {destination : LabelId}
    (h : Yields (compileCondition c destination) s is t) :
    Embeds (Call.passed c.leftCall? s ++ c.literals s) (c.leftCall?.bind s.called?) is := by
  obtain ⟨query, hquery, rfl⟩ := yields_compileCondition h
  have htested := question_of_askCondition hquery
  unfold Condition.leftCall? Condition.literals
  rw [← htested]
  cases asks_of_askCondition hquery with
  | @compared _ _ right _ n _ _ _ word hf hfinds hn _ _ hword =>
    obtain ⟨x, hx, hencode⟩ := bind_eq_ok_iff.mp hword
    obtain ⟨l, hl, rfl⟩ := toReal_eq_ok_iff.mp hx
    have hold : (⟨.value, some word⟩ : Operand).Holds l :=
      ⟨word, rfl, encode_eq_ok_iff.mp hencode⟩
    simp only [hf, hn, Option.bind_some, hl, Option.isSome_some, if_true, Option.toList_some]
    refine hfinds.embeds.append ⟨⟨fun p hp => ?_, fun m hm => ?_⟩, ?_, nofun⟩
    · simp only [Option.map_some, Option.toList_some, List.flatMap_singleton, Instr.aimed,
        List.cons_append, List.nil_append, List.mem_cons, List.not_mem_nil, or_false] at hp
      rcases hp with rfl | rfl | rfl | rfl
      · exact .inl trivial
      · exact .inl trivial
      · exact .inr ⟨l, List.mem_cons_self, hold⟩
      · exact .inl trivial
    · rw [List.mem_singleton.mp hm]
      exact ⟨_, by simp [Instr.aimed], hold⟩
    · simpa [Instr.aimed] using exists_commandName (isSome_name?_opcode _ (by simp))
  | uncompared hf hfinds _ =>
    simp only [hf]
    exact hfinds.embeds.append embeds_nil
  | call hf => simpa [hf, Query.aimed] using embeds_nil
  | flag hf _ htype =>
    simp only [hf]
    exact embeds_flagQuestion _ (htype.imp And.right And.right) _ _
  | other hf _ _ _ => simpa [hf, Query.aimed] using embeds_nil

theorem embeds_switchInstr (storage : Option Int) : Embeds [] none [switchInstr storage] := by
  refine embeds_of_settled (by simp [switchInstr, Operand.Settled]) ?_
  simpa [switchInstr] using exists_commandName (isSome_name?_opcode _ (by simp))

theorem embeds_compileSubject {subject : Option Condition}
    (h : Yields (compileSubject subject pos) s is t) :
    Embeds (Call.passed (subject.bind (·.subjectCall?)) s)
      ((subject.bind (·.subjectCall?)).bind s.called?) is := by
  obtain ⟨c, rfl, hswitches, -⟩ := switches_of_compileSubject h
  rw [Option.bind_some]
  unfold Condition.subjectCall?
  cases hswitches with
  | function hf hcalled => simpa [hf, Call.passed, hcalled] using embeds_nil
  | command hf hcalled hargs hi =>
    have hcode := (embeds_call hcalled hargs hi).append (embeds_switchInstr (some answerRegister))
    simpa [hf] using hcode
  | named hf _ => simpa [hf] using embeds_switchInstr _

/-! ### Statements -/

/-- **What a statement leaves** bears its literals and calls its command. -/
theorem embeds_of_leaves {x : Statement} (h : x.Leaves s is) :
    Embeds (x.literals s) (x.command? s) is := by
  cases h with
  | define hv => simpa [Statement.literals] using (defines_of_yields hv).embeds
  | assign ha => simpa [Statement.literals] using embeds_compileAssignment ha
  | call hcalled hargs hi =>
    simpa [Statement.literals, Statement.command?, Statement.call?] using
      embeds_call hcalled hargs hi
  | functionCall hcalled =>
    simpa [Statement.literals, Statement.command?, Statement.call?, Call.passed, hcalled] using
      embeds_nil
  | @branch c _ _ _ _ u _ _ _ hsame hcondition =>
    have hcode := embeds_compileCondition hcondition
    have hliterals : c.literals u = c.literals s := by
      simp only [Condition.literals, hsame.tested]
    rw [hsame.passed, hliterals, funext hsame.called?] at hcode
    simpa [Statement.literals, Statement.command?, Statement.call?] using hcode
  | select hsubject =>
    simpa [Statement.literals, Statement.command?, Statement.call?] using
      embeds_compileSubject hsubject
  | inert => simpa [Statement.literals, Statement.command?, Statement.call?] using embeds_nil

theorem commandName_eq_error_iff : commandName n = .error e ↔
    ∃ k, n = some k ∧ Registry.command.name? k = none ∧
      e = .notMember Registry.command.title (some k) := by
  cases n with
  | none => exact ⟨fun h => (nomatch h), fun ⟨_, h, _⟩ => (nomatch h)⟩
  | some k =>
    simp only [commandName]
    split
    · rename_i hname
      simp [hname]
    · rename_i hname
      simp [hname, eq_comm]

theorem Operand.Settled.refuses_iff (h : o.Settled) :
    o.Refuses e ↔ o.kind = .flag ∧ e = .flagOperand := by
  constructor
  · rintro (hkind | ⟨hkind, hdata, hword⟩ | ⟨hkind, hdata⟩)
    · exact ⟨hkind, rfl⟩
    · simp only [Operand.Settled, hkind] at h
      obtain ⟨word, text, hd, htext⟩ := h
      rw [hdata] at hd
      rw [Option.some.inj hd, htext] at hword
      cases hword
    · simp only [Operand.Settled, hkind] at h
      obtain ⟨word, -, hd, -⟩ := h
      rw [hdata] at hd
      cases hd
  · rintro ⟨hkind, rfl⟩
    exact .flag hkind

theorem Operand.Holds.refuses_iff {l : Literal} (h : o.Holds l) :
    o.Refuses e ↔ l.TooLarge ∧ e = .unprintable .infinite := by
  obtain ⟨word, rfl, hword⟩ := h
  have hprint := printWord_of_encode_real hword
  rw [Literal.TooLarge, ← Literal.isInfinite_toDouble_iff]
  constructor
  · rintro (hkind | ⟨-, hdata, herror⟩ | ⟨-, hdata⟩)
    · cases hkind
    · cases hdata
      refine ⟨?_, by rw [printError_of_encode hword herror]⟩
      by_contra hfinite
      obtain ⟨text, htext⟩ := hprint.mpr (by simpa using hfinite)
      rw [htext] at herror
      cases herror
    · cases hdata
  · rintro ⟨hlarge, rfl⟩
    cases herror : printWord word with
    | ok text => simp [hlarge] at hprint; exact absurd herror (hprint text)
    | error cause =>
      obtain rfl := printError_of_encode hword herror
      exact .value rfl rfl herror

theorem Explains.flag_iff {us : List Use} (h : Explains us is) :
    (∃ i ∈ is, ∃ o ∈ i.operands, o.kind = .flag) ↔ ∃ u ∈ us, u.operand.kind = .flag := by
  constructor
  · rintro ⟨i, hi, o, ho, hkind⟩
    have hmem : o ∈ is.flatMap Instr.registers :=
      List.mem_flatMap.mpr ⟨i, hi, List.mem_filter.mpr ⟨ho, by simp [Operand.isRegister, hkind]⟩⟩
    obtain ⟨u, hu, rfl⟩ := List.mem_map.mp (h.registers.mem_iff.mp hmem)
    exact ⟨u, hu, hkind⟩
  · rintro ⟨u, hu, hkind⟩
    have hmem := h.registers.mem_iff.mpr (List.mem_map_of_mem hu)
    obtain ⟨i, hi, ho⟩ := List.mem_flatMap.mp hmem
    exact ⟨i, hi, u.operand, List.mem_of_mem_filter ho, hkind⟩

/-- **What a statement leaves refuses to be listed** exactly if the statement is unlistable. -/
theorem refuses_iff_of_leaves {x : Statement} (h : x.Leaves s is) :
    (∃ i ∈ is, i.Refuses e) ↔ x.Unlistable s e := by
  have hflag := (explains_of_leaves h).flag_iff
  obtain ⟨hbears, hnamed, hcalled⟩ := embeds_of_leaves h
  constructor
  · rintro ⟨i, hi, (@⟨o, _, ho, hrefuses⟩ | hcommand)⟩
    · rcases hbears.operand o (List.mem_flatMap.mpr ⟨i, hi, ho⟩) with hsettled | ⟨l, hl, hold⟩
      · obtain ⟨hkind, rfl⟩ := hsettled.refuses_iff.mp hrefuses
        obtain ⟨u, hu, hkind⟩ := hflag.mp ⟨i, hi, o, ho, hkind⟩
        exact .flag hu hkind
      · obtain ⟨hlarge, rfl⟩ := hold.refuses_iff.mp hrefuses
        exact .infinite hl hlarge
    · rcases hnamed i hi with ⟨name, hname⟩ | ⟨d, hd, heq⟩
      · rw [hcommand] at hname
        cases hname
      · rw [heq] at hcommand
        obtain ⟨n, hn, hname, rfl⟩ := commandName_eq_error_iff.mp hcommand
        exact .command hd hn hname
  · rintro (⟨hu, hkind⟩ | ⟨hl, hlarge⟩ | ⟨hd, hn, hname⟩)
    · obtain ⟨i, hi, o, ho, hkind⟩ := hflag.mpr ⟨_, hu, hkind⟩
      exact ⟨i, hi, .operand ho (.flag hkind)⟩
    · obtain ⟨o, ho, hold⟩ := hbears.literal _ hl
      obtain ⟨i, hi, ho⟩ := List.mem_flatMap.mp ho
      exact ⟨i, hi, .operand ho (hold.refuses_iff.mpr ⟨hlarge, rfl⟩)⟩
    · obtain ⟨i, hi, heq⟩ := hcalled _ hd
      exact ⟨i, hi, .command (commandName_eq_error_iff.mpr ⟨_, heq.trans hn, hname, rfl⟩)⟩

/-! ### Jumps and cases -/

/-- An instruction of the compiler with settled operands and no flags is listed. -/
theorem not_refuses_of_settled (hos : ∀ o ∈ i.operands, o.Settled)
    (hflag : ∀ o ∈ i.operands, o.kind ≠ .flag)
    (hcommand : ∃ name, commandName i.command = .ok name) : ¬ i.Refuses e := by
  rintro (⟨ho, hrefuses⟩ | herror)
  · exact hflag _ ho ((hos _ ho).refuses_iff.mp hrefuses).1
  · obtain ⟨name, hname⟩ := hcommand
    rw [herror] at hname
    cases hname

variable {known : Option Int → Prop}

theorem settled_of_caseWord {name : Option String} {word : Int}
    (hs : s.graph.Sound known) (h : Yields (caseWord n name) s (some word) t) :
    Operand.Settled ⟨.value, some word⟩ := by
  unfold caseWord at h
  cases n with
  | some n =>
    obtain ⟨w, hw, heq⟩ := h.bind_pure
    cases heq
    exact Operand.settled_of_encode_int (encode_eq_ok_iff.mp hw.lift.1)
  | none =>
    obtain ⟨found, _, hfound, h⟩ := h.bind
    obtain ⟨v, _, hneed, h⟩ := h.bind
    obtain ⟨rfl, rfl⟩ := hneed.need
    obtain ⟨⟨_, -, hresolve⟩, -⟩ := hfound.resolve
    obtain ⟨hword, -⟩ := h.pure
    split at hword
    · rename_i htype
      have hv := hs.variable (Cursor.onShelf_of_resolve hresolve)
      obtain ⟨m, hm⟩ := hv.word htype word hword
      exact Operand.settled_of_encode_int hm
    · cases hword

/-- **Unlistable statements tell which instructions refuse.** -/
theorem tells_refuses (known : Option Int → Prop) (e : Fault) :
    Tells known (·.Refuses e) fun x s => x.Unlistable s e where
  leaves _ h := refuses_iff_of_leaves h
  jump there := not_refuses_of_settled (by simp [Instr.jumpTo, Operand.ofString, Operand.Settled])
    (by simp [Instr.jumpTo, Operand.ofString])
    (exists_commandName (isSome_name?_opcode _ (by simp)))
  case there hs h := not_refuses_of_settled
    (by simpa [caseInstr, Operand.ofString] using ⟨settled_of_caseWord hs h, trivial⟩)
    (by simp [caseInstr, Operand.ofString]) (exists_commandName (isSome_name?_opcode _ (by simp)))

/-! ### Scripts -/

section Scripts

variable {fs : Files} {mode : ReadMode} {path : String} {code : Assembly}

theorem consistent_of_script (hcode : code = (compileScript fs mode path).state.file.code) :
    code.Consistent := by
  obtain ⟨t, hlaw, hreplay, -⟩ := exists_record fs mode path
  rw [hcode, hreplay]
  exact Assembly.consistent_empty.replay hlaw

/-- **A script can be listed** if no statement under a label of its listing is unlistable. -/
theorem print_iff_of_script (hok : (compileScript fs mode path).ended = .ok ())
    (hcode : code = (compileScript fs mode path).state.file.code) :
    (∃ text, code.print = .ok text) ↔ ∀ a ∈ scriptArrivals fs mode path, code.Lists a.label →
      ∀ e, ¬ a.statement.Unlistable a.state e := by
  rw [(consistent_of_script hcode).print_iff]
  constructor
  · rintro hall a ha hlists e hunlistable
    obtain ⟨i, hi, hrefuses⟩ :=
      (marks_of_script (tells_refuses _ e) hok a.label).mpr ⟨a, ha, rfl, hunlistable⟩
    exact hall a.label hlists i (hcode ▸ hi) e hrefuses
  · rintro hall x hlists i hi e hrefuses
    obtain ⟨a, ha, rfl, hunlistable⟩ :=
      (marks_of_script (tells_refuses _ e) hok x).mp ⟨i, hcode ▸ hi, hrefuses⟩
    exact hall a ha hlists e hunlistable

/-- **A listing fails for an unlistable statement** under a label of the listing. -/
theorem unlistable_of_print (hok : (compileScript fs mode path).ended = .ok ())
    (hcode : code = (compileScript fs mode path).state.file.code)
    (he : code.print = .error e) : ∃ a ∈ scriptArrivals fs mode path, code.Lists a.label ∧
      a.statement.Unlistable a.state e := by
  obtain ⟨x, hlists, i, hi, hrefuses⟩ := (consistent_of_script hcode).refuses_of_print he
  obtain ⟨a, ha, rfl, hunlistable⟩ :=
    (marks_of_script (tells_refuses _ e) hok x).mp ⟨i, hcode ▸ hi, hrefuses⟩
  exact ⟨a, ha, hlists, hunlistable⟩

theorem declares_of_command? (hok : (compileScript fs mode path).ended = .ok ()) {a : Arrival}
    (ha : a ∈ scriptArrivals fs mode path)
    (hd : a.statement.command? a.state = some d) : fs.Declares mode d.number := by
  obtain ⟨c, -, hcalled⟩ := Option.bind_eq_some_iff.mp hd
  obtain ⟨⟨name, -, hresolve⟩, -⟩ := called?_eq_some_iff.mp hcalled
  exact (sound_of_mem_scriptArrivals hok ha).command (Cursor.onShelf_of_resolve hresolve)

/-- **Which scripts have a listing.** Take a script that is compiled to the end, and let all
commands that its files declare have numbers of known commands. The script can be listed exactly if
no statement under a label of the listing uses a flag, passes a literal that is too large for 64
bits to a command or compares with one; and if it cannot, then because of a flag or an infinite
value. -/
theorem listed_iff_no_flag (fs : Files) (mode : ReadMode) (path : String) (code : Assembly)
    (hok : (compileScript fs mode path).ended = .ok ())
    (hcode : code = (compileScript fs mode path).state.file.code)
    (hnumbers : ∀ n, fs.Declares mode (some n) → (Registry.command.name? n).isSome = true) :
    ((∃ text, code.print = .ok text) ↔
      ∀ a ∈ scriptArrivals fs mode path, code.Lists a.label →
        (∀ u ∈ a.uses, u.operand.kind ≠ .flag) ∧
          ∀ l ∈ a.statement.literals a.state, ¬ l.TooLarge) ∧
    ∀ e, code.print = .error e → e = .flagOperand ∨ e = .unprintable .infinite := by
  have hnamed : ∀ a ∈ scriptArrivals fs mode path, ∀ d, a.statement.command? a.state = some d →
      ∀ n, d.number = some n → Registry.command.name? n ≠ none := by
    intro a ha d hd n hn hname
    have hdeclared := declares_of_command? hok ha hd
    rw [hn] at hdeclared
    simpa [hname] using hnumbers n hdeclared
  refine ⟨?_, fun e he => ?_⟩
  · rw [print_iff_of_script hok hcode]
    refine forall₂_congr fun a ha => forall_congr' fun _ => ?_
    constructor
    · intro hno
      exact ⟨fun u hu hkind => hno _ (.flag hu hkind),
        fun l hl hlarge => hno _ (.infinite hl hlarge)⟩
    · rintro ⟨hflag, hliteral⟩ e (⟨hu, hkind⟩ | ⟨hl, hlarge⟩ | ⟨hd, hn, hname⟩)
      · exact hflag _ hu hkind
      · exact hliteral _ hl hlarge
      · exact hnamed a ha _ hd _ hn hname
  · obtain ⟨a, ha, -, hunlistable⟩ := unlistable_of_print hok hcode he
    rcases hunlistable with ⟨-, -⟩ | ⟨-, -⟩ | ⟨hd, hn, hname⟩
    · exact .inl rfl
    · exact .inr rfl
    · exact absurd hname (hnamed a ha _ hd _ hn)

end Scripts

/-- A script that sets a flag. -/
def flagFiles : Files :=
  ⟨[("flag.evc", "flag v:9;function f()\x7bv=true;\x7d".toUTF8)]⟩

set_option maxRecDepth 100000 in
/-- The script is compiled, declares no commands, and cannot be listed. -/
theorem flag_is_not_listed : ∃ state,
    compileScript flagFiles .strict "flag.evc" = ⟨.ok (), state⟩ ∧ state.log = [] ∧
      state.file.code.print = .error .flagOperand ∧
      ¬ ∀ a ∈ scriptArrivals flagFiles .strict "flag.evc", state.file.code.Lists a.label →
        (∀ u ∈ a.uses, u.operand.kind ≠ .flag) ∧
          ∀ l ∈ a.statement.literals a.state, ¬ l.TooLarge := by
  have hcheck : (compileScript flagFiles .strict "flag.evc").endsWith (fun state =>
      state.log = [] && (flagFiles.commands .strict).isEmpty &&
      match state.file.code.print with
      | .error .flagOperand => true
      | _ => false) = true := by
    decide +kernel
  obtain ⟨state, hscript, hstate⟩ := Outcome.eq_of_endsWith hcheck
  simp only [Bool.and_eq_true, decide_eq_true_eq, List.isEmpty_iff] at hstate
  obtain ⟨⟨hlog, hcommands⟩, hprint⟩ := hstate
  have herror : state.file.code.print = .error .flagOperand := by
    split at hprint
    · assumption
    · cases hprint
  refine ⟨state, hscript, hlog, herror, fun hall => ?_⟩
  obtain ⟨text, htext⟩ := (listed_iff_no_flag flagFiles .strict "flag.evc" state.file.code
    (congrArg Outcome.ended hscript) (congrArg (·.state.file.code) hscript).symm
    (fun n ⟨d, hd, _⟩ => by simp [hcommands] at hd)).1.mpr hall
  rw [herror] at htext
  cases htext

end EvScript
