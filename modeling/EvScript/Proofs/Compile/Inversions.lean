import EvScript.Proofs.Compile.TableOnly

/-!
# What Single Steps Come to

A step that goes on has gone one of a few ways. For the value of an argument, the code that gives a
variable its value, definitions, assignments, the left side of a comparison and the subject of a
switch, these ways are listed here, each with what the names in it mean; whatever is to be shown of
such a step is shown for each of them.

## Main results

* `comesTo_of_evaluate`, `gives_of_compileAssigned`, `defines_of_yields`, `sets_of_yields`,
  `finds_of_compileLeft`, `switches_of_compileSubject` — the ways that a step can have gone.
-/

namespace EvScript

open CompileM Registry

variable {name : Option String} {s t : CompileState} {storage : Option Int} {i : Instr}

/-! ### What names mean -/

namespace CompileM

variable {α : Type} {m : CompileM α} {a : α}

/-- The result of a step, if it goes on. -/
def result? (m : CompileM α) (s : CompileState) : Option α := (ending m s).1.toOption

theorem Yields.result? (h : Yields m s a t) : result? m s = some a := by
  rw [CompileM.result?, h.ends]
  rfl

end CompileM

/-- The variable that a name means in a state. -/
def CompileState.meaning? (s : CompileState) (name : Option String) : Option Variable :=
  name.bind fun n => s.file.cursor.resolve s.graph (·.vars) n

/-- The command that a call calls in a state; none if it calls a function. -/
def CompileState.called? (s : CompileState) (c : Call) : Option Command :=
  match result? (resolveCall c) s with
  | some (.command d, _) => some d
  | _ => none

/-- Looking up a name changes nothing. -/
theorem yields_resolveVariable {v : Option Variable}
    (h : Yields (resolveVariable name) s v t) : v = s.meaning? name ∧ s = t := by
  obtain ⟨⟨n, rfl, hv⟩, rfl⟩ := h.resolve
  exact ⟨hv.symm, rfl⟩

theorem called?_of_yields {c : Call} {callee : Callee} {args : List Arg}
    (h : Yields (resolveCall c) s (callee, args) t) :
    s.called? c = match callee with
      | .command d => some d
      | .function _ => none := by
  rw [CompileState.called?, h.result?]
  cases callee <;> rfl

/-- A step has a result exactly if it goes on. -/
theorem result?_eq_some_iff {α : Type} {m : CompileM α} {a : α} :
    result? m s = some a ↔ ∃ t, Yields m s a t := by
  unfold result? Yields
  rcases ending m s with ⟨e | b, t⟩ <;> simp [Except.toOption]

theorem called?_eq_some_iff {c : Call} {d : Command} : s.called? c = some d ↔
    (∃ name, c.name = some name ∧ s.file.cursor.resolve s.graph (·.commands) name = some d) ∧
      c.args.isSome = true := by
  constructor
  · intro h
    unfold CompileState.called? at h
    split at h
    · rename_i d' args hresult
      cases h
      obtain ⟨t, hy⟩ := result?_eq_some_iff.mp hresult
      obtain ⟨hname, hargs, -⟩ := hy.resolveCall_command
      exact ⟨hname, by simp [hargs]⟩
    · cases h
  · rintro ⟨hname, hargs⟩
    obtain ⟨args, hargs⟩ := Option.isSome_iff_exists.mp hargs
    exact called?_of_yields (yields_resolveCall_command.mpr ⟨hname, hargs, rfl⟩)

/-- What is called is declared in some scope. -/
theorem onShelf_of_called? {c : Call} {d : Command} (h : s.called? c = some d) :
    s.graph.OnShelf (·.commands) d := by
  obtain ⟨⟨_, -, hfound⟩, -⟩ := called?_eq_some_iff.mp h
  exact Cursor.onShelf_of_resolve hfound

/-- The instruction is that of a call of a command which is compiled from `s` to `t`. -/
def Instr.IsCall (s t : CompileState) (i : Instr) : Prop :=
  ∃ c d args pos wanted storage, s.called? c = some d ∧
    Yields (compileCommandCall pos d args wanted storage) s i t

/-! ### Arguments -/

/-- What an argument comes to: the value of a constant, the place of a variable, a string that is in
the table of `t`, or a number. -/
inductive Arg.ComesTo (a : Arg) (s t : CompileState) : Argument → Prop where
  | constant {name : String} {v : Variable} {c : Int} : a.value = .name name →
      s.meaning? (some name) = some v → v.constant = some c →
      a.ComesTo s t (.ofConstant v.type (.int c))
  | stored {name : String} {v : Variable} : a.value = .name name →
      s.meaning? (some name) = some v → v.constant = none → a.ComesTo s t (.stored v.type v.storage)
  | text {literal : Option String} {index : Nat} : a.value = .string literal →
      index < t.file.code.strings.length → a.ComesTo s t (.text index)
  | number {n : Numeral} {x : Number.Binary .double} : a.value = .number n → n.toReal = .ok x →
      a.ComesTo s t (.number (.real x))

/-- The ways of an argument. -/
theorem comesTo_of_evaluate {a : Arg} {x : Argument} (h : Yields (evaluate a) s x t) :
    a.ComesTo s t x := by
  unfold evaluate at h
  cases hvalue : a.value with
  | name name =>
    rw [hvalue] at h
    obtain ⟨v, _, hv, h⟩ := h.bind
    obtain ⟨rfl, rfl⟩ := yields_resolveVariable hv
    cases hm : s.meaning? (some name) with
    | none =>
      rw [hm] at h
      exact h.stop.elim
    | some v =>
      rw [hm] at h
      dsimp only at h
      split at h <;> obtain ⟨rfl, -⟩ := h.pure
      · exact .constant hvalue hm ‹_›
      · exact .stored hvalue hm ‹_›
  | string literal =>
    rw [hvalue] at h
    obtain ⟨_, -, h⟩ := h.need_bind
    obtain ⟨_, _, -, h⟩ := h.bind
    obtain ⟨index, hindex, rfl⟩ := h.bind_pure
    obtain ⟨rfl, rfl⟩ := hindex.onCode
    exact .text hvalue (Assembly.intern_lt _ _)
  | number n =>
    rw [hvalue] at h
    obtain ⟨x, hx, rfl⟩ := h.bind_pure
    exact .number hvalue hx.lift.1
  | absent =>
    rw [hvalue] at h
    exact h.throw.elim

/-! ### Values, definitions and assignments -/

/-- What giving a value to a variable comes to: a number is loaded, a flag is set or reset, or a
command is called. -/
inductive Assigned.Gives (a : Assigned) (type : ValueType) (storage : Option Int)
    (s : CompileState) : Instr → CompileState → Prop where
  | number {n : Numeral} {word : Int} : a.value = .number n → type = .integer →
      (intOfText n.text >>= fun i => encode (.int i)) = .ok word →
      a.Gives type storage s ⟨some Opcode.loadValue, [⟨.work, storage⟩, ⟨.value, some word⟩]⟩ s
  | flag {b : Bool} : a.value = .truth b → type = .flag →
      a.Gives type storage s (flagInstr .flag Opcode.flagSet Opcode.flagReset b storage) s
  | sysFlag {b : Bool} : a.value = .truth b → type = .sysFlag →
      a.Gives type storage s (flagInstr .sysFlag Opcode.sysFlagSet Opcode.sysFlagReset b storage) s
  | call {c : Call} {d : Command} {args : List Arg} {i : Instr} {t : CompileState} :
      a.value = .call c → s.called? c = some d → c.args = some args →
      Yields (compileCommandCall a.pos d args (some type) storage) s i t →
      a.Gives type storage s i t

/-- The ways of a value. -/
theorem gives_of_compileAssigned {a : Assigned} {type : ValueType}
    (h : Yields (compileAssigned a type storage) s i t) : a.Gives type storage s i t := by
  unfold compileAssigned at h
  split at h
  · split at h
    · obtain ⟨word, hword, h⟩ := h.lift_bind
      obtain ⟨rfl, rfl⟩ := h.pure
      exact .number ‹_› ‹_› hword
    · exact h.throw.elim
  · rename_i hvalue
    split at h
    · exact h.stopWith.elim
    · obtain ⟨rfl, rfl⟩ := h.pure
      exact .flag hvalue rfl
    · obtain ⟨rfl, rfl⟩ := h.pure
      exact .sysFlag hvalue rfl
    · exact h.throw.elim
  · exact h.stop.elim
  · rename_i hvalue
    obtain ⟨⟨callee, args⟩, _, hc, h⟩ := h.bind
    cases callee with
    | function f => exact h.stop.elim
    | command d =>
      have hcalled := called?_of_yields hc
      obtain ⟨-, hargs, rfl⟩ := hc.resolveCall_command
      exact .call hvalue hcalled hargs h
  · exact h.stop.elim

/-- The number that a definition names, if it names one. -/
def Definition.number (d : Definition) : Option Int := (optionalInt d.storage).toOption.join

/-- What a definition that is compiled from `s` to `t` makes: a constant, or a variable with a
storage and the code that gives it its value. -/
inductive Defines (level : Level) (d : Definition) (s : CompileState) :
    Variable → List Instr → CompileState → Prop where
  | constant {type : ValueType} {word name : String} {a : Assigned} {c : Int} {t : CompileState} :
      d.isConst = true → d.value = some a → Yields (constantOf a type) s c t →
      Defines level d s ⟨type, word, name, d.number, some c, d.pos⟩ [] t
  | bare {type : ValueType} {word name : String} {storage : Option Int} {t : CompileState} :
      d.isConst = false → d.value = none →
      Yields (storageFor level type d.pos d.number) s storage t →
      Defines level d s ⟨type, word, name, storage, none, d.pos⟩ [] t
  | valued {type : ValueType} {word name : String} {storage : Option Int} {a : Assigned} {i : Instr}
      {u t : CompileState} :
      d.isConst = false → d.value = some a →
      Yields (storageFor level type d.pos d.number) s storage u →
      Yields (compileAssigned a type storage) u i t →
      Defines level d s ⟨type, word, name, storage, none, d.pos⟩ [i] t

/-- The ways of a definition. -/
theorem defines_of_yields {level : Level} {mutable : Bool}
    (h : Yields (compileDefinition level mutable d) s (v, is) t) :
    Defines level d s v is t := by
  rw [compileDefinition_eq] at h
  obtain ⟨⟨word, type⟩, _, hlift, h⟩ := h.bind
  obtain ⟨-, rfl⟩ := hlift.lift
  obtain ⟨name, -, h⟩ := h.need_bind
  obtain ⟨number, hnumber, h⟩ := h.lift_bind
  obtain rfl : d.number = number := by
    rw [Definition.number, hnumber]
    rfl
  split at h
  · rename_i hconst
    split at h
    · rename_i a hvalue
      obtain ⟨c, hc, heq⟩ := h.bind_pure
      cases heq
      exact .constant hconst hvalue hc
    · exact h.stop.elim
  · rename_i hconst
    rw [Bool.not_eq_true] at hconst
    obtain ⟨storage, u, hu, h⟩ := h.bind
    cases hvalue : d.value with
    | none =>
      rw [hvalue] at h
      obtain ⟨heq, rfl⟩ := h.pure
      cases heq
      exact .bare hconst hvalue hu
    | some a =>
      rw [hvalue, giveValue] at h
      split at h
      · obtain ⟨i, hi, heq⟩ := h.bind_pure
        cases heq
        exact .valued hconst hvalue hu hi
      · exact h.stop.elim

/-- What an assignment comes to: nothing if it is not a plain one, and else what giving the value to
the variable comes to. -/
inductive Assignment.Sets (a : Assignment) (s t : CompileState) : List Instr → Prop where
  | other : a.operator ≠ some "=" → a.Sets s t []
  | plain {v : Variable} {value : Assigned} {i : Instr} : a.operator = some "=" →
      s.meaning? a.name = some v → a.value = some value →
      Yields (compileAssigned value v.type v.storage) s i t → a.Sets s t [i]

/-- The ways of an assignment. -/
theorem sets_of_yields {a : Assignment} {is : List Instr}
    (h : Yields (compileAssignment a) s is t) : a.Sets s t is := by
  unfold compileAssignment at h
  obtain ⟨operator, hoperator, h⟩ := h.need_bind
  split at h
  · obtain ⟨_, -, rfl⟩ := h.bind_pure
    exact .other (by simpa [hoperator] using ‹_›)
  · rename_i heq
    obtain ⟨_, _, hfound, h⟩ := h.bind
    obtain ⟨rfl, rfl⟩ := yields_resolveVariable hfound
    obtain ⟨v, hv, h⟩ := h.need_bind
    split at h
    · obtain ⟨i, hi, rfl⟩ := h.bind_pure
      exact .plain (not_not.mp heq ▸ hoperator) hv ‹_› hi
    · exact h.throw.elim

/-! ### Left sides and subjects -/

/-- The type of the left side of a comparison. -/
def LeftOperand.type? (l : LeftOperand) (s : CompileState) : Option ValueType :=
  match l.call with
  | some c => (s.called? c).bind fun d => d.result.map (·.type)
  | none => (s.meaning? l.name).map (·.type)

/-- What is found on the left side of a comparison: the call of a function or of a command, nothing,
or a variable. -/
inductive LeftOperand.Finds (l : LeftOperand) (s : CompileState) : Compared → Prop where
  | function {c : Call} : l.call = some c → s.called? c = none → l.Finds s ⟨[], none⟩
  | command {c : Call} {d : Command} {args : List Arg} {result : ResultType} {i : Instr}
      {t : CompileState} : l.call = some c → s.called? c = some d → c.args = some args →
      d.result = some result → Yields (compileCommandCall l.pos d args none none) s i t →
      l.Finds s ⟨[i], some (result.type, some answerRegister)⟩
  | nothing : l.call = none → l.name = none → l.Finds s ⟨[], none⟩
  | named {v : Variable} : l.call = none → s.meaning? l.name = some v → v.constant = none →
      l.Finds s ⟨[], some (v.type, v.storage)⟩

/-- The ways of a left side, and what stands in front of the comparison. -/
theorem finds_of_compileLeft {l : LeftOperand} {left : Compared}
    (h : Yields (compileLeft l) s left t) :
    l.Finds s left ∧ ∀ i ∈ left.instrs, i.IsCall s t := by
  unfold compileLeft at h
  cases hc : l.call with
  | some c =>
    rw [hc] at h
    obtain ⟨⟨callee, args⟩, t, hcall, h⟩ := h.bind
    have hcalled := called?_of_yields hcall
    cases callee with
    | function f =>
      obtain ⟨_, -, rfl⟩ := h.bind_pure
      exact ⟨.function hc hcalled, nofun⟩
    | command d =>
      obtain ⟨-, hargs, rfl⟩ := hcall.resolveCall_command
      obtain ⟨result, hresult, h⟩ := h.need_bind
      obtain ⟨i, hi, rfl⟩ := h.bind_pure
      refine ⟨.command hc hcalled hargs hresult hi, fun j hj => ?_⟩
      rw [List.mem_singleton.mp hj]
      exact ⟨c, d, args, _, _, _, hcalled, hi⟩
  | none =>
    rw [hc] at h
    cases hn : l.name with
    | none =>
      rw [hn] at h
      obtain ⟨rfl, -⟩ := h.pure
      exact ⟨.nothing hc hn, nofun⟩
    | some name =>
      rw [hn] at h
      obtain ⟨v, _, hv, h⟩ := h.bind
      obtain ⟨rfl, rfl⟩ := yields_resolveVariable hv
      cases hv : s.meaning? (some name) with
      | none =>
        rw [hv] at h
        exact h.stop.elim
      | some v =>
        rw [hv] at h
        dsimp only at h
        split at h
        · exact h.stop.elim
        · rename_i hconst
          obtain ⟨rfl, -⟩ := h.pure
          exact ⟨.named hc (hn ▸ hv) (by simpa using hconst), nofun⟩

theorem LeftOperand.Finds.type {l : LeftOperand} {left : Compared} (h : l.Finds s left) :
    left.value.map (·.1) = l.type? s := by
  unfold LeftOperand.type?
  cases h with
  | function hc hd => simp [hc, hd]
  | command hc hd _ hresult _ => simp [hc, hd, hresult]
  | nothing hc hn => simp [hc, hn, CompileState.meaning?]
  | named hc hv _ => simp [hc, hv]

/-- What becomes of the subject of a switch: the call of a function, that of a command, or a
variable. -/
inductive Condition.Switches (c : Condition) (pos : Pos) (s : CompileState) :
    List Instr → Prop where
  | function {call : Call} : c.form = .call call → s.called? call = none → c.Switches pos s []
  | command {call : Call} {d : Command} {args : List Arg} {i : Instr} {t : CompileState} :
      c.form = .call call → s.called? call = some d → call.args = some args →
      Yields (compileCommandCall pos d args none none) s i t →
      c.Switches pos s [i, switchInstr (some answerRegister)]
  | named {name : Option String} {v : Variable} : c.form = .name name → s.meaning? name = some v →
      c.Switches pos s [switchInstr v.storage]

/-- The ways of a subject. -/
theorem switches_of_compileSubject {subject : Option Condition} {pos : Pos} {is : List Instr}
    (h : Yields (compileSubject subject pos) s is t) :
    ∃ c, subject = some c ∧ c.Switches pos s is ∧
      ∀ i ∈ is, i.IsCall s t ∨ ∃ storage, i = switchInstr storage := by
  obtain ⟨c, _, hneed, h⟩ := h.bind
  obtain ⟨rfl, rfl⟩ := hneed.need
  refine ⟨c, rfl, ?_⟩
  cases hf : c.form with
  | call call =>
    rw [hf] at h
    obtain ⟨⟨callee, args⟩, _, hcall, h⟩ := h.bind
    have hcalled := called?_of_yields hcall
    cases callee with
    | function f =>
      obtain ⟨_, -, rfl⟩ := h.bind_pure
      exact ⟨.function hf hcalled, nofun⟩
    | command d =>
      obtain ⟨-, hargs, rfl⟩ := hcall.resolveCall_command
      obtain ⟨_, -, h⟩ := h.need_bind
      obtain ⟨i, hi, rfl⟩ := h.bind_pure
      refine ⟨.command hf hcalled hargs hi, fun j hj => ?_⟩
      rcases List.mem_cons.mp hj with rfl | hj
      · exact .inl ⟨call, d, args, _, _, _, hcalled, hi⟩
      · exact .inr ⟨_, List.mem_singleton.mp hj⟩
  | name name =>
    rw [hf] at h
    obtain ⟨found, _, hfound, h⟩ := h.bind
    obtain ⟨rfl, rfl⟩ := yields_resolveVariable hfound
    obtain ⟨v, hv, h⟩ := h.need_bind
    obtain ⟨rfl, -⟩ := h.pure
    exact ⟨.named hf hv, fun i hi => .inr ⟨_, List.mem_singleton.mp hi⟩⟩
  | comparison left comparator right =>
    rw [hf] at h
    obtain ⟨_, _, hfound, h⟩ := h.bind
    exact nomatch hfound.resolve.1.choose_spec.1

end EvScript
