import Mathlib.Tactic.Common
import EvScript.Compile.Program

/-!
# Steps that Go On

`Yields m s a s'` says that the step `m`, begun in `s`, goes on with `a` and leaves `s'`. The lemmas
here take such a fact apart along the way a step is put together, so that no proof has to look at
how steps are represented.
-/

namespace EvScript

variable {u : Unit} {message path : String} {s s' : CompileState}

theorem bind_eq_ok_iff {ε α β : Type} {x : Except ε α} {f : α → Except ε β} {b : β} :
    (x >>= f) = .ok b ↔ ∃ a, x = .ok a ∧ f a = .ok b := by
  cases x with
  | error e => exact ⟨fun h => (nomatch h), fun ⟨_, h, _⟩ => (nomatch h)⟩
  | ok a =>
    constructor
    · intro h
      exact ⟨a, rfl, h⟩
    · rintro ⟨a', ha, h⟩
      cases ha
      exact h

theorem encode_eq_ok_iff {q : Number.Quantity} {w : Int} : encode q = .ok w ↔ q.encode = .ok w := by
  unfold encode
  cases q.encode <;> simp [Except.mapError]

namespace CompileM

variable {α β ε : Type} {s s' : CompileState}
variable {m : CompileM α} {a b : α} {f : α → CompileM β}

/-- How a step begun in a state ends, and the state it leaves. -/
def ending (m : CompileM α) (s : CompileState) : Except Fault α × CompileState := m.run.run s

/-- The step `m`, begun in the state `s`, goes on with `a` and leaves the state `s'`. -/
def Yields (m : CompileM α) (s : CompileState) (a : α) (s' : CompileState) : Prop :=
  ending m s = (.ok a, s')

theorem Yields.ends (h : Yields m s a s') : ending m s = (.ok a, s') := h

/-- The state that a step leaves when it goes on. -/
theorem Yields.state (h : Yields m s a s') : (ending m s).2 = s' := by rw [h.ends]

theorem Yields.unique {s₁ s₂ : CompileState}
    (h₁ : Yields m s a s₁) (h₂ : Yields m s b s₂) : a = b ∧ s₁ = s₂ := by
  simpa [h₁.ends] using h₂.ends

/-! ### Putting steps together -/

@[simp] theorem yields_pure : Yields (pure a) s b s' ↔ a = b ∧ s = s' := by
  constructor
  · intro h
    cases h
    exact ⟨rfl, rfl⟩
  · rintro ⟨rfl, rfl⟩
    rfl

alias ⟨Yields.pure, _⟩ := yields_pure

/-- A sequence runs its first part, and the second one from there if the first goes on. -/
theorem ending_bind (m : CompileM α) (f : α → CompileM β) (s : CompileState) :
    ending (m >>= f) s = match ending m s with
      | (.ok a, t) => ending (f a) t
      | (.error e, t) => (.error e, t) := by
  unfold ending
  rw [ExceptT.run_bind, StateT.run_bind]
  rcases StateT.run (ExceptT.run m) s with ⟨_ | a, t⟩ <;> rfl

theorem Yields.ending_bind (h : Yields m s a s') : ending (m >>= f) s = ending (f a) s' := by
  rw [CompileM.ending_bind, h.ends]

@[simp] theorem yields_bind {b : β} :
    Yields (m >>= f) s b s' ↔ ∃ a t, Yields m s a t ∧ Yields (f a) t b s' := by
  unfold Yields
  rw [ending_bind]
  rcases ending m s with ⟨_ | a, t⟩
  · simp
  · constructor
    · intro h
      exact ⟨a, t, rfl, h⟩
    · rintro ⟨_, _, h, hf⟩
      cases h
      exact hf

alias ⟨Yields.bind, _⟩ := yields_bind

theorem yields_bind_pure {g : α → β} {b : β} :
    Yields (m >>= fun a => pure (g a)) s b s' ↔ ∃ a, Yields m s a s' ∧ g a = b := by
  rw [yields_bind]
  constructor
  · rintro ⟨a, t, h, hpure⟩
    obtain ⟨rfl, rfl⟩ := hpure.pure
    exact ⟨a, h, rfl⟩
  · rintro ⟨a, h, rfl⟩
    exact ⟨a, s', h, yields_pure.mpr ⟨rfl, rfl⟩⟩

alias ⟨Yields.bind_pure, _⟩ := yields_bind_pure

@[simp] theorem yields_throw {e : Fault} : Yields (throw e : CompileM α) s a s' ↔ False :=
  iff_false_intro fun h => by cases h

alias ⟨Yields.throw, _⟩ := yields_throw

@[simp] theorem yields_get {t : CompileState} :
    Yields (get : CompileM CompileState) s t s' ↔ s = t ∧ s = s' := by
  constructor
  · intro h
    cases h
    exact ⟨rfl, rfl⟩
  · rintro ⟨rfl, rfl⟩
    rfl

theorem yields_get_bind {k : CompileState → CompileM β} {b : β} :
    Yields (get >>= k) s b s' ↔ Yields (k s) s b s' := Iff.rfl

alias ⟨Yields.get_bind, _⟩ := yields_get_bind

@[simp] theorem yields_modify {f : CompileState → CompileState} :
    Yields (modify f : CompileM Unit) s u s' ↔ f s = s' := by
  constructor
  · intro h
    cases h
    rfl
  · rintro rfl
    rfl

alias ⟨Yields.modify, _⟩ := yields_modify

@[simp] theorem yields_modifyGet {f : CompileState → α × CompileState} :
    Yields (modifyGet f : CompileM α) s a s' ↔ f s = (a, s') := by
  constructor
  · intro h
    cases h
    rfl
  · intro h
    show (Except.ok (f s).1, (f s).2) = (Except.ok a, s')
    rw [h]

/-- Catching a fault only to pass it on changes nothing about the steps that go on. -/
theorem yields_tryCatch_rethrow {k : Fault → CompileM α} (hk : ∀ e t b u, ¬ Yields (k e) t b u) :
    Yields (tryCatch m k) s a s' ↔ Yields m s a s' := by
  have hrun : ending (tryCatch m k) s = match ending m s with
      | (.ok a, t) => (.ok a, t)
      | (.error e, t) => ending (k e) t := by
    unfold ending
    rw [ExceptT.run_tryCatch, StateT.run_bind]
    rcases StateT.run (ExceptT.run m) s with ⟨_ | a, t⟩ <;> rfl
  unfold Yields
  rw [hrun]
  rcases ending m s with ⟨e | b, t⟩
  · have := hk e t a s'
    simpa [Yields] using this
  · simp

/-! ### The steps of a compilation -/

@[simp] theorem yields_need {what : Absent} {o : Option α} :
    Yields (need what o) s a s' ↔ o = some a ∧ s = s' := by
  cases o <;> simp [need]

alias ⟨Yields.need, _⟩ := yields_need

@[simp] theorem yields_lift {fault : ε → Fault} {x : Except ε α} :
    Yields (lift fault x) s a s' ↔ x = .ok a ∧ s = s' := by
  cases x <;> simp [lift]

alias ⟨Yields.lift, _⟩ := yields_lift

theorem yields_need_bind {what : Absent} {o : Option α} {b : β} :
    Yields (need what o >>= f) s b s' ↔ ∃ a, o = some a ∧ Yields (f a) s b s' := by
  cases o <;> simp [need]

alias ⟨Yields.need_bind, _⟩ := yields_need_bind

theorem yields_lift_bind {fault : ε → Fault} {x : Except ε α} {b : β} :
    Yields (lift fault x >>= f) s b s' ↔ ∃ a, x = .ok a ∧ Yields (f a) s b s' := by
  cases x <;> simp [lift]

alias ⟨Yields.lift_bind, _⟩ := yields_lift_bind

@[simp] theorem yields_tell {level : LogLevel} :
    Yields (tell level message) s u s' ↔ { s with log := s.log ++ [⟨level, message⟩] } = s' :=
  yields_modify

alias ⟨Yields.tell, _⟩ := yields_tell

@[simp] theorem yields_stopWith : Yields (stopWith message : CompileM α) s a s' ↔ False := by
  simp [stopWith]

alias ⟨Yields.stopWith, _⟩ := yields_stopWith

@[simp] theorem yields_stop {pos : Pos} :
    Yields (stop message pos : CompileM α) s a s' ↔ False := by
  simp [stop]

alias ⟨Yields.stop, _⟩ := yields_stop

@[simp] theorem yields_onCode {f : Assembly → α × Assembly} :
    Yields (onCode f) s a s' ↔ (f s.file.code).1 = a ∧
      { s with file := { s.file with code := (f s.file.code).2 } } = s' := by
  simp [onCode]

alias ⟨Yields.onCode, _⟩ := yields_onCode

@[simp] theorem yields_onGraph {f : Cursor → ScopeGraph → ScopeGraph} :
    Yields (onGraph f) s u s' ↔ { s with graph := f s.file.cursor s.graph } = s' :=
  yields_modify

alias ⟨Yields.onGraph, _⟩ := yields_onGraph

@[simp] theorem yields_target {label : LabelId} {o : Operand} :
    Yields (target label) s o s' ↔ s.file.code.target label = o ∧ s = s' := by
  simp only [target, yields_bind, yields_get, yields_pure]
  constructor
  · rintro ⟨_, _, ⟨rfl, rfl⟩, rfl, rfl⟩
    exact ⟨rfl, rfl⟩
  · rintro ⟨rfl, rfl⟩
    exact ⟨s, s, ⟨rfl, rfl⟩, rfl, rfl⟩

alias ⟨Yields.target, _⟩ := yields_target

@[simp] theorem yields_resolve {shelf : Shelf α} {name : Option String} {a : Option α} :
    Yields (resolve shelf name) s a s' ↔
      (∃ n, name = some n ∧ s.file.cursor.resolve s.graph shelf n = a) ∧ s = s' := by
  simp only [resolve, yields_bind, yields_need, yields_get, yields_pure]
  constructor
  · rintro ⟨n, _, ⟨rfl, rfl⟩, _, _, ⟨rfl, rfl⟩, rfl, rfl⟩
    exact ⟨⟨n, rfl, rfl⟩, rfl⟩
  · rintro ⟨⟨n, rfl, rfl⟩, rfl⟩
    exact ⟨n, _, ⟨rfl, rfl⟩, _, _, ⟨rfl, rfl⟩, rfl, rfl⟩

alias ⟨Yields.resolve, _⟩ := yields_resolve

end CompileM

open CompileM

/-! ### Calls -/

/-- The operand as which an argument is passed. Truth values are not passed, nor what is stored
neither in a register nor as a flag. -/
inductive Argument.PassedAs : Argument → Operand → Prop
  | number {q : Number.Quantity} {word : Int} : encode q = .ok word →
    PassedAs (.number q) ⟨.value, some word⟩
  | text {index : Int} : PassedAs (.text index) ⟨.string, some index⟩
  | register {type : ValueType} {storage : Option Int} : type.inRegister = true →
    PassedAs (.stored type storage) ⟨.work, storage⟩
  | flag {storage : Option Int} : PassedAs (.stored .flag storage) ⟨.flag, storage⟩
  | sysFlag {storage : Option Int} : PassedAs (.stored .sysFlag storage) ⟨.sysFlag, storage⟩

theorem yields_ofArgument {pos : Pos} {x : Argument} {o : Operand}
    (h : Yields (Operand.ofArgument pos x) s o s') : x.PassedAs o ∧ s' = s := by
  cases x with
  | number q =>
    obtain ⟨word, hword, h⟩ := h.lift_bind
    obtain ⟨rfl, rfl⟩ := h.pure
    exact ⟨.number hword, rfl⟩
  | text index =>
    obtain ⟨rfl, rfl⟩ := h.pure
    exact ⟨.text, rfl⟩
  | truth =>
    obtain ⟨_, _, -, h⟩ := h.bind
    exact h.stopWith.elim
  | other => exact h.stop.elim
  | stored type storage =>
    cases type with
    | integer | float =>
      obtain ⟨rfl, rfl⟩ := h.pure
      exact ⟨.register rfl, rfl⟩
    | flag =>
      obtain ⟨rfl, rfl⟩ := h.pure
      exact ⟨.flag, rfl⟩
    | sysFlag =>
      obtain ⟨rfl, rfl⟩ := h.pure
      exact ⟨.sysFlag, rfl⟩
    | _ => exact h.stop.elim

/-- The arguments of a call at a place as operands, one after the other. -/
def operandsOf (pos : Pos) (args : List Arg) : CompileM (List Operand) :=
  args.mapM fun a => do Operand.ofArgument pos (← evaluate a)

/-- The command returns a value of the wanted type, if one is wanted. -/
def Command.Returns (c : Command) (wanted : Option ValueType) : Prop :=
  ∀ type ∈ wanted, c.result.map (·.type) = some type

/-- Put the register for the result among the operands of a call, if there has to be one. -/
def placeResult (c : Command) (storage : Option Int) (operands : List Operand) :
    CompileM Instr := do
  if c.result.isSome || storage.isSome then
    let index ← returnIndex c
    let register : Operand := ⟨.work, some (storage.getD Registry.answerRegister)⟩
    return ⟨c.number, insertOperand index register operands⟩
  else return ⟨c.number, operands⟩

/-- A call of a command: if the type of its result is as wanted, the operands are found and then
the register is put among them. -/
theorem yields_compileCommandCall {pos : Pos} {c : Command} {args : List Arg}
    {wanted : Option ValueType} {storage : Option Int} {i : Instr} :
    Yields (compileCommandCall pos c args wanted storage) s i s' ↔
      c.Returns wanted ∧ Yields (operandsOf pos args >>= placeResult c storage) s i s' := by
  unfold compileCommandCall compileCall
  simp only [Option.isSome_map]
  cases wanted with
  | none =>
    have hreturns : c.Returns none := fun type h => nomatch h
    exact (and_iff_right hreturns).symm
  | some w =>
    have hreturns : c.Returns (some w) ↔ c.result.map (·.type) = some w := by
      simp [Command.Returns]
    rw [hreturns, yields_bind]
    constructor
    · rintro ⟨r, t, hn, h⟩
      obtain ⟨hr, rfl⟩ := hn.need
      split at h
      · obtain ⟨_, _, hstop, -⟩ := h.bind
        exact hstop.stop.elim
      · rename_i hw
        exact ⟨by rw [hr, not_not.mp hw], h⟩
    · rintro ⟨hr, h⟩
      refine ⟨w, s, yields_need.mpr ⟨hr, rfl⟩, ?_⟩
      rw [if_neg (not_not.mpr rfl)]
      exact h

/-! ### Definitions -/

/-- The storage of a variable: the one that its definition names, or else one that is given out. -/
def storageFor (level : Level) (type : ValueType) (pos : Pos) : Option Int → CompileM (Option Int)
  | some n => pure (some n)
  | none => allocate level type pos

/-- A variable with the code that gives it its value, if there is one. -/
def giveValue (mutable : Bool) (v : Variable) : Option Assigned → CompileM (Variable × List Instr)
  | none => pure (v, [])
  | some a => if mutable then compileAssigned a v.type v.storage >>= fun i => pure (v, [i])
    else stop "Not able to assign mut at this scope at: " v.pos

theorem compileDefinition_eq (level : Level) (mutable : Bool) (d : Definition) :
    compileDefinition level mutable d = (do
      let (word, type) ← lift id (typeOf d.type)
      let name ← need .word d.name
      let number ← lift id (optionalInt d.storage)
      if d.isConst then
        match d.value with
        | some a =>
          let c ← constantOf a type
          return (⟨type, word.text, name, number, some c, d.pos⟩, [])
        | none => stop "Must specify value for const variable: " d.pos
      else
        let storage ← storageFor level type d.pos number
        giveValue mutable ⟨type, word.text, name, storage, none, d.pos⟩ d.value) := by
  unfold compileDefinition
  refine bind_congr fun ⟨word, type⟩ => bind_congr fun name => bind_congr fun number => ?_
  cases number <;> cases d.value <;> cases mutable <;> rfl

/-! ### Files -/

/-- The state in which a fresh file at a path begins. -/
def CompileState.fresh (s : CompileState) (path : String) : CompileState :=
  { s with
    graph := (Cursor.start s.graph).2
    file := ⟨path, .empty, (Cursor.start s.graph).1, []⟩ }

/-- A step on a fresh file: all that is kept of the file is where its scopes are. -/
theorem yields_inFile {step : CompileM Unit}
    {cursor : Cursor} : Yields (inFile path step) s cursor s' ↔
      ∃ t, Yields step (s.fresh path) () t ∧ t.file.cursor = cursor ∧
        { t with file := s.file } = s' := by
  unfold inFile
  constructor
  · intro h
    replace h := h.get_bind
    obtain ⟨_, _, hm, h⟩ := h.bind
    obtain rfl := hm.modify
    obtain ⟨_, t, ht, h⟩ := h.bind
    rw [yields_tryCatch_rethrow (by simp)] at ht
    have hback := yields_modifyGet.mp h
    rw [Prod.mk.injEq] at hback
    exact ⟨t, ht, hback⟩
  · rintro ⟨t, ht, rfl, rfl⟩
    refine yields_bind.mpr ⟨s, s, yields_get.mpr ⟨rfl, rfl⟩, ?_⟩
    refine yields_bind.mpr ⟨(), s.fresh path, yields_modify.mpr rfl, ?_⟩
    refine yields_bind.mpr ⟨(), t, ?_, yields_modifyGet.mpr rfl⟩
    rw [yields_tryCatch_rethrow (by simp)]
    exact ht

/-- How a file imports others, with imports nested up to `n` deep. -/
def fileImporter (fs : Files) (mode : ReadMode) (n : Nat) : Importer := fun path => do
  printLine (announcement path)
  inFile path (compileFile fs mode n path)

theorem compileFile_succ (fs : Files) (mode : ReadMode) (n : Nat) (path : String) :
    compileFile fs mode (n + 1) path = (do
      let tree ← loadProgram fs mode path
      compileEntries fs (fileImporter fs mode n) tree.entries) := rfl

theorem compileScript_ended_iff {fs : Files} {mode : ReadMode} :
    (compileScript fs mode path).ended = .ok () ↔
      Yields (compileFile fs mode (fs.entries.length + 1) path) (.start path) ()
        (compileScript fs mode path).state := by
  show (ending _ _).1 = .ok () ↔ ending _ _ = (.ok (), (ending _ _).2)
  rw [Prod.ext_iff]
  exact (and_iff_left rfl).symm

end EvScript
