import EvScript.Proofs.Compile.Inversions
import EvScript.Proofs.Control.Machine

/-!
# What Is Asked

A condition is a **question**, to be answered by an oracle, with something to do in front of it; its
code is the question with the label to go to. Which question it is, if any, depends on what its
names mean. `Condition.Asks` says so on the written program and on the meaning of names alone, and
so does `caseValue?` for the word of a case.

## Main results

* `compileCondition_eq` — the code of a condition is its question, aimed at a label.
* `question_of_askCondition` — a question is asked exactly for a comparison of something in a
  register with a number, and for a flag.
* `yields_readCase` — a case tests for the word of its number, or of the integer constant it names.
-/

namespace EvScript

open CompileM Registry

variable {may : Effect → Prop} {name : Option String} {s s' : CompileState}

/-! ### Conditions as questions -/

/-- A condition: what to do first, and the question, if one is asked. -/
structure Query where
  setup : List Instr
  question : Option Instr

/-- The code that asks and goes to a label if the answer is yes. -/
def Query.aimed (q : Query) (there : Operand) : List Instr :=
  q.setup ++ (q.question.map (·.aimed there)).toList

/-- A comparison as a question. -/
def askComparison (left : Compared) (comparator : Option String)
    (right : Option RightOperand) : CompileM Query := do
  let word ← need .word ((← need .word comparator) |> comparatorWord)
  let index ← intern word
  let right ← need .comparand right
  match right.number with
  | none => return ⟨left.instrs, none⟩
  | some n =>
    let value ← lift id (n.toReal >>= fun x => encode (.real x))
    match left.value with
    | some (type, storage) =>
      if type.inRegister then
        return ⟨left.instrs, some ⟨some Opcode.compareJump,
          [⟨.work, storage⟩, .ofString index, ⟨.value, some value⟩]⟩⟩
      else return ⟨left.instrs, none⟩
    | none => return ⟨left.instrs, none⟩

/-- Whether a flag is set, as a question. -/
def flagQuestion (kind : OperandKind) (storage : Option Int) : Query :=
  ⟨[], some ⟨some Opcode.flagJump, [⟨kind, storage⟩]⟩⟩

/-- A condition as a question. -/
def askCondition (c : Condition) : CompileM Query :=
  match c.form with
  | .comparison left comparator right => do
    askComparison (← compileLeft left) comparator right
  | .call _ => return ⟨[], none⟩
  | .name name => do
    match ← resolveVariable name with
    | none => stop ("Unable to resolve variable name " ++ name.getD "None" ++ " at: ") c.pos
    | some v => match v.type with
      | .flag => return flagQuestion .flag v.storage
      | .sysFlag => return flagQuestion .sysFlag v.storage
      | _ => return ⟨[], none⟩

/-- Whether the value switched on is a word, as a question. -/
def caseQuestion (word : Int) : Instr := ⟨some Opcode.caseJump, [⟨.value, some word⟩]⟩

/-! ### What is tested -/

/-- The condition is a comparison of something in a register with a number, or a flag. -/
def Condition.tested (c : Condition) (s : CompileState) : Bool :=
  match c.form with
  | .comparison left _ right => (right.bind (·.number)).isSome && (left.type? s).any (·.inRegister)
  | .call _ => false
  | .name name => (s.meaning? name).any fun v => v.type == .flag || v.type == .sysFlag

/-- The case is a number or the name of an integer constant. -/
def caseTested (number : Option Numeral) (name : Option String) (s : CompileState) : Bool :=
  number.isSome || (s.meaning? name).any fun v => v.type == .integer && v.constant.isSome

/-- The word of a case: that of its number, or of the integer constant that it names. -/
def caseValue? (number : Option Numeral) (name : Option String) (s : CompileState) : Option Int :=
  match number with
  | some n => (n.toInt >>= fun k => encode (.int k)).toOption
  | none => (s.meaning? name).bind fun v => if v.type = .integer then v.constant else none

/-- The word that the compilation finds for a case. -/
def readCase (number : Option Numeral) (name : Option String) : CompileM (Option Int) := do
  caseWord (← lift id (optionalInt number)) name

/-- What becomes of a condition: a comparison asks a question if there is a number to compare with
something in a register, and a name if it is that of a flag. -/
inductive Condition.Asks (c : Condition) (s : CompileState) : Query → Prop where
  | compared {left : LeftOperand} {comparator : Option String} {right : Option RightOperand}
      {found : Compared} {n : Numeral} {type : ValueType} {storage : Option Int} {index : Nat}
      {word : Int} : c.form = .comparison left comparator right → left.Finds s found →
      right.bind (·.number) = some n → found.value = some (type, storage) →
      type.inRegister = true → (n.toReal >>= fun x => encode (.real x)) = .ok word →
      c.Asks s ⟨found.instrs, some ⟨some Opcode.compareJump,
        [⟨.work, storage⟩, .ofString index, ⟨.value, some word⟩]⟩⟩
  | uncompared {left : LeftOperand} {comparator : Option String} {right : Option RightOperand}
      {found : Compared} : c.form = .comparison left comparator right → left.Finds s found →
      ((right.bind (·.number)).isSome && (found.value.map (·.1)).any (·.inRegister)) = false →
      c.Asks s ⟨found.instrs, none⟩
  | call {call : Call} : c.form = .call call → c.Asks s ⟨[], none⟩
  | flag {name : Option String} {v : Variable} {kind : OperandKind} : c.form = .name name →
      s.meaning? name = some v →
      v.type = .flag ∧ kind = .flag ∨ v.type = .sysFlag ∧ kind = .sysFlag →
      c.Asks s (flagQuestion kind v.storage)
  | other {name : Option String} {v : Variable} : c.form = .name name → s.meaning? name = some v →
      v.type ≠ .flag → v.type ≠ .sysFlag → c.Asks s ⟨[], none⟩

theorem asks_of_askCondition {c : Condition} {query : Query}
    (h : Yields (askCondition c) s query s') : c.Asks s query := by
  unfold askCondition at h
  cases hf : c.form with
  | comparison left comparator right =>
    rw [hf] at h
    obtain ⟨found, _, hleft, h⟩ := h.bind
    have hfinds := (finds_of_compileLeft hleft).1
    obtain ⟨_, _, -, h⟩ := h.bind
    obtain ⟨_, _, -, h⟩ := h.bind
    obtain ⟨_, _, -, h⟩ := h.bind
    obtain ⟨r, hr, h⟩ := h.need_bind
    cases hn : r.number with
    | none =>
      rw [hn] at h
      obtain ⟨rfl, -⟩ := h.pure
      exact .uncompared hf hfinds (by simp [hr, hn])
    | some n =>
      rw [hn] at h
      obtain ⟨word, _, hword, h⟩ := h.bind
      cases hv : found.value with
      | none =>
        rw [hv] at h
        obtain ⟨rfl, -⟩ := h.pure
        exact .uncompared hf hfinds (by simp [hv])
      | some v =>
        rw [hv] at h
        dsimp only at h
        split at h <;> rename_i hreg <;> obtain ⟨rfl, -⟩ := h.pure
        · exact .compared hf hfinds (by simp [hr, hn]) hv hreg hword.lift.1
        · exact .uncompared hf hfinds (by simp [hv, hreg])
  | call call =>
    rw [hf] at h
    obtain ⟨rfl, -⟩ := h.pure
    exact .call hf
  | name name =>
    rw [hf] at h
    obtain ⟨v, _, hv, h⟩ := h.bind
    obtain ⟨rfl, rfl⟩ := yields_resolveVariable hv
    cases hv : s.meaning? name with
    | none =>
      rw [hv] at h
      exact h.stop.elim
    | some v =>
      rw [hv] at h
      dsimp only at h
      split at h
      · rename_i htype
        obtain ⟨rfl, -⟩ := h.pure
        exact .flag hf hv (.inl ⟨htype, rfl⟩)
      · rename_i htype
        obtain ⟨rfl, -⟩ := h.pure
        exact .flag hf hv (.inr ⟨htype, rfl⟩)
      · rename_i hflag hsys
        obtain ⟨rfl, -⟩ := h.pure
        exact .other hf hv hflag hsys

theorem question_of_askCondition {c : Condition} {query : Query}
    (h : Yields (askCondition c) s query s') : query.question.isSome = c.tested s := by
  unfold Condition.tested
  cases asks_of_askCondition h with
  | compared hf hfinds hn hv hreg _ => simp [hf, hn, ← hfinds.type, hv, hreg]
  | uncompared hf hfinds hno => simp only [hf, ← hfinds.type, hno, Option.isSome_none]
  | call hf => simp [hf]
  | flag hf hv htype =>
      rcases htype with ⟨htype, -⟩ | ⟨htype, -⟩ <;> simp [hf, hv, htype, flagQuestion]
  | other hf hv hflag hsys => simp [hf, hv, hflag, hsys]

/-- **The word of a case** is that of its number, or of the integer constant that it names; there is
none exactly if it is neither. -/
theorem yields_readCase {number : Option Numeral} {word : Option Int}
    (h : Yields (readCase number name) s word s') :
    word = caseValue? number name s ∧ word.isSome = caseTested number name s ∧ s = s' := by
  obtain ⟨n, hn, h⟩ := h.lift_bind
  unfold caseWord at h
  cases number with
  | some numeral =>
    obtain ⟨k, hk, rfl⟩ : ∃ k, numeral.toInt = .ok k ∧ some k = n := by
      cases hk : numeral.toInt with
      | error e => simp [optionalInt, hk, Except.map] at hn
      | ok k => exact ⟨k, rfl, by simpa [optionalInt, hk, Except.map] using hn⟩
    obtain ⟨w, hw, rfl⟩ := h.bind_pure
    obtain ⟨hencode, rfl⟩ := hw.lift
    have hboth : (numeral.toInt >>= fun k => encode (.int k)) = .ok w :=
      bind_eq_ok_iff.mpr ⟨k, hk, hencode⟩
    exact ⟨by rw [caseValue?, hboth]; rfl, rfl, rfl⟩
  | none =>
    obtain rfl : n = none := by simpa [optionalInt] using hn.symm
    obtain ⟨v, _, hv, h⟩ := h.bind
    obtain ⟨rfl, rfl⟩ := yields_resolveVariable hv
    obtain ⟨v, hv, h⟩ := h.need_bind
    obtain ⟨rfl, rfl⟩ := h.pure
    simp only [caseValue?, caseTested, hv, Option.isSome_none, Bool.false_or, Option.any_some,
      Option.bind_some]
    split <;> simp [*]

/-! ### The code of a condition -/

/-- A condition may be asked with everything that comes in it. -/
structure Condition.Allows (c : Condition) (may : Effect → Prop) : Prop where
  left : ∀ left comparator right, c.form = .comparison left comparator right →
    ∀ call, left.call = some call → call.Allows may
  words : ∀ text word, comparatorWord text = some word → may (.intern word)

theorem Effect.Calls.condition (h : Effect.Calls may) (c : Condition) : c.Allows may :=
  ⟨fun _ _ _ _ call _ => h.call call, fun _ _ _ => h.intern _⟩

theorem doesOnly_askCondition {c : Condition} (h : c.Allows may) :
    DoesOnly may (askCondition c) := by
  unfold askCondition
  split
  · rename_i l comparator r hform
    refine (doesOnly_compileLeft (h.left l comparator r hform)).then fun left => ?_
    unfold askComparison
    refine (DoesOnly.need _ _).then fun text => (DoesOnly.need _ _).bind fun word _ _ hword => ?_
    refine (DoesOnly.intern (h.words text word hword.need.1)).then fun _ =>
      (DoesOnly.need _ _).then fun right => ?_
    split
    · exact .pure _
    · refine (DoesOnly.lift ((Numeral.untold_toReal _).bind fun _ => untold_encode _)).then
        fun _ => ?_
      split
      · split <;> exact .pure _
      · exact .pure _
  · exact .pure _
  · refine (DoesOnly.resolve _ _).then fun v => ?_
    split
    · exact .stop _ _
    · split <;> exact .pure _

theorem tableOnly_askCondition (c : Condition) : TableOnly (askCondition c) :=
  (doesOnly_askCondition (Effect.calls_all.condition c)).tableOnly

theorem isTest_of_askCondition {c : Condition} {query : Query} {q : Instr}
    (h : Yields (askCondition c) s query s') (hq : query.question = some q) :
    q.isTest = true := by
  cases asks_of_askCondition h with
  | compared | flag =>
    obtain rfl := Option.some.inj hq
    rfl
  | uncompared | call | other => cases hq

/-- Finding the operand of a label has no effect. -/
theorem target_map_const {α : Type} (l : LabelId) (a : α) :
    (fun _ => a) <$> target l = pure a :=
  funext fun _ => rfl

/-- Nothing comes after a mistake. -/
@[simp] theorem stop_bind {α β : Type} (message : String) (pos : Pos) (f : α → CompileM β) :
    (stop message pos >>= f) = stop message pos := rfl

theorem compileComparison_eq (left : Compared) (comparator : Option String)
    (right : Option RightOperand) (destination : LabelId) :
    compileComparison left comparator right destination = (do
      let query ← askComparison left comparator right
      return query.aimed (← target destination)) := by
  simp only [compileComparison, askComparison, bind_assoc]
  refine bind_congr fun _ => bind_congr fun word => bind_congr fun index =>
    bind_congr fun right => ?_
  cases right.number with
  | none => simp [Query.aimed, target_map_const]
  | some n =>
    rw [bind_assoc]
    refine bind_congr fun value => ?_
    cases left.value with
    | none => simp [Query.aimed, target_map_const]
    | some v =>
      dsimp only
      split <;> simp [Query.aimed, Instr.aimed, target_map_const]

/-- **The code of a condition** is its question with the label to go to. -/
theorem compileCondition_eq (c : Condition) (destination : LabelId) :
    compileCondition c destination = (do
      let query ← askCondition c
      return query.aimed (← target destination)) := by
  unfold compileCondition askCondition
  cases c.form with
  | comparison left comparator right =>
    dsimp only
    rw [bind_assoc]
    exact bind_congr fun left => compileComparison_eq left _ _ destination
  | call _ => simp [Query.aimed, target_map_const]
  | name name =>
    dsimp only
    rw [bind_assoc]
    refine bind_congr fun v => ?_
    cases v with
    | none => simp
    | some v =>
      dsimp only
      cases v.type <;> simp [Query.aimed, flagQuestion, flagTest, Instr.aimed]

end EvScript
