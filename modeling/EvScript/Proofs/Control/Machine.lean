import Mathlib.Logic.Relation
import EvScript.Proofs.Code.Growth

/-!
# Running Code

The engine runs the instructions under a label in order. A jump goes on at the label it names; a
**test** does so if its answer is yes; every other instruction is done and passed. Behind the last
instruction of a label the run halts. What a test answers depends on the state of the game, so here
an **oracle** answers: it sees the whole history and the question, which is the test without its
label.
-/

namespace EvScript

open Registry

variable {i q : Instr} {l : LabelId} {is : List Instr}

/-! ### Instructions that move control -/

namespace Instr

/-- The instruction goes on at another label whatever happens. -/
def isJump (i : Instr) : Bool := i.command == some Opcode.jump

/-- The instruction goes on at another label if its answer is yes. -/
def isTest (i : Instr) : Bool :=
  i.command == some Opcode.compareJump || i.command == some Opcode.flagJump ||
    i.command == some Opcode.caseJump

/-- The instruction moves control. -/
def isControl (i : Instr) : Bool := i.isJump || i.isTest

/-- A test without the label it names, which comes last. -/
def question (i : Instr) : Instr := { i with operands := i.operands.dropLast }

/-- A question with the label to go to. -/
def aimed (q : Instr) (there : Operand) : Instr := { q with operands := q.operands ++ [there] }

/-- The jump to a label. -/
def jumpTo (there : Operand) : Instr := ⟨some Opcode.jump, [there]⟩

@[simp] theorem question_aimed (q : Instr) (there : Operand) : (q.aimed there).question = q := by
  simp [question, aimed]

@[simp] theorem isJump_aimed (q : Instr) (there : Operand) : (q.aimed there).isJump = q.isJump :=
  rfl

@[simp] theorem isTest_aimed (q : Instr) (there : Operand) : (q.aimed there).isTest = q.isTest :=
  rfl

@[simp] theorem isJump_jumpTo (there : Operand) : (jumpTo there).isJump = true := rfl

theorem isJump_of_isTest (h : i.isTest = true) : i.isJump = false := by
  simp only [isTest, Bool.or_eq_true, beq_iff_eq] at h
  rcases h with (h | h) | h <;> simp [isJump, h, Opcode.jump, Opcode.compareJump,
    Opcode.flagJump, Opcode.caseJump]

end Instr

/-- A place in code: a label and the number of instructions in front. -/
structure Spot where
  label : LabelId
  offset : Nat
  deriving DecidableEq, Repr

namespace Spot

/-- The spot some instructions ahead, under the same label. -/
def ahead (x : Spot) (n : Nat) : Spot := ⟨x.label, x.offset + n⟩

@[simp] theorem ahead_zero (x : Spot) : x.ahead 0 = x := rfl

@[simp] theorem ahead_label (x : Spot) (n : Nat) : (x.ahead n).label = x.label := rfl

theorem ahead_ahead (x : Spot) (m n : Nat) : (x.ahead m).ahead n = x.ahead (m + n) := by
  simp [ahead, Nat.add_assoc]

end Spot

/-- What can happen in a run. -/
inductive Event where
  | done (i : Instr)
  | asked (question : Instr) (yes : Bool)
  deriving DecidableEq, Repr

/-- What has happened, in order. -/
abbrev History := List Event

/-- The answers to questions, given all that has happened. -/
abbrev Oracle := History → Instr → Bool

/-- A run under way: where it is, and what has happened. -/
structure Config where
  spot : Spot
  history : History
  deriving DecidableEq, Repr

/-- The history with what an instruction adds to it. Jumps add nothing. -/
def Instr.record (i : Instr) (yes : Bool) (h : History) : History :=
  if i.isJump then h
  else if i.isTest then h ++ [.asked i.question yes]
  else h ++ [.done i]

namespace Assembly

variable {a : Assembly} {oracle : Oracle} {x y : Spot} {h : History}

/-! ### Steps and runs -/

/-- The instruction at a spot. Behind the last one of a label there is none. -/
def instrAt (a : Assembly) (x : Spot) : Option Instr := (a.label x.label).instrs[x.offset]?

/-- The label that an operand names. -/
def labelNamed (a : Assembly) : Operand → Option LabelId
  | ⟨.string, some (.ofNat name)⟩ => a.byName.find? name
  | _ => none

/-- The label that an instruction goes to, if it goes to one. -/
def destination (a : Assembly) (i : Instr) : Option LabelId := i.operands.getLast?.bind a.labelNamed

/-- Where control goes from a spot, if a test there is answered as given. -/
def next (a : Assembly) (yes : Bool) (x : Spot) : Option Spot :=
  (a.instrAt x).bind fun i =>
    if i.isJump || (i.isTest && yes) then (a.destination i).map fun l => ⟨l, 0⟩
    else some (x.ahead 1)

/-- A step of a run. -/
def advance (a : Assembly) (oracle : Oracle) (c : Config) : Option Config :=
  (a.instrAt c.spot).bind fun i =>
    let yes := oracle c.history i.question
    (a.next yes c.spot).map fun x => ⟨x, i.record yes c.history⟩

/-- The history of a run that halts within `n` steps. -/
def run (a : Assembly) (oracle : Oracle) : Nat → Config → Option History
  | 0, _ => none
  | n + 1, c => if a.instrAt c.spot = none then some c.history
      else (a.advance oracle c).bind (a.run oracle n)

/-- A run comes from one configuration to another. -/
def Reaches (a : Assembly) (oracle : Oracle) : Config → Config → Prop :=
  Relation.ReflTransGen fun c d => a.advance oracle c = some d

/-- Every run from a spot comes to a spot with `P`, whatever the tests yield. -/
inductive Inevitable (a : Assembly) (P : Spot → Prop) : Spot → Prop
  | here {x : Spot} (hx : P x) : Inevitable a P x
  | later {x : Spot} (exit : Bool → Spot) (hexit : ∀ yes, a.next yes x = some (exit yes))
      (hall : ∀ yes, Inevitable a P (exit yes)) : Inevitable a P x

variable {c d e : Config}

theorem Reaches.refl (a : Assembly) (oracle : Oracle) (c : Config) : a.Reaches oracle c c :=
  Relation.ReflTransGen.refl

theorem Reaches.trans (h₁ : a.Reaches oracle c d) (h₂ : a.Reaches oracle d e) :
    a.Reaches oracle c e :=
  Relation.ReflTransGen.trans h₁ h₂

theorem Reaches.of_advance (hstep : a.advance oracle c = some d) : a.Reaches oracle c d :=
  Relation.ReflTransGen.single hstep

theorem Reaches.run_eq (hr : a.Reaches oracle c d)
    (hd : a.instrAt d.spot = none) : ∃ n, a.run oracle n c = some d.history := by
  induction hr using Relation.ReflTransGen.head_induction_on with
  | refl => exact ⟨1, by simp [run, hd]⟩
  | @head c _ hstep _ ih =>
    obtain ⟨n, hn⟩ := ih
    refine ⟨n + 1, ?_⟩
    have hin : a.instrAt c.spot ≠ none := fun hnone => by simp [advance, hnone] at hstep
    rw [run, if_neg hin, hstep, Option.bind_some, hn]

theorem run_mono {n m : Nat} (hn : a.run oracle n c = some h) (hm : n ≤ m) :
    a.run oracle m c = some h := by
  induction n generalizing c m with
  | zero => simp [run] at hn
  | succ n ih =>
    obtain ⟨m, rfl⟩ : ∃ k, m = k + 1 := ⟨m - 1, by omega⟩
    rw [run] at hn ⊢
    split
    · rwa [if_pos ‹_›] at hn
    · rw [if_neg ‹_›] at hn
      obtain ⟨d, hd, hrun⟩ := Option.bind_eq_some_iff.mp hn
      rw [hd, Option.bind_some]
      exact ih hrun (by omega)

/-! ### Labels and the names of labels -/

@[simp] theorem destination_jumpTo (there : Operand) :
    a.destination (.jumpTo there) = a.labelNamed there := by
  simp [destination, Instr.jumpTo]

@[simp] theorem destination_aimed (q : Instr) (there : Operand) :
    a.destination (q.aimed there) = a.labelNamed there := by
  simp [destination, Instr.aimed]

theorem Unclashed.labelNamed_target (hu : a.Unclashed) (hl : l < a.labels.size) :
    a.labelNamed (a.target l) = some l :=
  hu l hl

theorem Unclashed.target_inj (hu : a.Unclashed) {m : LabelId} (hl : l < a.labels.size)
    (hm : m < a.labels.size) (heq : a.target l = a.target m) : l = m := by
  have h := hu.labelNamed_target hl
  rw [heq, hu.labelNamed_target hm] at h
  exact (Option.some.inj h).symm

/-! ### Code that stands at a spot -/

/-- The instructions stand at the spot, one after the other. -/
def Stands (a : Assembly) (x : Spot) (is : List Instr) : Prop :=
  is <+: (a.label x.label).instrs.drop x.offset

theorem Stands.instrAt (hs : a.Stands x (i :: is)) : a.instrAt x = some i := by
  obtain ⟨r, hr⟩ := hs
  have h0 := congrArg (·[0]?) hr
  simpa [Assembly.instrAt] using h0.symm

theorem Stands.tail (hs : a.Stands x (i :: is)) : a.Stands (x.ahead 1) is := by
  obtain ⟨r, hr⟩ := hs
  refine ⟨r, ?_⟩
  have htail := congrArg List.tail hr
  simpa [Spot.ahead] using htail

theorem Stands.append_left {js : List Instr} (hs : a.Stands x (is ++ js)) : a.Stands x is :=
  (List.prefix_append is js).trans hs

/-! ### Where control goes -/

theorem next_plain (hi : a.instrAt x = some i) (hp : i.isControl = false)
    (yes : Bool) : a.next yes x = some (x.ahead 1) := by
  simp only [Instr.isControl, Bool.or_eq_false_iff] at hp
  simp [next, hi, hp.1, hp.2]

theorem next_jump (hu : a.Unclashed) (hl : l < a.labels.size)
    (hi : a.instrAt x = some (.jumpTo (a.target l))) (yes : Bool) :
    a.next yes x = some ⟨l, 0⟩ := by
  simp [next, hi, hu.labelNamed_target hl]

theorem next_test (hu : a.Unclashed) (hl : l < a.labels.size)
    (hq : q.isTest = true) (hi : a.instrAt x = some (q.aimed (a.target l))) (yes : Bool) :
    a.next yes x = some (if yes then ⟨l, 0⟩ else x.ahead 1) := by
  cases yes <;> simp [next, hi, hq, Instr.isJump_of_isTest hq, hu.labelNamed_target hl]

/-! ### Runs -/

theorem Reaches.stands (hs : a.Stands x is)
    (hp : ∀ i ∈ is, i.isControl = false) (oracle : Oracle) (h : History) :
    a.Reaches oracle ⟨x, h⟩ ⟨x.ahead is.length, h ++ is.map .done⟩ := by
  induction is generalizing x h with
  | nil => simpa using Reaches.refl a oracle ⟨x, h⟩
  | cons i is ih =>
    have hi := hp i (List.mem_cons_self ..)
    have hrec : i.record (oracle h i.question) h = h ++ [.done i] := by
      simp only [Instr.isControl, Bool.or_eq_false_iff] at hi
      simp [Instr.record, hi.1, hi.2]
    have hstep : a.advance oracle ⟨x, h⟩ = some ⟨x.ahead 1, h ++ [.done i]⟩ := by
      simp [advance, hs.instrAt, next_plain hs.instrAt hi, hrec]
    have hrest := ih hs.tail (fun j hj => hp j (List.mem_cons_of_mem _ hj)) (h ++ [.done i])
    rw [Spot.ahead_ahead, Nat.add_comm] at hrest
    simpa using (Reaches.of_advance hstep).trans hrest

theorem Reaches.jump (hu : a.Unclashed) (hl : l < a.labels.size)
    (hi : a.instrAt x = some (.jumpTo (a.target l))) (oracle : Oracle) (h : History) :
    a.Reaches oracle ⟨x, h⟩ ⟨⟨l, 0⟩, h⟩ :=
  .of_advance (by simp [advance, hi, next_jump hu hl hi, Instr.record])

theorem Reaches.test (hu : a.Unclashed) (hl : l < a.labels.size)
    (hq : q.isTest = true) (hi : a.instrAt x = some (q.aimed (a.target l))) (oracle : Oracle)
    (h : History) :
    a.Reaches oracle ⟨x, h⟩ ⟨if oracle h q then ⟨l, 0⟩ else x.ahead 1,
      h ++ [.asked q (oracle h q)]⟩ :=
  .of_advance (by simp [advance, hi, next_test hu hl hq hi, Instr.record, hq,
    Instr.isJump_of_isTest hq])

/-! ### What is inevitable -/

variable {P : Spot → Prop}

/-- What is inevitable at a spot without `P` is so at all spots control can go to. -/
theorem inevitable_iff_of_next {exit : Bool → Spot} (hx : ¬ P x)
    (hexit : ∀ yes, a.next yes x = some (exit yes)) :
    a.Inevitable P x ↔ ∀ yes, a.Inevitable P (exit yes) := by
  constructor
  · rintro (hp | ⟨exit', hexit', hall⟩) yes
    · exact absurd hp hx
    · have heq : exit' yes = exit yes := Option.some.inj ((hexit' yes).symm.trans (hexit yes))
      exact heq ▸ hall yes
  · exact .later exit hexit

theorem inevitable_stands (hs : a.Stands x is) (hp : ∀ i ∈ is, i.isControl = false)
    (hP : ∀ y i, P y → a.instrAt y = some i → i.isControl = true) :
    a.Inevitable P x ↔ a.Inevitable P (x.ahead is.length) := by
  induction is generalizing x with
  | nil => rfl
  | cons i is ih =>
    have hi := hp i (List.mem_cons_self ..)
    have hx : ¬ P x := fun hx => by simp [hP x i hx hs.instrAt] at hi
    rw [inevitable_iff_of_next hx (next_plain hs.instrAt hi), forall_const,
      ih hs.tail fun j hj => hp j (List.mem_cons_of_mem _ hj), Spot.ahead_ahead, Nat.add_comm,
      List.length_cons]

theorem inevitable_jump (hu : a.Unclashed) (hl : l < a.labels.size)
    (hi : a.instrAt x = some (.jumpTo (a.target l))) (hx : ¬ P x) :
    a.Inevitable P x ↔ a.Inevitable P ⟨l, 0⟩ := by
  rw [inevitable_iff_of_next hx (next_jump hu hl hi), forall_const]

theorem inevitable_test (hu : a.Unclashed) (hl : l < a.labels.size)
    (hq : q.isTest = true) (hi : a.instrAt x = some (q.aimed (a.target l))) (hx : ¬ P x) :
    a.Inevitable P x ↔ a.Inevitable P ⟨l, 0⟩ ∧ a.Inevitable P (x.ahead 1) := by
  rw [inevitable_iff_of_next hx (next_test hu hl hq hi), Bool.forall_bool, and_comm]
  simp

/-- At the end of a label nothing more will come. -/
theorem inevitable_end (hx : a.instrAt x = none) : a.Inevitable P x ↔ P x := by
  constructor
  · rintro (hp | ⟨exit, hexit, -⟩)
    · exact hp
    · have h := hexit true
      simp [next, hx] at h
  · exact .here

end Assembly

end EvScript
