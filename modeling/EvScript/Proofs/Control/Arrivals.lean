import EvScript.Proofs.Compile.Recorded
import EvScript.Proofs.Control.Simulation

/-!
# Where a Compilation Comes to

The **arrivals** of a body are its statements in the order in which the compilation comes to them,
each with the label under which its code goes and the state at that moment.

An `if` makes a label for its inside and puts a test in front of it, a `switch` does so for each
case. Such a place is a **gate**: the label under which the test belongs, the label to which it
leads, and what is to be tested in which state. `Gate.question` is what the compilation makes of it,
if anything.
-/

namespace EvScript

namespace CompileM

variable {α β : Type} {s t : CompileState}
variable {m : CompileM α} {next : α → CompileState → List β}

/-- What there is behind a step, if it goes on. -/
def onward (m : CompileM α) (s : CompileState) (next : α → CompileState → List β) : List β :=
  match ending m s with
  | (.ok a, t) => next a t
  | (.error _, _) => []

/-- From a step that goes on, one goes on with its value. -/
theorem Yields.onward {a : α} (h : Yields m s a t) : onward m s next = next a t := by
  rw [CompileM.onward, h.ends]

theorem onward_nil (m : CompileM α) (s : CompileState) :
    onward m s (fun _ _ => ([] : List β)) = [] := by
  unfold onward
  split <;> rfl

/-- What comes behind a step comes behind one that goes on. -/
theorem mem_onward {b : β} : b ∈ onward m s next ↔ ∃ a t, Yields m s a t ∧ b ∈ next a t := by
  unfold onward Yields
  rcases ending m s with ⟨e | a, t⟩
  · simp
  · constructor
    · intro h
      exact ⟨a, t, rfl, h⟩
    · rintro ⟨_, _, h, hb⟩
      cases h
      exact hb

end CompileM

open CompileM Registry

/-! ### Heads of statements -/

/-- What is done for an `if` before its inside: labels for the inside and for what follows, and
the condition. -/
def openBranch (l : LabelId) (condition : Option Condition) : CompileM (LabelId × LabelId) := do
  let after ← newChild l
  let inside ← newChild l
  emit l (← compileCondition (← need .condition condition) inside)
  return (inside, after)

/-- What is done for a `switch` before its cases: the subject, and a label for what follows. -/
def openSelect (l : LabelId) (subject : Option Condition) (pos : Pos) : CompileM LabelId := do
  emit l (← compileSubject subject pos)
  newChild l

/-- What is done for a case before its block: a label for the block, and the test. Without a test
the block is left out. -/
def openCase (l : LabelId) (number : Option Numeral) (name : Option String) :
    CompileM (Option LabelId) := do
  let number ← lift id (optionalInt number)
  let inside ← newChild l
  match ← caseWord number name with
  | none => return none
  | some word =>
    emit l [⟨some Opcode.caseJump, [⟨.value, some word⟩, ← target inside]⟩]
    return some inside

/-- The block of a case, if it is not left out. -/
def compileArm (after : LabelId) (body : Block) : Option LabelId → CompileM Unit
  | none => return ()
  | some inside => compileInside inside after body

/-- An `if` in its parts: question, inside, the rest. -/
theorem compileStatement_branch (pos : Pos) (l : LabelId) (condition : Option Condition)
    (body : Block) (elseIfs : List ElseIf) (otherwise : Option Block) :
    compileStatement pos l (.branch condition body elseIfs otherwise) = (do
      let arms ← openBranch l condition
      compileInside arms.1 arms.2 body
      compileElseIfs l elseIfs
      compileElse l arms.2 otherwise
      return arms.2) := by
  rw [compileStatement, openBranch]
  simp only [bind_assoc, pure_bind]

/-- A `switch` in its parts: subject and cases. -/
theorem compileStatement_select (pos : Pos) (l : LabelId) (subject : Option Condition)
    (cases : List Case) (switchPos : Pos) :
    compileStatement pos l (.select subject cases switchPos) = (do
      let after ← openSelect l subject switchPos
      compileCases l after cases
      return after) := by
  rw [compileStatement, openSelect]
  simp only [bind_assoc]

theorem compileCase_labelled (l after : LabelId) (number : Option Numeral) (name : Option String)
    (body : Block) : compileCase l after (.labelled number name body) =
      openCase l number name >>= compileArm after body := by
  rw [compileCase, openCase]
  simp only [bind_assoc]
  refine bind_congr fun number => bind_congr fun inside => bind_congr fun word => ?_
  cases word with
  | none => rfl
  | some word => simp only [bind_assoc, pure_bind, compileArm]

/-- A block under a label, and the jump behind it. -/
def compileExit (l after : LabelId) (b : Block) : CompileM Unit := do
  jump (← compileBlock {} l b) after

/-- A block that is there is left by a jump. -/
theorem compileInside_of (l after : LabelId) (pos : Pos) (xs : List Statement) :
    compileInside l after (.of pos xs) = compileExit l after (.of pos xs) := by
  rw [compileInside, compileExit, compileBlock]
  simp only [bind_assoc, pure_bind]

/-! ### Arrivals -/

/-- The statement has no block in it. -/
def Statement.isLeaf : Statement → Bool
  | .define _ | .assign _ | .call _ | .inert _ => true
  | .branch _ _ _ _ | .select _ _ _ => false

/-- A statement that a compilation comes to: the label under which its code goes, and the state
at that moment. -/
structure Arrival where
  label : LabelId
  statement : Statement
  state : CompileState

mutual

/-- The arrivals of a block under a label. -/
def blockArrivals (scope : Scope) (l : LabelId) : Block → CompileState → List Arrival
  | .absent, _ => []
  | .of pos statements, s =>
    onward (enterScope scope) s fun _ t => statementsArrivals pos l statements t

/-- The arrivals of statements that begin under a label. -/
def statementsArrivals (pos : Pos) (l : LabelId) : List Statement → CompileState → List Arrival
  | [], _ => []
  | x :: xs, s => statementArrivals l x s ++
    onward (compileStatement pos l x) s fun last t => statementsArrivals pos last xs t

/-- The arrival at a statement, and the arrivals of the statements in it. -/
def statementArrivals (l : LabelId) : Statement → CompileState → List Arrival
  | .define d, s => [⟨l, .define d, s⟩]
  | .assign a, s => [⟨l, .assign a, s⟩]
  | .call c, s => [⟨l, .call c, s⟩]
  | .branch condition body elseIfs otherwise, s =>
    ⟨l, .branch condition body elseIfs otherwise, s⟩ ::
      onward (openBranch l condition) s fun arms t => insideArrivals arms.1 body t ++
        onward (compileInside arms.1 arms.2 body) t fun _ u =>
          onward (compileElseIfs l elseIfs) u fun _ v => elseArrivals l otherwise v
  | .select subject cases switchPos, s =>
    ⟨l, .select subject cases switchPos, s⟩ ::
      onward (openSelect l subject switchPos) s fun after t => casesArrivals l after cases t
  | .inert rule, s => [⟨l, .inert rule, s⟩]

/-- The arrivals of the inside of a branch. -/
def insideArrivals (l : LabelId) : Block → CompileState → List Arrival
  | .absent, _ => []
  | .of pos statements, s =>
    onward (enterScope {}) s fun _ t => statementsArrivals pos l statements t

/-- The arrivals of an `else`. -/
def elseArrivals (l : LabelId) : Option Block → CompileState → List Arrival
  | none, _ => []
  | some body, s => blockArrivals {} l body s

/-- The arrivals of the cases of a switch. -/
def casesArrivals (l after : LabelId) : List Case → CompileState → List Arrival
  | [], _ => []
  | c :: cs, s => caseArrivals l c s ++
    onward (compileCase l after c) s fun _ t => casesArrivals l after cs t

/-- The arrivals of a case. -/
def caseArrivals (l : LabelId) : Case → CompileState → List Arrival
  | .default body, s => blockArrivals {} l body s
  | .labelled number name body, s =>
    onward (openCase l number name) s fun arm t =>
      arm.toList.flatMap fun inside => insideArrivals inside body t

end

/-- The arrivals of the body of a function. -/
def bodyArrivals (f : FunctionDecl) (s : CompileState) : List Arrival :=
  onward (beginFunction f) s fun head t => blockArrivals head.1 head.2 f.body t

/-! ### Gates -/

/-- A switch that a compilation comes to: its subject, its place and the state at that moment. -/
structure Switch where
  subject : Option Condition
  pos : Pos
  state : CompileState

/-- The code of the subject of a switch. -/
def Switch.code (x : Switch) : List Instr :=
  (result? (compileSubject x.subject x.pos) x.state).getD []

/-- What is tested before the code that is guarded. -/
inductive Guard where
  | condition (c : Condition)
  | case (switch : Switch) (number : Option Numeral) (name : Option String)

/-- A place that guards code: the label under which the test belongs, the label of what is
guarded, the guard, and the state in which it is looked at. -/
structure Gate where
  label : Nat
  inside : Nat
  guard : Guard
  state : CompileState

/-- The question that is asked at a gate, if one is. -/
def Gate.question (x : Gate) : Option Instr :=
  match x.guard with
  | .condition c => (result? (askCondition c) x.state).bind (·.question)
  | .case _ number name => (result? (readCase number name) x.state).join.map caseQuestion

/-- The gate of a case of a switch. -/
def caseGate (x : Switch) (l : LabelId) (number : Option Numeral) (name : Option String)
    (s : CompileState) : Gate :=
  ⟨l, s.file.code.labels.size, .case x number name, (ending (newChild l) s).2⟩

/-- The gate of a case, unless it is the default. -/
def Case.gates (x : Switch) (l : LabelId) : Case → CompileState → List Gate
  | .default _, _ => []
  | .labelled number name _, s => [caseGate x l number name s]

/-- The gates of the cases of a switch. -/
def caseGates (x : Switch) (l after : LabelId) : List Case → CompileState → List Gate
  | [], _ => []
  | c :: cs, s => c.gates x l s ++
    onward (compileCase l after c) s fun _ t => caseGates x l after cs t

/-- The gate of an `if`. Its label comes second, behind the one for what follows. -/
def branchGate (l : LabelId) (c : Condition) (s : CompileState) : Gate :=
  ⟨l, s.file.code.labels.size + 1, .condition c, (ending (newChild l) (ending (newChild l) s).2).2⟩

/-- The gates of a statement that a compilation comes to. -/
def Arrival.gates : Arrival → List Gate
  | ⟨l, .branch (some c) _ _ _, s⟩ => [branchGate l c s]
  | ⟨l, .select subject cases pos, s⟩ =>
    onward (openSelect l subject pos) s fun after t => caseGates ⟨subject, pos, s⟩ l after cases t
  | _ => []

end EvScript
