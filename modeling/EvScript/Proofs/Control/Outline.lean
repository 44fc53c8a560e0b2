import EvScript.Proofs.Control.Questions

/-!
# Structured Programs

A `Flow` says what a function body does without labels: it is a list of steps, and a step performs
instructions or **chooses** among arms. An `if` chooses by one question, a `switch` by one for each
case; an `else` or a default is the arm that asks nothing. `exec` says what happens in such a
program, with the same oracle and the same kind of history that runs of code have.

## What a body stands for

`StandsFor` says on the written program which flow is meant, with one rule for each form of
statement: an `if` asks its question whenever its condition can be tested, and every case that is a
number or the name of an integer constant is an arm with that word. Names mean what they mean in the
state in which the compilation comes to them. The flow of a statement is also computed, by going
through it like the compilation does, but without labels.

## Main results

* `Block.standsFor_of_outline` — the computed flow of a block is what the block stands for.
* `Block.closed_of_complete` — in the flow of a complete block every choice has an arm to take.
-/

namespace EvScript

open CompileM Registry

variable {s s' t u : CompileState}

/-! ### Flows -/

mutual

/-- Steps, one after the other. -/
inductive Flow where
  | done
  | next (first : Step) (rest : Flow)

/-- A step of a structured program. -/
inductive Step where
  | perform (instrs : List Instr)
  /-- Perform instructions, then take one of the arms. -/
  | choose (setup : List Instr) (arms : Arms)

/-- The ways to go, in the order in which they are considered. -/
inductive Arms where
  | none
  /-- If the answer is yes, the body. -/
  | test (question : Instr) (body : Flow) (rest : Arms)
  /-- A question whose block is missing. -/
  | bare (question : Instr) (rest : Arms)
  /-- The body, whatever happens. -/
  | otherwise (body : Flow) (rest : Arms)

end

/-- An arm with a question, if there is one. -/
def Arms.ask (question : Option Instr) (body : Option Flow) (rest : Arms) : Arms :=
  match question, body with
  | .none, _ => rest
  | some q, some body => .test q body rest
  | some q, .none => .bare q rest

/-- An arm of a switch. -/
inductive Arm where
  /-- A case with the word that it tests for, and its flow if there is a block. -/
  | case (word : Int) (body : Option Flow)
  /-- A case that tests for nothing; its block is left out. -/
  | blank
  | default (body : Flow)

/-- The arms in their order, as a choice. -/
def Arm.row : List Arm → Arms
  | [] => .none
  | .case word body :: rest => .ask (some (caseQuestion word)) body (row rest)
  | .blank :: rest => row rest
  | .default body :: rest => .otherwise body (row rest)

mutual

/-- What has happened when a flow is over. -/
def Flow.exec (oracle : Oracle) : Flow → History → History
  | .done, h => h
  | .next first rest, h => rest.exec oracle (first.exec oracle h)

/-- What has happened when a step is over. -/
def Step.exec (oracle : Oracle) : Step → History → History
  | .perform instrs, h => h ++ instrs.map .done
  | .choose setup arms, h => arms.exec oracle (h ++ setup.map .done)

/-- What has happened when one of the arms was taken, or none. -/
def Arms.exec (oracle : Oracle) : Arms → History → History
  | .none, h => h
  | .test q body rest, h =>
    if oracle h q then body.exec oracle (h ++ [.asked q true])
    else rest.exec oracle (h ++ [.asked q false])
  | .bare q rest, h =>
    if oracle h q then h ++ [.asked q true]
    else rest.exec oracle (h ++ [.asked q false])
  | .otherwise body _, h => body.exec oracle h

end

mutual

/-- No instruction that is performed moves control. -/
def Flow.plain : Flow → Bool
  | .done => true
  | .next first rest => first.plain && rest.plain

/-- No instruction that the step performs moves control. -/
def Step.plain : Step → Bool
  | .perform instrs => instrs.all fun i => !i.isControl
  | .choose setup arms => setup.all (fun i => !i.isControl) && arms.plain

/-- No instruction that the arms perform moves control. -/
def Arms.plain : Arms → Bool
  | .none => true
  | .test _ body rest => body.plain && rest.plain
  | .bare _ rest => rest.plain
  | .otherwise body rest => body.plain && rest.plain

end

mutual

/-- Every choice has an arm to take, whatever the answers are. -/
def Flow.closed : Flow → Bool
  | .done => true
  | .next first rest => first.closed && rest.closed

/-- Every choice in the step has an arm to take. -/
def Step.closed : Step → Bool
  | .perform _ => true
  | .choose _ arms => arms.closed

/-- One of the arms can be taken, and so in every choice in them. -/
def Arms.closed : Arms → Bool
  | .none => false
  | .test _ body rest => body.closed && rest.closed
  | .bare _ _ => false
  | .otherwise body _ => body.closed

end

/-! ### The flow of a statement -/

mutual

/-- The flow of a block. -/
def outlineBlock (scope : Scope) : Block → CompileM Flow
  | .absent => do
    enterScope scope
    throw (.absent .block)
  | .of pos statements => do
    enterScope scope
    let flow ← outlineStatements pos statements
    leaveScope
    return flow

/-- The flow of statements of the block that begins at a place. -/
def outlineStatements (pos : Pos) : List Statement → CompileM Flow
  | [] => return .done
  | s :: ss => do
    let first ← outlineStatement pos s
    let rest ← outlineStatements pos ss
    return .next first rest

/-- A statement as a step. -/
def outlineStatement (pos : Pos) : Statement → CompileM Step
  | .define d => return .perform (← define .body d)
  | .assign a => return .perform (← compileAssignment a)
  | .call c => do
    match ← resolveCall c with
    | (.function _, _) => do
      warnFunctionCall pos
      return .perform []
    | (.command command, args) =>
      return .perform [← compileCommandCall pos command args none none]
  | .branch condition body elseIfs otherwise => do
    let query ← askCondition (← need .condition condition)
    let inside ← outlineInside body
    refuseElseIfs elseIfs
    let arms ← outlineElse otherwise
    return .choose query.setup (.ask query.question inside arms)
  | .select subject cases switchPos => do
    let setup ← compileSubject subject switchPos
    let arms ← outlineCases cases
    return .choose setup arms
  | .inert _ => return .perform []

/-- The flow of the inside of a branch, if there is a block. -/
def outlineInside : Block → CompileM (Option Flow)
  | .absent => return none
  | .of pos statements => do
    enterScope {}
    let flow ← outlineStatements pos statements
    leaveScope
    return some flow

/-- The arm of an `else`. -/
def outlineElse : Option Block → CompileM Arms
  | none => return .none
  | some body => return .otherwise (← outlineBlock {} body) .none

/-- Conditions behind an `else` have no flow. -/
def refuseElseIfs : List ElseIf → CompileM Unit
  | [] => return ()
  | _ :: _ => throw .elseIf

/-- The arms of a switch. -/
def outlineCases : List Case → CompileM Arms
  | [] => return .none
  | c :: cs => do
    let arm ← outlineCase c
    let rest ← outlineCases cs
    return arm rest

/-- The arm of a case, to be put in front of the others. -/
def outlineCase : Case → CompileM (Arms → Arms)
  | .default body => return .otherwise (← outlineBlock {} body)
  | .labelled number name body => do
    let number ← lift id (optionalInt number)
    match ← caseWord number name with
    | none => return id
    | some word => return .ask (some (caseQuestion word)) (← outlineInside body)

end

/-- How a function is marked. -/
def FunctionDecl.kind (f : FunctionDecl) : Option FunctionKind :=
  f.common.map fun common => if common then FunctionKind.common else .entry

/-- The scope in which the body of a function with these parameters starts. -/
def parameterScope (parameters : List Variable) : Scope :=
  { vars := parameters.foldl (fun t v => t.insert v.name v) .empty }

/-- The flow of a function. -/
def outlineFunction (f : FunctionDecl) : CompileM Flow := do
  match f.name with
  | none => stop "Invalid name for function at: " f.pos
  | some name =>
    let kind := f.common.map fun common => if common then FunctionKind.common else .entry
    let parameters ← lift id (parameterVariables (f.params.getD []) [])
    let result ← lift id (resultOf f.result)
    let index ← intern (functionLabel kind name)
    onGraph fun c g => c.addFunction g ⟨kind, index, name, result, f.pos⟩
    modify fun s => { s with file := { s.file with locals := [] } }
    outlineBlock { vars := parameters.foldl (fun t v => t.insert v.name v) .empty } f.body

/-! ### What statements stand for -/

mutual

/-- In the state `s` the block stands for the flow, in a scope of its own; `t` is the state behind.
-/
inductive Block.StandsFor : Scope → CompileState → Block → Flow → CompileState → Prop where
  | of {scope : Scope} {pos : Pos} {ss : List Statement} {flow : Flow} {s s' t t' : CompileState} :
      Yields (enterScope scope) s () s' → StandFor pos s' ss flow t' → Yields leaveScope t' () t →
      Block.StandsFor scope s (.of pos ss) flow t

/-- Statements stand for what each of them stands for, one after the other. -/
inductive StandFor : Pos → CompileState → List Statement → Flow → CompileState → Prop where
  | nil {pos : Pos} {s : CompileState} : StandFor pos s [] .done s
  | cons {pos : Pos} {st : Statement} {ss : List Statement} {step : Step} {rest : Flow}
      {s t u : CompileState} : st.StandsFor pos s step t → StandFor pos t ss rest u →
      StandFor pos s (st :: ss) (.next step rest) u

/-- A statement without a block stands for the instructions that it makes, the call of a function
for none. An `if` asks the question of its condition, and there is one if the condition can be
tested; a `switch` takes the value of its subject and chooses among its cases. -/
inductive Statement.StandsFor : Pos → CompileState → Statement → Step → CompileState → Prop where
  | define {pos : Pos} {d : Definition} {is : List Instr} {s t : CompileState} :
      Yields (define .body d) s is t → Statement.StandsFor pos s (.define d) (.perform is) t
  | assign {pos : Pos} {a : Assignment} {is : List Instr} {s t : CompileState} :
      Yields (compileAssignment a) s is t → Statement.StandsFor pos s (.assign a) (.perform is) t
  | function {pos : Pos} {c : Call} {s t : CompileState} : s.called? c = none →
      Yields (warnFunctionCall pos) s () t → Statement.StandsFor pos s (.call c) (.perform []) t
  | command {pos : Pos} {c : Call} {d : Command} {args : List Arg} {i : Instr}
      {s t : CompileState} : s.called? c = some d → c.args = some args →
      Yields (compileCommandCall pos d args none none) s i t →
      Statement.StandsFor pos s (.call c) (.perform [i]) t
  | branch {pos : Pos} {c : Condition} {query : Query} {body : Block} {otherwise : Option Block}
      {inside : Option Flow} {arms : Arms} {s t u v : CompileState} :
      c.Asks s query → query.question.isSome = c.tested s → Yields (askCondition c) s query t →
      body.StandsInside t inside u → ElseStandsFor u otherwise arms v →
      Statement.StandsFor pos s (.branch (some c) body [] otherwise)
        (.choose query.setup (.ask query.question inside arms)) v
  | select {pos switchPos : Pos} {c : Condition} {setup : List Instr} {cases : List Case}
      {arms : List Arm} {s t u : CompileState} :
      c.Switches switchPos s setup → Yields (compileSubject (some c) switchPos) s setup t →
      CasesStandFor t cases arms u →
      Statement.StandsFor pos s (.select (some c) cases switchPos) (.choose setup (Arm.row arms)) u
  | inert {pos : Pos} {rule : Option Rule} {s : CompileState} :
      Statement.StandsFor pos s (.inert rule) (.perform []) s

/-- The inside of a branch stands for the flow of its block, if it is there. -/
inductive Block.StandsInside : CompileState → Block → Option Flow → CompileState → Prop where
  | absent {s : CompileState} : Block.StandsInside s .absent none s
  | block {b : Block} {flow : Flow} {s t : CompileState} : b.StandsFor {} s flow t →
      Block.StandsInside s b (some flow) t

/-- An `else` stands for the arm that is taken whatever happens. -/
inductive ElseStandsFor : CompileState → Option Block → Arms → CompileState → Prop where
  | none {s : CompileState} : ElseStandsFor s none .none s
  | block {b : Block} {flow : Flow} {s t : CompileState} : b.StandsFor {} s flow t →
      ElseStandsFor s (some b) (.otherwise flow .none) t

/-- Cases stand for arms, one after the other. -/
inductive CasesStandFor : CompileState → List Case → List Arm → CompileState → Prop where
  | nil {s : CompileState} : CasesStandFor s [] [] s
  | cons {c : Case} {cs : List Case} {arm : Arm} {arms : List Arm} {s t u : CompileState} :
      c.StandsFor s arm t → CasesStandFor t cs arms u → CasesStandFor s (c :: cs) (arm :: arms) u

/-- A case that is a number or the name of an integer constant is an arm with its word; any other
name is no arm. -/
inductive Case.StandsFor : CompileState → Case → Arm → CompileState → Prop where
  | default {b : Block} {flow : Flow} {s t : CompileState} : b.StandsFor {} s flow t →
      Case.StandsFor s (.default b) (.default flow) t
  | case {number : Option Numeral} {name : Option String} {b : Block} {word : Int}
      {body : Option Flow} {s t : CompileState} : caseValue? number name s = some word →
      b.StandsInside s body t → Case.StandsFor s (.labelled number name b) (.case word body) t
  | blank {number : Option Numeral} {name : Option String} {b : Block} {s : CompileState} :
      caseTested number name s = false → Case.StandsFor s (.labelled number name b) .blank s

end

mutual

/-- **The computed flow of a block** is what the block stands for. -/
theorem Block.standsFor_of_outline {scope : Scope} : ∀ (b : Block) {s t : CompileState}
    {flow : Flow}, Yields (outlineBlock scope b) s flow t → b.StandsFor scope s flow t
  | .absent, _, _, _, h => by
    rw [outlineBlock] at h
    obtain ⟨_, _, -, h⟩ := h.bind
    exact h.throw.elim
  | .of pos ss, s, t, flow, h => by
    rw [outlineBlock] at h
    obtain ⟨_, _, henter, h⟩ := h.bind
    obtain ⟨_, _, hss, h⟩ := h.bind
    obtain ⟨_, hleave, rfl⟩ := h.bind_pure
    exact .of henter (standFor_of_outline ss hss) hleave

theorem standFor_of_outline {pos : Pos} : ∀ (ss : List Statement) {s t : CompileState}
    {flow : Flow}, Yields (outlineStatements pos ss) s flow t → StandFor pos s ss flow t
  | [], _, _, _, h => by
    rw [outlineStatements] at h
    obtain ⟨rfl, rfl⟩ := h.pure
    exact .nil
  | st :: ss, s, t, flow, h => by
    rw [outlineStatements] at h
    obtain ⟨step, _, hst, h⟩ := h.bind
    obtain ⟨rest, hss, rfl⟩ := h.bind_pure
    exact .cons (st.standsFor_of_outline hst) (standFor_of_outline ss hss)

theorem Statement.standsFor_of_outline {pos : Pos} : ∀ (st : Statement) {s t : CompileState}
    {step : Step}, Yields (outlineStatement pos st) s step t → st.StandsFor pos s step t
  | .define d, _, _, _, h => by
    rw [outlineStatement] at h
    obtain ⟨_, hd, rfl⟩ := h.bind_pure
    exact .define hd
  | .assign a, _, _, _, h => by
    rw [outlineStatement] at h
    obtain ⟨_, ha, rfl⟩ := h.bind_pure
    exact .assign ha
  | .call c, _, _, _, h => by
    rw [outlineStatement] at h
    obtain ⟨⟨callee, args⟩, _, hcall, h⟩ := h.bind
    have hcalled := called?_of_yields hcall
    cases callee with
    | function f =>
      obtain ⟨_, hwarn, rfl⟩ := h.bind_pure
      obtain rfl := (yields_resolveCall.mp hcall).2.2
      exact .function hcalled hwarn
    | command d =>
      obtain ⟨-, hargs, rfl⟩ := hcall.resolveCall_command
      obtain ⟨i, hi, rfl⟩ := h.bind_pure
      exact .command hcalled hargs hi
  | .branch condition body elseIfs otherwise, s, t, step, h => by
    rw [outlineStatement] at h
    replace h := h.need_bind
    obtain ⟨c, rfl, h⟩ := h
    obtain ⟨query, _, hquery, h⟩ := h.bind
    obtain ⟨inside, _, hinside, h⟩ := h.bind
    obtain ⟨_, _, hrefuse, h⟩ := h.bind
    obtain ⟨arms, hother, rfl⟩ := h.bind_pure
    cases elseIfs with
    | cons => exact hrefuse.throw.elim
    | nil =>
      obtain ⟨-, rfl⟩ := hrefuse.pure
      exact .branch (asks_of_askCondition hquery) (question_of_askCondition hquery) hquery
        (body.standsInside_of_outline hinside) (elseStandsFor_of_outline otherwise hother)
  | .select subject cases switchPos, s, t, step, h => by
    rw [outlineStatement] at h
    obtain ⟨setup, _, hsetup, h⟩ := h.bind
    obtain ⟨_, hcases, rfl⟩ := h.bind_pure
    obtain ⟨c, rfl, hswitches, -⟩ := switches_of_compileSubject hsetup
    obtain ⟨arms, rfl, harms⟩ := casesStandFor_of_outline cases hcases
    exact .select hswitches hsetup harms
  | .inert _, _, _, _, h => by
    rw [outlineStatement] at h
    obtain ⟨rfl, rfl⟩ := h.pure
    exact .inert

theorem Block.standsInside_of_outline : ∀ (b : Block) {s t : CompileState}
    {inside : Option Flow}, Yields (outlineInside b) s inside t → b.StandsInside s inside t
  | .absent, _, _, _, h => by
    rw [outlineInside] at h
    obtain ⟨rfl, rfl⟩ := h.pure
    exact .absent
  | .of pos ss, s, t, inside, h => by
    rw [outlineInside] at h
    obtain ⟨_, _, henter, h⟩ := h.bind
    obtain ⟨_, _, hss, h⟩ := h.bind
    obtain ⟨_, hleave, rfl⟩ := h.bind_pure
    exact .block (.of henter (standFor_of_outline ss hss) hleave)

theorem elseStandsFor_of_outline : ∀ (o : Option Block) {s t : CompileState} {arms : Arms},
    Yields (outlineElse o) s arms t → ElseStandsFor s o arms t
  | none, _, _, _, h => by
    rw [outlineElse] at h
    obtain ⟨rfl, rfl⟩ := h.pure
    exact .none
  | some b, s, t, arms, h => by
    rw [outlineElse] at h
    obtain ⟨flow, hb, rfl⟩ := h.bind_pure
    exact .block (b.standsFor_of_outline hb)

theorem casesStandFor_of_outline : ∀ (cs : List Case) {s t : CompileState} {arms : Arms},
    Yields (outlineCases cs) s arms t → ∃ row, arms = Arm.row row ∧ CasesStandFor s cs row t
  | [], _, _, _, h => by
    rw [outlineCases] at h
    obtain ⟨rfl, rfl⟩ := h.pure
    exact ⟨[], rfl, .nil⟩
  | .default b :: cs, s, t, arms, h => by
    rw [outlineCases, outlineCase] at h
    obtain ⟨_, _, hfirst, h⟩ := h.bind
    obtain ⟨flow, hb, rfl⟩ := hfirst.bind_pure
    obtain ⟨rest, hrest, rfl⟩ := h.bind_pure
    obtain ⟨row, rfl, hrow⟩ := casesStandFor_of_outline cs hrest
    exact ⟨.default flow :: row, rfl, .cons (.default (b.standsFor_of_outline hb)) hrow⟩
  | .labelled number name b :: cs, s, t, arms, h => by
    rw [outlineCases, outlineCase, ← bind_assoc] at h
    obtain ⟨_, _, hfirst, h⟩ := h.bind
    obtain ⟨word, _, hword, hfirst⟩ := hfirst.bind
    obtain ⟨hvalue, htested, rfl⟩ := yields_readCase hword
    obtain ⟨rest, hrest, rfl⟩ := h.bind_pure
    obtain ⟨row, rfl, hrow⟩ := casesStandFor_of_outline cs hrest
    cases word with
    | none =>
      obtain ⟨rfl, rfl⟩ := hfirst.pure
      exact ⟨.blank :: row, rfl, .cons (.blank htested.symm) hrow⟩
    | some word =>
      obtain ⟨body, hbody, rfl⟩ := hfirst.bind_pure
      exact ⟨.case word body :: row, rfl,
        .cons (.case hvalue.symm (b.standsInside_of_outline hbody)) hrow⟩

end

/-- A function stands for what its body stands for, where the function is declared, its parameters
are in scope and no register is given out. -/
inductive FunctionDecl.StandsFor (f : FunctionDecl) (s : CompileState) (flow : Flow)
    (t : CompileState) : Prop where
  | body {name : String} {parameters : List Variable} {result : Option ResultType} {index : Nat}
      {u : CompileState} : f.name = some name →
      parameterVariables (f.params.getD []) [] = .ok parameters → resultOf f.result = .ok result →
      Yields (intern (functionLabel f.kind name)) s index u →
      f.body.StandsFor (parameterScope parameters)
        { u with
          graph := u.file.cursor.addFunction u.graph ⟨f.kind, index, name, result, f.pos⟩
          file := { u.file with locals := [] } } flow t → f.StandsFor s flow t

/-- The computed flow of a function is what the function stands for. -/
theorem FunctionDecl.standsFor_of_outline {f : FunctionDecl} {flow : Flow}
    (h : Yields (outlineFunction f) s flow t) : f.StandsFor s flow t := by
  unfold outlineFunction at h
  cases hname : f.name with
  | none =>
    rw [hname] at h
    exact h.stop.elim
  | some name =>
    rw [hname] at h
    obtain ⟨parameters, hp, h⟩ := h.lift_bind
    obtain ⟨result, hr, h⟩ := h.lift_bind
    obtain ⟨index, u, hindex, h⟩ := h.bind
    obtain ⟨_, _, hgraph, h⟩ := h.bind
    obtain rfl := hgraph.onGraph
    obtain ⟨_, _, hfile, h⟩ := h.bind
    obtain rfl := hfile.modify
    exact .body hname hp hr hindex (f.body.standsFor_of_outline h)

/-! ### Complete blocks -/

mutual

/-- The block is there, every `if` in it has an `else`, and every `switch` ends with its only
default. -/
def Block.complete : Block → Bool
  | .absent => false
  | .of _ statements => completeStatements statements

/-- All statements are complete. -/
def completeStatements : List Statement → Bool
  | [] => true
  | s :: ss => s.complete && completeStatements ss

/-- The statement is complete. -/
def Statement.complete : Statement → Bool
  | .branch _ body _ otherwise => body.complete && completeElse otherwise
  | .select _ cases _ => completeCases cases
  | _ => true

/-- There is an `else`, and it is complete. -/
def completeElse : Option Block → Bool
  | none => false
  | some body => body.complete

/-- The cases end with their only default, and they are complete. -/
def completeCases : List Case → Bool
  | [] => false
  | [.default body] => body.complete
  | .default _ :: _ :: _ => false
  | .labelled _ _ body :: cs => body.complete && completeCases cs

end

theorem Arms.closed_ask {question : Option Instr} {flow : Flow} {rest : Arms}
    (hflow : flow.closed = true) (hrest : rest.closed = true) :
    (Arms.ask question (some flow) rest).closed = true := by
  cases question with
  | none => exact hrest
  | some q => simp [Arms.ask, Arms.closed, hflow, hrest]

mutual

/-- **In the flow of a complete block** every choice has an arm to take. -/
theorem Block.closed_of_complete {scope : Scope} : ∀ (b : Block) {s t : CompileState}
    {flow : Flow}, b.StandsFor scope s flow t → b.complete = true → flow.closed = true
  | .absent, _, _, _, _, hb => by simp [Block.complete] at hb
  | .of _ ss, _, _, _, h, hb => by
    cases h with
    | of _ hss _ => exact closed_of_completeStatements ss hss (by rwa [Block.complete] at hb)

theorem closed_of_completeStatements {pos : Pos} : ∀ (ss : List Statement) {s t : CompileState}
    {flow : Flow}, StandFor pos s ss flow t → completeStatements ss = true → flow.closed = true
  | [], _, _, _, h, _ => by
    cases h
    rfl
  | st :: ss, _, _, _, h, hb => by
    cases h with
    | cons hst hss =>
      rw [completeStatements, Bool.and_eq_true] at hb
      rw [Flow.closed, Bool.and_eq_true]
      exact ⟨st.closed_of_complete hst hb.1, closed_of_completeStatements ss hss hb.2⟩

theorem Statement.closed_of_complete {pos : Pos} : ∀ (st : Statement) {s t : CompileState}
    {step : Step}, st.StandsFor pos s step t → st.complete = true → step.closed = true
  | .define _, _, _, _, h, _ | .assign _, _, _, _, h, _ | .call _, _, _, _, h, _
  | .inert _, _, _, _, h, _ => by cases h <;> rfl
  | .branch _ body _ otherwise, _, _, _, h, hb => by
    cases h with
    | branch _ _ _ hinside hother =>
      rw [Statement.complete, Bool.and_eq_true] at hb
      obtain ⟨flow, rfl, hflow⟩ := body.closed_inside_of_complete hinside hb.1
      exact Arms.closed_ask hflow (closed_of_completeElse otherwise hother hb.2)
  | .select _ cs _, _, _, _, h, hb => by
    cases h with
    | select _ _ hcases =>
      exact closed_of_completeCases cs hcases (by rwa [Statement.complete] at hb)

theorem Block.closed_inside_of_complete : ∀ (b : Block) {s t : CompileState}
    {inside : Option Flow}, b.StandsInside s inside t → b.complete = true →
    ∃ flow, inside = some flow ∧ flow.closed = true
  | .absent, _, _, _, _, hb => by simp [Block.complete] at hb
  | .of pos ss, _, _, _, h, hb => by
    cases h with
    | block hflow =>
      cases hflow with
      | of _ hss _ =>
        rw [Block.complete] at hb
        exact ⟨_, rfl, closed_of_completeStatements ss hss hb⟩

theorem closed_of_completeElse : ∀ (o : Option Block) {s t : CompileState} {arms : Arms},
    ElseStandsFor s o arms t → completeElse o = true → arms.closed = true
  | none, _, _, _, _, hb => by simp [completeElse] at hb
  | some body, _, _, _, h, hb => by
    cases h with
    | block hflow => exact body.closed_of_complete hflow (by rwa [completeElse] at hb)

theorem closed_of_completeCases : ∀ (cs : List Case) {s t : CompileState} {arms : List Arm},
    CasesStandFor s cs arms t → completeCases cs = true → (Arm.row arms).closed = true
  | [], _, _, _, _, hb => by simp [completeCases] at hb
  | [.default body], _, _, _, h, hb => by
    cases h with
    | cons hdefault _ =>
      cases hdefault with
      | default hflow => exact body.closed_of_complete hflow (by rwa [completeCases] at hb)
  | .default _ :: _ :: _, _, _, _, _, hb => by simp [completeCases] at hb
  | .labelled _ _ body :: cs, _, _, _, h, hb => by
    rw [completeCases, Bool.and_eq_true] at hb
    cases h with
    | cons hcase hrest =>
      have hclosed := closed_of_completeCases cs hrest hb.2
      cases hcase with
      | blank => exact hclosed
      | case _ hbody =>
        obtain ⟨flow, rfl, hflow⟩ := body.closed_inside_of_complete hbody hb.1
        exact Arms.closed_ask hflow hclosed

end

theorem FunctionDecl.closed_of_complete {f : FunctionDecl} {flow : Flow}
    (h : f.StandsFor s flow t) (hb : f.body.complete = true) : flow.closed = true := by
  obtain ⟨-, -, -, -, hbody⟩ := h
  exact f.body.closed_of_complete hbody hb

end EvScript
