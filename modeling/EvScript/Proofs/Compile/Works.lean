import EvScript.Proofs.Control.Arrivals
import EvScript.Proofs.Syntax.Words

/-!
# What Bodies Do

To compile a body is to take small steps, to put instructions under labels, to make children of
labels, and to go into scopes and out of them. What is true of these, and of sequences if it is true
of their parts, is true of all bodies whose strings may come into the table.
-/

namespace EvScript

open CompileM

/-- A step that does only what is allowed, and besides puts instructions under labels, makes
children of labels, and changes the scopes. -/
inductive Works (may : Effect → Prop) : {α : Type} → CompileM α → Prop where
  | does {α : Type} {m : CompileM α} : DoesOnly may m → Works may m
  | bind {α β : Type} {m : CompileM α} {f : α → CompileM β} : Works may m →
      (∀ a s t, Yields m s a t → Works may (f a)) → Works may (m >>= f)
  | emit (l : LabelId) (is : List Instr) : Works may (emit l is)
  | jump (l after : LabelId) : Works may (jump l after)
  | newChild (l : LabelId) : Works may (newChild l)
  | target (l : LabelId) : Works may (target l)
  | onGraph (f : Cursor → ScopeGraph → ScopeGraph) : Works may (onGraph f)
  | enterScope (scope : Scope) : Works may (enterScope scope)
  | leaveScope : Works may leaveScope

/-- All that bodies do is allowed, whatever strings there are in them. -/
structure Effect.Bodies (may : Effect → Prop) : Prop where
  params : may .params
  register : may .register
  comparators : ∀ text word, comparatorWord text = some word → may (.intern word)

/-- If the word is a string, it may come into the table. -/
def Permits (may : Effect → Prop) (w : Kind × String) : Prop :=
  ∀ literal, w = (.string, literal) → may (.intern (unquote literal))

variable {may : Effect → Prop} {α β : Type}

theorem Works.then {m : CompileM α} {f : α → CompileM β} (hm : Works may m)
    (hf : ∀ a, Works may (f a)) : Works may (m >>= f) :=
  hm.bind fun a _ _ _ => hf a

theorem Works.pure (a : α) : Works may (Pure.pure a : CompileM α) := .does (.pure a)

theorem Effect.Bodies.call (hmay : Effect.Bodies may) {c : Call}
    (h : ∀ w ∈ c.words, Permits may w) : c.Allows may := by
  refine ⟨hmay.params, fun args hargs a ha literal hvalue => h (.string, literal) ?_ literal rfl⟩
  rw [Call.words, hargs]
  exact List.mem_flatMap.mpr ⟨a, by simpa using ha, by simp [Arg.words, hvalue]⟩

theorem Effect.Bodies.value (hmay : Effect.Bodies may) {a : Assigned} {value : Option Assigned}
    (h : ∀ w ∈ value.toList.flatMap Assigned.words, Permits may w) (ha : value = some a) :
    a.Allows may := by
  intro c hvalue
  refine hmay.call fun w hw => h w ?_
  simpa [ha, Assigned.words, hvalue] using hw

/-! ### Statements -/

theorem works_define (hmay : Effect.Bodies may) (level : Level) {d : Definition}
    (htop : level = .top → may .complaint) (h : ∀ w ∈ d.words, Permits may w) :
    Works may (define level d) :=
  (Works.does (doesOnly_compileDefinition hmay.register htop fun _ => hmay.value h)).then
    fun _ => (Works.onGraph _).then fun _ => .pure _

theorem works_compileCondition (hmay : Effect.Bodies may) {c : Condition} (destination : LabelId)
    (h : ∀ w ∈ c.words, Permits may w) : Works may (compileCondition c destination) := by
  rw [compileCondition_eq]
  have hallows : c.Allows may := by
    refine ⟨fun left comparator right hform call hcall => hmay.call fun w hw => h w ?_,
      hmay.comparators⟩
    simpa [Condition.words, hform, LeftOperand.words, hcall] using hw
  exact (Works.does (doesOnly_askCondition hallows)).then fun _ => (Works.target _).then
    fun _ => .pure _

theorem works_compileSubject (hmay : Effect.Bodies may) {subject : Option Condition} (pos : Pos)
    (h : ∀ w ∈ subject.toList.flatMap Condition.words, Permits may w) :
    Works may (compileSubject subject pos) := by
  refine .does (doesOnly_compileSubject pos fun c hc call hform => hmay.call fun w hw => h w ?_)
  obtain rfl := hc
  simpa [Condition.words, hform] using hw

theorem works_compileElseIfs (l : LabelId) (es : List ElseIf) :
    Works may (compileElseIfs l es) := by
  cases es with
  | nil => exact .pure _
  | cons => exact (Works.newChild l).then fun _ => .does (.throw rfl)

/-- The inside of a branch is a block with a jump behind it, or nothing. -/
theorem works_compileInside {l after : LabelId} {b : Block} (h : Works may (compileBlock {} l b)) :
    Works may (compileInside l after b) := by
  cases b with
  | absent =>
    rw [compileInside]
    exact .pure _
  | of pos xs =>
    rw [compileInside_of]
    exact h.then fun _ => .jump _ _

mutual

theorem works_compileBlock (hmay : Effect.Bodies may) (scope : Scope) (l : LabelId) : ∀ b : Block,
    (∀ w ∈ b.words, Permits may w) → Works may (compileBlock scope l b)
  | .absent, _ => by
    rw [compileBlock]
    exact (Works.enterScope _).then fun _ => .does (.throw rfl)
  | .of pos statements, h => by
    rw [Block.words] at h
    rw [compileBlock]
    exact (Works.enterScope _).then fun _ =>
      (works_compileStatements hmay pos l statements h).then fun _ =>
        Works.leaveScope.then fun _ => .pure _

theorem works_compileStatements (hmay : Effect.Bodies may) (pos : Pos) (l : LabelId) :
    ∀ xs : List Statement, (∀ w ∈ statementsWords xs, Permits may w) →
    Works may (compileStatements pos l xs)
  | [], _ => by
    rw [compileStatements]
    exact .pure _
  | x :: xs, h => by
    rw [statementsWords, List.forall_mem_append] at h
    rw [compileStatements]
    exact (works_compileStatement hmay pos l x h.1).then fun l' =>
      works_compileStatements hmay pos l' xs h.2

theorem works_compileStatement (hmay : Effect.Bodies may) (pos : Pos) (l : LabelId) :
    ∀ x : Statement, (∀ w ∈ x.words, Permits may w) → Works may (compileStatement pos l x)
  | .define d, h => by
    rw [Statement.words] at h
    rw [compileStatement]
    exact (works_define hmay .body nofun h).then fun _ => (Works.emit _ _).then fun _ => .pure _
  | .assign a, h => by
    rw [Statement.words] at h
    rw [compileStatement]
    exact (Works.does (doesOnly_compileAssignment fun _ => hmay.value h)).then fun _ =>
      (Works.emit _ _).then fun _ => .pure _
  | .call c, h => by
    rw [Statement.words] at h
    rw [compileStatement]
    refine (Works.does (doesOnly_resolveCall c)).bind fun ⟨callee, args⟩ _ _ hc => ?_
    cases callee with
    | function f => exact .does ((DoesOnly.warn _ _).then fun _ => .pure _)
    | command d =>
      have hargs := (hmay.call h).args args (yields_resolveCall.mp hc).2.1
      exact (Works.does (doesOnly_compileCommandCall hmay.params hargs)).then fun _ =>
        (Works.emit _ _).then fun _ => .pure _
  | .branch condition body elseIfs otherwise, h => by
    rw [Statement.words, List.forall_mem_append, List.forall_mem_append,
      List.forall_mem_append] at h
    obtain ⟨hcondition, hbody, -, hotherwise⟩ := h
    rw [compileStatement]
    refine (Works.newChild l).then fun after => (Works.newChild l).then fun inside =>
      (Works.does (.need _ _)).bind fun c _ _ hc => ?_
    obtain ⟨rfl, -⟩ := hc.need
    exact (works_compileCondition hmay inside (by simpa using hcondition)).then fun _ =>
      (Works.emit _ _).then fun _ =>
      (works_compileInside (works_compileBlock hmay {} inside body hbody)).then fun _ =>
      (works_compileElseIfs l elseIfs).then fun _ =>
      (works_compileElse hmay l after otherwise hotherwise).then fun _ => .pure _
  | .select subject cases switchPos, h => by
    rw [Statement.words, List.forall_mem_append] at h
    rw [compileStatement]
    exact (works_compileSubject hmay switchPos h.1).then fun _ => (Works.emit _ _).then fun _ =>
      (Works.newChild l).then fun after =>
      (works_compileCases hmay l after cases h.2).then fun _ => .pure _
  | .inert _, _ => by
    rw [compileStatement]
    exact .pure _

theorem works_compileElse (hmay : Effect.Bodies may) (l after : LabelId) : ∀ b : Option Block,
    (∀ w ∈ otherwiseWords b, Permits may w) → Works may (compileElse l after b)
  | none, _ => by
    rw [compileElse]
    exact .pure _
  | some b, h => by
    rw [otherwiseWords] at h
    rw [compileElse]
    exact (works_compileBlock hmay _ l b h).then fun _ => .jump _ _

theorem works_compileCases (hmay : Effect.Bodies may) (l after : LabelId) : ∀ cs : List Case,
    (∀ w ∈ casesWords cs, Permits may w) → Works may (compileCases l after cs)
  | [], _ => by
    rw [compileCases]
    exact .pure _
  | c :: cs, h => by
    rw [casesWords, List.forall_mem_append] at h
    rw [compileCases]
    exact (works_compileCase hmay l after c h.1).then fun _ =>
      works_compileCases hmay l after cs h.2

theorem works_compileCase (hmay : Effect.Bodies may) (l after : LabelId) : ∀ c : Case,
    (∀ w ∈ c.words, Permits may w) → Works may (compileCase l after c)
  | .default body, h => by
    rw [Case.words] at h
    rw [compileCase]
    exact (works_compileBlock hmay _ l body h).then fun _ => .jump _ _
  | .labelled number name body, h => by
    rw [Case.words] at h
    rw [compileCase]
    refine (Works.does (.lift (untold_optionalInt number))).then fun n =>
      (Works.newChild l).then fun inside =>
      (Works.does (doesOnly_caseWord n name)).then fun word => ?_
    cases word with
    | none => exact .pure _
    | some word =>
      exact (Works.target _).then fun _ => (Works.emit _ _).then fun _ =>
        works_compileInside (works_compileBlock hmay {} inside body h)

end

end EvScript
