import EvScript.Proofs.Control.Questions

/-!
# What Steps Keep

A **view** is something that can be seen of a state; a step keeps a view if it is the same however
the step ends. Many steps keep every view that overlooks the log, what is printed and the parameters
of commands; making code keeps those that overlook the code as well, and definitions those that
overlook the registers too.
-/

namespace EvScript

variable {γ : Type} {view : CompileState → γ}

/-- The view shows neither the log nor what was printed, neither the parameters that no call has
looked at nor errors of reading. -/
class Overlooks (view : CompileState → γ) : Prop where
  log : ∀ s entries, view { s with log := entries } = view s
  printed : ∀ s lines, view { s with printed := lines } = view s
  unseen : ∀ s params, view { s with unseen := params } = view s
  errors : ∀ s lexErrors syntaxErrors,
    view { s with lexErrors := lexErrors, syntaxErrors := syntaxErrors } = view s

/-- The view does not show the registers that were given out. -/
class OverlooksLocals (view : CompileState → γ) : Prop where
  locals : ∀ s registers, view { s with file := { s.file with locals := registers } } = view s

/-- The view does not show the code either. -/
class OverlooksCode (view : CompileState → γ) : Prop extends Overlooks view where
  code : ∀ s code, view { s with file := { s.file with code := code } } = view s

namespace CompileM

variable {α β ε : Type} {s s' : CompileState}
variable {m : CompileM α} {f : α → CompileM β}

/-- However the step ends, the view is as before. -/
def Keeps (view : CompileState → γ) (m : CompileM α) : Prop := ∀ s, view (ending m s).2 = view s

theorem Keeps.yields {a : α} (h : Keeps view m) (hy : Yields m s a s') : view s' = view s := by
  have hsame := h s
  rwa [hy.ends] at hsame

theorem Keeps.pure (a : α) : Keeps view (Pure.pure a : CompileM α) := fun _ => rfl

theorem Keeps.throw (e : Fault) : Keeps view (throw e : CompileM α) := fun _ => rfl

/-- What comes next may rely on a value that the first part can come to. -/
theorem Keeps.bind_of_yields (hm : Keeps view m)
    (hf : ∀ a s t, Yields m s a t → Keeps view (f a)) : Keeps view (m >>= f) := by
  intro s
  have hfirst := hm s
  rw [ending_bind]
  cases h : ending m s with
  | mk r t =>
    rw [h] at hfirst
    cases r with
    | error e => exact hfirst
    | ok a => exact (hf a s t h t).trans hfirst

theorem Keeps.bind (hm : Keeps view m) (hf : ∀ a, Keeps view (f a)) : Keeps view (m >>= f) :=
  hm.bind_of_yields fun a _ _ _ => hf a

theorem Keeps.get_bind {k : CompileState → CompileM α} (hk : ∀ s, Keeps view (k s)) :
    Keeps view (get >>= k) :=
  fun s => hk s s

theorem Keeps.modify {f : CompileState → CompileState} (hf : ∀ s, view (f s) = view s) :
    Keeps view (modify f : CompileM Unit) :=
  hf

/-! ### Looking and telling -/

theorem keeps_place (pos : Pos) : Keeps view (place pos) :=
  .get_bind fun _ => .pure _

theorem keeps_need (what : Absent) (o : Option α) : Keeps view (need what o) := by
  cases o with
  | none => exact .throw _
  | some a => exact .pure a

theorem keeps_lift (fault : ε → Fault) (x : Except ε α) : Keeps view (lift fault x) := by
  cases x with
  | error e => exact .throw _
  | ok a => exact .pure a

theorem keeps_resolve (shelf : Shelf α) (name : Option String) : Keeps view (resolve shelf name) :=
  (keeps_need _ _).bind fun _ => .get_bind fun _ => .pure _

theorem keeps_target (label : LabelId) : Keeps view (target label) :=
  .get_bind fun _ => .pure _

section

variable [Overlooks view]

theorem keeps_tell (level : LogLevel) (message : String) : Keeps view (tell level message) :=
  .modify fun s => Overlooks.log s _

theorem keeps_printLine (line : String) : Keeps view (printLine line) :=
  .modify fun s => Overlooks.printed s _

theorem keeps_warn (message : String) (pos : Pos) : Keeps view (warn message pos) :=
  (keeps_place pos).bind fun _ => keeps_tell _ _

theorem keeps_stopWith (message : String) : Keeps view (stopWith message : CompileM α) :=
  (keeps_tell _ _).bind fun _ => .throw _

theorem keeps_stop (message : String) (pos : Pos) : Keeps view (stop message pos : CompileM α) :=
  (keeps_place pos).bind fun _ => keeps_stopWith _

theorem keeps_seekReturn (serial i : Nat) (ps : List Param) :
    Keeps view (seekReturn serial i ps) := by
  induction ps generalizing i with
  | nil => exact .pure _
  | cons p ps ih =>
    refine Keeps.bind (.modify fun s => Overlooks.unseen s _) fun _ =>
      (keeps_lift _ _).bind fun parameter => ?_
    split
    · exact (keeps_tell _ _).bind fun _ => .pure _
    · exact ih (i + 1)

theorem keeps_returnIndex (c : Command) : Keeps view (returnIndex c) :=
  .get_bind fun _ => keeps_seekReturn _ _ _

theorem keeps_allocateLocal [OverlooksLocals view] (type : ValueType) (pos : Pos) :
    Keeps view (allocateLocal type pos) := by
  unfold allocateLocal
  dsimp only
  split
  · rw [stop_bind]
    exact keeps_stop _ _
  · refine .get_bind fun s => ?_
    split
    · exact Keeps.bind (.modify fun s => OverlooksLocals.locals s _) fun _ => .pure _
    · exact keeps_stop _ _

/-- The effects that a view does not show. -/
def Kept (view : CompileState → γ) : Effect → Prop
  | .intern text => Keeps view (intern text)
  | .params | .complaint => True
  | .register => ∀ type pos, Keeps view (allocateLocal type pos)

theorem DoesOnly.keeps (h : DoesOnly (Kept view) m) : Keeps view m := by
  induction h with
  | pure a => exact .pure a
  | throw => exact .throw _
  | bind _ _ hm hf => exact hm.bind_of_yields hf
  | place pos => exact keeps_place pos
  | resolve shelf name => exact keeps_resolve shelf name
  | tell message => exact keeps_tell _ message
  | stopWith message => exact keeps_stopWith message
  | printLine line => exact keeps_printLine line
  | errors => exact .modify fun s => Overlooks.errors s _ _
  | intern h => exact h
  | returnIndex c => exact keeps_returnIndex c
  | allocateLocal type pos h => exact h type pos

end

end CompileM

open CompileM

/-! ### Steps without code -/

theorem keeps_caseWord (number : Option Int) (name : Option String) :
    Keeps view (caseWord number name) := by
  unfold caseWord
  split
  · exact (keeps_lift _ _).bind fun _ => .pure _
  · exact (keeps_resolve _ _).bind fun _ => (keeps_need _ _).bind fun _ => .pure _

section

variable [Overlooks view]

theorem keeps_resolveCall (c : Call) : Keeps view (resolveCall c) := (doesOnly_resolveCall c).keeps

theorem keeps_constantOf (a : Assigned) (type : ValueType) : Keeps view (constantOf a type) :=
  (doesOnly_constantOf a type).keeps

theorem keeps_allocate [OverlooksLocals view] (level : Level) (type : ValueType) (pos : Pos) :
    Keeps view (allocate level type pos) :=
  (doesOnly_allocate type pos keeps_allocateLocal fun _ => trivial).keeps

theorem keeps_storageFor [OverlooksLocals view] (level : Level) (type : ValueType) (pos : Pos)
    (number : Option Int) : Keeps view (storageFor level type pos number) := by
  cases number with
  | some n => exact .pure _
  | none => exact keeps_allocate level type pos

theorem keeps_loadProgram (fs : Files) (mode : ReadMode) (path : String) :
    Keeps view (loadProgram fs mode path) :=
  (doesOnly_loadProgram fs mode path).keeps

end

/-! ### Steps that make code -/

section

variable [OverlooksCode view]

theorem keeps_onCode {α : Type} (f : Assembly → α × Assembly) : Keeps view (onCode f) :=
  fun s => OverlooksCode.code s _

theorem calls_kept : Effect.Calls (Kept view) := ⟨trivial, fun _ => keeps_onCode _⟩

theorem keeps_evaluate (a : Arg) : Keeps view (evaluate a) :=
  (doesOnly_evaluate fun _ _ => calls_kept.intern _).keeps

theorem keeps_operandsOf (pos : Pos) (args : List Arg) : Keeps view (operandsOf pos args) :=
  (doesOnly_operandsOf pos fun _ _ _ _ => calls_kept.intern _).keeps

theorem keeps_compileCommandCall (pos : Pos) (c : Command) (args : List Arg)
    (wanted : Option ValueType) (storage : Option Int) :
    Keeps view (compileCommandCall pos c args wanted storage) :=
  (doesOnly_compileCommandCall trivial fun _ _ _ _ => calls_kept.intern _).keeps

theorem keeps_compileAssigned (a : Assigned) (type : ValueType) (storage : Option Int) :
    Keeps view (compileAssigned a type storage) :=
  (doesOnly_compileAssigned (calls_kept.assigned a)).keeps

theorem keeps_compileDefinition [OverlooksLocals view] (level : Level) (mutable : Bool)
    (d : Definition) : Keeps view (compileDefinition level mutable d) :=
  (doesOnly_compileDefinition keeps_allocateLocal (fun _ => trivial) fun a _ =>
    calls_kept.assigned a).keeps

theorem keeps_compileAssignment (a : Assignment) : Keeps view (compileAssignment a) :=
  (doesOnly_compileAssignment fun a _ => calls_kept.assigned a).keeps

theorem keeps_compileCondition (c : Condition) (destination : LabelId) :
    Keeps view (compileCondition c destination) := by
  rw [compileCondition_eq]
  exact (doesOnly_askCondition (calls_kept.condition c)).keeps.bind fun _ =>
    (keeps_target _).bind fun _ => .pure _

theorem keeps_compileSubject (subject : Option Condition) (pos : Pos) :
    Keeps view (compileSubject subject pos) :=
  (doesOnly_compileSubject pos fun _ _ call _ => calls_kept.call call).keeps

theorem keeps_compileElseIfs (l : LabelId) (elseIfs : List ElseIf) :
    Keeps view (compileElseIfs l elseIfs) := by
  cases elseIfs with
  | nil => exact .pure _
  | cons => exact (keeps_onCode _).bind fun _ => .throw _

end

/-! ### Scopes -/

namespace CompileM

/-- The scopes, and the place in them. -/
def scopes (s : CompileState) : ScopeGraph × Cursor := (s.graph, s.file.cursor)

instance : OverlooksCode scopes where
  log _ _ := rfl
  printed _ _ := rfl
  unseen _ _ := rfl
  errors _ _ _ := rfl
  code _ _ := rfl

instance : OverlooksLocals scopes := ⟨fun _ _ => rfl⟩

end CompileM

variable {s t u : CompileState}

/-- Names mean the same in both states. -/
def SameScopes (s t : CompileState) : Prop :=
  t.graph = s.graph ∧ t.file.cursor = s.file.cursor

theorem SameScopes.refl (s : CompileState) : SameScopes s s := ⟨rfl, rfl⟩

theorem SameScopes.trans (h : SameScopes s t) (h' : SameScopes t u) : SameScopes s u :=
  ⟨h'.1.trans h.1, h'.2.trans h.2⟩

theorem CompileM.Keeps.sameScopes {α : Type} {m : CompileM α} {a : α} (h : Keeps scopes m)
    (hy : Yields m s a t) : SameScopes s t :=
  Prod.ext_iff.mp (h.yields hy)

end EvScript
