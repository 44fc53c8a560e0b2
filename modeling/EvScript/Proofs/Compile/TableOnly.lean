import EvScript.Proofs.Code.Growth
import EvScript.Proofs.Compile.Effects
import EvScript.Proofs.Scope.Declared

/-!
# Steps that Only Use the Table of Strings

All that most steps need of the code is its table of strings. `TableOnly m` says that the labels are
as before, with at most new strings behind the old ones, and that the step can be **replayed** over
any other code whose table already has the strings it left, with the same result. So one can speak
of the instructions of a statement apart from the labels they end up under.

The `Silent` ones also leave alone the parameters that no call has looked at yet, and the commands.
-/

namespace EvScript

variable {f : CompileState → CompileState}

/-- The state with other code in the file under way. -/
def CompileState.withCode (s : CompileState) (c : Assembly) : CompileState :=
  { s with file := { s.file with code := c } }

@[simp] theorem CompileState.withCode_code (s : CompileState) (c : Assembly) :
    (s.withCode c).file.code = c := rfl

/-- From one state to another nothing happened to commands: the parameters that no call has
looked at are the same, and no command has come up. -/
structure Quiet (s s' : CompileState) : Prop where
  unseen : s'.unseen = s.unseen
  commands : ∀ d, s'.graph.OnShelf (·.commands) d → s.graph.OnShelf (·.commands) d

theorem Quiet.refl (s : CompileState) : Quiet s s := ⟨rfl, fun _ h => h⟩

theorem Quiet.trans {s t u : CompileState} (h : Quiet s t) (h' : Quiet t u) : Quiet s u :=
  ⟨h'.unseen.trans h.unseen, fun d hd => h.commands d (h'.commands d hd)⟩

namespace CompileM

variable {α β ε : Type}
variable {m : CompileM α} {k : CompileState → CompileM α}

/-- A step that uses the code for its table of strings only. -/
structure TableOnly (m : CompileM α) : Prop where
  code : ∀ {s a s'}, Yields m s a s' → s.file.code.MoreStrings s'.file.code
  replay : ∀ {s a s'}, Yields m s a s' → ∀ c : Assembly,
    s'.file.code.strings <+: c.strings → Yields m (s.withCode c) a (s'.withCode c)

/-- A step that uses the code for its table of strings only, and leaves commands alone. -/
structure Silent (m : CompileM α) : Prop extends TableOnly m where
  quiet : ∀ {s a s'}, Yields m s a s' → Quiet s s'

/-! ### Composition -/

theorem TableOnly.pure (a : α) : TableOnly (Pure.pure a : CompileM α) where
  code h := by
    obtain ⟨-, rfl⟩ := h.pure
    exact .refl _
  replay h c _ := by
    obtain ⟨rfl, rfl⟩ := h.pure
    exact yields_pure.mpr ⟨rfl, rfl⟩

/-- What comes next may rely on a value that the first part can come to. -/
theorem TableOnly.bind_of_yields {f : α → CompileM β} (hm : TableOnly m)
    (hf : ∀ a s t, Yields m s a t → TableOnly (f a)) : TableOnly (m >>= f) where
  code h := by
    obtain ⟨a, t, h₁, h₂⟩ := h.bind
    exact (hm.code h₁).trans ((hf a _ _ h₁).code h₂)
  replay h c hc := by
    obtain ⟨a, t, h₁, h₂⟩ := h.bind
    have hnext := hf a _ _ h₁
    -- what the first part met is still in the table after the second
    have ht := (hnext.code h₂).strings.trans hc
    exact yields_bind.mpr ⟨a, _, hm.replay h₁ c ht, hnext.replay h₂ c hc⟩

theorem TableOnly.bind {f : α → CompileM β} (hm : TableOnly m)
    (hf : ∀ a, TableOnly (f a)) : TableOnly (m >>= f) :=
  hm.bind_of_yields fun a _ _ _ => hf a

/-- A step that never goes on satisfies every condition on how it goes on. -/
theorem TableOnly.of_not_yields (h : ∀ s a s', ¬ Yields m s a s') : TableOnly m where
  code hy := absurd hy (h _ _ _)
  replay hy := absurd hy (h _ _ _)

theorem TableOnly.throw (e : Fault) : TableOnly (throw e : CompileM α) :=
  .of_not_yields fun _ _ _ h => h.throw

/-- Reading the state is harmless if what is done with it does not depend on the code. -/
theorem TableOnly.get_bind (hk : ∀ s, TableOnly (k s))
    (hcode : ∀ s c, k (s.withCode c) = k s) : TableOnly (get >>= k) := by
  have hsame : ∀ {s a s'}, Yields (get >>= k) s a s' ↔ Yields (k s) s a s' := by
    intro s a s'
    rw [yields_bind]
    constructor
    · rintro ⟨_, _, hg, h⟩
      obtain ⟨rfl, rfl⟩ := yields_get.mp hg
      exact h
    · intro h
      exact ⟨s, s, yields_get.mpr ⟨rfl, rfl⟩, h⟩
  refine ⟨fun h => (hk _).code (hsame.mp h), fun h c hc => ?_⟩
  rw [hsame, hcode]
  exact (hk _).replay (hsame.mp h) c hc

theorem TableOnly.modify (hcode : ∀ s, (f s).file.code = s.file.code)
    (hcomm : ∀ s c, f (s.withCode c) = (f s).withCode c) :
    TableOnly (modify f : CompileM Unit) where
  code h := by
    rw [← h.modify, hcode]
    exact .refl _
  replay h c _ := by
    rw [← h.modify]
    exact yields_modify.mpr (hcomm _ c)

theorem Silent.pure (a : α) : Silent (Pure.pure a : CompileM α) where
  toTableOnly := .pure a
  quiet h := by
    obtain ⟨-, rfl⟩ := h.pure
    exact .refl _

theorem Silent.bind_of_yields {f : α → CompileM β} (hm : Silent m)
    (hf : ∀ a s t, Yields m s a t → Silent (f a)) : Silent (m >>= f) where
  toTableOnly := hm.toTableOnly.bind_of_yields fun a s t h => (hf a s t h).toTableOnly
  quiet h := by
    obtain ⟨a, t, h₁, h₂⟩ := h.bind
    exact (hm.quiet h₁).trans ((hf a _ _ h₁).quiet h₂)

theorem Silent.bind {f : α → CompileM β} (hm : Silent m)
    (hf : ∀ a, Silent (f a)) : Silent (m >>= f) :=
  hm.bind_of_yields fun a _ _ _ => hf a

theorem Silent.andThen {f : α → CompileM β} (hm : Silent m)
    (hf : ∀ a, TableOnly (f a)) : TableOnly (m >>= f) :=
  hm.toTableOnly.bind hf

theorem Silent.of_not_yields (h : ∀ s a s', ¬ Yields m s a s') : Silent m where
  toTableOnly := .of_not_yields h
  quiet hy := absurd hy (h _ _ _)

theorem Silent.throw (e : Fault) : Silent (throw e : CompileM α) :=
  .of_not_yields fun _ _ _ h => h.throw

theorem Silent.get_bind (hk : ∀ s, Silent (k s))
    (hcode : ∀ s c, k (s.withCode c) = k s) : Silent (get >>= k) where
  toTableOnly := .get_bind (fun s => (hk s).toTableOnly) hcode
  quiet h := by
    replace h := h.get_bind
    exact (hk _).quiet h

theorem Silent.modify (hcode : ∀ s, (f s).file.code = s.file.code)
    (hcomm : ∀ s c, f (s.withCode c) = (f s).withCode c) (hquiet : ∀ s, Quiet s (f s)) :
    Silent (modify f : CompileM Unit) where
  toTableOnly := .modify hcode hcomm
  quiet h := h.modify ▸ hquiet _

/-- Changing a part of the state other than the code, the scopes and the parameters. -/
theorem silent_unrelated (hcode : ∀ s, (f s).file.code = s.file.code)
    (hcomm : ∀ s c, f (s.withCode c) = (f s).withCode c)
    (hunseen : ∀ s, (f s).unseen = s.unseen) (hgraph : ∀ s, (f s).graph = s.graph) :
    Silent (modify f : CompileM Unit) :=
  .modify hcode hcomm fun s => ⟨hunseen s, fun _ h => hgraph s ▸ h⟩

/-! ### The steps of a compilation -/

theorem silent_tell (level : LogLevel) (message : String) : Silent (tell level message) :=
  silent_unrelated (fun _ => rfl) (fun _ _ => rfl) (fun _ => rfl) fun _ => rfl

theorem silent_printLine (line : String) : Silent (printLine line) :=
  silent_unrelated (fun _ => rfl) (fun _ _ => rfl) (fun _ => rfl) fun _ => rfl

theorem silent_place (pos : Pos) : Silent (place pos) :=
  .get_bind (fun _ => .pure _) fun _ _ => rfl

theorem silent_need (what : Absent) (o : Option α) : Silent (need what o) := by
  cases o with
  | none => exact .throw _
  | some a => exact .pure a

theorem silent_lift (fault : ε → Fault) (x : Except ε α) : Silent (lift fault x) := by
  cases x with
  | error e => exact .throw _
  | ok a => exact .pure a

theorem silent_intern (s : String) : Silent (intern s) where
  code h := by
    obtain ⟨-, rfl⟩ := h.onCode
    exact .intern _ _
  replay h c hc := by
    obtain ⟨rfl, rfl⟩ := h.onCode
    have hi := Assembly.intern_of_prefix hc
    exact yields_onCode.mpr ⟨by rw [CompileState.withCode_code, hi],
      by rw [CompileState.withCode_code, hi]; rfl⟩
  quiet h := by
    obtain ⟨-, rfl⟩ := h.onCode
    exact ⟨rfl, fun _ h => h⟩

theorem tableOnly_onGraph (f : Cursor → ScopeGraph → ScopeGraph) : TableOnly (onGraph f) :=
  .modify (fun _ => rfl) fun _ _ => rfl

theorem silent_onGraph {f : Cursor → ScopeGraph → ScopeGraph}
    (hf : ∀ c g d, (f c g).OnShelf (·.commands) d → g.OnShelf (·.commands) d) :
    Silent (onGraph f) :=
  .modify (fun _ => rfl) (fun _ _ => rfl) fun _ => ⟨rfl, hf _ _⟩

theorem tableOnly_enterScope (scope : Scope) : TableOnly (enterScope scope) :=
  .modify (fun _ => rfl) fun _ _ => rfl

/-- Entering a scope is silent if the scope starts out without commands. -/
theorem silent_enterScope {scope : Scope} (h : scope.commands = .empty) :
    Silent (enterScope scope) :=
  .modify (fun _ => rfl) (fun _ _ => rfl) fun _ =>
    ⟨rfl, fun _ => ScopeGraph.onShelf_of_enterNew h⟩

theorem silent_leaveScope : Silent leaveScope := by
  refine .get_bind (fun s => ?_) fun _ _ => rfl
  split
  · exact silent_unrelated (fun _ => rfl) (fun _ _ => rfl) (fun _ => rfl) fun _ => rfl
  · exact silent_tell _ _

theorem silent_resolve (shelf : Shelf α) (name : Option String) : Silent (resolve shelf name) :=
  (silent_need _ _).bind fun _ => .get_bind (fun _ => .pure _) fun _ _ => rfl

theorem tableOnly_seekReturn (serial i : Nat) (ps : List Param) :
    TableOnly (seekReturn serial i ps) := by
  induction ps generalizing i with
  | nil => exact .pure _
  | cons p ps ih =>
    refine TableOnly.bind (.modify (fun _ => rfl) fun _ _ => rfl) fun _ =>
      (silent_lift _ _).andThen fun parameter => ?_
    split
    · exact (silent_tell _ _).andThen fun _ => .pure _
    · exact ih (i + 1)

theorem tableOnly_returnIndex (c : Command) : TableOnly (returnIndex c) :=
  .get_bind (fun _ => tableOnly_seekReturn _ _ _) fun _ _ => rfl

theorem silent_allocateLocal (type : ValueType) (pos : Pos) : Silent (allocateLocal type pos) := by
  unfold allocateLocal
  dsimp only
  split
  · refine .of_not_yields fun s a s' h => ?_
    obtain ⟨_, _, h, -⟩ := h.bind
    exact h.stop
  · refine .get_bind (fun s => ?_) fun _ _ => rfl
    split
    · exact Silent.bind (silent_unrelated (fun _ => rfl) (fun _ _ => rfl) (fun _ => rfl)
          fun _ => rfl) fun _ => .pure _
    · exact .of_not_yields fun _ _ _ h => h.stop

theorem DoesOnly.silent (h : DoesOnly (· ≠ .params) m) : Silent m := by
  induction h with
  | pure a => exact .pure a
  | throw => exact .throw _
  | bind _ _ hm hf => exact hm.bind_of_yields hf
  | place pos => exact silent_place pos
  | resolve shelf name => exact silent_resolve shelf name
  | tell message => exact silent_tell _ message
  | stopWith message => exact (silent_tell _ message).bind fun _ => .throw _
  | printLine line => exact silent_printLine line
  | errors =>
    exact silent_unrelated (fun _ => rfl) (fun _ _ => rfl) (fun _ => rfl) fun _ => rfl
  | intern => exact silent_intern _
  | returnIndex c h => exact absurd rfl h
  | allocateLocal type pos => exact silent_allocateLocal type pos

/-- All effects of single steps are on the table or apart from the code. -/
theorem DoesOnly.tableOnly (h : DoesOnly (fun _ => True) m) : TableOnly m := by
  induction h with
  | pure a => exact .pure a
  | throw => exact .throw _
  | bind _ _ hm hf => exact hm.bind_of_yields hf
  | place pos => exact (silent_place pos).toTableOnly
  | resolve shelf name => exact (silent_resolve shelf name).toTableOnly
  | tell message => exact (silent_tell _ message).toTableOnly
  | stopWith message => exact (silent_tell _ message).andThen fun _ => .throw _
  | printLine line => exact (silent_printLine line).toTableOnly
  | errors => exact .modify (fun _ => rfl) fun _ _ => rfl
  | intern => exact (silent_intern _).toTableOnly
  | returnIndex c => exact tableOnly_returnIndex c
  | allocateLocal type pos => exact (silent_allocateLocal type pos).toTableOnly

end CompileM

open CompileM

theorem silent_stop {α : Type} (message : String) (pos : Pos) :
    Silent (stop message pos : CompileM α) :=
  (DoesOnly.stop message pos).silent

theorem silent_warn (message : String) (pos : Pos) : Silent (warn message pos) :=
  (DoesOnly.warn message pos).silent

theorem silent_resolveVariable (name : Option String) : Silent (resolveVariable name) :=
  silent_resolve _ _

/-! ### Calls -/

theorem silent_operandsOf (pos : Pos) (args : List Arg) : Silent (operandsOf pos args) :=
  (doesOnly_operandsOf pos fun _ _ _ _ => nofun).silent

theorem silent_resolveCall (c : Call) : Silent (resolveCall c) := (doesOnly_resolveCall c).silent

theorem silent_warnFunctionCall (pos : Pos) : Silent (warnFunctionCall pos) := silent_warn _ _

theorem Effect.calls_all : Effect.Calls fun _ => True := ⟨trivial, fun _ => trivial⟩

theorem tableOnly_compileCommandCall (pos : Pos) (c : Command) (args : List Arg)
    (wanted : Option ValueType) (storage : Option Int) :
    TableOnly (compileCommandCall pos c args wanted storage) :=
  (doesOnly_compileCommandCall trivial fun _ _ _ _ => trivial).tableOnly

/-! ### Definitions and assignments -/

theorem silent_constantOf (a : Assigned) (type : ValueType) : Silent (constantOf a type) :=
  (doesOnly_constantOf a type).silent

theorem silent_allocate (level : Level) (type : ValueType) (pos : Pos) :
    Silent (allocate level type pos) :=
  (doesOnly_allocate type pos nofun fun _ => nofun).silent

theorem tableOnly_compileDefinition (level : Level) (mutable : Bool) (d : Definition) :
    TableOnly (compileDefinition level mutable d) :=
  (doesOnly_compileDefinition trivial (fun _ => trivial) fun a _ =>
    Effect.calls_all.assigned a).tableOnly

theorem tableOnly_define (level : Level) (d : Definition) : TableOnly (define level d) :=
  (tableOnly_compileDefinition level true d).bind fun _ =>
    (tableOnly_onGraph _).bind fun _ => .pure _

theorem tableOnly_compileAssignment (a : Assignment) : TableOnly (compileAssignment a) :=
  (doesOnly_compileAssignment fun a _ => Effect.calls_all.assigned a).tableOnly

/-! ### Subjects and cases -/

theorem tableOnly_compileSubject (subject : Option Condition) (pos : Pos) :
    TableOnly (compileSubject subject pos) :=
  (doesOnly_compileSubject pos fun _ _ call _ => Effect.calls_all.call call).tableOnly

theorem silent_caseWord (number : Option Int) (name : Option String) :
    Silent (caseWord number name) :=
  (doesOnly_caseWord number name).silent

/-! ### Declarations and files -/

theorem tableOnly_declareCommand (d : CommandDecl) : TableOnly (declareCommand d) := by
  unfold declareCommand
  split
  · exact (silent_stop _ _).toTableOnly
  · exact (silent_lift _ _).andThen fun _ => (silent_lift _ _).andThen fun _ =>
      .get_bind (fun _ => TableOnly.bind (.modify (fun _ => rfl) fun _ _ => rfl) fun _ =>
        tableOnly_onGraph _) fun _ _ => rfl

theorem yields_declareCommand {d : CommandDecl} {s t : CompileState} {u : Unit}
    (h : Yields (declareCommand d) s u t) :
    ∃ name number result, t = { s with
      unseen := s.unseen.push (d.params.getD [])
      graph := s.file.cursor.addCommand s.graph ⟨name, number, result, s.unseen.size, d.pos⟩ } := by
  unfold declareCommand at h
  split at h
  · exact h.stop.elim
  · rename_i name _
    obtain ⟨number, -, h⟩ := h.lift_bind
    obtain ⟨result, -, h⟩ := h.lift_bind
    replace h := h.get_bind
    obtain ⟨_, _, hm, h⟩ := h.bind
    obtain rfl := hm.modify
    exact ⟨name, number, result, h.onGraph.symm⟩

theorem silent_loadProgram (fs : Files) (mode : ReadMode) (path : String) :
    Silent (loadProgram fs mode path) :=
  (doesOnly_loadProgram fs mode path).silent

end EvScript
