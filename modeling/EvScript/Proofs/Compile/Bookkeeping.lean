import EvScript.Proofs.Compile.Book

/-!
# Expressions Keep a Book

Calls, definitions, assignments, conditions and subjects each keep a book of the calls they compile,
and the book accounts for the instructions they yield. Only `compileCommandCall` has something to
write down; all others pass on the books of their parts.
-/

namespace EvScript

open CompileM

/-! ### Calls -/

variable {given : Instr → Prop} {s : CompileState}

/-- A command that is called is declared in some scope. -/
theorem onShelf_of_resolveCall {c : Call} {d : Command} {args : List Arg} {s' : CompileState}
    (h : Yields (resolveCall c) s (.command d, args) s') : s'.graph.OnShelf (·.commands) d := by
  obtain ⟨⟨name, -, hfound⟩, -, rfl⟩ := h.resolveCall_command
  exact Cursor.onShelf_of_resolve hfound

/-- The instruction of a call is booked with it. -/
theorem booked_compileCommandCall {pos : Pos} {c : Command} {args : List Arg}
    {wanted : Option ValueType} {storage : Option Int} (h : s.graph.OnShelf (·.commands) c) :
    Booked given s (compileCommandCall pos c args wanted storage) fun i => [i] := by
  intro i s' hy
  let site : CallSite := ⟨pos, c, args, wanted, storage, s, i⟩
  refine ⟨[.call site], .of_does ⟨rfl, h, hy⟩, fun j hj => ?_, fun j hj => ?_⟩
  · rw [List.mem_singleton.mp hj]
    exact .inr (.inr ⟨site, List.mem_singleton_self _, rfl⟩)
  · exact .inl (hj.of_moreStrings ((tableOnly_compileCommandCall _ _ _ _ _).code hy))

/-! ### Definitions and assignments -/

/-- So is that of a value, be it a call or not. -/
theorem booked_compileAssigned (a : Assigned) (type : ValueType) (storage : Option Int) :
    Booked given s (compileAssigned a type storage) fun i => [i] := by
  unfold compileAssigned
  split
  · split
    · refine .after (silent_lift _ _) fun word t _ => .pure fun i hi => ?_
      rw [List.mem_singleton.mp hi]
      exact .inr (.load _ _)
    · exact .throw
  · split
    · exact .of_not_yields fun _ _ _ h => h.stopWith
    · refine .pure fun i hi => ?_
      rw [List.mem_singleton.mp hi]
      exact .inr (.setFlag _ _)
    · refine .pure fun i hi => ?_
      rw [List.mem_singleton.mp hi]
      exact .inr (.setSysFlag _ _)
    · exact .throw
  · exact .stop
  · refine .after (silent_resolveCall _) fun ⟨callee, args⟩ t hcall => ?_
    cases callee with
    | function f => exact .stop
    | command c => exact booked_compileCommandCall (onShelf_of_resolveCall hcall)
  · exact .stop

theorem booked_giveValue (mutable : Bool) (v : Variable) (value : Option Assigned) :
    Booked given s (giveValue mutable v value) fun r => r.2 := by
  cases value with
  | none => exact .pure_nil rfl
  | some a =>
    cases mutable with
    | true => exact (booked_compileAssigned _ _ _).bind fun i _ _ =>
          .pure fun j hj => .inl (.inr hj)
    | false => exact .stop

/-- A definition books the code of its value. -/
theorem booked_compileDefinition (level : Level) (mutable : Bool) (d : Definition) :
    Booked given s (compileDefinition level mutable d) fun r => r.2 := by
  rw [compileDefinition_eq]
  refine .after (silent_lift _ _) fun ⟨word, type⟩ _ _ => .after (silent_need _ _) fun name _ _ =>
    .after (silent_lift _ _) fun number t _ => ?_
  split
  · split
    · exact .after (silent_constantOf _ _) fun _ _ _ => .pure_nil rfl
    · exact .stop
  · cases number with
    | some n => exact booked_giveValue _ _ _
    | none => exact .after (silent_allocate _ _ _) fun _ _ _ => booked_giveValue _ _ _

theorem booked_define (level : Level) (d : Definition) : Booked given s (define level d) id := by
  refine (booked_compileDefinition level true d).bind fun ⟨v, instrs⟩ _ _ => ?_
  refine .after (silent_onGraph ?_) fun _ _ _ => .pure fun i hi => .inl (.inr hi)
  exact fun c g _ => ScopeGraph.onShelf_of_modify_of_eq fun _ => rfl

theorem booked_compileAssignment (a : Assignment) : Booked given s (compileAssignment a) id := by
  unfold compileAssignment
  refine .after (silent_need _ _) fun operator _ _ => ?_
  split
  · exact .after (silent_warn _ _) fun _ _ _ => .pure_nil rfl
  · refine .after (silent_resolveVariable _) fun _ _ _ => .after (silent_need _ _) fun v _ _ => ?_
    split
    · exact (booked_compileAssigned _ _ _).bind fun i _ _ => .pure fun j hj => .inl (.inr hj)
    · exact .throw

/-! ### Conditions and subjects -/

/-- The code in front of a comparison is booked. -/
theorem booked_compileLeft (l : LeftOperand) :
    Booked given s (compileLeft l) fun r => r.instrs := by
  unfold compileLeft
  split
  · refine .after (silent_resolveCall _) fun ⟨callee, args⟩ t hcall => ?_
    cases callee with
    | function f => exact .after (silent_warnFunctionCall _) fun _ _ _ => .pure_nil rfl
    | command c =>
      refine .after (silent_need _ _) fun result t' hn => ?_
      obtain ⟨-, rfl⟩ := hn.need
      exact (booked_compileCommandCall (onShelf_of_resolveCall hcall)).bind fun i _ _ =>
        .pure fun j hj => .inl (.inr hj)
  · refine .after (silent_resolveVariable _) fun v _ _ => ?_
    split
    · exact .stop
    · split
      · exact .stop
      · exact .pure_nil rfl
  · exact .pure_nil rfl

/-- A comparison adds no call to those of its left side. -/
theorem booked_compileComparison {left : Compared} {comparator : Option String}
    {right : Option RightOperand} {destination : LabelId} (h : ∀ i ∈ left.instrs, given i) :
    Booked given s (compileComparison left comparator right destination) id := by
  have hleft : ∀ t, Booked given t (Pure.pure left.instrs) id :=
    fun t => .pure fun i hi => .inl (h i hi)
  unfold compileComparison
  refine .after (silent_need _ _) fun _ _ _ => .after (silent_need _ _) fun _ _ _ =>
    .after (silent_intern _) fun index _ _ => .after (silent_need _ _) fun right _ _ => ?_
  split
  · exact hleft _
  · refine .after (silent_lift _ _) fun value _ _ => ?_
    split
    · split
      · refine booked_target.andThen fun there _ _ => .pure fun i hi => ?_
        rcases List.mem_append.mp hi with hi | hi
        · exact .inl (h i hi)
        · exact .inr (List.mem_singleton.mp hi ▸ .compare _ _ _ _)
      · exact hleft _
    · exact hleft _

theorem booked_compileCondition (c : Condition) (destination : LabelId) :
    Booked given s (compileCondition c destination) id := by
  unfold compileCondition
  split
  · exact (booked_compileLeft _).bind fun left _ _ => booked_compileComparison fun i hi => .inr hi
  · exact .pure_nil rfl
  · refine .after (silent_resolveVariable _) fun v _ _ => ?_
    split
    · exact .stop
    · refine booked_target.andThen fun there _ _ => ?_
      split
      · exact .pure fun i hi => .inr (List.mem_singleton.mp hi ▸ .flagTest _ _ _)
      · exact .pure fun i hi => .inr (List.mem_singleton.mp hi ▸ .flagTest _ _ _)
      · exact .pure_nil rfl

/-- The code in front of the tests of a switch is booked. -/
theorem booked_compileSubject (subject : Option Condition) (pos : Pos) :
    Booked given s (compileSubject subject pos) id := by
  have hswitch : ∀ {given : Instr → Prop} t storage,
      Booked given t (Pure.pure [switchInstr storage]) id :=
    fun t storage => .pure fun i hi => .inr (List.mem_singleton.mp hi ▸ .switch _)
  unfold compileSubject
  refine .after (silent_need _ _) fun c _ _ => ?_
  split
  · refine .after (silent_resolveCall _) fun ⟨callee, args⟩ t hcall => ?_
    cases callee with
    | function f => exact .after (silent_warnFunctionCall _) fun _ _ _ => .pure_nil rfl
    | command c =>
      refine .after (silent_need _ _) fun result t' hn => ?_
      obtain ⟨-, rfl⟩ := hn.need
      refine (booked_compileCommandCall (onShelf_of_resolveCall hcall)).bind fun i _ _ =>
        .pure fun j hj => ?_
      rcases List.mem_cons.mp hj with hj | hj
      · exact .inl (.inr (List.mem_singleton.mpr hj))
      · exact .inr (List.mem_singleton.mp hj ▸ .switch _)
  · exact .after (silent_resolveVariable _) fun _ _ _ => .after (silent_need _ _) fun _ _ _ =>
      hswitch _ _
  · exact .after (silent_resolveVariable _) fun _ _ _ => .after (silent_need _ _) fun _ _ _ =>
      hswitch _ _

end EvScript
