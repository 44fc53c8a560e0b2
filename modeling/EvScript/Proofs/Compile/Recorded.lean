import EvScript.Proofs.Code.Edits
import EvScript.Proofs.Compile.Bookkeeping
import EvScript.Proofs.Compile.Keeps
import EvScript.Proofs.Scope.Sound

/-!
# Steps with a Record

`Recorded known m s post` says that whatever the step `m`, begun in `s` where all scopes are sound,
does to the code, it does by lawful edits, also if it ends with a fault; that the scopes are still
sound, and that if `m` goes on, `post` holds of the record, the result and the state. A step that is
`Tabled` only adds strings to the table; all single steps are.
-/

namespace EvScript

variable {f : CompileState → CompileState} {s' : CompileState} {a : Assigned}

namespace CompileM

variable {α β ε : Type} {known : Option Int → Prop} {s s' : CompileState}
variable {m : CompileM α} {k : CompileState → CompileM α}

/-! ### Steps that touch neither code nor scopes -/

/-- The code and the scopes. -/
def codeAndGraph (s : CompileState) : Assembly × ScopeGraph := (s.file.code, s.graph)

instance : Overlooks codeAndGraph where
  log _ _ := rfl
  printed _ _ := rfl
  unseen _ _ := rfl
  errors _ _ _ := rfl

instance : OverlooksLocals codeAndGraph := ⟨fun _ _ => rfl⟩

theorem Keeps.unchanged {a : α} (h : Keeps codeAndGraph m) (hy : Yields m s a s') :
    s'.file.code = s.file.code ∧ s'.graph = s.graph :=
  Prod.ext_iff.mp (h.yields hy)

theorem keeps_leaveScope : Keeps codeAndGraph leaveScope := by
  refine .get_bind fun s => ?_
  split
  · exact .modify fun _ => rfl
  · exact keeps_tell _ _

/-! ### Steps with a record -/

/-- However the step ends, it has taken the code from `s` to where it is by lawful edits and left
the scopes sound; if it goes on, `post` holds. -/
def Recorded (known : Option Int → Prop) (m : CompileM α) (s : CompileState)
    (post : List Edit → α → CompileState → Prop) : Prop :=
  s.graph.Sound known → ∃ t, Lawful known s.file.code t ∧
    (ending m s).2.file.code = s.file.code.replay t ∧ (ending m s).2.graph.Sound known ∧
    ∀ a s', Yields m s a s' → post t a s'

variable {post : List Edit → α → CompileState → Prop}

theorem Recorded.pure {a : α} (h : post [] a s) : Recorded known (Pure.pure a) s post := by
  intro hs
  refine ⟨[], trivial, rfl, hs, fun b s' hy => ?_⟩
  obtain ⟨rfl, rfl⟩ := hy.pure
  exact h

/-- The record of a sequence is the record of its first part and, if that goes on, the record of
the second behind it. -/
theorem Recorded.bind {m : CompileM β} {f : β → CompileM α}
    {mid : List Edit → β → CompileState → Prop} (hm : Recorded known m s mid)
    (hf : ∀ t b u, Yields m s b u → mid t b u →
      Recorded known (f b) u fun t' => post (t ++ t')) :
    Recorded known (m >>= f) s post := by
  intro hs
  obtain ⟨t, hlaw, hcode, hsound, hmid⟩ := hm hs
  rw [ending_bind]
  cases hend : ending m s with
  | mk r u =>
    rw [hend] at hcode hsound
    cases r with
    | error e =>
      refine ⟨t, hlaw, hcode, hsound, fun a s' hy => ?_⟩
      rw [Yields, ending_bind, hend] at hy
      cases hy
    | ok b =>
      obtain ⟨t', hlaw', hcode', hsound', hpost⟩ := hf t b u hend (hmid b u hend) hsound
      dsimp only at hcode
      rw [hcode] at hlaw' hcode'
      refine ⟨t ++ t', Assembly.lawful_append.mpr ⟨hlaw, hlaw'⟩, ?_, hsound',
        fun a s' hy => hpost a s' ?_⟩
      · rw [Assembly.replay_append]
        exact hcode'
      · rwa [Yields, ending_bind, hend] at hy

/-- A step that goes on has more to it than its `post`: its record is lawful and leads to the
code it leaves. -/
theorem Recorded.mono {mid : List Edit → α → CompileState → Prop}
    (hm : Recorded known m s mid) (h : ∀ t a s', Yields m s a s' → Lawful known s.file.code t →
      s'.file.code = s.file.code.replay t → mid t a s' → post t a s') :
    Recorded known m s post := by
  intro hs
  obtain ⟨t, hlaw, hcode, hsound, hmid⟩ := hm hs
  refine ⟨t, hlaw, hcode, hsound, fun a s' hy => h t a s' hy hlaw ?_ (hmid a s' hy)⟩
  rw [← hcode, hy.ends]

theorem Recorded.ending_sound (hm : Recorded known m s post)
    (hs : s.graph.Sound known) : (ending m s).2.graph.Sound known := by
  obtain ⟨t, -, -, hsound, -⟩ := hm hs
  exact hsound

theorem Recorded.sound {a : α} (hm : Recorded known m s post)
    (hs : s.graph.Sound known) (hy : Yields m s a s') : s'.graph.Sound known := by
  have hsound := hm.ending_sound hs
  rwa [hy.ends] at hsound

theorem Keeps.recorded (h : Keeps codeAndGraph m)
    (hpost : ∀ a s', Yields m s a s' → post [] a s') : Recorded known m s post := by
  intro hs
  have hgraph : (ending m s).2.graph = s.graph := congrArg Prod.snd (h s)
  exact ⟨[], trivial, congrArg Prod.fst (h s), hgraph ▸ hs, hpost⟩

theorem Keeps.andThen {m : CompileM β} {f : β → CompileM α} (hm : Keeps codeAndGraph m)
    (hf : ∀ b u, Yields m s b u → u.file.code = s.file.code → u.graph = s.graph →
      Recorded known (f b) u post) : Recorded known (m >>= f) s post := by
  have hempty : Recorded known m s fun t _ _ => t = [] := hm.recorded fun _ _ _ => rfl
  refine hempty.bind ?_
  rintro t b u hy rfl
  obtain ⟨hcode, hgraph⟩ := hm.unchanged hy
  exact hf b u hy hcode hgraph

theorem Recorded.get_bind (h : Recorded known (k s) s post) : Recorded known (get >>= k) s post := h

theorem Recorded.of_sound
    (h : s.graph.Sound known → Recorded known m s post) : Recorded known m s post :=
  fun hs => h hs hs

theorem Recorded.modify {post : List Edit → Unit → _ → Prop} (hcode : (f s).file.code = s.file.code)
    (hgraph : s.graph.Sound known → (f s).graph.Sound known) (h : post [] () (f s)) :
    Recorded known (modify f) s post := by
  intro hs
  refine ⟨[], trivial, hcode, hgraph hs, fun u s' hy => ?_⟩
  rw [← hy.modify]
  exact h

/-- Changing the code by a single edit. -/
theorem Recorded.onCode {f : Assembly → α × Assembly} (e : Edit)
    (hf : (f s.file.code).2 = s.file.code.edit e) (he : e.Lawful known s.file.code)
    (h : post [e] (f s.file.code).1 (s.withCode (s.file.code.edit e))) :
    Recorded known (onCode f) s post := by
  intro hs
  refine ⟨[e], Assembly.lawful_singleton.mpr he, hf, hs, fun a s' hy => ?_⟩
  obtain ⟨rfl, rfl⟩ := hy.onCode
  rw [hf]
  exact h

/-! ### Steps that only add strings -/

/-- The edits add strings and do nothing else. -/
def OnlyStrings (t : List Edit) : Prop := ∀ e ∈ t, ∃ text, e = .string text

theorem onlyStrings_nil : OnlyStrings [] := fun _ h => absurd h List.not_mem_nil

/-- The step only adds strings, and its result is good for a table as long as the one it
leaves. -/
def Tabled (known : Option Int → Prop) (m : CompileM α) (s : CompileState)
    (good : α → Nat → Prop) : Prop :=
  Recorded known m s fun t a s' => OnlyStrings t ∧ good a s'.file.code.strings.length

variable {good : α → Nat → Prop}

/-- **Single steps only add strings**, whatever their effects are. -/
theorem DoesOnly.recorded (h : DoesOnly (fun _ => True) m) :
    ∀ s, Recorded known m s fun t _ _ => OnlyStrings t := by
  have hkeeps : ∀ {α : Type} {m : CompileM α}, Keeps codeAndGraph m → ∀ s,
      Recorded known m s fun t _ _ => OnlyStrings t :=
    fun h _ => h.recorded fun _ _ _ => onlyStrings_nil
  induction h with
  | pure a => exact hkeeps (.pure a)
  | throw => exact hkeeps (.throw _)
  | bind _ _ hm hf =>
    refine fun s => (hm s).bind fun t b u hy ht => ?_
    refine (hf b s u hy u).mono fun t' _ _ _ _ _ ht' e he => ?_
    exact (List.mem_append.mp he).elim (ht e) (ht' e)
  | place pos => exact hkeeps (keeps_place pos)
  | resolve shelf name => exact hkeeps (keeps_resolve shelf name)
  | tell message => exact hkeeps (keeps_tell _ message)
  | stopWith message => exact hkeeps (keeps_stopWith message)
  | printLine line => exact hkeeps (keeps_printLine line)
  | errors => exact hkeeps (.modify fun _ => rfl)
  | @intern text =>
    exact fun s => .onCode (.string text) rfl trivial fun e he => ⟨text, List.mem_singleton.mp he⟩
  | returnIndex c => exact hkeeps (keeps_returnIndex c)
  | allocateLocal type pos => exact hkeeps (keeps_allocateLocal type pos)

/-- What is shown of a step that goes on from sound scopes. -/
theorem DoesOnly.tabled (h : DoesOnly (fun _ => True) m)
    (hgood : s.graph.Sound known → ∀ a s', Yields m s a s' → good a s'.file.code.strings.length) :
    Tabled known m s good :=
  .of_sound fun hs => (h.recorded s).mono fun _ a s' hy _ _ ht => ⟨ht, hgood hs a s' hy⟩

theorem moreStrings_replay {t : List Edit} (ht : OnlyStrings t) (a : Assembly) :
    a.MoreStrings (a.replay t) := by
  induction t generalizing a with
  | nil => exact .refl a
  | cons e t ih =>
    obtain ⟨text, rfl⟩ := ht e List.mem_cons_self
    exact (Assembly.MoreStrings.intern a text).trans
      (ih (fun e he => ht e (List.mem_cons_of_mem _ he)) _)

theorem Tabled.recorded (h : Tabled known m s good) :
    Recorded known m s fun t a s' => OnlyStrings t ∧ s.file.code.MoreStrings s'.file.code ∧
      good a s'.file.code.strings.length := by
  refine Recorded.mono h fun t a s' _ _ hcode ⟨ht, ha⟩ => ⟨ht, ?_, ha⟩
  rw [hcode]
  exact moreStrings_replay ht _

end CompileM

open CompileM Registry

variable {known : Option Int → Prop} {s t : CompileState} {i : Instr}

/-! ### Calls -/

/-- A string that an argument is passed as is in the table. -/
theorem below_of_argument {a : Arg} {x : Argument} {o : Operand} (hs : s.graph.Sound known)
    (hx : Yields (evaluate a) s x t) (ho : x.PassedAs o) : o.Below t.file.code.strings.length := by
  cases comesTo_of_evaluate hx with
  | @constant name v c _ hv hc =>
    obtain ⟨_, -, hresolve⟩ := Option.bind_eq_some_iff.mp hv
    have htype := (hs.variable (Cursor.onShelf_of_resolve hresolve)).type_ne (by rw [hc]; rfl)
    generalize v.type = type at ho htype
    -- there are no constant strings
    cases type with
    | string => exact absurd rfl htype
    | _ => cases ho <;> exact Operand.below_of_ne (by simp)
  | text _ hlt =>
    cases ho
    exact fun _ => ⟨_, rfl, hlt⟩
  | @stored name v =>
    generalize v.type = type at ho
    cases ho <;> exact Operand.below_of_ne (by simp)
  | number =>
    cases ho
    exact Operand.below_of_ne (by simp)

theorem below_of_operandsOf {pos : Pos} {args : List Arg} {os : List Operand}
    (hs : s.graph.Sound known) (h : Yields (operandsOf pos args) s os t) :
    ∀ o ∈ os, o.Below t.file.code.strings.length := by
  induction args generalizing s os with
  | nil =>
    obtain ⟨rfl, -⟩ := h.pure
    exact nofun
  | cons a args ih =>
    rw [operandsOf, List.mapM_cons] at h
    obtain ⟨o, u, ho, h⟩ := h.bind
    obtain ⟨os, hos, rfl⟩ := h.bind_pure
    obtain ⟨x, _, hx, ho⟩ := ho.bind
    obtain ⟨hpassed, rfl⟩ := yields_ofArgument ho
    have hlonger := ((silent_operandsOf pos args).code hos).strings.length_le
    refine List.forall_mem_cons.mpr ⟨(below_of_argument hs hx hpassed).mono hlonger, ih ?_ hos⟩
    rwa [((keeps_evaluate a).sameScopes hx).1]

/-- A call is fit for the code: it refers to strings that are there, and it calls a command with a
known number. -/
theorem Instr.IsCall.fit (hs : s.graph.Sound known) (h : i.IsCall s t) :
    i.Fit known t.file.code.strings.length := by
  obtain ⟨c, d, args, pos, wanted, storage, hcalled, h⟩ := h
  have hknown := hs.command (onShelf_of_called? hcalled)
  obtain ⟨-, h⟩ := yields_compileCommandCall.mp h
  obtain ⟨os, u, hops, hplace⟩ := h.bind
  have hlonger := ((doesOnly_placeResult trivial).tableOnly.code hplace).strings.length_le
  have hos : ∀ o ∈ os, o.Below t.file.code.strings.length :=
    fun o ho => (below_of_operandsOf hs hops o ho).mono hlonger
  unfold placeResult at hplace
  split at hplace
  · obtain ⟨index, -, rfl⟩ := hplace.bind_pure
    refine ⟨fun o ho => ?_, fun _ => hknown⟩
    rcases List.mem_append.mp ho with ho | ho
    · exact hos o (List.mem_of_mem_take ho)
    · rcases List.mem_cons.mp ho with rfl | ho
      · exact Operand.below_of_ne (by simp)
      · exact hos o (List.mem_of_mem_drop ho)
  · obtain ⟨rfl, -⟩ := hplace.pure
    exact ⟨hos, fun _ => hknown⟩

/-! ### Definitions and assignments -/

theorem type_of_constantOf {type : ValueType} {c : Int}
    (h : Yields (constantOf a type) s c s') : type = .integer ∨ type = .boolean := by
  unfold constantOf at h
  split at h
  · split at h
    · exact .inl ‹_›
    · exact h.throw.elim
  · split at h
    · exact .inr rfl
    · exact h.stopWith.elim
    · exact h.stopWith.elim
    · exact h.throw.elim
  · exact h.stop.elim
  · exact h.stop.elim
  · exact h.stop.elim

theorem word_of_constantOf {c : Int}
    (h : Yields (constantOf a .integer) s c s') : ∃ n, (Number.Quantity.int n).encode = .ok c := by
  unfold constantOf at h
  split at h
  · rename_i n _
    rw [if_pos rfl] at h
    obtain ⟨hword, -⟩ := h.lift
    obtain ⟨i, -, hi⟩ := bind_eq_ok_iff.mp hword
    exact ⟨i, encode_eq_ok_iff.mp hi⟩
  · exact h.throw.elim
  · exact h.stop.elim
  · exact h.stop.elim
  · exact h.stop.elim

theorem sound_of_constantOf {v : Variable} {c : Int}
    (h : Yields (constantOf a v.type) s c s') (hc : v.constant = some c) : v.Sound := by
  refine ⟨fun _ => ?_, fun htype d hd => ?_⟩
  · rcases type_of_constantOf h with htype | htype <;> simp [htype]
  · rw [htype] at h
    rw [← Option.some.inj (hc.symm.trans hd)]
    exact word_of_constantOf h

/-- An instruction that neither refers to strings nor moves control fits everywhere. -/
theorem Instr.fit_of_plain {n : Nat} (hs : ∀ o ∈ i.operands, o.kind ≠ .string)
    (hc : i.isControl = false) : i.Fit known n :=
  ⟨fun o ho => Operand.below_of_ne (hs o ho), fun h => absurd (hc.symm.trans h) (by simp)⟩

theorem fit_of_compileAssigned {type : ValueType} {storage : Option Int}
    (hs : s.graph.Sound known) (h : Yields (compileAssigned a type storage) s i t) :
    i.Fit known t.file.code.strings.length := by
  cases gives_of_compileAssigned h with
  | number => exact Instr.fit_of_plain (by simp) rfl
  | @flag b | @sysFlag b =>
    exact Instr.fit_of_plain (by simp [flagInstr]) (by cases b <;> rfl)
  | call _ hcalled _ hi => exact Instr.IsCall.fit hs ⟨_, _, _, _, _, _, hcalled, hi⟩

/-- What a definition makes is sound, and its code fits. -/
theorem Defines.fit {level : Level} {d : Definition} {v : Variable} {is : List Instr}
    (hs : s.graph.Sound known) (h : Defines level d s v is t) :
    v.Sound ∧ ∀ i ∈ is, i.Fit known t.file.code.strings.length := by
  cases h with
  | constant _ _ hc => exact ⟨sound_of_constantOf hc rfl, nofun⟩
  | bare => exact ⟨Variable.sound_of_none rfl, nofun⟩
  | valued _ _ hstorage hi =>
    refine ⟨Variable.sound_of_none rfl, fun j hj => ?_⟩
    rw [List.mem_singleton.mp hj]
    rw [← ((keeps_storageFor _ _ _ _).sameScopes hstorage).1] at hs
    exact fit_of_compileAssigned hs hi

theorem tabled_define (level : Level) (d : Definition) :
    Tabled known (define level d) s fun is n => ∀ i ∈ is, i.Fit known n := by
  have hdefinition : Tabled known (compileDefinition level true d) s fun r n =>
      r.1.Sound ∧ ∀ i ∈ r.2, i.Fit known n :=
    (doesOnly_compileDefinition trivial (fun _ => trivial) fun a _ =>
      Effect.calls_all.assigned a).tabled fun hs _ _ hy => (defines_of_yields hy).fit hs
  refine Recorded.bind hdefinition fun t ⟨v, is⟩ u _ ⟨ht, hv, his⟩ => ?_
  have hadd : Recorded known (onGraph fun c g => c.addVariable g v) u fun t _ w =>
      t = [] ∧ w.file.code = u.file.code :=
    .modify rfl (fun hs => hs.addVariable hv) ⟨rfl, rfl⟩
  refine hadd.bind ?_
  rintro _ _ w - ⟨rfl, hcode⟩
  refine .pure ⟨by simpa using ht, ?_⟩
  rwa [hcode]

theorem tabled_compileAssignment (a : Assignment) :
    Tabled known (compileAssignment a) s fun is n => ∀ i ∈ is, i.Fit known n := by
  refine (doesOnly_compileAssignment fun a _ => Effect.calls_all.assigned a).tabled
    fun hs is s' hy => ?_
  cases sets_of_yields hy with
  | other => exact nofun
  | plain _ _ _ hi =>
    intro j hj
    rw [List.mem_singleton.mp hj]
    exact fit_of_compileAssigned hs hi

/-! ### Conditions, subjects and cases -/

/-- What is done before the question fits the code, and so do the strings of the question. -/
def Query.Fit (known : Option Int → Prop) (n : Nat) (q : Query) : Prop :=
  (∀ i ∈ q.setup, i.Fit known n) ∧ ∀ i, q.question = some i → i.Below n

theorem Query.fit_none {n : Nat} {is : List Instr} (h : ∀ i ∈ is, i.Fit known n) :
    (⟨is, none⟩ : Query).Fit known n :=
  ⟨h, fun _ hq => nomatch hq⟩

theorem fit_of_askComparison {left : Compared} {comparator : Option String}
    {right : Option RightOperand} {q : Query} {n : Nat} (hn : n ≤ s.file.code.strings.length)
    (hleft : ∀ i ∈ left.instrs, i.Fit known n)
    (h : Yields (askComparison left comparator right) s q t) :
    q.Fit known t.file.code.strings.length := by
  obtain ⟨_, -, h⟩ := h.need_bind
  obtain ⟨_, -, h⟩ := h.need_bind
  obtain ⟨index, u, hindex, h⟩ := h.bind
  have hlonger := ((silent_intern _).code hindex).strings.length_le
  replace hleft : ∀ i ∈ left.instrs, i.Fit known u.file.code.strings.length :=
    fun i hi => (hleft i hi).mono (Nat.le_trans hn hlonger)
  obtain ⟨right, -, h⟩ := h.need_bind
  split at h
  · obtain ⟨rfl, rfl⟩ := h.pure
    exact Query.fit_none hleft
  · obtain ⟨value, -, h⟩ := h.lift_bind
    split at h
    · split at h <;> obtain ⟨rfl, rfl⟩ := h.pure
      · refine ⟨hleft, fun q hq => ?_⟩
        obtain rfl := Option.some.inj hq
        obtain ⟨rfl, rfl⟩ := hindex.onCode
        intro o ho
        simp only [List.mem_cons, List.not_mem_nil, or_false] at ho
        rcases ho with rfl | rfl | rfl
        · exact Operand.below_of_ne (by simp)
        · exact Operand.below_ofString (Assembly.intern_lt _ _)
        · exact Operand.below_of_ne (by simp)
      · exact Query.fit_none hleft
    · obtain ⟨rfl, rfl⟩ := h.pure
      exact Query.fit_none hleft

theorem tabled_askCondition (c : Condition) :
    Tabled known (askCondition c) s fun q n => q.Fit known n := by
  refine (doesOnly_askCondition (Effect.calls_all.condition c)).tabled fun hs q s' hy => ?_
  cases hf : c.form with
  | comparison left comparator right =>
    rw [askCondition, hf] at hy
    obtain ⟨found, u, hleft, hy⟩ := hy.bind
    exact fit_of_askComparison (Nat.le_refl _)
      (fun i hi => ((finds_of_compileLeft hleft).2 i hi).fit hs) hy
  | call | name =>
    cases asks_of_askCondition hy with
    | compared hf' | uncompared hf' => cases hf.symm.trans hf'
    | call | other => exact Query.fit_none nofun
    | flag _ _ htype =>
      refine ⟨nofun, fun q hq => ?_⟩
      obtain rfl := Option.some.inj hq
      intro o ho
      rw [List.mem_singleton.mp ho]
      exact Operand.below_of_ne (by rcases htype with ⟨-, rfl⟩ | ⟨-, rfl⟩ <;> simp)

theorem tabled_compileSubject (subject : Option Condition) (pos : Pos) :
    Tabled known (compileSubject subject pos) s fun is n => ∀ i ∈ is, i.Fit known n := by
  refine (doesOnly_compileSubject pos fun _ _ call _ => Effect.calls_all.call call).tabled
    fun hs is s' hy i hi => ?_
  obtain ⟨c, -, -, hcode⟩ := switches_of_compileSubject hy
  rcases hcode i hi with hcall | ⟨storage, rfl⟩
  · exact hcall.fit hs
  · exact Instr.fit_of_plain (by simp [switchInstr]) rfl

end EvScript
