import EvScript.Proofs.Compile.TableOnly

/-!
# The Book of a Compilation

What a compilation does with commands is written down deed by deed: a command is declared, or a call
of a declared command is compiled. `Book s log s'` says that `log` is such a record of the way from
`s` to `s'`. A book **accounts** for code if each instruction is the compiler's own or what some
call in the book was compiled to; `Booked` says that a step keeps such a book.
-/

namespace EvScript

open CompileM

variable {log log' : List Deed} {label parent : LabelId} {instrs : List Instr}

/-! ### Deeds -/

/-- A call of a command as it is compiled: what is called, the state in which it is compiled,
and the instruction it becomes. -/
structure CallSite where
  pos : Pos
  command : Command
  args : List Arg
  wanted : Option ValueType
  storage : Option Int
  state : CompileState
  instr : Instr

/-- Compiling the call. -/
def CallSite.compile (site : CallSite) : CompileM Instr :=
  compileCommandCall site.pos site.command site.args site.wanted site.storage

/-- What is done with commands. -/
inductive Deed where
  /-- A command is declared with its parameters. -/
  | declare (command : Command) (params : List Param)
  /-- A call is compiled. -/
  | call (site : CallSite)

/-- What a deed does to the state. -/
def Deed.Does : Deed → CompileState → CompileState → Prop
  | .declare c ps, s, s' => c.serial = s.unseen.size ∧ s'.unseen = s.unseen.push ps ∧
      ∀ d, s'.graph.OnShelf (·.commands) d → d = c ∨ s.graph.OnShelf (·.commands) d
  | .call site, s, s' => site.state = s ∧ s.graph.OnShelf (·.commands) site.command ∧
      Yields site.compile s site.instr s'

/-- The **book** of what was done with commands on the way from one state to another. -/
inductive Book : CompileState → List Deed → CompileState → Prop
  | quiet {s s' : CompileState} (h : Quiet s s') : Book s [] s'
  | deed {s t u s' : CompileState} {d : Deed} {log : List Deed} (before : Quiet s t)
      (does : d.Does t u) (rest : Book u log s') : Book s (d :: log) s'

namespace Book

variable {s t s' : CompileState} {d : Deed} {log log' : List Deed}

theorem of_does (h : d.Does s s') : Book s [d] s' := .deed (.refl s) h (.quiet (.refl s'))

theorem of_quiet (h : Quiet s t) (hb : Book t log s') : Book s log s' := by
  cases hb with
  | quiet h' => exact .quiet (h.trans h')
  | deed before does rest => exact .deed (h.trans before) does rest

theorem trans (h : Book s log t) (h' : Book t log' s') : Book s (log ++ log') s' := by
  induction h with
  | quiet hq => exact of_quiet hq h'
  | deed before does rest ih => exact .deed before does (ih h')

theorem split : ∀ {log : List Deed} {s : CompileState},
    Book s (log ++ d :: log') s' → ∃ t u, Book s log t ∧ d.Does t u ∧ Book u log' s'
  | [], _, h => by
    obtain _ | ⟨before, does, rest⟩ := h
    exact ⟨_, _, .quiet before, does, rest⟩
  | e :: log, _, h => by
    obtain _ | ⟨before, does, rest⟩ := h
    obtain ⟨t, u, hlog, hd, hrest⟩ := split rest
    exact ⟨t, u, .deed before does hlog, hd, hrest⟩

end Book

/-! ### Accounting for code -/

/-- The instruction stands under some label. -/
def Assembly.Holds (c : Assembly) (i : Instr) : Prop := ∃ x, i ∈ (c.label x).instrs

/-- The instructions that the compiler makes up itself. -/
inductive Instr.Own : Instr → Prop
  | jump (there : Operand) : Own ⟨some Registry.Opcode.jump, [there]⟩
  | compare (left word value there : Operand) :
      Own ⟨some Registry.Opcode.compareJump, [left, word, value, there]⟩
  | flagTest (kind : OperandKind) (storage : Option Int) (there : Operand) :
      Own (flagTest kind storage there)
  | switch (storage : Option Int) : Own (switchInstr storage)
  | case (value there : Operand) : Own ⟨some Registry.Opcode.caseJump, [value, there]⟩
  | load (register value : Operand) : Own ⟨some Registry.Opcode.loadValue, [register, value]⟩
  | setFlag (b : Bool) (storage : Option Int) :
      Own (flagInstr .flag Registry.Opcode.flagSet Registry.Opcode.flagReset b storage)
  | setSysFlag (b : Bool) (storage : Option Int) :
      Own (flagInstr .sysFlag Registry.Opcode.sysFlagSet Registry.Opcode.sysFlagReset b storage)

/-- An instruction that is explained by a record: the compiler's own, or a call in it. -/
def Accounted (log : List Deed) (i : Instr) : Prop :=
  i.Own ∨ ∃ site, .call site ∈ log ∧ site.instr = i

theorem Accounted.append_left {i : Instr} (h : Accounted log i) : Accounted (log ++ log') i :=
  h.imp_right fun ⟨site, hmem, hi⟩ => ⟨site, List.mem_append_left _ hmem, hi⟩

theorem Accounted.append_right {i : Instr} (h : Accounted log' i) : Accounted (log ++ log') i :=
  h.imp_right fun ⟨site, hmem, hi⟩ => ⟨site, List.mem_append_right _ hmem, hi⟩

namespace Assembly

variable {a b : Assembly} {i : Instr}

theorem Holds.of_moreStrings (h : a.MoreStrings b) (hi : b.Holds i) : a.Holds i := by
  obtain ⟨x, hx⟩ := hi
  exact ⟨x, h.label x ▸ hx⟩

/-- A new label stands for nothing yet. -/
theorem Holds.of_newLabel {name : String} (hi : (a.newLabel name).2.Holds i) : a.Holds i := by
  obtain ⟨x, hx⟩ := hi
  refine ⟨x, ?_⟩
  unfold label at hx ⊢
  rw [newLabel_labels, Array.getElem?_push] at hx
  split at hx
  · cases hx
  · exact hx

theorem Holds.of_newChild (hi : (a.newChild parent).2.Holds i) : a.Holds i := by
  obtain ⟨x, hx⟩ := hi
  refine ⟨x, ?_⟩
  unfold label at hx ⊢
  rw [newChild_labels, Array.getElem?_modify, Array.getElem?_push] at hx
  split at hx
  · split at hx
    · cases hx
    · cases hl : a.labels[x]? with
      | none => simp [hl] at hx
      | some l => simpa [hl] using hx
  · split at hx
    · cases hx
    · exact hx

theorem Holds.of_emit {x : LabelId} (hi : (a.emit x instrs).Holds i) : i ∈ instrs ∨ a.Holds i := by
  obtain ⟨y, hy⟩ := hi
  unfold label emit at hy
  rw [Array.getElem?_modify] at hy
  split at hy
  · cases hl : a.labels[y]? with
    | none => simp [hl] at hy
    | some l =>
      simp only [hl, Option.map_some, Option.getD_some, List.mem_append] at hy
      exact hy.symm.imp_right fun h => ⟨y, by simpa [label, hl] using h⟩
  · exact .inr ⟨y, hy⟩

end Assembly

/-! ### Keeping a book -/

namespace CompileM

variable {α β : Type} {given : Instr → Prop} {s : CompileState}
variable {m : CompileM α} {f : α → CompileM β} {out : α → List Instr}

/-- Begun in the state `s`, the step keeps a book. The book accounts for the instructions in the
result, which `out` picks, and for all that the step puts under labels, apart from instructions
that are `given` as explained already. -/
def Booked (given : Instr → Prop) (s : CompileState) (m : CompileM α) (out : α → List Instr) :
    Prop :=
  ∀ a s', Yields m s a s' → ∃ log, Book s log s' ∧
    (∀ i ∈ out a, given i ∨ Accounted log i) ∧
    ∀ i, s'.file.code.Holds i → s.file.code.Holds i ∨ given i ∨ Accounted log i

/-- A step without instructions in its result keeps a book. -/
abbrev BookedUnit (given : Instr → Prop) (s : CompileState) (m : CompileM α) : Prop :=
  Booked given s m fun _ => []

theorem Booked.pure {a : α} (h : ∀ i ∈ out a, given i ∨ i.Own) :
    Booked given s (Pure.pure a) out := by
  intro b s' hy
  obtain ⟨rfl, rfl⟩ := hy.pure
  exact ⟨[], .quiet (.refl s), fun i hi => (h i hi).imp_right .inl, fun i hi => .inl hi⟩

theorem Booked.pure_nil {a : α} (h : out a = []) : Booked given s (Pure.pure a) out :=
  .pure (by simp [h])

theorem Booked.of_not_yields (h : ∀ s a s', ¬ Yields m s a s') : Booked given s m out :=
  fun _ _ hy => absurd hy (h _ _ _)

theorem Booked.throw {e : Fault} : Booked given s (throw e : CompileM α) out :=
  .of_not_yields fun _ _ _ h => h.throw

theorem Booked.stop {message : String} {pos : Pos} :
    Booked given s (CompileM.stop message pos : CompileM α) out :=
  .of_not_yields fun _ _ _ h => h.stop

theorem Booked.of_silent (h : Silent m) : BookedUnit given s m := by
  intro a s' hy
  refine ⟨[], .quiet (h.quiet hy), ?_, fun i hi => .inl (hi.of_moreStrings (h.code hy))⟩
  rintro i ⟨⟩

/-- **Books are continued**: what the first part accounts for, the second may use. -/
theorem Booked.bind {out' : β → List Instr} (hm : Booked given s m out)
    (hf : ∀ a t, Yields m s a t → Booked (fun i => given i ∨ i ∈ out a) t (f a) out') :
    Booked given s (m >>= f) out' := by
  intro b s' hy
  obtain ⟨a, t, h₁, h₂⟩ := hy.bind
  obtain ⟨log₁, hbook₁, hout₁, hcode₁⟩ := hm a t h₁
  obtain ⟨log₂, hbook₂, hout₂, hcode₂⟩ := hf a t h₁ b s' h₂
  have hboth : ∀ i, (given i ∨ i ∈ out a) ∨ Accounted log₂ i →
      given i ∨ Accounted (log₁ ++ log₂) i := by
    rintro i ((hg | hi) | hacc)
    · exact .inl hg
    · exact (hout₁ i hi).imp_right Accounted.append_left
    · exact .inr hacc.append_right
  refine ⟨log₁ ++ log₂, hbook₁.trans hbook₂, fun i hi => hboth i (hout₂ i hi), fun i hi => ?_⟩
  rcases hcode₂ i hi with hi | hi
  · exact (hcode₁ i hi).imp_right (Or.imp_right Accounted.append_left)
  · exact .inr (hboth i hi)

theorem Booked.mono {given' : Instr → Prop}
    (h : Booked given s m out) (hg : ∀ i, given i → given' i) : Booked given' s m out := by
  intro a s' hy
  obtain ⟨log, hbook, hout, hcode⟩ := h a s' hy
  exact ⟨log, hbook, fun i hi => (hout i hi).imp_left (hg i),
    fun i hi => (hcode i hi).imp_right (Or.imp_left (hg i))⟩

theorem Booked.andThen {out : β → List Instr}
    (hm : BookedUnit given s m) (hf : ∀ a t, Yields m s a t → Booked given t (f a) out) :
    Booked given s (m >>= f) out :=
  hm.bind fun a t h => (hf a t h).mono fun _ => .inl

theorem Booked.after {out : β → List Instr}
    (hm : Silent m) (hf : ∀ a t, Yields m s a t → Booked given t (f a) out) :
    Booked given s (m >>= f) out :=
  (Booked.of_silent hm).andThen hf

theorem Booked.get_bind {k : CompileState → CompileM α}
    (h : Booked given s (k s) out) : Booked given s (get >>= k) out := by
  intro a s' hy
  replace hy := hy.get_bind
  exact h a s' hy

/-- Changing the code, if whatever comes under labels is given or the compiler's own. -/
theorem booked_onCode {f : Assembly → α × Assembly}
    (h : ∀ c i, (f c).2.Holds i → c.Holds i ∨ given i ∨ i.Own) :
    BookedUnit given s (onCode f) := by
  intro a s' hy
  obtain ⟨-, rfl⟩ := hy.onCode
  refine ⟨[], .quiet ⟨rfl, fun _ h => h⟩, ?_, fun i hi => ?_⟩
  · rintro i ⟨⟩
  · exact (h _ i hi).imp_right (Or.imp_right .inl)

theorem booked_emit (h : ∀ i ∈ instrs, given i ∨ i.Own) : BookedUnit given s (emit label instrs) :=
  booked_onCode fun _ i hi => hi.of_emit.symm.imp_right (h i)

theorem booked_jump {source destination : LabelId} :
    BookedUnit given s (jump source destination) := by
  refine booked_onCode fun _ i hi => ?_
  rcases hi.of_emit with hi | hi
  · exact .inr (.inr (List.mem_singleton.mp hi ▸ .jump _))
  · exact .inl hi

theorem booked_newChild : BookedUnit given s (newChild parent) :=
  booked_onCode fun _ _ hi => .inl hi.of_newChild

theorem booked_target : BookedUnit given s (target label) := by
  intro _ s' hy
  obtain ⟨-, rfl⟩ := hy.target
  refine ⟨[], .quiet (.refl s), ?_, fun i hi => .inl hi⟩
  rintro i ⟨⟩

end CompileM

end EvScript
