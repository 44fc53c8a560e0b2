import EvScript.Proofs.Control.Guards
import EvScript.Proofs.Control.Itinerary

/-!
# The Code of Single Statements

A statement puts instructions under the label where the compilation comes to it, and under no other.
`Statement.Leaves` says which; the statements inside a branch or a switch count for themselves. So
for a property that jumps and heads of cases never have, if `mark` tells of every statement whether
an instruction that it leaves has the property, then there is such an instruction under a label
exactly if a marked statement is compiled there.
-/

namespace EvScript

open CompileM Registry

variable {s t : CompileState} {pos : Pos}

/-! ### Names mean the same in the same scopes -/

theorem SameScopes.meaning? (h : SameScopes s t) (name : Option String) :
    t.meaning? name = s.meaning? name := by
  simp only [CompileState.meaning?, h.1, h.2]

theorem SameScopes.called? (h : SameScopes s t) (c : Call) : t.called? c = s.called? c := by
  refine Option.ext fun d => ?_
  rw [called?_eq_some_iff, called?_eq_some_iff, h.1, h.2]

theorem CompileM.MakesChild.sameScopes {l x : Nat} (h : MakesChild l x s t) : SameScopes s t := by
  obtain ⟨c, rfl⟩ := h.only_code
  exact ⟨rfl, rfl⟩

/-! ### Code under a label -/

namespace Assembly

variable {c c' c'' : Assembly} {l : Nat} {is : List Instr}

/-- From `c` to `c'`, the instructions are put under the label, behind those that are there, and
nothing is put under other labels. -/
def Gains (c : Assembly) (l : LabelId) (is : List Instr) (c' : Assembly) : Prop :=
  ∀ x, (c'.label x).instrs = (c.label x).instrs ++ if l = x then is else []

theorem gains_nil (l : LabelId) (h : ∀ x, (c'.label x).instrs = (c.label x).instrs) :
    c.Gains l [] c' := by
  intro x
  simp [h x]

theorem gains_emit (h : ∀ x, (c'.label x).instrs = (c.label x).instrs) (hl : l < c'.labels.size) :
    c.Gains l is (c'.emit l is) := by
  intro x
  rw [instrs_emit is hl, h]

theorem Gains.congr (h : c.Gains l is c') (h' : ∀ x, (c''.label x).instrs = (c'.label x).instrs) :
    c.Gains l is c'' := by
  intro x
  rw [h', h]

theorem MoreStrings.instrs (h : c.MoreStrings c') (x : LabelId) :
    (c'.label x).instrs = (c.label x).instrs := by
  rw [h.label]

end Assembly

/-! ### What statements leave -/

/-- The instructions that a statement begun in a state puts under its label. -/
inductive Statement.Leaves : Statement → CompileState → List Instr → Prop where
  | define {d : Definition} {s t : CompileState} {v : Variable} {is : List Instr} :
      Yields (compileDefinition .body true d) s (v, is) t → Leaves (.define d) s is
  | assign {a : Assignment} {s t : CompileState} {is : List Instr} :
      Yields (compileAssignment a) s is t → Leaves (.assign a) s is
  | call {c : Call} {d : Command} {args : List Arg} {pos : Pos} {s t : CompileState} {i : Instr} :
      s.called? c = some d → c.args = some args →
      Yields (compileCommandCall pos d args none none) s i t → Leaves (.call c) s [i]
  | functionCall {c : Call} {s : CompileState} : s.called? c = none → Leaves (.call c) s []
  | branch {c : Condition} {body : Block} {elseIfs : List ElseIf} {otherwise : Option Block}
      {s u t : CompileState} {inside : LabelId} {is : List Instr} : SameScopes s u →
      Yields (compileCondition c inside) u is t →
      Leaves (.branch (some c) body elseIfs otherwise) s is
  | select {subject : Option Condition} {cases : List Case} {pos : Pos} {s t : CompileState}
      {is : List Instr} : Yields (compileSubject subject pos) s is t →
      Leaves (.select subject cases pos) s is
  | inert {rule : Option Rule} {s : CompileState} : Leaves (.inert rule) s []

/-- The definition of a variable in a body: the variable goes into the current scope, and its code
under the label. -/
theorem yields_compileStatement_define {l last : LabelId} {d : Definition}
    (h : Yields (compileStatement pos l (.define d)) s last t) :
    ∃ v is u, Yields (compileDefinition .body true d) s (v, is) u ∧
      t = { u with
        graph := u.file.cursor.addVariable u.graph v
        file := { u.file with code := u.file.code.emit l is } } := by
  rw [compileStatement] at h
  obtain ⟨is, w, hd, h⟩ := h.bind
  replace h := h.emit_bind
  obtain ⟨-, rfl⟩ := h.pure
  obtain ⟨⟨v, js⟩, u, hv, hd⟩ := hd.bind
  obtain ⟨_, _, hadd, hd⟩ := hd.bind
  obtain rfl := hadd.onGraph
  obtain ⟨rfl, rfl⟩ := hd.pure
  exact ⟨v, js, u, hv, rfl⟩

/-- A statement without a block in it. -/
theorem gains_leaf {l last : Nat} {x : Statement} (hx : x.isLeaf = true)
    (hl : l < s.file.code.labels.size) (h : Yields (compileStatement pos l x) s last t) :
    ∃ is, x.Leaves s is ∧ s.file.code.Gains l is t.file.code := by
  cases x with
  | define d =>
    obtain ⟨v, is, u, hv, rfl⟩ := yields_compileStatement_define h
    have hmore := (tableOnly_compileDefinition .body true d).code hv
    exact ⟨is, .define hv, Assembly.gains_emit hmore.instrs (hmore.size ▸ hl)⟩
  | assign a =>
    rw [compileStatement] at h
    obtain ⟨is, u, ha, h⟩ := h.bind
    replace h := h.emit_bind
    obtain ⟨-, rfl⟩ := h.pure
    have hmore := (tableOnly_compileAssignment a).code ha
    exact ⟨is, .assign ha, Assembly.gains_emit hmore.instrs (hmore.size ▸ hl)⟩
  | call c =>
    rw [compileStatement] at h
    obtain ⟨⟨callee, args⟩, u, hc, h⟩ := h.bind
    have hcalled := called?_of_yields hc
    cases callee with
    | function f =>
      obtain ⟨_, hwarn, -⟩ := h.bind_pure
      have hmore :=
        ((silent_resolveCall c).code hc).trans ((silent_warnFunctionCall pos).code hwarn)
      exact ⟨[], .functionCall hcalled, Assembly.gains_nil l hmore.instrs⟩
    | command d =>
      obtain ⟨-, hargs, rfl⟩ := hc.resolveCall_command
      obtain ⟨i, u, hi, h⟩ := h.bind
      replace h := h.emit_bind
      obtain ⟨-, rfl⟩ := h.pure
      have hmore := (tableOnly_compileCommandCall pos d args none none).code hi
      exact ⟨[i], .call hcalled hargs hi, Assembly.gains_emit hmore.instrs (hmore.size ▸ hl)⟩
  | inert rule =>
    rw [compileStatement] at h
    obtain ⟨-, rfl⟩ := h.pure
    exact ⟨[], .inert, Assembly.gains_nil l fun _ => rfl⟩
  | branch _ _ _ _ => cases hx
  | select _ _ _ => cases hx

theorem gains_openBranch {l : Nat} {c : Option Condition} {arms : LabelId × LabelId}
    (hl : l < s.file.code.labels.size) (h : Yields (openBranch l c) s arms t) :
    ∃ is, (∀ body elseIfs otherwise, (Statement.branch c body elseIfs otherwise).Leaves s is) ∧
      s.file.code.Gains l is t.file.code := by
  obtain ⟨(after : Nat), s₁, hafter, h⟩ := h.bind
  obtain ⟨(inside : Nat), s₂, hinside, h⟩ := h.bind
  obtain ⟨c, _, hneed, h⟩ := h.bind
  obtain ⟨rfl, rfl⟩ := hneed.need
  obtain ⟨is, u, hcondition, h⟩ := h.bind
  replace h := h.emit_bind
  obtain ⟨-, rfl⟩ := h.pure
  obtain ⟨query, hquery, -⟩ := yields_compileCondition hcondition
  have hmore := (tableOnly_askCondition c).code hquery
  have hfirst := makesChild_of_yields hafter hl
  have hsize := hfirst.size
  have hsecond := makesChild_of_yields hinside (by omega)
  have hsize' := hsecond.size
  -- labels that are made do not change what names mean
  refine ⟨is, fun _ _ _ => .branch (hfirst.sameScopes.trans hsecond.sameScopes) hcondition,
    Assembly.gains_emit (fun y => ?_) ?_⟩
  · rw [hmore.instrs, yields_newChild_instrs hinside, yields_newChild_instrs hafter]
  · rw [hmore.size]
    omega

theorem gains_openSelect {l : Nat} {subject : Option Condition} {after : LabelId}
    (hl : l < s.file.code.labels.size) (h : Yields (openSelect l subject pos) s after t) :
    ∃ is, (∀ cases, (Statement.select subject cases pos).Leaves s is) ∧
      s.file.code.Gains l is t.file.code := by
  obtain ⟨is, u, hsubject, h⟩ := h.bind
  replace h := h.emit_bind
  have hmore := (tableOnly_compileSubject subject pos).code hsubject
  have hgains : s.file.code.Gains l is (u.file.code.emit l is) :=
    Assembly.gains_emit hmore.instrs (hmore.size ▸ hl)
  refine ⟨is, fun _ => .select hsubject, hgains.congr fun y => ?_⟩
  rw [yields_newChild_instrs h, CompileState.withCode_code]

/-- The instruction that a case is entered by. -/
def caseInstr (word : Int) (there : Nat) : Instr :=
  ⟨some Opcode.caseJump, [⟨.value, some word⟩, .ofString there]⟩

theorem gains_openCase {l : Nat} {number : Option Numeral} {name : Option String}
    {arm : Option LabelId} (hl : l < s.file.code.labels.size)
    (h : Yields (openCase l number name) s arm t) :
    ∃ is, s.file.code.Gains l is t.file.code ∧ ∀ i ∈ is, ∃ n u word v there, SameScopes s u ∧
      Yields (caseWord n name) u (some word) v ∧ i = caseInstr word there := by
  obtain ⟨n, -, h⟩ := h.lift_bind
  obtain ⟨(inside : Nat), s₁, hinside, h⟩ := h.bind
  have hchild := makesChild_of_yields hinside hl
  have hsize := hchild.size
  obtain ⟨word, s₂, hword, h⟩ := h.bind
  have hmore := (silent_caseWord n name).code hword
  have hsame : ∀ x, (s₂.file.code.label x).instrs = (s.file.code.label x).instrs := fun x => by
    rw [hmore.instrs, yields_newChild_instrs hinside]
  cases word with
  | none =>
    obtain ⟨-, rfl⟩ := h.pure
    exact ⟨[], Assembly.gains_nil l hsame, nofun⟩
  | some word =>
    obtain ⟨there, _, htarget, h⟩ := h.bind
    obtain ⟨rfl, rfl⟩ := htarget.target
    replace h := h.emit_bind
    obtain ⟨-, rfl⟩ := h.pure
    have hl₂ : l < s₂.file.code.labels.size := by
      rw [hmore.size]
      omega
    refine ⟨_, Assembly.gains_emit hsame hl₂, fun i hi => ?_⟩
    rw [List.mem_singleton.mp hi]
    exact ⟨n, s₁, word, s₂, _, hchild.sameScopes, hword, rfl⟩

/-! ### Properties of instructions -/

section Marks

variable {known : Option Int → Prop} {bad : Instr → Prop} {mark : Statement → CompileState → Prop}
  {V W : List Arrival} {c c' c'' : Assembly} {l : Nat}

/-- Under every label, there are instructions with the property in `c'` if there were in `c`, or if
a marked statement came to the label. -/
def Marks (bad : Instr → Prop) (mark : Statement → CompileState → Prop) (V : List Arrival)
    (c c' : Assembly) : Prop :=
  ∀ x, (∃ i ∈ (c'.label x).instrs, bad i) ↔
    (∃ i ∈ (c.label x).instrs, bad i) ∨ ∃ a ∈ V, a.label = x ∧ mark a.statement a.state

theorem Marks.of_same (h : ∀ x, (c'.label x).instrs = (c.label x).instrs) :
    Marks bad mark [] c c' := by
  intro x
  simp [h x]

theorem Marks.append (h : Marks bad mark V c c') (h' : Marks bad mark W c' c'') :
    Marks bad mark (V ++ W) c c'' := by
  intro x
  rw [h' x, h x, or_assoc]
  refine or_congr_right ?_
  simp only [List.mem_append, or_and_right, exists_or]

theorem Marks.of_gains {x : Statement} {is : List Instr} (h : c.Gains l is c')
    (his : (∃ i ∈ is, bad i) ↔ mark x s) : Marks bad mark [⟨l, x, s⟩] c c' := by
  intro y
  rw [h y]
  by_cases hy : l = y
  · simp only [if_pos hy, List.mem_append, or_and_right, exists_or, his]
    simp [hy]
  · simp [hy]

/-- Code without the property. -/
theorem Marks.of_gains_nil {is : List Instr} (h : c.Gains l is c') (his : ∀ i ∈ is, ¬ bad i) :
    Marks bad mark [] c c' := by
  intro y
  rw [h y]
  split
  · simp only [List.mem_append, or_and_right, exists_or, List.not_mem_nil, false_and, exists_false,
      or_false, or_iff_left_iff_imp]
    rintro ⟨i, hi, hbad⟩
    exact absurd hbad (his i hi)
  · simp

/-- The mark tells whether an instruction of a statement has the property; jumps and heads of cases
do not have it. -/
structure Tells (known : Option Int → Prop) (bad : Instr → Prop)
    (mark : Statement → CompileState → Prop) : Prop where
  leaves {x : Statement} {s : CompileState} {is : List Instr} : s.graph.Sound known →
    x.Leaves s is → ((∃ i ∈ is, bad i) ↔ mark x s)
  jump (there : Nat) : ¬ bad (.jumpTo (.ofString there))
  case {n : Option Int} {name : Option String} {s t : CompileState} {word : Int} (there : Nat) :
    s.graph.Sound known → Yields (caseWord n name) s (some word) t → ¬ bad (caseInstr word there)

/-- **A body keeps scopes sound**, on its whole way and on the way to each arrival. -/
theorem bodyInvariant_sound : BodyInvariant (fun _ s t => s.graph.Sound known → t.graph.Sound known)
      fun _ s t => s.graph.Sound known → t.graph.Sound known where
  nil hs := hs
  append h h' hs := h' (h hs)
  leaf {pos l last x s t} _ hl hy hs := (recorded_compileStatement pos x s l hl).sound hs hy
  branch hl hy hs := (recorded_openBranch hl).sound hs hy
  select hl hy hs := (recorded_openSelect hl).sound hs hy
  case {l number name arm s t} hl hy hs :=
    (recorded_openCase (fun _ => True) ⟨none, ⟨0, 0⟩, s⟩ hl).sound hs hy
  jump _ hy hs := by
    obtain rfl := hy.jump
    exact hs
  block henter h hleave hs :=
    (keeps_leaveScope.unchanged hleave).2 ▸ h ((recorded_enterScope sound_default).sound hs henter)
  here hs := hs
  behind h h' hs := h' (h hs)
  enter henter h hs := h ((recorded_enterScope sound_default).sound hs henter)

theorem sound_of_enterFunction {f : FunctionDecl} {name : String} {parameters : List Variable}
    {result : Option ResultType} (hs : s.graph.Sound known)
    (hparameters : parameterVariables (f.params.getD []) [] = .ok parameters)
    (henter : Yields (enterScope (parameterScope parameters)) (s.openFunction f name result) () t) :
    t.graph.Sound known := by
  have hopen : (s.openFunction f name result).graph.Sound known := hs.addFunction _
  exact (recorded_enterScope (sound_parameterScope (sound_parameterVariables hparameters))).sound
    hopen henter

/-- **The statements of a script begin in sound scopes.** -/
theorem sound_of_mem_scriptArrivals {fs : Files} {mode : ReadMode} {path : String}
    (hok : (compileScript fs mode path).ended = .ok ()) {a : Arrival}
    (ha : a ∈ scriptArrivals fs mode path) : a.state.graph.Sound (fs.Declares mode) := by
  obtain ⟨⟨f, s⟩, hf, ha⟩ := List.mem_flatMap.mp ha
  obtain ⟨-, t, hy, -⟩ := compileFunction_of_mem_scriptVisits hok hf
  obtain ⟨name, parameters, result, s₁, s₂, -, hparameters, henter, hbody, -⟩ :=
    bodyInvariant_sound.compileFunction hy
  obtain ⟨V₁, V₂, hV⟩ := List.append_of_mem ha
  exact hbody.each V₁ a V₂ hV
    (sound_of_enterFunction (sound_of_mem_scriptVisits hf) hparameters henter)

/-- **A body has the instructions that the marks of its statements tell of.** -/
theorem bodyInvariant_marks (h : Tells known bad mark) :
    BodyInvariant (fun V s t => s.graph.Sound known →
      t.graph.Sound known ∧ Marks bad mark V s.file.code t.file.code) fun _ _ _ => True where
  nil hs := ⟨hs, .of_same fun _ => rfl⟩
  append h h' hs := by
    obtain ⟨ht, hV⟩ := h hs
    obtain ⟨hu, hW⟩ := h' ht
    exact ⟨hu, hV.append hW⟩
  leaf hx hl hy hs := by
    obtain ⟨is, hleaves, hgains⟩ := gains_leaf hx hl hy
    exact ⟨bodyInvariant_sound.leaf hx hl hy hs, .of_gains hgains (h.leaves hs hleaves)⟩
  branch hl hy hs := by
    obtain ⟨is, hleaves, hgains⟩ := gains_openBranch hl hy
    exact ⟨(recorded_openBranch hl).sound hs hy, .of_gains hgains (h.leaves hs (hleaves _ _ _))⟩
  select hl hy hs := by
    obtain ⟨is, hleaves, hgains⟩ := gains_openSelect hl hy
    exact ⟨(recorded_openSelect hl).sound hs hy, .of_gains hgains (h.leaves hs (hleaves _))⟩
  case hl hy hs := by
    obtain ⟨is, hgains, his⟩ := gains_openCase hl hy
    refine ⟨bodyInvariant_sound.case hl hy hs, .of_gains_nil hgains fun i hi => ?_⟩
    obtain ⟨n, u, word, v, there, hsame, hword, rfl⟩ := his i hi
    exact h.case there (hsame.1 ▸ hs) hword
  jump hl hy hs := by
    refine ⟨bodyInvariant_sound.jump hl hy hs, ?_⟩
    obtain rfl := hy.jump
    refine .of_gains_nil (Assembly.gains_emit (fun _ => rfl) hl) fun i hi => ?_
    rw [List.mem_singleton.mp hi]
    exact h.jump _
  block henter hV hleave hs := by
    obtain ⟨hu, hmarks⟩ := hV ((recorded_enterScope sound_default).sound hs henter)
    refine ⟨(keeps_leaveScope.unchanged hleave).2 ▸ hu, ?_⟩
    rwa [yields_leaveScope_code hleave, ← yields_enterScope_code henter]
  here := trivial
  behind _ _ := trivial
  enter _ _ := trivial

theorem marks_compileFunction (h : Tells known bad mark) {f : FunctionDecl}
    (hs : s.graph.Sound known) (hy : Yields (compileFunction f) s () t) :
    Marks bad mark (bodyArrivals f s) s.file.code t.file.code := by
  obtain ⟨name, parameters, result, s₁, s₂, -, hparameters, henter, hbody, hleave⟩ :=
    (bodyInvariant_marks h).compileFunction hy
  have hs₁ := sound_of_enterFunction hs hparameters henter
  have hnew : Marks bad mark [] s.file.code s₁.file.code := .of_same fun x => by
    rw [yields_enterScope_code henter]
    exact Assembly.instrs_newLabel _ _ x
  rw [yields_leaveScope_code hleave]
  exact hnew.append (hbody.all hs₁).2

/-- **Properties of instructions can be read off the statements** of a script that is compiled to
the end. -/
theorem marks_of_script {fs : Files} {mode : ReadMode} {path : String}
    (h : Tells (fs.Declares mode) bad mark) (hok : (compileScript fs mode path).ended = .ok ())
    (x : LabelId) :
    (∃ i ∈ ((compileScript fs mode path).state.file.code.label x).instrs, bad i) ↔
      ∃ a ∈ scriptArrivals fs mode path, a.label = x ∧ mark a.statement a.state := by
  have hcomposes : Composes (Marks bad mark) :=
    ⟨fun hmore => .of_same hmore.instrs, fun hV hW => hV.append hW⟩
  have hmarks := hcomposes.compileScript hok fun f s hf t hy =>
    marks_compileFunction h (sound_of_mem_scriptVisits hf) hy
  rw [hmarks x, Assembly.label_of_size_le (Nat.zero_le x)]
  simp

end Marks

end EvScript
