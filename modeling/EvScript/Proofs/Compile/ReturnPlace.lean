import Mathlib.Logic.Function.Iterate
import EvScript.Proofs.Compile.ScriptBook

/-!
# Where Calls Leave Their Results

A call that carries a register has it at the place of the first marked parameter among those that no
earlier call has looked at. Looking uses them up: the first such call goes by the whole declaration,
the next one by what is left over, and in the end the register stands in front.

## Main results

* `instr_of_call_in_book` — where a call has the register for its result.
-/

namespace EvScript

open CompileM

variable {log : List Deed}

/-! ### Marked parameters -/

/-- The parameter can be read and marks the place of the result. -/
def Param.marksResult (p : Param) : Bool :=
  match p.read with
  | .ok parameter => parameter.storage = some resultStorage
  | .error _ => false

/-- The parameter is declared with the word for results. -/
def Param.declaredResult (p : Param) : Bool := p.storage = some .result

/-- The place of the result that parameters give: that of the first marked one, or in front. -/
def markedPlace (ps : List Param) : Nat := (ps.findIdx? Param.marksResult).getD 0

/-- The place of the result that a declaration asks for. -/
def declaredPlace (ps : List Param) : Nat := (ps.findIdx? Param.declaredResult).getD 0

/-- What is left over after looking for a marked parameter. -/
def leftOver (ps : List Param) : List Param := (ps.dropWhile (!·.marksResult)).tail

/-- The marked parameters come first. -/
def MarkedFirst (ps : List Param) : Prop :=
  ∀ p ∈ ps.dropWhile Param.marksResult, p.marksResult = false

variable {p : Param} {ps : List Param}

@[simp] theorem leftOver_nil : leftOver [] = [] := rfl

theorem leftOver_cons_of_marks (h : p.marksResult = true) : leftOver (p :: ps) = ps := by
  simp [leftOver, h]

theorem leftOver_cons_of_not_marks (h : p.marksResult = false) :
    leftOver (p :: ps) = leftOver ps := by
  simp [leftOver, h]

theorem leftOver_of_none (h : ∀ p ∈ ps, p.marksResult = false) : leftOver ps = [] := by
  induction ps with
  | nil => rfl
  | cons p ps ih =>
    rw [List.forall_mem_cons] at h
    rw [leftOver_cons_of_not_marks h.1, ih h.2]

theorem leftOver_iterate_nil (n : Nat) : leftOver^[n] [] = [] := by
  induction n with
  | zero => rfl
  | succ n ih => rw [Function.iterate_succ_apply, leftOver_nil, ih]

/-- Whatever is looked at is used up in the end. -/
theorem leftOver_iterate_length (ps : List Param) : leftOver^[ps.length] ps = [] := by
  have hshort : ∀ qs : List Param, (leftOver qs).length ≤ qs.length - 1 := by
    intro qs
    rw [leftOver, List.length_tail]
    exact Nat.sub_le_sub_right (List.dropWhile_suffix _).length_le 1
  have hall : ∀ (n : Nat) (qs : List Param), qs.length ≤ n → leftOver^[n] qs = [] := by
    intro n
    induction n with
    | zero => exact fun qs h => List.length_eq_zero_iff.mp (Nat.le_zero.mp h)
    | succ n ih =>
      intro qs h
      rw [Function.iterate_succ_apply]
      have := hshort qs
      exact ih _ (by omega)
  exact hall _ ps le_rfl

theorem markedPlace_cons_of_marks (h : p.marksResult = true) : markedPlace (p :: ps) = 0 := by
  simp [markedPlace, List.findIdx?_cons, h]

theorem markedPlace_cons_of_not_marks (h : p.marksResult = false) :
    markedPlace (p :: ps) = 0 ↔ ∀ q ∈ ps, q.marksResult = false := by
  rw [markedPlace, List.findIdx?_cons, h, ← List.findIdx?_eq_none_iff]
  cases ps.findIdx? Param.marksResult <;> simp

/-- All calls have the register in front exactly if the marked parameters come first. -/
theorem markedPlace_iterate_eq_zero_iff :
    (∀ n, markedPlace (leftOver^[n] ps) = 0) ↔ MarkedFirst ps := by
  induction ps with
  | nil =>
    refine ⟨fun _ => by rintro p ⟨⟩, fun _ n => ?_⟩
    rw [leftOver_iterate_nil]
    rfl
  | cons p ps ih =>
    cases hp : p.marksResult with
    | true =>
      -- the first call uses up this parameter and no other
      have hdrop : (p :: ps).dropWhile Param.marksResult = ps.dropWhile Param.marksResult := by
        simp [hp]
      rw [MarkedFirst, hdrop, ← MarkedFirst, ← ih]
      constructor
      · intro h n
        simpa [Function.iterate_succ_apply, leftOver_cons_of_marks hp] using h (n + 1)
      · rintro h (_ | n)
        · exact markedPlace_cons_of_marks hp
        · rw [Function.iterate_succ_apply, leftOver_cons_of_marks hp]
          exact h n
    | false =>
      have hdrop : (p :: ps).dropWhile Param.marksResult = p :: ps := by simp [hp]
      rw [MarkedFirst, hdrop, List.forall_mem_cons]
      constructor
      · intro h
        exact ⟨hp, (markedPlace_cons_of_not_marks hp).mp (h 0)⟩
      · rintro ⟨-, h⟩ (_ | n)
        · exact (markedPlace_cons_of_not_marks hp).mpr h
        · rw [Function.iterate_succ_apply, leftOver_cons_of_not_marks hp, leftOver_of_none h,
            leftOver_iterate_nil]
          rfl

/-- **All calls agree with the declaration** exactly if the marked parameters come first and the
declaration asks for the front. -/
theorem markedPlace_iterate_iff : (∀ n, markedPlace (leftOver^[n] ps) = declaredPlace ps) ↔
    MarkedFirst ps ∧ declaredPlace ps = 0 := by
  rw [← markedPlace_iterate_eq_zero_iff]
  constructor
  · intro h
    -- after enough calls there are no parameters left, and the place is in front
    have hlast := h ps.length
    rw [leftOver_iterate_length] at hlast
    exact ⟨fun n => (h n).trans hlast.symm, hlast.symm⟩
  · rintro ⟨h, hfront⟩ n
    rw [hfront]
    exact h n

/-! ### Looking for the place -/

variable {s s' : CompileState}

theorem Param.marksResult_of_read {parameter : Parameter} (h : p.read = .ok parameter) :
    p.marksResult = decide (parameter.storage = some resultStorage) := by
  rw [marksResult, h]

/-- Looking for the place of the result among the parameters of a command gives the place of the
first marked one, and leaves over what is behind it. -/
theorem yields_seekReturn {serial i index : Nat}
    (h : Yields (seekReturn serial i ps) s index s') (hs : s.unseen[serial]? = some ps) :
    index = ((ps.findIdx? Param.marksResult).map (i + ·)).getD 0 ∧ s'.graph = s.graph ∧
      ∀ n, s'.unseen[n]? = if n = serial then some (leftOver ps) else s.unseen[n]? := by
  induction ps generalizing s i with
  | nil =>
    obtain ⟨rfl, rfl⟩ := h.pure
    refine ⟨rfl, rfl, fun n => ?_⟩
    split
    · subst n
      exact hs
    · rfl
  | cons p ps ih =>
    obtain ⟨_, t, hm, h⟩ := h.bind
    obtain ⟨parameter, hread, h⟩ := h.lift_bind
    have hmarks := Param.marksResult_of_read hread
    have ht : ∀ n, t.unseen[n]? = if n = serial then some ps else s.unseen[n]? := by
      intro n
      rw [← hm.modify]
      by_cases hn : n = serial
      · subst n
        simp [Array.getElem?_modify, hs]
      · simp [Array.getElem?_modify, hn, Ne.symm hn]
    have hg : t.graph = s.graph := by rw [← hm.modify]
    split at h
    · rename_i hstorage
      rw [decide_eq_true hstorage] at hmarks
      obtain ⟨_, _, htell, h⟩ := h.bind
      obtain rfl := htell.tell
      obtain ⟨rfl, rfl⟩ := h.pure
      rw [leftOver_cons_of_marks hmarks]
      exact ⟨by simp [List.findIdx?_cons, hmarks], hg, ht⟩
    · rename_i hstorage
      rw [decide_eq_false hstorage] at hmarks
      obtain ⟨hindex, hgraph, hunseen⟩ := ih h (by rw [ht, if_pos rfl])
      rw [leftOver_cons_of_not_marks hmarks]
      refine ⟨?_, hgraph.trans hg, fun n => ?_⟩
      · rw [hindex, List.findIdx?_cons, hmarks]
        cases ps.findIdx? Param.marksResult <;> simp
        omega
      · rw [hunseen, ht]
        split <;> rfl

/-! ### Calls -/

/-- The call carries a register for its result. -/
def CallSite.carries (site : CallSite) : Bool := site.command.result.isSome || site.storage.isSome

/-- The register for the result. -/
def CallSite.register (site : CallSite) : Operand :=
  ⟨.work, some (site.storage.getD Registry.answerRegister)⟩

/-- The instruction of a call of a command with `ps` left over and the given operands. -/
def CallSite.instrWith (site : CallSite) (ps : List Param) (operands : List Operand) : Instr :=
  ⟨site.command.number,
    if site.carries then insertOperand (markedPlace ps) site.register operands else operands⟩

/-- A call is compiled to its operands, with the register at the place that the parameters left
over give. If it carries a register, it uses parameters up; those of other commands stay. -/
theorem CallSite.yields_compile {site : CallSite} {i : Instr}
    (h : Yields site.compile s i s') (hs : s.unseen[site.command.serial]? = some ps) :
    (∃ operands t, Yields (operandsOf site.pos site.args) s operands t ∧
      i = site.instrWith ps operands) ∧
    (∀ d, s'.graph.OnShelf (·.commands) d → s.graph.OnShelf (·.commands) d) ∧
    ∀ n, s'.unseen[n]? =
      if n = site.command.serial ∧ site.carries then some (leftOver ps) else s.unseen[n]? := by
  obtain ⟨operands, t, hops, h⟩ := yields_bind.mp (yields_compileCommandCall.mp h).2
  obtain ⟨ht, hshelf⟩ := (silent_operandsOf site.pos site.args).quiet hops
  unfold placeResult at h
  cases hc : site.carries with
  | false =>
    rw [show (site.command.result.isSome || site.storage.isSome) = false from hc] at h
    obtain ⟨rfl, rfl⟩ := h.pure
    exact ⟨⟨operands, t, hops, by simp [instrWith, hc]⟩, hshelf, fun n => by simp [ht]⟩
  | true =>
    rw [show (site.command.result.isSome || site.storage.isSome) = true from hc] at h
    obtain ⟨index, hindex, rfl⟩ := h.bind_pure
    have hseek := hindex.get_bind
    rw [ht, hs] at hseek
    obtain ⟨rfl, hgraph, hunseen⟩ := yields_seekReturn hseek (ht ▸ hs)
    refine ⟨⟨operands, t, hops, ?_⟩, hgraph ▸ hshelf, fun n => ?_⟩
    · simp [instrWith, register, hc, markedPlace]
    · simp [hunseen n, ht]

/-! ### Reading the book -/

/-- The deed is a call of the command that carries a register. -/
def Deed.carriesFor (c : Command) : Deed → Bool
  | .declare _ _ => false
  | .call site => site.command = c && site.carries

/-- How many calls of a command carry a register. -/
def carryingCalls (c : Command) (log : List Deed) : Nat := log.countP (·.carriesFor c)

theorem carryingCalls_concat (c : Command) (log : List Deed) (d : Deed) :
    carryingCalls c (log ++ [d]) = carryingCalls c log + if d.carriesFor c then 1 else 0 := by
  simp [carryingCalls, List.countP_append, List.countP_singleton]

/-- What a record says about a state: every command comes from a declaration, is declared once
and is called only after that, and what is left over of its parameters is what its calls have not
used up. -/
structure Registered (log : List Deed) (s : CompileState) : Prop where
  known : ∀ c, s.graph.OnShelf (·.commands) c → ∃ ps, .declare c ps ∈ log
  called : ∀ site, .call site ∈ log → ∃ ps, .declare site.command ps ∈ log
  once : ∀ c ps c' ps', .declare c ps ∈ log → .declare c' ps' ∈ log → c.serial = c'.serial → c = c'
  left : ∀ c ps, .declare c ps ∈ log →
    s.unseen[c.serial]? = some (leftOver^[carryingCalls c log] ps)

theorem Registered.start (path : String) : Registered [] (.start path) where
  known c h := by
    obtain ⟨id, h⟩ := ScopeGraph.onShelf_of_start h
    simp [ScopeGraph.scope, ScopeGraph.empty, Table.values, Table.empty] at h
  called _ h := by cases h
  once _ _ _ _ h := by cases h
  left _ _ h := by cases h

theorem Registered.quiet (h : Registered log s) (hq : Quiet s s') : Registered log s' where
  known c hc := h.known c (hq.commands c hc)
  called := h.called
  once := h.once
  left c ps hc := by rw [hq.unseen, h.left c ps hc]

/-- A declaration adds a command that was not called before, with all its parameters. -/
theorem Registered.declare {c : Command}
    (h : Registered log s) (hd : (Deed.declare c ps).Does s s') :
    Registered (log ++ [.declare c ps]) s' := by
  obtain ⟨hserial, hunseen, hshelf⟩ := hd
  have hold : ∀ c' ps', .declare c' ps' ∈ log → c'.serial < s.unseen.size := fun c' ps' hc' =>
    (Array.getElem?_eq_some_iff.mp (h.left c' ps' hc')).1
  have hnew : ∀ ps', .declare c ps' ∉ log := fun ps' hc => by
    have := hold c ps' hc
    omega
  have huncalled : carryingCalls c log = 0 := by
    rw [carryingCalls, List.countP_eq_zero]
    rintro (⟨c', ps'⟩ | site) hmem hcarries
    · cases hcarries
    · simp only [Deed.carriesFor, Bool.and_eq_true, decide_eq_true_eq] at hcarries
      obtain ⟨ps', hdecl⟩ := h.called site hmem
      exact hnew ps' (hcarries.1 ▸ hdecl)
  have hmem : ∀ c' ps', .declare c' ps' ∈ log ++ [.declare c ps] →
      .declare c' ps' ∈ log ∨ c' = c ∧ ps' = ps := by
    intro c' ps' hc'
    simpa using hc'
  refine ⟨fun c' hc' => ?_, fun site hsite => ?_, fun c₁ ps₁ c₂ ps₂ h₁ h₂ heq => ?_,
    fun c' ps' hc' => ?_⟩
  · rcases hshelf c' hc' with rfl | hc'
    · exact ⟨ps, by simp⟩
    · obtain ⟨ps', hps'⟩ := h.known c' hc'
      exact ⟨ps', List.mem_append_left _ hps'⟩
  · obtain ⟨ps', hps'⟩ := h.called site (by simpa using hsite)
    exact ⟨ps', List.mem_append_left _ hps'⟩
  · rcases hmem _ _ h₁ with hc₁ | ⟨rfl, rfl⟩ <;> rcases hmem _ _ h₂ with hc₂ | ⟨rfl, rfl⟩
    · exact h.once _ _ _ _ hc₁ hc₂ heq
    · have := hold _ _ hc₁
      omega
    · have := hold _ _ hc₂
      omega
    · rfl
  · rw [carryingCalls_concat, hunseen, Array.getElem?_push]
    rcases hmem _ _ hc' with hc' | ⟨rfl, rfl⟩
    · rw [if_neg (Nat.ne_of_lt (hold _ _ hc')), h.left _ _ hc']
      rfl
    · rw [if_pos hserial, huncalled]
      rfl

/-- A call uses up parameters of its command if it carries a register, and no others. -/
theorem Registered.call {site : CallSite} (h : Registered log s)
    (hd : (Deed.call site).Does s s') : Registered (log ++ [.call site]) s' := by
  obtain ⟨-, hshelf, hy⟩ := hd
  obtain ⟨ps, hps⟩ := h.known _ hshelf
  obtain ⟨-, hback, hunseen⟩ := site.yields_compile hy (h.left _ _ hps)
  have hmem : ∀ c' ps', .declare c' ps' ∈ log ++ [.call site] → .declare c' ps' ∈ log := by
    intro c' ps' hc'
    simpa using hc'
  refine ⟨fun c' hc' => ?_, fun site' hsite => ?_, fun c₁ ps₁ c₂ ps₂ h₁ h₂ heq => ?_,
    fun c' ps' hc' => ?_⟩
  · obtain ⟨ps', hps'⟩ := h.known c' (hback c' hc')
    exact ⟨ps', List.mem_append_left _ hps'⟩
  · rcases List.mem_append.mp hsite with hsite | hsite
    · obtain ⟨ps', hps'⟩ := h.called site' hsite
      exact ⟨ps', List.mem_append_left _ hps'⟩
    · cases List.mem_singleton.mp hsite
      exact ⟨ps, List.mem_append_left _ hps⟩
  · exact h.once _ _ _ _ (hmem _ _ h₁) (hmem _ _ h₂) heq
  · have hc' := hmem _ _ hc'
    by_cases hc : site.command = c'
    · subst c'
      obtain ⟨-, -, hunseen⟩ := site.yields_compile hy (h.left _ _ hc')
      rw [hunseen, carryingCalls_concat, Deed.carriesFor]
      cases hcar : site.carries with
      | false => simp [h.left _ _ hc']
      | true => simp [Function.iterate_succ_apply']
    · have hserial : c'.serial ≠ site.command.serial := fun heq =>
        hc (h.once _ _ _ _ hc' hps heq).symm
      rw [hunseen, carryingCalls_concat, Deed.carriesFor]
      simp [hserial, hc, h.left _ _ hc']

/-- **What is left over after a book is kept.** -/
theorem Book.registered {log' : List Deed} (hb : Book s log' s') (h : Registered log s) :
    Registered (log ++ log') s' := by
  induction hb generalizing log with
  | quiet hq =>
    rw [List.append_nil]
    exact h.quiet hq
  | @deed _ _ _ _ d _ before does _ ih =>
    rw [← List.singleton_append, ← List.append_assoc]
    refine ih ?_
    cases d with
    | declare c ps => exact (h.quiet before).declare does
    | call site => exact (h.quiet before).call does

/-! ### Scripts -/

/-- **Where calls leave their results.** A script that is compiled to the end keeps a book that
accounts for all its code. Each call in the book is of a command that was declared before it, and
becomes the number of the command and the operands of its arguments in order. If it carries a
register, the register stands at the place of the first marked parameter among those left over
from the calls before it that carried one. This is the place that the declaration asks for,
whatever was compiled before, exactly if the marked parameters come first and the declaration
asks for the front. -/
theorem instr_of_call_in_book (fs : Files) (mode : ReadMode) (path : String)
    (hok : (compileScript fs mode path).ended = .ok ()) :
    ∃ log, Book (.start path) log (compileScript fs mode path).state ∧
      (∀ i, (compileScript fs mode path).state.file.code.Holds i → Accounted log i) ∧
      (∀ before site later, log = before ++ .call site :: later →
        ∃ params operands t, .declare site.command params ∈ before ∧
          Yields (operandsOf site.pos site.args) site.state operands t ∧
          site.instr =
            site.instrWith (leftOver^[carryingCalls site.command before] params) operands) ∧
      ∀ params, (∀ n, markedPlace (leftOver^[n] params) = declaredPlace params) ↔
        MarkedFirst params ∧ declaredPlace params = 0 := by
  have hrun := compileScript_ended_iff.mp hok
  obtain ⟨log, hbook, -, hcode⟩ := booked_compileFile fs mode (fun _ => False) _ path _ _ _ hrun
  refine ⟨log, hbook, fun i hi => ?_, ?_, fun params => markedPlace_iterate_iff⟩
  · rcases hcode i hi with ⟨x, hx⟩ | hg | hacc
    · cases hx
    · exact hg.elim
    · exact hacc
  · rintro before site later rfl
    obtain ⟨s, s', hbefore, ⟨rfl, hshelf, hy⟩, -⟩ := hbook.split
    have hreg := hbefore.registered (.start path)
    obtain ⟨params, hparams⟩ := hreg.known _ hshelf
    obtain ⟨⟨operands, t, hops, hinstr⟩, -, -⟩ := site.yields_compile hy (hreg.left _ _ hparams)
    exact ⟨params, operands, t, hparams, hops, hinstr⟩

/-- A script that calls a command twice, whose second parameter is the place of the result. -/
def twiceFiles : Files :=
  ⟨[("twice.evc", ("command g(int a,int r:return)->int:7;" ++
    "function f()\x7bint x=g(3);int y=g(3);\x7d").toUTF8)]⟩

set_option maxRecDepth 100000 in
theorem twiceFiles_compiles : ∃ state,
    compileScript twiceFiles .strict "twice.evc" = ⟨.ok (), state⟩ ∧
      (state.file.code.label 0).instrs =
        [⟨some 7, [⟨.value, some 1077936128⟩, ⟨.work, some 0⟩]⟩,
          ⟨some 7, [⟨.work, some 1⟩, ⟨.value, some 1077936128⟩]⟩] := by
  have hcheck : (compileScript twiceFiles .strict "twice.evc").endsWith (fun state =>
      (state.file.code.label 0).instrs ==
        [⟨some 7, [⟨.value, some 1077936128⟩, ⟨.work, some 0⟩]⟩,
          ⟨some 7, [⟨.work, some 1⟩, ⟨.value, some 1077936128⟩]⟩]) = true := by
    decide +kernel
  obtain ⟨state, hscript, hstate⟩ := Outcome.eq_of_endsWith hcheck
  exact ⟨state, hscript, beq_iff_eq.mp hstate⟩

theorem second_call_in_front : ∃ state,
    compileScript twiceFiles .strict "twice.evc" = ⟨.ok (), state⟩ ∧
      (state.file.code.label 0).instrs =
        [⟨some 7, [⟨.value, some 1077936128⟩, ⟨.work, some 0⟩]⟩,
          ⟨some 7, [⟨.work, some 1⟩, ⟨.value, some 1077936128⟩]⟩] ∧
      ∃ log, Book (.start "twice.evc") log state ∧
        (∀ i, state.file.code.Holds i → Accounted log i) ∧
        ∀ before site later, log = before ++ .call site :: later →
          ∃ params operands t, .declare site.command params ∈ before ∧
            Yields (operandsOf site.pos site.args) site.state operands t ∧
            site.instr =
              site.instrWith (leftOver^[carryingCalls site.command before] params) operands := by
  obtain ⟨state, hscript, hinstrs⟩ := twiceFiles_compiles
  have hok := congrArg Outcome.ended hscript
  obtain ⟨log, hbook, hcode, hcalls, -⟩ :=
    instr_of_call_in_book twiceFiles .strict "twice.evc" hok
  rw [congrArg Outcome.state hscript] at hbook hcode
  exact ⟨state, hscript, hinstrs, log, hbook, hcode, hcalls⟩

end EvScript
