import EvScript.Proofs.Control.Compiled

/-!
# Which Choices Control Gets Out Of

Every arm of a choice that is over jumps to the label behind the choice. But if every question is
answered with no and there is no arm that asks nothing, control goes on under the label of the
choice, as a rule to its end, where the run halts. So an `if` without an `else` and a `switch`
without a default are traps. `Arms.Leads` says exactly which choices are none.

## Main results

* `inevitable_jump_after_iff` — which choices control gets out of in any case.
-/

namespace EvScript

open CompileM Assembly

/-! ### Ways out -/

mutual

/-- Control gets to the end of the flow with `goal`, whatever the answers are. It may fail to find
an arm under the label where the flow begins only if that is `caught`. -/
def Flow.Leads : Flow → Prop → Prop → Prop
  | .done, goal, _ => goal
  | .next (.perform _) rest, goal, caught => rest.Leads goal caught
  | .next (.choose _ arms) rest, goal, caught => arms.Leads (rest.Leads goal False) caught

/-- Control gets to the end of one of the arms with `goal`, whatever the answers are, or it is
`caught` where the arms end. -/
def Arms.Leads : Arms → Prop → Prop → Prop
  | .none, _, caught => caught
  | .test _ body rest, goal, caught => body.Leads goal False ∧ rest.Leads goal caught
  | .bare _ _, _, _ => False
  | .otherwise body rest, goal, caught => body.Leads goal (rest.Leads goal caught)

end

theorem Flow.leads_of_straight {goal caught caught' : Prop} : ∀ flow : Flow,
    flow.straight = true → (flow.Leads goal caught ↔ flow.Leads goal caught')
  | .done, _ => Iff.rfl
  | .next (.perform _) rest, h => Flow.leads_of_straight rest h

/-- There is no arm that asks nothing. -/
def Arms.asksOnly : Arms → Bool
  | .none => true
  | .test _ _ rest => rest.asksOnly
  | .bare _ rest => rest.asksOnly
  | .otherwise _ _ => false

/-! ### Jumps to a label -/

namespace Assembly

variable {c : Assembly} {x : Spot} {l m : Nat}

/-- At the spot there is a jump to the label. -/
def JumpsTo (c : Assembly) (l : Nat) (x : Spot) : Prop :=
  c.instrAt x = some (.jumpTo (c.target l))

theorem JumpsTo.isControl (h : c.JumpsTo l x) {i : Instr} (hi : c.instrAt x = some i) :
    i.isControl = true := by
  obtain rfl := Option.some.inj (h.symm.trans hi)
  rfl

theorem not_jumpsTo_of_test {q : Instr} {there : Operand} (hq : q.isTest = true)
    (hi : c.instrAt x = some (q.aimed there)) : ¬ c.JumpsTo l x := by
  intro h
  have hjump := congrArg Instr.isJump (Option.some.inj (h.symm.trans hi))
  rw [Instr.isJump_aimed, Instr.isJump_of_isTest hq] at hjump
  cases hjump

theorem not_jumpsTo_of_ne (hu : c.Unclashed) (hl : l < c.labels.size) (hm : m < c.labels.size)
    (hne : l ≠ m) (hi : c.instrAt x = some (.jumpTo (c.target m))) : ¬ c.JumpsTo l x := by
  intro h
  have hthere := congrArg Instr.operands (Option.some.inj (h.symm.trans hi))
  exact hne (hu.target_inj hl hm (List.head_eq_of_cons_eq hthere))

/-- At the end of a label no jump is to come. -/
theorem not_inevitable_of_end (hi : c.instrAt x = none) : ¬ c.Inevitable (c.JumpsTo l) x := by
  rw [inevitable_end hi, JumpsTo, hi]
  simp

end Assembly

/-! ### Flows that lie in code -/

mutual

/-- **In front of a flow** a jump to a label made before is inevitable if the flow leads to where
it is inevitable. -/
theorem Flow.Laid.inevitable_iff {c : Assembly} (hu : c.Unclashed) {z : Nat}
    (hz : z < c.labels.size) : ∀ (flow : Flow) {n : Nat} {x y : Spot} {e : Nat},
    flow.Laid c n x y e → flow.plain = true → z < n →
    (c.Inevitable (c.JumpsTo z) x ↔ flow.Leads (c.Inevitable (c.JumpsTo z) y)
      (c.Inevitable (c.JumpsTo z) ⟨x.label, e⟩))
  | .done, n, x, y, e, hlaid, _, _ => by
    obtain ⟨rfl, -⟩ := hlaid
    rfl
  | .next (.perform is) rest, n, x, y, e, hlaid, hp, hn => by
    obtain ⟨hstands, hrest⟩ := hlaid
    simp only [Flow.plain, Step.plain, Bool.and_eq_true] at hp
    rw [inevitable_stands hstands (by simpa using hp.1) fun _ _ h => h.isControl]
    exact Flow.Laid.inevitable_iff hu hz rest hrest hp.2 hn
  | .next (.choose setup arms) rest, n, x, y, e, hlaid, hp, hn => by
    obtain ⟨hstands, after, d, hafter, hlt, harms, hrest, hend⟩ := hlaid
    simp only [Flow.plain, Step.plain, Bool.and_eq_true] at hp
    rw [inevitable_stands hstands (by simpa using hp.1.1) fun _ _ h => h.isControl]
    have hgoal : c.Inevitable (c.JumpsTo z) ⟨after, 0⟩ ↔
        rest.Leads (c.Inevitable (c.JumpsTo z) y) False := by
      rw [Flow.Laid.inevitable_iff hu hz rest hrest hp.2 hn]
      cases hstraight : rest.straight with
      | true => exact Flow.leads_of_straight _ hstraight
      | false => rw [iff_false_intro (not_inevitable_of_end (hend hstraight))]
    refine Arms.Laid.inevitable_iff hu hz arms harms hp.1.2 (by omega) hlt fun y hy => ?_
    rw [inevitable_jump hu hlt hy (not_jumpsTo_of_ne hu hz hlt (by omega) hy), hgoal]

/-- **In front of arms** a jump is inevitable if the arms lead to where it is inevitable. -/
theorem Arms.Laid.inevitable_iff {c : Assembly} (hu : c.Unclashed) {z : Nat}
    (hz : z < c.labels.size) : ∀ (arms : Arms) {after : Nat} {x : Spot} {e : Nat} {goal : Prop},
    arms.Laid c after x e → arms.plain = true → z ≤ after → after < c.labels.size →
    (∀ y, c.instrAt y = some (.jumpTo (c.target after)) →
      (c.Inevitable (c.JumpsTo z) y ↔ goal)) →
    (c.Inevitable (c.JumpsTo z) x ↔
      arms.Leads goal (c.Inevitable (c.JumpsTo z) ⟨x.label, e⟩))
  | .none, after, x, e, goal, hlaid, _, _, _, _ => by
    obtain rfl : e = x.offset := hlaid
    rfl
  | .test q body rest, after, x, e, goal, hlaid, hp, ha, hlt, hgoal => by
    obtain ⟨⟨inside, y, d, hin, hq, hat, hbody, hjump, hend⟩, hrest⟩ := hlaid
    simp only [Arms.plain, Bool.and_eq_true] at hp
    rw [inevitable_test hu hin hq hat (not_jumpsTo_of_test hq hat),
      Flow.Laid.inevitable_iff hu hz body hbody hp.1 (by omega), hgoal y hjump,
      Arms.Laid.inevitable_iff hu hz rest hrest hp.2 ha hlt hgoal]
    refine and_congr_left' ?_
    cases hstraight : body.straight with
    | true => exact Flow.leads_of_straight _ hstraight
    | false => rw [iff_false_intro (not_inevitable_of_end (hend hstraight))]
  | .bare q rest, after, x, e, goal, hlaid, hp, ha, hlt, hgoal => by
    obtain ⟨⟨inside, hin, hq, hat, hend⟩, hrest⟩ := hlaid
    rw [inevitable_test hu hin hq hat (not_jumpsTo_of_test hq hat)]
    exact iff_of_false (fun h => not_inevitable_of_end hend h.1) id
  | .otherwise body rest, after, x, e, goal, hlaid, hp, ha, hlt, hgoal => by
    obtain ⟨y, d, hbody, hjump, hrest⟩ := hlaid
    simp only [Arms.plain, Bool.and_eq_true] at hp
    rw [Flow.Laid.inevitable_iff hu hz body hbody hp.1 (by omega), hgoal y hjump, Arms.Leads]
    cases hstraight : body.straight with
    | true => exact Flow.leads_of_straight _ hstraight
    | false =>
      rw [hstraight, if_neg Bool.false_ne_true] at hrest
      rw [Arms.Laid.inevitable_iff hu hz rest hrest hp.2 ha hlt hgoal]

end

/-- If all questions are answered with no and there is no other arm, control comes to where the
arms end. -/
theorem Arms.Laid.reaches_end {c : Assembly} (hu : c.Unclashed) {oracle : Oracle}
    (hno : ∀ h q, oracle h q = false) {after : Nat} : ∀ (arms : Arms) {x : Spot} {e : Nat},
    arms.Laid c after x e → arms.asksOnly = true → ∀ h,
    c.Reaches oracle ⟨x, h⟩ ⟨⟨x.label, e⟩, arms.exec oracle h⟩
  | .none, x, e, hlaid, _, h => by
    obtain rfl : e = x.offset := hlaid
    exact .refl _ _ _
  | .test q body rest, x, e, hlaid, hask, h => by
    obtain ⟨⟨inside, _, _, hin, hq, hat, -⟩, hrest⟩ := hlaid
    have htest := Reaches.test hu hin hq hat oracle h
    rw [hno] at htest
    have hon := Arms.Laid.reaches_end hu hno rest hrest hask (h ++ [.asked q false])
    simpa [Arms.exec, hno] using htest.trans hon
  | .bare q rest, x, e, hlaid, hask, h => by
    obtain ⟨⟨inside, hin, hq, hat, -⟩, hrest⟩ := hlaid
    have htest := Reaches.test hu hin hq hat oracle h
    rw [hno] at htest
    have hon := Arms.Laid.reaches_end hu hno rest hrest hask (h ++ [.asked q false])
    simpa [Arms.exec, hno] using htest.trans hon

/-! ### Choices in the source -/

mutual

theorem Flow.leads_of_closed {goal caught : Prop} (hgoal : goal) : ∀ flow : Flow,
    flow.closed = true → flow.Leads goal caught
  | .done, _ => hgoal
  | .next (.perform _) rest, hc => by
    simp only [Flow.closed, Bool.and_eq_true] at hc
    exact Flow.leads_of_closed hgoal rest hc.2
  | .next (.choose _ arms) rest, hc => by
    simp only [Flow.closed, Step.closed, Bool.and_eq_true] at hc
    exact Arms.leads_of_closed (Flow.leads_of_closed hgoal rest hc.2) arms hc.1

theorem Arms.leads_of_closed {goal caught : Prop} (hgoal : goal) : ∀ arms : Arms,
    arms.closed = true → arms.Leads goal caught
  | .none, hc => by simp [Arms.closed] at hc
  | .bare _ _, hc => by simp [Arms.closed] at hc
  | .test _ body rest, hc => by
    simp only [Arms.closed, Bool.and_eq_true] at hc
    exact ⟨Flow.leads_of_closed hgoal body hc.1, Arms.leads_of_closed hgoal rest hc.2⟩
  | .otherwise body _, hc => by
    rw [Arms.closed] at hc
    exact Flow.leads_of_closed hgoal body hc

end

/-- The statement is an `if` or a `switch`. -/
def Statement.chooses : Statement → Bool
  | .branch _ _ _ _ => true
  | .select _ _ _ => true
  | _ => false

/-- The case is the default. -/
def Case.isDefault : Case → Bool
  | .default _ => true
  | .labelled _ _ _ => false

/-- The statement has a block for when all answers are no: an `else` or a default. -/
def Statement.hasDefault : Statement → Bool
  | .branch _ _ _ otherwise => otherwise.isSome
  | .select _ cases _ => cases.any Case.isDefault
  | _ => false

theorem Arms.asksOnly_ask {question : Option Instr} {body : Option Flow} {rest : Arms}
    (h : rest.asksOnly = true) : (Arms.ask question body rest).asksOnly = true := by
  cases question with
  | none => exact h
  | some q => cases body <;> exact h

theorem asksOnly_of_cases : ∀ {cs : List Case} {s s' : CompileState} {arms : Arms},
    Yields (outlineCases cs) s arms s' → cs.any Case.isDefault = false → arms.asksOnly = true
  | [], _, _, _, h, _ => by
    rw [outlineCases] at h
    obtain ⟨rfl, -⟩ := h.pure
    rfl
  | .default _ :: _, _, _, _, _, hd => by simp [Case.isDefault] at hd
  | .labelled number name body :: cs, s, s', arms, h, hd => by
    rw [outlineCases, outlineCase] at h
    obtain ⟨arm, _, h₁, h⟩ := h.bind
    obtain ⟨rest, h₂, rfl⟩ := h.bind_pure
    have hrest := asksOnly_of_cases h₂ (by simpa [Case.isDefault] using hd)
    obtain ⟨_, _, -, h₁⟩ := h₁.bind
    obtain ⟨word, _, -, h₁⟩ := h₁.bind
    cases word with
    | none =>
      obtain ⟨rfl, -⟩ := h₁.pure
      exact hrest
    | some word =>
      obtain ⟨inside, -, rfl⟩ := h₁.bind_pure
      exact Arms.asksOnly_ask hrest

/-- An `if` or a `switch` is a choice, and without an `else` or a default all its arms ask. -/
theorem exists_choose {pos : Pos} {st : Statement} {s s' : CompileState} {step : Step}
    (h : Yields (outlineStatement pos st) s step s') (hst : st.chooses = true) :
    ∃ setup arms, step = .choose setup arms ∧
      (st.hasDefault = false → arms.asksOnly = true) := by
  cases st with
  | branch condition body elseIfs otherwise =>
    rw [outlineStatement] at h
    obtain ⟨_, _, -, h⟩ := h.bind
    obtain ⟨query, _, -, h⟩ := h.bind
    obtain ⟨inside, _, -, h⟩ := h.bind
    obtain ⟨_, _, -, h⟩ := h.bind
    obtain ⟨arms, harms, rfl⟩ := h.bind_pure
    refine ⟨_, _, rfl, fun hd => Arms.asksOnly_ask ?_⟩
    cases otherwise with
    | none =>
      rw [outlineElse] at harms
      obtain ⟨rfl, -⟩ := harms.pure
      rfl
    | some body => simp [Statement.hasDefault] at hd
  | select subject cases switchPos =>
    rw [outlineStatement] at h
    obtain ⟨setup, _, -, h⟩ := h.bind
    obtain ⟨arms, harms, rfl⟩ := h.bind_pure
    exact ⟨_, _, rfl, asksOnly_of_cases harms⟩
  | define _ | assign _ | call _ | inert _ => simp [Statement.chooses] at hst

/-! ### Compiled choices -/

/-- **Ways out of a choice.** Take an `if` or a `switch` compiled under the label `l`, with the
label `after` behind it, and any code without clashes that goes on from there. If no command that
it calls moves control, then control that comes to it

* always comes to a jump to `after`, whatever the tests yield, exactly if its arms lead there,
  where control that finds no arm to take goes on behind the code of the choice;
* does so if every `if` in it has an `else` and every `switch` ends with its only default;
* comes, without an `else` or a default and if no test jumps, to the end of its code under `l`
  without a jump. -/
theorem inevitable_jump_after_iff {pos : Pos} {st : Statement} {s s' : CompileState}
    {l after : Nat} {c : Assembly} (hst : st.chooses = true)
    (h : Yields (compileStatement pos l st) s after s') (hl : l < s.file.code.labels.size)
    (hc : s'.file.code.Extends c)
    (hset : Settled s.file.code.labels.size after s'.file.code c) (hu : c.Unclashed) :
    ∃ begins ends setup arms, begins = Spot.mk l (s.file.code.label l).instrs.length ∧
      ends = Spot.mk l (s'.file.code.label l).instrs.length ∧
      Yields (outlineStatement pos st) (s.withCode c) (.choose setup arms) (s'.withCode c) ∧
      ((Step.choose setup arms).plain = true →
        (c.Inevitable (c.JumpsTo after) begins ↔
          arms.Leads True (c.Inevitable (c.JumpsTo after) ends)) ∧
        (st.complete = true → c.Inevitable (c.JumpsTo after) begins) ∧
        (st.hasDefault = false → ∀ oracle : Oracle, (∀ h q, oracle h q = false) → ∀ h,
          c.Reaches oracle ⟨begins, h⟩
            ⟨ends, (Step.choose setup arms).exec oracle h⟩)) := by
  obtain ⟨step, ho, hlays⟩ := compileStatement_lays pos st h hl
  have hy := ho.yields c hc.strings
  obtain ⟨setup, arms, rfl, hasks⟩ := exists_choose hy hst
  obtain ⟨-, -, hlt, -, hlaid⟩ := hlays
  obtain ⟨hstands, harms⟩ := hlaid c hc hset
  have hltc := Nat.lt_of_lt_of_le hlt hc.size
  refine ⟨_, _, setup, arms, rfl, rfl, hy, fun hp => ?_⟩
  have hclosed : st.complete = true → arms.closed = true :=
    st.closed_of_complete (st.standsFor_of_outline hy)
  simp only [Step.plain, Bool.and_eq_true] at hp
  have hiff : c.Inevitable (c.JumpsTo after) ⟨l, (s.file.code.label l).instrs.length⟩ ↔
      arms.Leads True
        (c.Inevitable (c.JumpsTo after) ⟨l, (s'.file.code.label l).instrs.length⟩) := by
    rw [inevitable_stands hstands (by simpa using hp.1) fun _ _ h => h.isControl]
    exact Arms.Laid.inevitable_iff hu hltc arms harms hp.2 (Nat.le_refl _) hltc
      fun y hy => iff_true_intro (.here hy)
  refine ⟨hiff, fun hb => hiff.mpr (Arms.leads_of_closed trivial arms (hclosed hb)), ?_⟩
  intro hd oracle hno h
  exact (Reaches.stands hstands (by simpa using hp.1) oracle h).trans
    (Arms.Laid.reaches_end hu hno arms harms (hasks hd) _)

/-- An `if` without an `else`, which tests a flag. -/
def loneIf : Statement :=
  .branch (some ⟨.name (some "b"), .start⟩) (.of .start [.inert none]) [] none

/-- A state with that flag and the label of a function. -/
def flagState : CompileState :=
  (ending (do
    let _ ← define .top
      ⟨false, some ⟨"flag", .start⟩, some "b", some ⟨"3", some "3"⟩, none, .start⟩
    newLabel "_f") (.start "lone.evc")).2

/-- Compiling the `if` goes well, and no command that it calls moves control. -/
theorem loneIf_compiles : ∃ s', Yields (compileStatement .start 0 loneIf) flagState 1 s' ∧
    s'.file.code.Unclashed ∧ (s'.file.code.label 0).instrs.length = 1 ∧
    ∀ {step u}, Yields (outlineStatement .start loneIf) (flagState.withCode s'.file.code) step u →
      step.plain = true := by
  have hcheck : (match ending (compileStatement .start 0 loneIf) flagState with
      | (.ok 1, s') => decide s'.file.code.Unclashed &&
        (s'.file.code.label 0).instrs.length == 1 &&
        match ending (outlineStatement .start loneIf) (flagState.withCode s'.file.code) with
        | (.ok step, _) => step.plain
        | (.error _, _) => true
      | _ => false) = true := by
    decide +kernel
  split at hcheck
  · rename_i s' hs'
    simp only [Bool.and_eq_true, decide_eq_true_eq, beq_iff_eq] at hcheck
    refine ⟨s', hs', hcheck.1.1, hcheck.1.2, fun {step u} hstep => ?_⟩
    have hplain := hcheck.2
    rwa [hstep.ends] at hplain
  · cases hcheck

theorem loneIf_falls_off : ∃ s', Yields (compileStatement .start 0 loneIf) flagState 1 s' ∧
    s'.file.code.instrAt ⟨0, 1⟩ = none ∧
    ∀ oracle : Oracle, (∀ h q, oracle h q = false) → ∃ h,
      s'.file.code.Reaches oracle ⟨⟨0, 0⟩, []⟩ ⟨⟨0, 1⟩, h⟩ := by
  obtain ⟨s', hs', hu, hlen, hplain⟩ := loneIf_compiles
  obtain ⟨_, _, setup, arms, rfl, rfl, hstep, h⟩ := inevitable_jump_after_iff rfl hs'
    (by decide +kernel) (GrowsAt.refl 0 _).toExtends (fun _ _ _ _ => rfl) hu
  refine ⟨s', hs', ?_, fun oracle hno => ?_⟩
  · rw [instrAt, List.getElem?_eq_none (Nat.le_of_eq hlen)]
  · have hfall := (h (hplain hstep)).2.2 rfl oracle hno []
    rw [hlen, show (flagState.file.code.label 0).instrs.length = 0 by decide +kernel] at hfall
    exact ⟨_, hfall⟩

end EvScript
