import EvScript.Proofs.Control.Arrivals
import EvScript.Proofs.Control.Exits

/-!
# Where a Default Stands

A value should go to the first case that has it, and to the default only if there is none. But the
block of the default, and the jump behind it, stay under the label of the switch, where the default
is written. So a value goes to the first case **in front of the default** that has it, and else to
the default, even if a case behind it has the value.

## Main results

* `default_hides_cases_behind` — which arm of a switch a value goes to.
-/

namespace EvScript

open CompileM Assembly

variable {arms behind : List Arm} {oracle : Oracle} {h : History}

/-! ### The arms of a switch -/

namespace Arm

/-- The word that the arm tests for. -/
def word? : Arm → Option Int
  | .case word _ => some word
  | _ => none

/-- What is run when the arm is entered. -/
def body? : Arm → Option Flow
  | .case _ body => body
  | .blank => none
  | .default body => some body

/-- The arm is a case that has the value. -/
def hits (v : Int) (a : Arm) : Bool := a.word? == some v

/-- The tests for a value in arms without a default, up to the first that has it. -/
def tests (v : Int) : List Arm → History
  | [] => []
  | .case word _ :: rest =>
    .asked (caseQuestion word) (decide (word = v)) :: if word = v then [] else tests v rest
  | _ :: rest => tests v rest

end Arm

theorem CasesStandFor.of_append_default {block : Block} {back : List Case} :
    ∀ {front : List Case} {row : List Arm} {s t : CompileState},
    CasesStandFor s (front ++ .default block :: back) row t →
    ∃ arms flow behind u v, row = arms ++ .default flow :: behind ∧ CasesStandFor s front arms u ∧
      block.StandsFor {} u flow v ∧ CasesStandFor v back behind t
  | [], _, _, _, .cons hdefault hback => by
    cases hdefault with
    | default hflow => exact ⟨[], _, _, _, _, rfl, .nil, hflow, hback⟩
  | _ :: _, _, _, _, .cons hx hrest => by
    obtain ⟨arms, flow, behind, u, v, rfl, harms, hdefault, hbehind⟩ := of_append_default hrest
    exact ⟨_ :: arms, flow, behind, u, v, rfl, .cons hx harms, hdefault, hbehind⟩

theorem CasesStandFor.ne_default : ∀ {front : List Case} {arms : List Arm} {s t : CompileState},
    CasesStandFor s front arms t → front.any Case.isDefault = false →
    ∀ a ∈ arms, ∀ d, a ≠ .default d
  | [], _, _, _, .nil, _ => by simp
  | _ :: _, _, _, _, .cons hx hrest, hfront => by
    rw [List.any_cons, Bool.or_eq_false_iff] at hfront
    refine List.forall_mem_cons.mpr ⟨fun d hd => ?_, ne_default hrest hfront.2⟩
    subst hd
    cases hx
    cases hfront.1

/-! ### Entering an arm -/

/-- From the history on, tests for cases are answered by comparing with the value. -/
def Oracle.SwitchesOn (oracle : Oracle) (h : History) (v : Int) : Prop :=
  ∀ (words : List Int) (word : Int),
    oracle (h ++ words.map fun w => .asked (caseQuestion w) (decide (w = v))) (caseQuestion word) =
      decide (word = v)

theorem Oracle.SwitchesOn.answer {v : Int} (hv : oracle.SwitchesOn h v) (word : Int) :
    oracle h (caseQuestion word) = decide (word = v) := by
  simpa using hv [] word

theorem Oracle.SwitchesOn.next {v : Int} (hv : oracle.SwitchesOn h v) (word : Int) :
    oracle.SwitchesOn (h ++ [.asked (caseQuestion word) (decide (word = v))]) v := by
  intro words w
  simpa using hv (word :: words) w

/-- From `start` control comes, with the history `h`, to a spot where the flow begins, and behind
the flow there is a jump to the label. -/
def Assembly.Enters (c : Assembly) (oracle : Oracle) (after : Nat) (start : Config) (flow : Flow)
    (h : History) : Prop :=
  ∃ x y d, c.Reaches oracle start ⟨x, h⟩ ∧ flow.Laid c (after + 1) x y d ∧
    c.instrAt y = some (.jumpTo (c.target after))

/-- A flow that is entered and in which every choice has an arm to take is run, and control goes on
at the label. -/
theorem Assembly.Enters.reaches {c : Assembly} {after : Nat} {start : Config}
    {flow : Flow} (hu : c.Unclashed) (ha : after < c.labels.size)
    (henters : c.Enters oracle after start flow h) (hplain : flow.plain = true)
    (hclosed : flow.closed = true) :
    c.Reaches oracle start ⟨⟨after, 0⟩, flow.exec oracle h⟩ := by
  obtain ⟨x, y, d, hreaches, hlaid, hjump⟩ := henters
  exact (hreaches.trans (Flow.Laid.reaches hu oracle flow hlaid hplain hclosed h)).trans
    (Reaches.jump hu ha hjump oracle _)

/-- **Which arm is entered.** In front of the default it is the first that has the value; if there
is none, it is the default. -/
theorem Arm.enters_of_laid {c : Assembly} (hu : c.Unclashed) {v : Int}
    {after : Nat} {e : Nat} {flow body : Flow} :
    ∀ (arms : List Arm) {x : Spot} {h : History}, (∀ a ∈ arms, ∀ d, a ≠ .default d) →
    (Arm.row (arms ++ .default flow :: behind)).Laid c after x e → oracle.SwitchesOn h v →
    ((arms.find? (Arm.hits v)).getD (.default flow)).body? = some body →
    c.Enters oracle after ⟨x, h⟩ body (h ++ Arm.tests v arms)
  | [], x, h, _, hlaid, _, hbody => by
    obtain rfl : flow = body := Option.some.inj hbody
    obtain ⟨y, d, hflow, hjump, -⟩ := hlaid
    exact ⟨x, y, d, by rw [Arm.tests, List.append_nil]; exact .refl _ _ _, hflow, hjump⟩
  | .default d :: _, _, _, hcases, _, _, _ => absurd rfl (hcases _ List.mem_cons_self d)
  | .blank :: arms, x, h, hcases, hlaid, hv, hbody =>
    enters_of_laid hu arms (List.forall_mem_cons.mp hcases).2 hlaid hv hbody
  | .case word inside :: arms, x, h, hcases, hlaid, hv, hbody => by
    have hanswer := hv.answer word
    by_cases hword : word = v
    · -- the arm has the value, so the test leads to its label
      have hhit : Arm.hits v (.case word inside) = true := by simp [Arm.hits, Arm.word?, hword]
      rw [List.find?_cons_of_pos hhit] at hbody
      obtain rfl : inside = some body := hbody
      obtain ⟨⟨l, y, d, hl, hq, hat, hflow, hjump, -⟩, -⟩ := hlaid
      have htest := Reaches.test hu hl hq hat oracle h
      rw [hanswer, decide_eq_true hword, if_pos rfl] at htest
      refine ⟨_, y, d, ?_, hflow, hjump⟩
      rwa [Arm.tests, if_pos hword, decide_eq_true hword]
    · have hmiss : ¬ Arm.hits v (.case word inside) = true := by simp [Arm.hits, Arm.word?, hword]
      rw [List.find?_cons_of_neg hmiss] at hbody
      obtain ⟨⟨l, hl, hq, hat⟩, hrest⟩ : (∃ l, l < c.labels.size ∧
          (caseQuestion word).isTest = true ∧
          c.instrAt x = some ((caseQuestion word).aimed (c.target l))) ∧
          (Arm.row (arms ++ .default flow :: behind)).Laid c after (x.ahead 1) e := by
        cases inside with
        | none =>
          obtain ⟨⟨l, hl, hq, hat, -⟩, hrest⟩ := hlaid
          exact ⟨⟨l, hl, hq, hat⟩, hrest⟩
        | some inside =>
          obtain ⟨⟨l, _, _, hl, hq, hat, -⟩, hrest⟩ := hlaid
          exact ⟨⟨l, hl, hq, hat⟩, hrest⟩
      have htest := Reaches.test hu hl hq hat oracle h
      rw [hanswer, decide_eq_false hword, if_neg Bool.false_ne_true] at htest
      have hnext := hv.next word
      rw [decide_eq_false hword] at hnext
      obtain ⟨z, y, d, hreaches, hflow, hjump⟩ :=
        enters_of_laid hu arms (List.forall_mem_cons.mp hcases).2 hrest hnext hbody
      refine ⟨z, y, d, ?_, hflow, hjump⟩
      rw [Arm.tests, if_neg hword, decide_eq_false hword, List.append_cons]
      exact htest.trans hreaches

/-! ### Places of the default -/

/-- The arms behind the default make no difference exactly if the words that they test for are
tested for in front of it. -/
theorem Arm.find?_append_eq_iff :
    (∀ v, (arms ++ behind).find? (Arm.hits v) = arms.find? (Arm.hits v)) ↔
      ∀ a ∈ behind, ∀ w, a.word? = some w → ∃ b ∈ arms, b.word? = some w := by
  constructor
  · intro h a ha w hw
    by_contra hnone
    have hfront : arms.find? (Arm.hits w) = none :=
      List.find?_eq_none.mpr fun b hb hhit => hnone ⟨b, hb, beq_iff_eq.mp hhit⟩
    have hall := h w
    rw [hfront, List.find?_append, hfront, Option.none_or, List.find?_eq_none] at hall
    exact hall a ha (beq_iff_eq.mpr hw)
  · intro h v
    rw [List.find?_append]
    cases hfront : arms.find? (Arm.hits v) with
    | some a => rfl
    | none =>
      rw [Option.none_or, List.find?_eq_none]
      intro a ha hhit
      obtain ⟨b, hb, hword⟩ := h a ha v (beq_iff_eq.mp hhit)
      exact List.find?_eq_none.mp hfront b hb (beq_iff_eq.mpr hword)

/-- **A default hides the cases behind it.** Take a `switch` compiled under the label `l`, with the
label `after` behind it, and any code without clashes that goes on from there. Let `front` be its
cases in front of its first default and `back` those behind it, and let what the switch is about not
move control.

* The cases stand for arms: each that is a number or the name of an integer constant has its word.
* Whatever the value, control enters the first arm in front of the default that has the value, and
  if there is none, the default; behind its flow there is a jump to `after`.
* So if in that flow every choice has an arm to take, it is run, and control goes on at `after`.
* That arm is the first one of all that has the value, whatever the value, exactly if every word
  that is tested for behind the default is tested for in front of it. -/
theorem default_hides_cases_behind {pos switchPos : Pos} {subject : Option Condition}
    {front back : List Case} {block : Block} {s s' : CompileState} {l after : Nat} {c : Assembly}
    (h : Yields (compileStatement pos l
      (.select subject (front ++ .default block :: back) switchPos)) s after s')
    (hl : l < s.file.code.labels.size) (hc : s'.file.code.Extends c)
    (hset : Settled s.file.code.labels.size after s'.file.code c) (hu : c.Unclashed)
    (hfront : front.any Case.isDefault = false) :
    ∃ begins setup arms flow behind t u v, begins = Spot.mk l (s.file.code.label l).instrs.length ∧
      Yields (outlineStatement pos (.select subject (front ++ .default block :: back) switchPos))
        (s.withCode c) (.choose setup (Arm.row (arms ++ .default flow :: behind)))
        (s'.withCode c) ∧
      Yields (compileSubject subject switchPos) (s.withCode c) setup t ∧
      CasesStandFor t front arms u ∧ block.StandsFor {} u flow v ∧
      CasesStandFor v back behind (s'.withCode c) ∧
      ((∀ i ∈ setup, i.isControl = false) → ∀ v oracle history,
        oracle.SwitchesOn (history ++ setup.map .done) v →
        ∀ body, ((arms.find? (Arm.hits v)).getD (.default flow)).body? = some body →
        c.Enters oracle after ⟨begins, history⟩ body
          (history ++ setup.map .done ++ Arm.tests v arms) ∧
        (body.plain = true → body.closed = true → c.Reaches oracle ⟨begins, history⟩
          ⟨⟨after, 0⟩, body.exec oracle (history ++ setup.map .done ++ Arm.tests v arms)⟩)) ∧
      ((∀ v, (arms ++ behind).find? (Arm.hits v) = arms.find? (Arm.hits v)) ↔
        ∀ a ∈ behind, ∀ w, a.word? = some w → ∃ b ∈ arms, b.word? = some w) := by
  obtain ⟨step, ho, hlays⟩ := compileStatement_lays pos _ h hl
  have hy := ho.yields c hc.strings
  have hselect := hy
  rw [outlineStatement] at hselect
  obtain ⟨setup, t, hsubject, hselect⟩ := hselect.bind
  obtain ⟨choice, hcases, rfl⟩ := hselect.bind_pure
  obtain ⟨row, rfl, hrow⟩ := casesStandFor_of_outline _ hcases
  obtain ⟨arms, flow, behind, u, v, rfl, harms, hdefault, hbehind⟩ := hrow.of_append_default
  obtain ⟨-, -, hlt, -, hlaid⟩ := hlays
  obtain ⟨hstands, hlies⟩ := hlaid c hc hset
  refine ⟨_, setup, arms, flow, behind, t, u, v, rfl, hy, hsubject, harms, hdefault, hbehind, ?_,
    Arm.find?_append_eq_iff⟩
  intro hsetup v oracle history hv body hbody
  obtain ⟨x, y, d, hreaches, hflow, hjump⟩ :=
    Arm.enters_of_laid hu arms (harms.ne_default hfront) hlies hv hbody
  have henters : c.Enters oracle after ⟨⟨l, (s.file.code.label l).instrs.length⟩, history⟩ body
      (history ++ setup.map .done ++ Arm.tests v arms) :=
    ⟨x, y, d, (Reaches.stands hstands hsetup oracle history).trans hreaches, hflow, hjump⟩
  exact ⟨henters, henters.reaches hu (Nat.lt_of_lt_of_le hlt hc.size)⟩

/-- A case that stands behind a default. -/
def hiddenCase : Case := .labelled (some ⟨"1", some "1"⟩) none (.of .start [.inert none])

theorem hiddenCase_word : (Numeral.toInt ⟨"1", some "1"⟩ >>= fun k => encode (.int k)).toOption =
    some 1065353216 := by
  decide +kernel

/-- A `switch` whose default comes first. -/
def hidingSwitch : Statement :=
  .select (some ⟨.name (some "b"), .start⟩)
    ([] ++ .default (.of .start [.inert none]) :: [hiddenCase]) .start

/-- Compiling the `switch` goes well, and what it is about does not move control. -/
theorem hidingSwitch_compiles : ∃ s',
    Yields (compileStatement .start 0 hidingSwitch) flagState 1 s' ∧
    s'.file.code.Unclashed ∧ ∀ {setup arms u},
      Yields (outlineStatement .start hidingSwitch) (flagState.withCode s'.file.code)
        (.choose setup arms) u → ∀ i ∈ setup, i.isControl = false := by
  have hcheck : (match ending (compileStatement .start 0 hidingSwitch) flagState with
      | (.ok 1, s') => decide s'.file.code.Unclashed &&
        match ending (outlineStatement .start hidingSwitch) (flagState.withCode s'.file.code) with
        | (.ok (.choose setup _), _) => setup.all fun i => !i.isControl
        | _ => true
      | _ => false) = true := by
    decide +kernel
  split at hcheck
  · rename_i s' hs'
    simp only [Bool.and_eq_true, decide_eq_true_eq] at hcheck
    refine ⟨s', hs', hcheck.1, fun {setup arms u} hstep => plain_of_all ?_⟩
    have hplain := hcheck.2
    rwa [hstep.ends] at hplain
  · cases hcheck

/-- Whatever the value, the default of the `switch` is entered, also if it is the word of the case.
-/
theorem hidden_case_never_entered : ∃ (s' u v : CompileState) (setup : List Instr)
    (flow : Flow) (inside : Option Flow),
    Yields (compileStatement .start 0 hidingSwitch) flagState 1 s' ∧
    Block.StandsFor {} u (.of .start [.inert none]) flow v ∧
    CasesStandFor v [hiddenCase] [.case 1065353216 inside] (s'.withCode s'.file.code) ∧
    ∀ w oracle, oracle.SwitchesOn (setup.map .done) w →
      s'.file.code.Enters oracle 1 ⟨⟨0, 0⟩, []⟩ flow (setup.map .done) := by
  obtain ⟨s', hs', hu, hplain⟩ := hidingSwitch_compiles
  obtain ⟨_, setup, arms, flow, behind, t, u, v, rfl, hstep, -, harms, hdefault, hbehind, h, -⟩ :=
    default_hides_cases_behind hs' (by decide +kernel) (GrowsAt.refl 0 _).toExtends
      (fun _ _ _ _ => rfl) hu rfl
  cases harms
  -- the case is a number, so it is an arm, and its word is that of the number
  obtain ⟨inside, rfl⟩ : ∃ inside, behind = [.case 1065353216 inside] := by
    cases hbehind with
    | cons hcase hnil =>
      cases hnil
      cases hcase with
      | blank htested => cases htested
      | case hvalue _ =>
        rw [caseValue?, hiddenCase_word] at hvalue
        cases hvalue
        exact ⟨_, rfl⟩
  refine ⟨s', t, v, setup, flow, inside, hs', hdefault, hbehind, fun w oracle hw => ?_⟩
  have henters := (h (hplain hstep) w oracle [] hw flow rfl).1
  rwa [show (flagState.file.code.label 0).instrs.length = 0 by decide +kernel, Arm.tests,
    List.append_nil] at henters

end EvScript
