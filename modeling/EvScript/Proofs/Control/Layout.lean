import EvScript.Proofs.Control.Outline

/-!
# How a Structured Program Lies in Code

`Flow.Laid` says how a flow lies in finished code. What it performs stands there in order. Each arm
with a question has a label of its own, and the steps behind a choice are under the **after** label,
to which every arm that is over jumps; an arm that asks nothing stays under the label of the choice.

While code is built, later steps add to labels that a flow already uses. So a flow is shown to be
laid out in any code that goes on from the code built so far, as long as the labels it is done with
stay as they are (`Assembly.Settled`). That is `Lays`.
-/

namespace EvScript

open Registry

variable {arms rest : Arms}

namespace Assembly

variable {a b c d : Assembly} {x y l n m : Nat}

/-! ### Code that goes on from other code -/

/-- The code `c` has all that `a` has. -/
structure Extends (a c : Assembly) : Prop where
  strings : a.strings <+: c.strings
  size : a.labels.size ≤ c.labels.size
  name : ∀ id, id < a.labels.size → (c.label id).name = (a.label id).name
  instrs : ∀ id, id < a.labels.size → (a.label id).instrs <+: (c.label id).instrs

theorem GrowsAt.toExtends (h : GrowsAt x a c) : a.Extends c where
  strings := h.strings
  size := h.size
  name _ hid := h.name_eq hid
  instrs _ hid := h.instrs_prefix hid

theorem Adds.toExtends (h : a.Adds c) : a.Extends c where
  strings := h.strings
  size := h.size
  name id hid := by rw [h.label id hid]
  instrs id hid := by rw [h.label id hid]

theorem Extends.trans (h : a.Extends b) (g : b.Extends c) : a.Extends c where
  strings := h.strings.trans g.strings
  size := Nat.le_trans h.size g.size
  name id hid := (g.name id (Nat.lt_of_lt_of_le hid h.size)).trans (h.name id hid)
  instrs id hid := (h.instrs id hid).trans (g.instrs id (Nat.lt_of_lt_of_le hid h.size))

/-- A label keeps its operand. -/
theorem Extends.target_eq (h : a.Extends c) (hl : l < a.labels.size) : c.target l = a.target l := by
  rw [target, target, h.name l hl]

theorem Extends.stands (h : a.Extends c) (hl : l < a.labels.size) {is js : List Instr}
    (hi : (a.label l).instrs = is ++ js) : c.Stands ⟨l, is.length⟩ js := by
  obtain ⟨r, hr⟩ := h.instrs l hl
  refine ⟨r, ?_⟩
  simp [← hr, hi]

/-- The labels from the `n`-th on, except `x`, have the same instructions in `c` as in `a`. -/
def Settled (n : Nat) (x : Nat) (a c : Assembly) : Prop :=
  ∀ id, n ≤ id → id < a.labels.size → id ≠ x → (c.label id).instrs = (a.label id).instrs

theorem Adds.settled (h : a.Adds c) (n x : Nat) : Settled n x a c :=
  fun id _ hid _ => by rw [h.label id hid]

theorem Settled.mono (h : Settled n x a c) (hn : n ≤ m) : Settled m x a c :=
  fun id hid => h id (Nat.le_trans hn hid)

/-- Labels that are settled later were settled before, if there was no growth but at a label
that is left out. -/
theorem Settled.of_growsAt (h : Settled n y d c) (g : GrowsAt x b d)
    (hx : x < n ∨ x = l) (hy : y = l ∨ b.labels.size ≤ y) : Settled n l b c := by
  intro id hn hid hl
  have hxid : id ≠ x := by
    rintro rfl
    rcases hx with hx | rfl
    · omega
    · exact hl rfl
  have hyid : id ≠ y := by
    rintro rfl
    rcases hy with rfl | hy
    · exact hl rfl
    · omega
  rw [h id hn (Nat.lt_of_lt_of_le hid g.size) hyid, g.other id hid hxid]

theorem Settled.instrAt_end (h : Settled n x a c) (hn : n ≤ l) (hl : l < a.labels.size)
    (hx : l ≠ x) : c.instrAt ⟨l, (a.label l).instrs.length⟩ = none := by
  simp [instrAt, h l hn hl hx]

end Assembly

/-! ### Lying in finished code -/

/-- There is no choice in the flow. -/
def Flow.straight : Flow → Bool
  | .done => true
  | .next (.perform _) rest => rest.straight
  | .next (.choose _ _) _ => false

mutual

/-- The flow lies in the code from the spot `x` to the spot `y`, with labels from the `n`-th on;
under the label of `x` its code ends at the offset `e`. -/
def Flow.Laid (c : Assembly) (n : Nat) : Flow → Spot → Spot → Nat → Prop
  | .done, x, y, e => y = x ∧ e = x.offset
  | .next (.perform is) rest, x, y, e =>
    c.Stands x is ∧ rest.Laid c n (x.ahead is.length) y e
  | .next (.choose setup arms) rest, x, y, e =>
    c.Stands x setup ∧ ∃ after d, n ≤ after ∧ after < c.labels.size ∧
      arms.Laid c after (x.ahead setup.length) e ∧ rest.Laid c n ⟨after, 0⟩ y d ∧
      (rest.straight = false → c.instrAt ⟨after, d⟩ = none)

/-- The arms lie in the code from the spot `x` on, and under its label they end at the offset
`e`; what is over goes on at the label `after`. -/
def Arms.Laid (c : Assembly) (after : Nat) : Arms → Spot → Nat → Prop
  | .none, x, e => e = x.offset
  | .test q body rest, x, e =>
    (∃ inside y d, inside < c.labels.size ∧ q.isTest = true ∧
      c.instrAt x = some (q.aimed (c.target inside)) ∧
      body.Laid c (after + 1) ⟨inside, 0⟩ y d ∧
      c.instrAt y = some (.jumpTo (c.target after)) ∧
      (body.straight = false → c.instrAt ⟨inside, d⟩ = none)) ∧
    rest.Laid c after (x.ahead 1) e
  | .bare q rest, x, e =>
    (∃ inside, inside < c.labels.size ∧ q.isTest = true ∧
      c.instrAt x = some (q.aimed (c.target inside)) ∧ c.instrAt ⟨inside, 0⟩ = none) ∧
    rest.Laid c after (x.ahead 1) e
  | .otherwise body rest, x, e =>
    ∃ y d, body.Laid c (after + 1) x y d ∧ c.instrAt y = some (.jumpTo (c.target after)) ∧
      rest.Laid c after (if body.straight then y.ahead 1 else ⟨x.label, d⟩) e

end

/-! ### Laying out while code is built -/

open Assembly

/-- Building `b` from `a` lays out the flow, from the end of the label `l` to the end of `l'`. -/
structure Lays (l l' : Nat) (a b : Assembly) (flow : Flow) : Prop where
  grows : GrowsAt l a b
  last : if flow.straight then l' = l else a.labels.size ≤ l'
  last_lt : l' < b.labels.size
  laid : ∀ n c, n ≤ a.labels.size → b.Extends c → Settled a.labels.size l' b c →
    flow.Laid c n ⟨l, (a.label l).instrs.length⟩ ⟨l', (b.label l').instrs.length⟩
      (b.label l).instrs.length

/-- Building `b` from `a` lays out the step, from the end of the label `l` to the end of
`l'`. -/
def LaysStep (l l' : Nat) (a b : Assembly) : Step → Prop
  | .perform is => l' = l ∧ GrowsAt l a b ∧ b.labels.size = a.labels.size ∧
    (b.label l).instrs = (a.label l).instrs ++ is
  | .choose setup arms => GrowsAt l a b ∧ a.labels.size ≤ l' ∧ l' < b.labels.size ∧
    (b.label l').instrs = [] ∧
    ∀ c, b.Extends c → Settled a.labels.size l' b c →
      c.Stands ⟨l, (a.label l).instrs.length⟩ setup ∧
      arms.Laid c l' ⟨l, (a.label l).instrs.length + setup.length⟩ (b.label l).instrs.length

/-- Building `b` from `a` lays out the inside of an arm under the label `inside`, with labels
from the `n`-th on. Without a block there is nothing. -/
structure LaysInside (n inside after : Nat) (a b : Assembly) (body : Option Flow) :
    Prop where
  grows : GrowsAt inside a b
  laid : ∀ c, b.Extends c → Settled n after b c →
    match body with
    | none => c.instrAt ⟨inside, 0⟩ = none
    | some flow => ∃ y d, flow.Laid c (after + 1) ⟨inside, 0⟩ y d ∧
      c.instrAt y = some (.jumpTo (c.target after)) ∧
      (flow.straight = false → c.instrAt ⟨inside, d⟩ = none)

/-- Building `b` from `a` lays out the arms under the label `l` from the offset `p` on, with
labels from the `n`-th on. -/
structure LaysArms (n l after p : Nat) (a b : Assembly) (arms : Arms) : Prop where
  grows : GrowsAt l a b
  laid : ∀ c, b.Extends c → Settled n after b c →
    arms.Laid c after ⟨l, p⟩ (b.label l).instrs.length

variable {a b d : Assembly} {l l' m n p inside after last : Nat} {flow : Flow}

/-! ### Flows -/

theorem Lays.done (hl : l < a.labels.size) : Lays l l a a .done where
  grows := .refl l a
  last := rfl
  last_lt := hl
  laid _ _ _ _ _ := ⟨rfl, rfl⟩

theorem Lays.last_or (h : Lays l l' a b flow) : l' = l ∨ a.labels.size ≤ l' := by
  have hlast := h.last
  split at hlast
  · exact .inl hlast
  · exact .inr hlast

/-- The label behind a step is there. -/
theorem LaysStep.last_lt {step : Step} (hl : l < a.labels.size) (h : LaysStep l l' a b step) :
    l' < b.labels.size := by
  cases step with
  | perform is =>
    obtain ⟨rfl, -, hsize, -⟩ := h
    exact hsize ▸ hl
  | choose setup arms => exact h.2.2.1

/-- **A step in front of a flow.** -/
theorem LaysStep.next {step : Step} {rest : Flow} (hl : l < a.labels.size)
    (hs : LaysStep l m a b step) (hr : Lays m l' b d rest) :
    Lays l l' a d (.next step rest) := by
  cases step with
  | perform is =>
    obtain ⟨rfl, hg, hsize, hi⟩ := hs
    refine ⟨hg.trans hr.grows, ?_, hr.last_lt, ?_⟩
    · have hlast := hr.last
      rwa [hsize] at hlast
    · intro n c hn hc hset
      refine ⟨(hr.grows.toExtends.trans hc).stands (hsize ▸ hl) hi, ?_⟩
      have hrest := hr.laid n c (hsize ▸ hn) hc (hsize ▸ hset)
      rw [hi, List.length_append] at hrest
      exact hrest
  | choose setup arms =>
    obtain ⟨hg, hm, hmlt, hempty, hlaid⟩ := hs
    have hml : l ≠ m := Nat.ne_of_lt (Nat.lt_of_lt_of_le hl hm)
    have hlb : l < b.labels.size := Nat.lt_of_lt_of_le hl hg.size
    refine ⟨hg.trans_fresh hm hr.grows, ?_, hr.last_lt, ?_⟩
    · show a.labels.size ≤ l'
      rcases hr.last_or with rfl | h
      · exact hm
      · exact Nat.le_trans hg.size h
    · intro n c hn hc hset
      obtain ⟨hsetup, harms⟩ := hlaid c (hr.grows.toExtends.trans hc)
        (hset.of_growsAt hr.grows (.inr rfl) hr.last_or)
      have hrest := hr.laid n c (Nat.le_trans hn hg.size) hc (hset.mono hg.size)
      rw [hempty] at hrest
      rw [← hr.grows.other l hlb hml] at harms
      refine ⟨hsetup, m, _, Nat.le_trans hn hm,
        Nat.lt_of_lt_of_le hmlt (hr.grows.toExtends.trans hc).size, harms, hrest, ?_⟩
      intro hstraight
      have hfresh := hr.last
      rw [hstraight] at hfresh
      exact hset.instrAt_end hm (Nat.lt_of_lt_of_le hmlt hr.grows.size)
        (Nat.ne_of_lt (Nat.lt_of_lt_of_le hmlt hfresh))

/-! ### The inside of an arm -/

/-- Without a block, nothing is laid out. -/
theorem LaysInside.none (hn : n ≤ inside) (hin : inside < a.labels.size) (ha : inside ≠ after)
    (hempty : (a.label inside).instrs = []) : LaysInside n inside after a a .none where
  grows := .refl inside a
  laid c _ hset := by
    have hend := hset.instrAt_end hn hin ha
    rwa [hempty] at hend

theorem Lays.grows_jump (h : Lays l last a b flow) : GrowsAt l a (b.jump last after) := by
  rcases h.last_or with rfl | hfresh
  · exact h.grows.trans (.jump h.last_lt)
  · exact h.grows.trans_fresh hfresh (.jump h.last_lt)

theorem Lays.instrAt_jump {c : Assembly} (h : Lays l last a b flow)
    (ha : after < b.labels.size) (hc : (b.jump last after).Extends c) :
    c.instrAt ⟨last, (b.label last).instrs.length⟩ = some (.jumpTo (c.target after)) := by
  have hb : b.Extends c := (GrowsAt.jump h.last_lt).toExtends.trans hc
  have hi : ((b.jump last after).label last).instrs =
      (b.label last).instrs ++ [.jumpTo (b.target after)] := by
    rw [jump, label_emit_self _ h.last_lt]
    rfl
  rw [hb.target_eq ha]
  exact (hc.stands (by simpa [jump] using h.last_lt) hi).instrAt

/-- **A flow under the label of an arm**, and behind it the jump. -/
theorem LaysInside.of_lays (hn : n ≤ inside) (hin : inside < a.labels.size)
    (ha : after < inside) (hempty : (a.label inside).instrs = [])
    (h : Lays inside last a b flow) :
    LaysInside n inside after a (b.jump last after) (some flow) := by
  have hab := h.grows.size
  have hjump : GrowsAt last b (b.jump last after) := .jump h.last_lt
  refine ⟨h.grows_jump, ?_⟩
  intro c hc hset
  have hsetb : Settled a.labels.size last b c := fun id hid hidb hne => by
    rw [hset id (by omega) (Nat.lt_of_lt_of_le hidb hjump.size) (by omega),
      hjump.other id hidb hne]
  have hlaid := h.laid (after + 1) c (by omega) (hjump.toExtends.trans hc) hsetb
  rw [hempty] at hlaid
  refine ⟨_, _, hlaid, h.instrAt_jump (by omega) hc, ?_⟩
  intro hstraight
  have hfresh := h.last
  rw [hstraight] at hfresh
  have hne : inside ≠ last := Nat.ne_of_lt (Nat.lt_of_lt_of_le hin hfresh)
  have hend := hset.instrAt_end hn (Nat.lt_of_lt_of_le hin (Nat.le_trans hab hjump.size))
    (Nat.ne_of_gt ha)
  rwa [hjump.other inside (Nat.lt_of_lt_of_le hin hab) hne] at hend

/-! ### Arms -/

theorem LaysArms.none (n l after : Nat) (a : Assembly) :
    LaysArms n l after (a.label l).instrs.length a a .none where
  grows := .refl l a
  laid _ _ _ := rfl

theorem LaysArms.of_grows (hg : GrowsAt l a b)
    (h : LaysArms n l after p b d arms) : LaysArms n l after p a d arms where
  grows := hg.trans h.grows
  laid := h.laid

/-- **An arm with a question**, asked under the label of the choice. If no question is asked, the
inside is built all the same, but no arm leads there. -/
theorem LaysArms.ask {e : Assembly} {question : Option Instr} {body : Option Flow}
    (hl : l < n) (hn : n ≤ after) (ha : after < a.labels.size) (hg : GrowsAt l a e)
    (hin : a.labels.size ≤ inside) (hlt : inside < e.labels.size)
    (hq : ∀ q, question = some q → q.isTest = true)
    (hb : LaysInside n inside after
      (e.emit l (question.map (·.aimed (e.target inside))).toList) b body)
    (hr : LaysArms n l after (b.label l).instrs.length b d rest) :
    LaysArms n l after (e.label l).instrs.length a d (.ask question body rest) := by
  have hle : l < e.labels.size := by omega
  have hemit := GrowsAt.emit (a := e) (question.map (·.aimed (e.target inside))).toList hle
  have hbl : (b.label l).instrs =
      (e.label l).instrs ++ (question.map (·.aimed (e.target inside))).toList := by
    rw [hb.grows.other l (by simpa using hle) (by omega), label_emit_self _ hle]
  have hlb : l < b.labels.size := Nat.lt_of_lt_of_le hle (by simpa using hb.grows.size)
  refine ⟨((hg.trans hemit).trans_fresh hin hb.grows).trans hr.grows, ?_⟩
  intro c hc hset
  have hbc : b.Extends c := hr.grows.toExtends.trans hc
  have hec : e.Extends c := hemit.toExtends.trans (hb.grows.toExtends.trans hbc)
  have hinside := hb.laid c hbc (hset.of_growsAt hr.grows (.inl hl) (.inl rfl))
  have hrest := hr.laid c hc hset
  cases question with
  | none =>
    rw [hbl] at hrest
    simpa [Arms.ask] using hrest
  | some q =>
    have hsize := Nat.lt_of_lt_of_le hlt hec.size
    have hat : c.instrAt ⟨l, (e.label l).instrs.length⟩ = some (q.aimed (c.target inside)) := by
      rw [hec.target_eq hlt]
      exact (hbc.stands hlb hbl).instrAt
    rw [hbl, List.length_append] at hrest
    cases body with
    | none => exact ⟨⟨inside, hsize, hq q rfl, hat, hinside⟩, hrest⟩
    | some flow =>
      obtain ⟨y, k, hflow, hjump, hend⟩ := hinside
      exact ⟨⟨inside, y, k, hsize, hq q rfl, hat, hflow, hjump, hend⟩, hrest⟩

/-- **An arm that asks nothing** stays under the label of the choice; its flow may go on
elsewhere. -/
theorem LaysArms.otherwise (hl : l < n) (hn : n ≤ after)
    (ha : after < a.labels.size) (h : Lays l last a b flow)
    (hr : LaysArms n l after ((b.jump last after).label l).instrs.length (b.jump last after) d
      rest) :
    LaysArms n l after (a.label l).instrs.length a d (.otherwise flow rest) := by
  have hjump : GrowsAt last b (b.jump last after) := .jump h.last_lt
  have hab := h.grows.size
  refine ⟨h.grows_jump.trans hr.grows, ?_⟩
  intro c hc hset
  have hjc : (b.jump last after).Extends c := hr.grows.toExtends.trans hc
  have hsetj : Settled n after (b.jump last after) c :=
    hset.of_growsAt hr.grows (.inl hl) (.inl rfl)
  have hsetb : Settled a.labels.size last b c := fun id hid hidb hne => by
    rw [hsetj id (by omega) (Nat.lt_of_lt_of_le hidb hjump.size) (by omega),
      hjump.other id hidb hne]
  refine ⟨_, _, h.laid (after + 1) c ha (hjump.toExtends.trans hjc) hsetb,
    h.instrAt_jump (by omega) hjc, ?_⟩
  have hrest := hr.laid c hc hset
  have hlast := h.last
  split at hlast
  · subst hlast
    rw [if_pos ‹_›]
    rw [jump, label_emit_self _ h.last_lt] at hrest
    simpa [Spot.ahead] using hrest
  · rw [if_neg ‹_›]
    rwa [hjump.other l (by omega) (by omega)] at hrest

/-! ### Choices -/

/-- **A choice**: instructions and then arms, with a label for what comes behind. -/
theorem LaysStep.choose {setup : List Instr} (hl : l < a.labels.size)
    (hg : GrowsAt l a b) (ha : a.labels.size ≤ after) (hlt : after < b.labels.size)
    (hempty : (b.label after).instrs = [])
    (h : LaysArms a.labels.size l after ((a.label l).instrs.length + setup.length) b d arms)
    (hsetup : (a.label l).instrs ++ setup <+: (d.label l).instrs) :
    LaysStep l after a d (.choose setup arms) := by
  refine ⟨hg.trans h.grows, ha, Nat.lt_of_lt_of_le hlt h.grows.size, ?_, ?_⟩
  · rw [h.grows.other after hlt (by omega), hempty]
  · intro c hc hset
    refine ⟨?_, h.laid c hc hset⟩
    have hld : l < d.labels.size := Nat.lt_of_lt_of_le hl (hg.trans h.grows).size
    obtain ⟨r, hr⟩ := hsetup
    rw [List.append_assoc] at hr
    exact (hc.stands hld hr.symm).append_left

end EvScript
