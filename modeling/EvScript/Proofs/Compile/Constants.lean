import EvScript.Proofs.Compile.Keeps
import EvScript.Proofs.Number.Words

/-!
# Constants and Literals

One would expect that a script means the same with a literal in the place of the constant that is
defined with it. For the case of a switch this is so. As an argument it is not: the name of a
constant gives its word, which is taken for a number and stored again. The two agree exactly for
zero without a sign and for the integers in two short ranges.

## Main results

* `constant_iff_literal` — where a constant can be replaced by its literal.
-/

namespace EvScript

open CompileM Number

variable {a : Arg} {o : Operand} {operands os os' : List Operand} {back front : List Arg}
  {storage : Option Int} {name text : String} {numeral : Numeral}
variable {s s' t : CompileState} {pos : Pos}

/-! ### Arguments of a call -/

/-- Wherever names mean what they mean in the state, the argument becomes the operand. -/
def Arg.IsOperand (a : Arg) (s : CompileState) (pos : Pos) (o : Operand) : Prop :=
  ∀ t, SameScopes s t → ∀ o' t',
    Yields (do Operand.ofArgument pos (← evaluate a)) t o' t' ↔ o = o' ∧ t = t'

theorem yields_operandsOf_of_isOperand (ha : a.IsOperand s pos o) :
    Yields (operandsOf pos (front ++ a :: back)) s operands s' ↔ ∃ xs zs t,
      Yields (operandsOf pos front) s xs t ∧ Yields (operandsOf pos back) t zs s' ∧
        operands = xs ++ o :: zs := by
  rw [operandsOf, List.mapM_append, List.mapM_cons, yields_bind]
  constructor
  · rintro ⟨xs, t, hxs, h⟩
    obtain ⟨ys, hys, rfl⟩ := h.bind_pure
    obtain ⟨y, t', hy, h⟩ := hys.bind
    obtain ⟨rfl, rfl⟩ := (ha t ((keeps_operandsOf _ _).sameScopes hxs) _ _).mp hy
    obtain ⟨zs, hzs, rfl⟩ := h.bind_pure
    exact ⟨xs, zs, t, hxs, hzs, rfl⟩
  · rintro ⟨xs, zs, t, hxs, hzs, rfl⟩
    have hy := (ha t ((keeps_operandsOf _ _).sameScopes hxs) o t).mpr ⟨rfl, rfl⟩
    refine ⟨xs, t, hxs, yields_bind_pure.mpr ⟨o :: zs, ?_, rfl⟩⟩
    exact yields_bind.mpr ⟨o, t, hy, yields_bind_pure.mpr ⟨zs, hzs, rfl⟩⟩

theorem insertOperand_inj {index : Nat}
    (hlen : os.length = os'.length) : insertOperand index o os = insertOperand index o os' ↔
      os = os' := by
  refine ⟨fun h => ?_, fun h => h ▸ rfl⟩
  obtain ⟨hfront, hback⟩ := List.append_inj h (by simp [hlen])
  calc os = os.take index ++ os.drop index := (List.take_append_drop index os).symm
    _ = os'.take index ++ os'.drop index := by rw [hfront, (List.cons_inj_right o).mp hback]
    _ = os' := List.take_append_drop index os'

theorem exists_yields_placeResult {c : Command}
    {i : Instr} (hlen : os.length = os'.length) (h : Yields (placeResult c storage os) s i s') :
    ∃ j, Yields (placeResult c storage os') s j s' ∧ (i = j ↔ os = os') := by
  unfold placeResult at h ⊢
  split at h
  · obtain ⟨index, hindex, rfl⟩ := h.bind_pure
    rw [if_pos ‹_›]
    refine ⟨_, yields_bind_pure.mpr ⟨index, hindex, rfl⟩, ?_⟩
    rw [Instr.mk.injEq, and_iff_right rfl]
    exact insertOperand_inj hlen
  · obtain ⟨rfl, rfl⟩ := h.pure
    rw [if_neg ‹_›]
    exact ⟨_, yields_pure.mpr ⟨rfl, rfl⟩, by simp⟩

/-- **Calls that differ in one argument** are compiled together, and to the same instruction
exactly if the two arguments become the same operand. -/
theorem exists_yields_of_isOperand {b : Arg} {o' : Operand} (ha : a.IsOperand s pos o)
    (hb : b.IsOperand s pos o') {c : Command}
    {wanted : Option ValueType} {i : Instr}
    (h : Yields (compileCommandCall pos c (front ++ a :: back) wanted storage) s i s') :
    ∃ j, Yields (compileCommandCall pos c (front ++ b :: back) wanted storage) s j s' ∧
      (i = j ↔ o = o') := by
  obtain ⟨hreturns, h⟩ := yields_compileCommandCall.mp h
  obtain ⟨operands, u, hops, h⟩ := h.bind
  obtain ⟨xs, zs, t, hxs, hzs, rfl⟩ := (yields_operandsOf_of_isOperand ha).mp hops
  have hlen : (xs ++ o :: zs).length = (xs ++ o' :: zs).length := by simp
  obtain ⟨j, hj, hiff⟩ := exists_yields_placeResult hlen h
  have hops' := (yields_operandsOf_of_isOperand hb).mpr ⟨xs, zs, t, hxs, hzs, rfl⟩
  refine ⟨j, yields_compileCommandCall.mpr ⟨hreturns, yields_bind.mpr ⟨_, u, hops', hj⟩⟩, ?_⟩
  rw [hiff]
  simp

/-! ### Constants -/

theorem isOperand_of_evaluate {q : Quantity} {e : Int}
    (heval : ∀ t, SameScopes s t → Yields (evaluate a) t (.number q) t)
    (he : q.encode = .ok e) : a.IsOperand s pos ⟨.value, some e⟩ := by
  intro t ht o' t'
  have hop : Yields (Operand.ofArgument pos (.number q)) t ⟨.value, some e⟩ t :=
    yields_bind.mpr ⟨e, t, yields_lift.mpr ⟨encode_eq_ok_iff.mpr he, rfl⟩,
      yields_pure.mpr ⟨rfl, rfl⟩⟩
  have hboth := yields_bind.mpr ⟨_, t, heval t ht, hop⟩
  refine ⟨fun h => hboth.unique h, ?_⟩
  rintro ⟨rfl, rfl⟩
  exact hboth

/-- The name means a constant integer with the word. -/
def MeansConstant (s : CompileState) (name : String) (w : Int) : Prop :=
  ∃ v, s.file.cursor.resolve s.graph (·.vars) name = some v ∧ v.type = .integer ∧
    v.constant = some w

/-- The name of a constant integer gives its word, as if it were a number. -/
theorem yields_evaluate_constant {w : Int} {p : Pos}
    (hname : MeansConstant s name w) (t : CompileState) (ht : SameScopes s t) :
    Yields (evaluate ⟨.name name, p⟩) t (.number (.int w)) t := by
  obtain ⟨v, hv, htype, hw⟩ := hname
  refine yields_bind.mpr ⟨some v, t, yields_resolve.mpr ⟨⟨name, rfl, ?_⟩, rfl⟩, ?_⟩
  · rw [ht.1, ht.2, hv]
  · dsimp only
    rw [hw, htype]
    exact yields_pure.mpr ⟨rfl, rfl⟩

theorem yields_evaluate_number {x : Binary .double}
    {p : Pos} (hliteral : numeral.literal = some text) (hx : realOfText text = .ok x)
    (t : CompileState) : Yields (evaluate ⟨.number numeral, p⟩) t (.number (.real x)) t := by
  have hreal : numeral.toReal = .ok x := by
    rw [Numeral.toReal, Numeral.word, hliteral]
    exact hx
  exact yields_bind.mpr ⟨x, t, yields_lift.mpr ⟨hreal, rfl⟩, yields_pure.mpr ⟨rfl, rfl⟩⟩

theorem exists_literal_of_intOfText {n : Int} (h : intOfText text = .ok n) :
    ∃ l, Literal.ofText? text = some l ∧ l.toInt? = some n := by
  unfold intOfText at h
  split at h
  · cases h
  · rename_i m hm
    dsimp only at h
    split at h
    · cases h
    · cases h
      exact Option.bind_eq_some_iff.mp hm

/-- A constant integer that is defined with a literal has the word of the literal. -/
theorem constant_of_definition {level : Level} {mutable : Bool} {d : Definition} {v : Variable}
    {instrs : List Instr} {p : Pos}
    (h : Yields (compileDefinition level mutable d) s (v, instrs) s') (hconst : d.isConst = true)
    (hvalue : d.value = some ⟨.number numeral, p⟩) (htype : v.type = .integer) :
    ∃ n w, intOfText numeral.text = .ok n ∧ (Quantity.int n).encode = .ok w ∧
      v.constant = some w := by
  unfold compileDefinition at h
  obtain ⟨⟨word, type⟩, _, -, h⟩ := h.bind
  obtain ⟨name, _, -, h⟩ := h.bind
  obtain ⟨storage, _, -, h⟩ := h.bind
  rw [if_pos hconst, hvalue] at h
  obtain ⟨w, hw, heq⟩ := h.bind_pure
  obtain ⟨rfl, -⟩ := Prod.mk.inj heq
  obtain rfl : type = .integer := htype
  simp only [constantOf, if_true] at hw
  obtain ⟨n, hn, hword⟩ := bind_eq_ok_iff.mp hw.lift.1
  exact ⟨n, w, hn, encode_eq_ok_iff.mp hword, rfl⟩

/-- **The case of a switch** is the same with the name of a constant and with its literal. -/
theorem ending_compileCase_eq {n w : Int}
    (hname : MeansConstant s name w) (hliteral : numeral.literal = some text)
    (hn : intOfText text = .ok n) (he : (Quantity.int n).encode = .ok w) (label after : LabelId)
    (other : Option String) (body : Block) :
    ending (compileCase label after (.labelled none (some name) body)) s =
      ending (compileCase label after (.labelled (some numeral) other body)) s := by
  obtain ⟨v, hv, htype, hw⟩ := hname
  have hint : optionalInt (some numeral) = .ok (some n) := by
    rw [optionalInt, Numeral.toInt, Numeral.word, hliteral]
    show (intOfText text).map some = _
    rw [hn]
    rfl
  -- a new child does not change what names mean
  have hword : ∀ code, Yields (caseWord none (some name)) (s.withCode code) (some w)
      (s.withCode code) := by
    intro code
    refine yields_bind.mpr ⟨some v, _, yields_resolve.mpr ⟨⟨name, rfl, hv⟩, rfl⟩, ?_⟩
    refine yields_bind.mpr ⟨v, _, yields_need.mpr ⟨rfl, rfl⟩, ?_⟩
    rw [if_pos htype, hw]
    exact yields_pure.mpr ⟨rfl, rfl⟩
  have hword' : ∀ t, Yields (caseWord (some n) other) t (some w) t := fun t =>
    yields_bind.mpr ⟨w, t, yields_lift.mpr ⟨encode_eq_ok_iff.mpr he, rfl⟩,
      yields_pure.mpr ⟨rfl, rfl⟩⟩
  have hchild : Yields (newChild label) s (s.file.code.newChild label).1
      (s.withCode (s.file.code.newChild label).2) := yields_onCode.mpr ⟨rfl, rfl⟩
  have hnone : Yields (lift id (optionalInt none)) s none s := yields_lift.mpr ⟨rfl, rfl⟩
  have hsome : Yields (lift id (optionalInt (some numeral))) s (some n) s :=
    yields_lift.mpr ⟨hint, rfl⟩
  rw [compileCase, compileCase, hnone.ending_bind, hsome.ending_bind, hchild.ending_bind,
    hchild.ending_bind, (hword _).ending_bind, (hword' _).ending_bind]

/-! ### Constants in the place of literals -/

/-- A call of a command with a hole for one of its arguments. -/
structure CallContext where
  pos : Pos
  command : Command
  front : List Arg
  back : List Arg
  wanted : Option ValueType
  storage : Option Int

/-- Compiling the call with an argument in the hole. -/
def CallContext.fill (k : CallContext) (a : Arg) : CompileM Instr :=
  compileCommandCall k.pos k.command (k.front ++ a :: k.back) k.wanted k.storage

/-- **Where a constant can be replaced by its literal.** Let `v` be a constant integer that is
defined with a literal, and let a name mean `v`. In the case of a switch, the name and the literal
make no difference at all. As an argument of a call, one can be compiled if the other can, and
leaves the same state; but the instructions are the same exactly if the literal is zero without a
sign or in one of two ranges. -/
theorem constant_iff_literal {level : Level} {mutable : Bool} {d : Definition} {v : Variable}
    {instrs : List Instr} {numeral literal : Numeral} {p : Pos} {s₀ s₁ s : CompileState}
    {name : String} (hdef : Yields (compileDefinition level mutable d) s₀ (v, instrs) s₁)
    (hconst : d.isConst = true) (hvalue : d.value = some ⟨.number numeral, p⟩)
    (htype : v.type = .integer)
    (hname : s.file.cursor.resolve s.graph (·.vars) name = some v)
    (hliteral : literal.literal = some numeral.text) :
    ∃ l n, Literal.ofText? numeral.text = some l ∧ l.toInt? = some n ∧
      (∀ label after other body,
        ending (compileCase label after (.labelled none (some name) body)) s =
          ending (compileCase label after (.labelled (some literal) other body)) s) ∧
      ∀ (k : CallContext) (p₁ p₂ : Pos),
        (∀ s', (∃ i, Yields (k.fill ⟨.name name, p₁⟩) s i s') ↔
          ∃ j, Yields (k.fill ⟨.number literal, p₂⟩) s j s') ∧
        ∀ i s' j s'', Yields (k.fill ⟨.name name, p₁⟩) s i s' →
          Yields (k.fill ⟨.number literal, p₂⟩) s j s'' →
          (i = j ↔ n = 0 ∧ l.negative = false ∨ |n - 1318926976| < 64 ∨ |n + 834214784| ≤ 32) := by
  obtain ⟨n, w, hn, he, hw⟩ := constant_of_definition hdef hconst hvalue htype
  obtain ⟨l, hl, hln⟩ := exists_literal_of_intOfText hn
  have hplaces := Literal.places_of_ofText? hl (Literal.toInt?_eq_some_iff.mp hln).1
  have hreal : realOfText numeral.text = .ok l.toDouble := by rw [realOfText, hl]
  have hmeans : MeansConstant s name w := ⟨v, hname, htype, hw⟩
  refine ⟨l, n, hl, hln, fun label after other body => ?_, fun k p₁ p₂ => ?_⟩
  · exact ending_compileCase_eq hmeans hliteral hn he label after other body
  · have hconstant : Arg.IsOperand ⟨.name name, p₁⟩ s k.pos _ :=
      isOperand_of_evaluate (yields_evaluate_constant hmeans) (encode_int_word he)
    have hnumber : Arg.IsOperand ⟨.number literal, p₂⟩ s k.pos _ :=
      isOperand_of_evaluate (fun t _ => yields_evaluate_number hliteral hreal t)
        (Literal.encode_toDouble hplaces hln he)
    refine ⟨fun s' => ⟨?_, ?_⟩, fun i s' j s'' hi hj => ?_⟩
    · rintro ⟨i, hi⟩
      obtain ⟨j, hj, -⟩ := exists_yields_of_isOperand hconstant hnumber hi
      exact ⟨j, hj⟩
    · rintro ⟨j, hj⟩
      obtain ⟨i, hi, -⟩ := exists_yields_of_isOperand hnumber hconstant hj
      exact ⟨i, hi⟩
    · obtain ⟨j', hj', hiff⟩ := exists_yields_of_isOperand hconstant hnumber hi
      obtain ⟨rfl, -⟩ := hj.unique hj'
      rw [hiff, ← Literal.signedWord_eq_iff hln he]
      simp

/-- A constant that is defined with the literal for one. -/
def oneConstant : Definition :=
  ⟨true, some ⟨"int", .start⟩, some "K", none, some ⟨.number ⟨"1", some "1"⟩, .start⟩, .start⟩

/-- A state with that constant. -/
def oneState : CompileState := (ending (define .body oneConstant) (.start "one.evc")).2

/-- A call with one argument. -/
def oneCall : CallContext := ⟨.start, ⟨"c", some 5, none, 0, .start⟩, [], [], none, none⟩

/-- The constant is defined, its name means it, and it can be an argument of the call. -/
theorem oneConstant_ready : ∃ v instrs s₁ i s',
    Yields (compileDefinition .body true oneConstant) (.start "one.evc") (v, instrs) s₁ ∧
      v.type = .integer ∧
      oneState.file.cursor.resolve oneState.graph (·.vars) "K" = some v ∧
      Yields (oneCall.fill ⟨.name "K", .start⟩) oneState i s' := by
  have hcheck : (match ending (compileDefinition .body true oneConstant) (.start "one.evc"),
        ending (oneCall.fill ⟨.name "K", .start⟩) oneState with
      | (.ok (v, _), _), (.ok _, _) => decide (v.type = .integer ∧
        oneState.file.cursor.resolve oneState.graph (·.vars) "K" = some v)
      | _, _ => false) = true := by
    decide +kernel
  split at hcheck
  · rename_i v instrs s₁ i s' hdef hcall
    obtain ⟨htype, hname⟩ := of_decide_eq_true hcheck
    exact ⟨v, instrs, s₁, i, s', hdef, htype, hname, hcall⟩
  · cases hcheck

theorem one_differs_by_name : ∃ i j s', Yields (oneCall.fill ⟨.name "K", .start⟩) oneState i s' ∧
    Yields (oneCall.fill ⟨.number ⟨"1", some "1"⟩, .start⟩) oneState j s' ∧ i ≠ j := by
  obtain ⟨v, instrs, s₁, i, s', hdef, htype, hname, hi⟩ := oneConstant_ready
  have hliteral : (⟨"1", some "1"⟩ : Numeral).literal = some "1" := rfl
  obtain ⟨l, n, hl, hn, -, hcall⟩ := constant_iff_literal hdef rfl rfl htype hname hliteral
  obtain ⟨hboth, hiff⟩ := hcall oneCall .start .start
  obtain ⟨j, hj⟩ := (hboth s').mp ⟨i, hi⟩
  refine ⟨i, j, s', hi, hj, fun heq => ?_⟩
  have hone : Literal.ofText? "1" = some ⟨false, 1, 0, false⟩ := by decide +kernel
  obtain rfl := Option.some.inj (hl.symm.trans hone)
  obtain rfl := Option.some.inj hn
  have hcond := (hiff i s' j s' hi hj).mp heq
  rw [abs_lt, abs_le] at hcond
  simp at hcond

end EvScript
