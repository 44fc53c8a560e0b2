import Mathlib.Data.List.Forall2
import EvScript.Proofs.Code.Edits

/-!
# What Can be Listed

An instruction **refuses** to be listed for one of four reasons: it has a flag among its operands, a
value that is no finite number, a value operand without a value, or a command that has no name. The
listing of consistent code fails exactly if an instruction under a listed label refuses.
-/

namespace EvScript

open Assembly

variable {α β ε : Type}
variable {f : α → Except ε β}

/-- **Going through a list succeeds** with the results of its elements. -/
theorem mapM_eq_ok_iff {l : List α} {ys : List β} :
    l.mapM f = .ok ys ↔ List.Forall₂ (fun x y => f x = .ok y) l ys := by
  induction l generalizing ys with
  | nil =>
    rw [List.mapM_nil, List.forall₂_nil_left_iff]
    exact ⟨fun h => (Except.ok.inj h).symm, fun h => congrArg Except.ok h.symm⟩
  | cons x l ih =>
    rw [List.mapM_cons, List.forall₂_cons_left_iff]
    cases hx : f x with
    | error e => exact ⟨fun h => (nomatch h), fun ⟨_, _, h, _⟩ => (nomatch h)⟩
    | ok y =>
      cases hl : l.mapM f with
      | error e =>
        refine ⟨fun h => (nomatch h), fun ⟨_, zs, _, hzs, _⟩ => ?_⟩
        rw [← ih, hl] at hzs
        cases hzs
      | ok zs =>
        constructor
        · intro h
          exact ⟨y, zs, rfl, ih.mp hl, (Except.ok.inj h).symm⟩
        · rintro ⟨_, zs', hy, hzs, rfl⟩
          rw [← ih, hl] at hzs
          cases hy
          cases hzs
          rfl

theorem exists_mapM_iff {l : List α} : (∃ ys, l.mapM f = .ok ys) ↔ ∀ x ∈ l, ∃ y, f x = .ok y := by
  simp only [mapM_eq_ok_iff]
  induction l with
  | nil => simp
  | cons x l ih =>
    rw [List.forall_mem_cons, ← ih]
    constructor
    · rintro ⟨_, h⟩
      obtain ⟨y, ys, hy, hys, rfl⟩ := List.forall₂_cons_left_iff.mp h
      exact ⟨⟨y, hy⟩, ys, hys⟩
    · rintro ⟨⟨y, hy⟩, ys, hys⟩
      exact ⟨y :: ys, .cons hy hys⟩

theorem exists_ok_iff {x : Except ε α} : (∃ a, x = .ok a) ↔ ¬ ∃ e, x = .error e := by
  cases x <;> simp

/-! ### Instructions -/

/-- The fault is a reason not to list the operand. -/
inductive Operand.Refuses (o : Operand) : Fault → Prop where
  | flag : o.kind = .flag → o.Refuses .flagOperand
  | value {word : Int} {cause : Number.PrintError} : o.kind = .value → o.data = some word →
      Number.printWord word = .error cause → o.Refuses (.unprintable cause)
  | empty : o.kind = .value → o.data = none → o.Refuses .noWord

/-- The fault is a reason not to list the instruction. -/
inductive Instr.Refuses (i : Instr) : Fault → Prop where
  | operand {o : Operand} {e : Fault} : o ∈ i.operands → o.Refuses e → i.Refuses e
  | command {e : Fault} : commandName i.command = .error e → i.Refuses e

variable {strings : List String} {o : Operand} {i : Instr} {e : Fault}

/-- An operand is not listed for the reasons it has, if the table has its string. -/
theorem print?_eq_error_iff (h : o.Below strings.length) :
    o.print? strings = .error e ↔ o.Refuses e := by
  obtain ⟨kind, data⟩ := o
  constructor
  · intro he
    cases kind with
    | value =>
      cases data with
      | none =>
        cases he
        exact .empty rfl rfl
      | some word =>
        simp only [Operand.print?] at he
        split at he
        · cases he
        · cases he
          exact .value rfl rfl ‹_›
    | flag =>
      cases he
      exact .flag rfl
    | string =>
      obtain ⟨k, hd, hk⟩ := h rfl
      dsimp only at hd
      subst hd
      simp [Operand.print?, entryAt_of_lt hk] at he
    | command | work | sysFlag | macroString => cases he
  · rintro (hkind | ⟨hkind, hdata, hword⟩ | ⟨hkind, hdata⟩)
    · obtain rfl : kind = .flag := hkind
      rfl
    · obtain rfl : kind = .value := hkind
      obtain rfl : data = some _ := hdata
      simp [Operand.print?, hword]
    · obtain rfl : kind = .value := hkind
      obtain rfl : data = none := hdata
      rfl

/-- **An instruction is listed unless it has a reason not to be**, if the table has its strings. -/
theorem exists_instr_print_iff (h : i.Below strings.length) :
    (∃ text, i.print strings = .ok text) ↔ ∀ e, ¬ i.Refuses e := by
  have hoperands : (∃ texts, i.operands.mapM (Operand.print? strings) = .ok texts) ↔
      ∀ o ∈ i.operands, ∀ e, ¬ o.Refuses e := by
    rw [exists_mapM_iff]
    refine forall₂_congr fun o ho => ?_
    rw [exists_ok_iff, not_exists]
    exact forall_congr' fun e => not_congr (print?_eq_error_iff (h o ho))
  constructor
  · rintro ⟨text, htext⟩ e (⟨ho, hrefuses⟩ | hcommand)
    · obtain ⟨texts, htexts, -⟩ := bind_eq_ok_iff.mp htext
      exact hoperands.mp ⟨texts, htexts⟩ _ ho e hrefuses
    · obtain ⟨_, -, htext⟩ := bind_eq_ok_iff.mp htext
      obtain ⟨_, hname, -⟩ := bind_eq_ok_iff.mp htext
      rw [hcommand] at hname
      cases hname
  · intro hno
    obtain ⟨texts, htexts⟩ := hoperands.mpr fun o ho e hrefuses => hno e (.operand ho hrefuses)
    obtain ⟨name, hname⟩ : ∃ name, commandName i.command = .ok name :=
      exists_ok_iff.mpr fun ⟨e, he⟩ => hno e (.command he)
    exact ⟨_, bind_eq_ok_iff.mpr ⟨texts, htexts, bind_eq_ok_iff.mpr ⟨name, hname, rfl⟩⟩⟩

theorem refuses_of_instr_print (h : i.Below strings.length) (he : i.print strings = .error e) :
    i.Refuses e := by
  unfold Instr.print at he
  cases hos : i.operands.mapM (Operand.print? strings) with
  | error e' =>
    rw [hos] at he
    cases he
    obtain ⟨o, ho, hfail⟩ := exists_mem_of_mapM_error hos
    exact .operand ho ((print?_eq_error_iff (h o ho)).mp hfail)
  | ok texts =>
    rw [hos] at he
    cases hname : commandName i.command with
    | error e' =>
      rw [hname] at he
      cases he
      exact .command hname
    | ok name =>
      rw [hname] at he
      cases he

/-! ### Code -/

namespace Assembly

variable {a : Assembly}

/-- The label is in the listing. -/
def Lists (a : Assembly) (x : LabelId) : Prop := ∃ index, (index, x) ∈ a.byName.entries

theorem exists_print_iff : (∃ text, a.print = .ok text) ↔
    ∀ p ∈ a.byName.entries, ∃ text, printLabel a.strings p.1 (a.label p.2).instrs = .ok text := by
  have hlist : (∃ text, a.print = .ok text) ↔ ∃ texts,
      (a.listing.map fun p => ((p.1 : Int), p.2.instrs)).mapM
        (fun l => printLabel a.strings l.1 l.2) = .ok texts := by
    constructor
    · rintro ⟨text, htext⟩
      obtain ⟨texts, htexts, -⟩ := bind_eq_ok_iff.mp htext
      exact ⟨texts, htexts⟩
    · rintro ⟨texts, htexts⟩
      exact ⟨_, bind_eq_ok_iff.mpr ⟨texts, htexts, rfl⟩⟩
  rw [hlist, exists_mapM_iff, listing, List.map_map, List.forall_mem_map]
  rfl

/-- **Consistent code can be listed** if no instruction under a label of the listing refuses. -/
theorem Consistent.print_iff (h : a.Consistent) : (∃ text, a.print = .ok text) ↔
    ∀ x, a.Lists x → ∀ i ∈ (a.label x).instrs, ∀ e, ¬ i.Refuses e := by
  have hlabel : ∀ p ∈ a.byName.entries,
      (∃ text, printLabel a.strings p.1 (a.label p.2).instrs = .ok text) ↔
        ∀ i ∈ (a.label p.2).instrs, ∀ e, ¬ i.Refuses e := by
    intro p hp
    have hlines := exists_mapM_iff (f := Instr.print a.strings) (l := (a.label p.2).instrs)
    rw [forall₂_congr fun i hi => exists_instr_print_iff (h.below p.2 i hi)] at hlines
    rw [← hlines]
    constructor
    · rintro ⟨text, htext⟩
      obtain ⟨lines, hlines, -⟩ := bind_eq_ok_iff.mp htext
      exact ⟨lines, hlines⟩
    · rintro ⟨lines, hlines⟩
      exact ⟨_, bind_eq_ok_iff.mpr ⟨lines, hlines,
        bind_eq_ok_iff.mpr ⟨_, entryAt_of_lt (h.key_lt hp), rfl⟩⟩⟩
  rw [exists_print_iff, forall₂_congr hlabel]
  exact ⟨fun hall x ⟨index, hx⟩ => hall (index, x) hx, fun hall p hp => hall p.2 ⟨p.1, hp⟩⟩

/-- **A listing fails for a reason that an instruction in it has.** -/
theorem Consistent.refuses_of_print (h : a.Consistent) (he : a.print = .error e) :
    ∃ x, a.Lists x ∧ ∃ i ∈ (a.label x).instrs, i.Refuses e := by
  obtain ⟨p, hp, i, hi, hfail⟩ := h.exists_instr_of_print he
  exact ⟨p.2, ⟨p.1, hp⟩, i, hi, refuses_of_instr_print (h.below _ i hi) hfail⟩

end Assembly

end EvScript
