import EvScript.Proofs.Control.Layout

/-!
# Code as a Record of Edits

Building code is taken apart into a list of edits of six kinds, its **record**, and the code is what
comes out when the record is replayed. An edit is **lawful** if it speaks only of labels and strings
that are there. Jumps and tests are edits of their own; what else is put under a label may move
control only if it is a call of a command with a `known` number, one that a script has declared.

Lawful edits keep code **consistent**: no string stands in the table twice, the entries of the
listing are labels under their own names, every label has an entry, and all strings referred to are
there.
-/

namespace EvScript

open Registry

variable {k m n : Nat} {o : Operand} {i : Instr} {strings : List String}

/-! ### Instructions and strings -/

/-- An operand that is a string is one of the first `n` of the table. -/
def Operand.Below (n : Nat) (o : Operand) : Prop :=
  o.kind = .string → ∃ k : Nat, o.data = some (k : Int) ∧ k < n

/-- The strings among the operands are among the first `n` of the table. -/
def Instr.Below (n : Nat) (i : Instr) : Prop := ∀ o ∈ i.operands, o.Below n

/-- The instruction uses the first `n` strings, and moves control only as a call of a command with
a known number. -/
structure Instr.Fit (known : Option Int → Prop) (n : Nat) (i : Instr) : Prop where
  below : i.Below n
  known : i.isControl = true → known i.command

theorem Operand.below_of_ne (h : o.kind ≠ .string) : o.Below n :=
  fun hk => absurd hk h

theorem Operand.below_ofString (h : k < n) : (Operand.ofString k).Below n :=
  fun _ => ⟨k, rfl, h⟩

theorem Operand.Below.mono (h : o.Below n) (hnm : n ≤ m) : o.Below m := by
  intro hk
  obtain ⟨k, hd, hlt⟩ := h hk
  exact ⟨k, hd, Nat.lt_of_lt_of_le hlt hnm⟩

theorem Instr.Below.mono (h : i.Below n) (hnm : n ≤ m) : i.Below m :=
  fun o ho => (h o ho).mono hnm

theorem Instr.Fit.mono {known : Option Int → Prop} (h : i.Fit known n)
    (hnm : n ≤ m) : i.Fit known m :=
  ⟨h.below.mono hnm, h.known⟩

theorem Instr.Below.aimed {q : Instr} (h : q.Below n) (hk : k < n) :
    (q.aimed (.ofString k)).Below n := by
  intro o ho
  rcases List.mem_append.mp ho with ho | ho
  · exact h o ho
  · rw [List.mem_singleton.mp ho]
    exact Operand.below_ofString hk

/-! ### Edits -/

/-- An edit of code under construction. -/
inductive Edit where
  | string (text : String)
  | label (name : String)
  | child (parent : LabelId)
  | put (label : LabelId) (instrs : List Instr)
  | jump (label destination : LabelId)
  | test (label : LabelId) (question : Instr) (destination : LabelId)
  deriving DecidableEq, Repr

namespace Edit

/-- The label that an edit leads to. -/
def aim : Edit → Option LabelId
  | .jump _ y => some y
  | .test _ _ y => some y
  | _ => none

/-- The label under which a jump or a test is put, and the label it leads to. -/
def link : Edit → Option (LabelId × LabelId)
  | .jump x y => some (x, y)
  | .test x _ y => some (x, y)
  | _ => none

/-- The name of a label that an edit makes, children apart. -/
def name : Edit → Option String
  | .label name => some name
  | _ => none

/-- What an edit puts under the label `x`; labels have the names they have in `c`. -/
def under (c : Assembly) (x : LabelId) : Edit → List Instr
  | .put y is => if y = x then is else []
  | .jump y z => if y = x then [.jumpTo (c.target z)] else []
  | .test y q z => if y = x then [q.aimed (c.target z)] else []
  | _ => []

/-- The edit speaks only of what is there. -/
def Lawful (known : Option Int → Prop) (a : Assembly) : Edit → Prop
  | .string _ => True
  | .label _ => True
  | .child x => x < a.labels.size
  | .put x is => x < a.labels.size ∧ ∀ i ∈ is, i.Fit known a.strings.length
  | .jump x y => x < a.labels.size ∧ y < a.labels.size
  | .test x q y => x < a.labels.size ∧ y < a.labels.size ∧ q.isTest = true ∧
      q.Below a.strings.length

end Edit

/-- The code after an edit. -/
def Assembly.edit (a : Assembly) : Edit → Assembly
  | .string s => (a.intern s).2
  | .label name => (a.newLabel name).2
  | .child x => (a.newChild x).2
  | .put x is => a.emit x is
  | .jump x y => a.jump x y
  | .test x q y => a.emit x [q.aimed (a.target y)]

/-- The code after all edits of a record. -/
def Assembly.replay (a : Assembly) (t : List Edit) : Assembly := t.foldl Assembly.edit a

/-- Every edit of the record speaks only of what is there when it is made. -/
def Lawful (known : Option Int → Prop) : Assembly → List Edit → Prop
  | _, [] => True
  | a, e :: t => e.Lawful known a ∧ Lawful known (a.edit e) t

theorem Table.mem_entries_insert {κ α : Type} [DecidableEq κ] {t : Table κ α} {key : κ} {value : α}
    {p : κ × α} (h : p ∈ (t.insert key value).entries) : p = (key, value) ∨ p ∈ t.entries := by
  obtain ⟨es⟩ := t
  simp only [insert] at h ⊢
  induction es with
  | nil => exact .inl (by simpa [insertIn] using h)
  | cons q es ih =>
    rw [insertIn] at h
    split at h
    · exact (List.mem_cons.mp h).imp_right (List.mem_cons_of_mem _)
    · rcases List.mem_cons.mp h with rfl | h
      · exact .inr List.mem_cons_self
      · exact (ih h).imp_right (List.mem_cons_of_mem _)

namespace Assembly

variable {known : Option Int → Prop} {a c : Assembly} {e : Edit} {t u : List Edit} {x y : LabelId}

@[simp] theorem replay_nil (a : Assembly) : a.replay [] = a := rfl

@[simp] theorem replay_cons (a : Assembly) (e : Edit) (t : List Edit) :
    a.replay (e :: t) = (a.edit e).replay t := rfl

@[simp] theorem replay_append (a : Assembly) (t u : List Edit) :
    a.replay (t ++ u) = (a.replay t).replay u :=
  List.foldl_append

@[simp] theorem lawful_nil : Lawful known a [] := trivial

theorem lawful_append : Lawful known a (t ++ u) ↔
    Lawful known a t ∧ Lawful known (a.replay t) u := by
  induction t generalizing a with
  | nil => exact (iff_of_eq (true_and _)).symm
  | cons e t ih => exact (and_congr_right fun _ => ih).trans and_assoc.symm

theorem lawful_singleton : Lawful known a [e] ↔ e.Lawful known a :=
  iff_of_eq (and_true _)

/-! ### What an edit changes -/

theorem extends_refl (a : Assembly) : a.Extends a :=
  (GrowsAt.refl 0 a).toExtends

theorem extends_edit (h : e.Lawful known a) : a.Extends (a.edit e) := by
  cases e with
  | string s => exact (MoreStrings.intern a s).adds.toExtends
  | label name => exact (GrowsAt.newLabel 0 a name).toExtends
  | child x => exact (GrowsAt.newChild h).toExtends
  | put x is => exact (GrowsAt.emit is h.1).toExtends
  | jump x y => exact (GrowsAt.jump h.1).toExtends
  | test x q y => exact (GrowsAt.emit _ h.1).toExtends

theorem extends_replay (h : Lawful known a t) : a.Extends (a.replay t) := by
  induction t generalizing a with
  | nil => exact extends_refl a
  | cons e t ih => exact (extends_edit h.1).trans (ih h.2)

/-- The beginning of a lawful record is lawful, and the code after it is there in the end. -/
theorem lawful_of_isPrefix (h : Lawful known a t) (hu : u <+: t) :
    Lawful known a u ∧ (a.replay u).Extends (a.replay t) := by
  obtain ⟨rest, rfl⟩ := hu
  rw [lawful_append] at h
  rw [replay_append]
  exact ⟨h.1, extends_replay h.2⟩

/-- What an edit puts under a label is the same in all code that goes on from there. -/
theorem under_congr (h : e.Lawful known a) (hc : a.Extends c) : e.under c x = e.under a x := by
  cases e with
  | jump y z => simp only [Edit.under, hc.target_eq h.2]
  | test y q z => simp only [Edit.under, hc.target_eq h.2.1]
  | _ => rfl

/-- Behind the instructions of every label stands what the edit puts there. -/
theorem instrs_edit (h : e.Lawful known a) (x : LabelId) :
    ((a.edit e).label x).instrs = (a.label x).instrs ++ e.under a x := by
  cases e with
  | string s => simp [edit, Edit.under, (MoreStrings.intern a s).label]
  | label name => simpa [edit, Edit.under] using instrs_newLabel a name x
  | child p => simpa [edit, Edit.under] using instrs_newChild a p x
  | put y is => exact instrs_emit is h.1 x
  | jump y z => exact instrs_emit _ h.1 x
  | test y q z => exact instrs_emit _ h.1 x

/-- **Under a label stands what the edits of the record put there**, in their order. -/
theorem instrs_replay (h : Lawful known a t) (x : LabelId) : ((a.replay t).label x).instrs =
      (a.label x).instrs ++ t.flatMap (Edit.under (a.replay t) x) := by
  induction t generalizing a with
  | nil => simp
  | cons e t ih =>
    have hlast : (a.edit e).Extends ((a.edit e).replay t) := extends_replay h.2
    rw [replay_cons, ih h.2, instrs_edit h.1, List.flatMap_cons, List.append_assoc,
      under_congr h.1 ((extends_edit h.1).trans hlast)]

theorem aim_lt_of_lawful (h : e.Lawful known a) (hy : e.aim = some y) : y < a.labels.size := by
  cases e with
  | jump x z =>
    obtain rfl := Option.some.inj hy
    exact h.2
  | test x q z =>
    obtain rfl := Option.some.inj hy
    exact h.2.1
  | _ => cases hy

theorem exists_lawful_of_mem (h : Lawful known a t) (he : e ∈ t) :
    ∃ b, e.Lawful known b ∧ b.Extends (a.replay t) := by
  obtain ⟨t₁, t₂, rfl⟩ := List.append_of_mem he
  rw [lawful_append] at h
  refine ⟨a.replay t₁, h.2.1, ?_⟩
  rw [replay_append]
  exact extends_replay h.2

theorem aim_lt_replay (h : Lawful known a t) (he : e ∈ t) (hy : e.aim = some y) :
    y < (a.replay t).labels.size := by
  obtain ⟨b, hlaw, hext⟩ := exists_lawful_of_mem h he
  exact Nat.lt_of_lt_of_le (aim_lt_of_lawful hlaw hy) hext.size

/-- **Where control instructions come from.** An instruction that moves control was there before,
or it is a call of a command with a known number, or a jump or test that some edit put there; then
its last operand names the label that the edit leads to. -/
theorem control_of_mem_replay (h : Lawful known a t)
    (hi : i ∈ ((a.replay t).label x).instrs) (hc : i.isControl = true) :
    i ∈ (a.label x).instrs ∨ known i.command ∨ ∃ e ∈ t, ∃ y, e.link = some (x, y) ∧
      y < (a.replay t).labels.size ∧ i.operands.getLast? = some ((a.replay t).target y) := by
  rw [instrs_replay h, List.mem_append, List.mem_flatMap] at hi
  refine hi.imp_right ?_
  rintro ⟨e, he, hi⟩
  cases e with
  | put y is =>
    simp only [Edit.under] at hi
    split at hi
    · obtain ⟨b, hlaw, -⟩ := exists_lawful_of_mem h he
      exact .inl ((hlaw.2 i hi).known hc)
    · cases hi
  | jump y z =>
    simp only [Edit.under] at hi
    split at hi
    · rename_i heq
      rw [List.mem_singleton.mp hi]
      exact .inr ⟨_, he, z, by rw [Edit.link, heq], aim_lt_replay h he rfl, rfl⟩
    · cases hi
  | test y q z =>
    simp only [Edit.under] at hi
    split at hi
    · rename_i heq
      rw [List.mem_singleton.mp hi]
      exact .inr ⟨_, he, z, by rw [Edit.link, heq], aim_lt_replay h he rfl, by simp [Instr.aimed]⟩
    · cases hi
  | _ => cases hi

theorem control_of_mem_instrs (h : Lawful known empty t)
    (hi : i ∈ ((empty.replay t).label x).instrs) (hc : i.isControl = true) :
    known i.command ∨ ∃ e ∈ t, ∃ y, e.aim = some y ∧ y < (empty.replay t).labels.size ∧
      i.operands.getLast? = some ((empty.replay t).target y) := by
  rcases control_of_mem_replay h hi hc with hi | hknown | ⟨e, he, y, hlink, hy⟩
  · rw [label_of_size_le (Nat.zero_le x)] at hi
    cases hi
  · exact .inl hknown
  · refine .inr ⟨e, he, y, ?_, hy⟩
    cases e <;> cases hlink <;> rfl

theorem exists_instr_of_link (h : Lawful known a t) (he : e ∈ t) (hlink : e.link = some (x, y)) :
    ∃ i ∈ ((a.replay t).label x).instrs, i.isControl = true ∧
      i.operands.getLast? = some ((a.replay t).target y) := by
  obtain ⟨b, hlaw, -⟩ := exists_lawful_of_mem h he
  rw [instrs_replay h]
  cases e with
  | jump z w =>
    cases hlink
    refine ⟨.jumpTo ((a.replay t).target y), List.mem_append_right _ (List.mem_flatMap.mpr
      ⟨_, he, ?_⟩), rfl, rfl⟩
    simp [Edit.under]
  | test z q w =>
    cases hlink
    refine ⟨q.aimed ((a.replay t).target y), List.mem_append_right _ (List.mem_flatMap.mpr
      ⟨_, he, ?_⟩), ?_, by simp [Instr.aimed]⟩
    · simp [Edit.under]
    · have htest : (q.aimed ((a.replay t).target y)).isTest = true := hlaw.2.2.1
      simp [Instr.isControl, htest]
  | _ => cases hlink

/-! ### Consistent code -/

/-- The tables of the code fit together. -/
structure Consistent (a : Assembly) : Prop where
  nodup : a.strings.Nodup
  /-- The names of labels are in the table. -/
  name_lt : ∀ x, x < a.labels.size → (a.label x).name < a.strings.length
  /-- Under a name stands a label of that name. -/
  entry : ∀ p ∈ a.byName.entries, p.2 < a.labels.size ∧ (a.label p.2).name = p.1
  /-- The name of every label has an entry. -/
  tied : a.Tied
  /-- The strings that instructions refer to are in the table. -/
  below : ∀ x, ∀ i ∈ (a.label x).instrs, i.Below a.strings.length

theorem consistent_empty : empty.Consistent where
  nodup := List.nodup_nil
  name_lt _ h := absurd h (Nat.not_lt_zero _)
  entry _ h := absurd h List.not_mem_nil
  tied := tied_empty
  below x i h := by
    rw [label_of_size_le (Nat.zero_le x)] at h
    exact absurd h List.not_mem_nil

theorem nodup_intern (h : a.strings.Nodup) (s : String) : (a.intern s).2.strings.Nodup := by
  unfold intern
  split
  · exact h
  · rename_i hnone
    have hs : s ∉ a.strings := by simpa [List.idxOf?_eq_none_iff] using hnone
    rw [List.nodup_append]
    refine ⟨h, by simp, fun x hx y hy => ?_⟩
    rw [List.mem_singleton.mp hy]
    exact ne_of_mem_of_not_mem hx hs

/-- More strings do no harm. -/
theorem Consistent.string (h : a.Consistent) (s : String) : (a.intern s).2.Consistent := by
  have hm := MoreStrings.intern a s
  have hlen := hm.strings.length_le
  refine ⟨nodup_intern h.nodup s, ?_, ?_, h.tied.moreStrings hm, ?_⟩
  · intro x hx
    rw [hm.size] at hx
    rw [hm.label]
    exact Nat.lt_of_lt_of_le (h.name_lt x hx) hlen
  · intro p hp
    rw [hm.byName] at hp
    rw [hm.size, hm.label]
    exact h.entry p hp
  · intro x i hi
    rw [hm.label] at hi
    exact (h.below x i hi).mono hlen

theorem Consistent.concat {b : Assembly} {index : Nat} (h : a.Consistent) (hb : a.Extends b)
    (hnodup : b.strings.Nodup) (hsize : b.labels.size = a.labels.size + 1)
    (hby : b.byName = a.byName.insert index a.labels.size)
    (hindex : index < b.strings.length) (hnew : (b.label a.labels.size).name = index)
    (hinstrs : ∀ x, (b.label x).instrs = (a.label x).instrs) : b.Consistent := by
  have hlen := hb.strings.length_le
  refine ⟨hnodup, ?_, ?_, h.tied.concat hsize hby hb.name hnew, ?_⟩
  · intro x hx
    rcases Nat.lt_or_ge x a.labels.size with hlt | hge
    · rw [hb.name x hlt]
      exact Nat.lt_of_lt_of_le (h.name_lt x hlt) hlen
    · obtain rfl : x = a.labels.size := by omega
      rwa [hnew]
  · intro p hp
    rw [hby] at hp
    rcases Table.mem_entries_insert hp with rfl | hp
    · exact ⟨by omega, hnew⟩
    · obtain ⟨hlt, hname⟩ := h.entry p hp
      exact ⟨by omega, by rw [hb.name _ hlt, hname]⟩
  · intro x i hi
    rw [hinstrs] at hi
    exact (h.below x i hi).mono hlen

/-- Instructions more, with strings of the table. -/
theorem Consistent.emit {is : List Instr} (h : a.Consistent) (hx : x < a.labels.size)
    (his : ∀ i ∈ is, i.Below a.strings.length) : (a.emit x is).Consistent := by
  have hext := (GrowsAt.emit is hx).toExtends
  refine ⟨h.nodup, ?_, ?_, h.tied.emit x is, ?_⟩
  · intro y hy
    rw [emit_size] at hy
    rw [hext.name y hy]
    exact h.name_lt y hy
  · intro p hp
    obtain ⟨hlt, hname⟩ := h.entry p hp
    rw [emit_size, hext.name _ hlt]
    exact ⟨hlt, hname⟩
  · intro y i hi
    by_cases hy : y = x
    · subst hy
      rw [label_emit_self is hx] at hi
      rcases List.mem_append.mp hi with hi | hi
      · exact h.below y i hi
      · exact his i hi
    · rw [label_emit_of_ne is hy] at hi
      exact h.below y i hi

/-- A lawful edit keeps code consistent. -/
theorem Consistent.edit (h : a.Consistent) (he : e.Lawful known a) : (a.edit e).Consistent := by
  have hext := extends_edit he
  have hinstrs := instrs_edit he
  cases e with
  | string s => exact h.string s
  | label name =>
    refine h.concat hext (nodup_intern h.nodup name) (by simp [Assembly.edit])
      (newLabel_byName a name) (intern_lt a name) ?_ fun x => ?_
    · simp only [Assembly.edit, label_newLabel_self]
    · simpa only [Edit.under, List.append_nil] using hinstrs x
  | child p =>
    refine h.concat hext (nodup_intern h.nodup _) (newChild_size a p) (newChild_byName a p)
      (intern_lt a _) ?_ fun x => ?_
    · simp only [Assembly.edit, label_newChild_self he]
    · simpa only [Edit.under, List.append_nil] using hinstrs x
  | put x is => exact h.emit he.1 fun i hi => (he.2 i hi).below
  | jump x y =>
    refine h.emit he.1 fun i hi => ?_
    rw [List.mem_singleton.mp hi]
    intro o ho
    rw [List.mem_singleton.mp ho]
    exact Operand.below_ofString (h.name_lt y he.2)
  | test x q y =>
    refine h.emit he.1 fun i hi => ?_
    rw [List.mem_singleton.mp hi]
    exact he.2.2.2.aimed (h.name_lt y he.2.1)

/-- **Lawful edits keep code consistent.** -/
theorem Consistent.replay (h : a.Consistent) (ht : Lawful known a t) : (a.replay t).Consistent := by
  induction t generalizing a with
  | nil => exact h
  | cons e t ih => exact ih (h.edit ht.1) ht.2

/-! ### Listing consistent code -/

theorem exists_mem_of_mapM_error {α β ε : Type} {f : α → Except ε β} {l : List α} {e : ε}
    (h : l.mapM f = .error e) : ∃ x ∈ l, f x = .error e := by
  induction l with
  | nil => cases h
  | cons x l ih =>
    rw [List.mapM_cons] at h
    cases hx : f x with
    | error e' =>
      rw [hx] at h
      cases h
      exact ⟨x, List.mem_cons_self, hx⟩
    | ok b =>
      rw [hx] at h
      cases hl : l.mapM f with
      | error e' =>
        rw [hl] at h
        cases h
        obtain ⟨y, hy, hfy⟩ := ih hl
        exact ⟨y, List.mem_cons_of_mem _ hy, hfy⟩
      | ok bs =>
        rw [hl] at h
        cases h

/-- The fault is about a string that is not there. -/
def LacksString (e : Fault) : Prop := e = .outOfRange ∨ e = .noIndex

theorem entryAt_of_lt (h : k < strings.length) : entryAt strings k = .ok strings[k] := by
  have hk : ¬ (k : Int) < 0 := by omega
  simp only [entryAt, if_neg hk, Int.toNat_natCast, List.getElem?_eq_getElem h]

theorem print?_of_below {e : Fault}
    (h : o.Below strings.length) (he : o.print? strings = .error e) : ¬ LacksString e := by
  obtain ⟨kind, data⟩ := o
  rintro (rfl | rfl)
  all_goals
    cases kind with
    | string =>
      obtain ⟨k, hd, hk⟩ := h rfl
      dsimp only at hd
      subst hd
      simp [Operand.print?, entryAt_of_lt hk] at he
    | value =>
      cases data with
      | none => cases he
      | some word =>
        simp only [Operand.print?] at he
        split at he <;> cases he
    | _ => cases he

theorem instr_print_of_below {e : Fault}
    (h : i.Below strings.length) (he : i.print strings = .error e) : ¬ LacksString e := by
  unfold Instr.print at he
  cases hos : i.operands.mapM (Operand.print? strings) with
  | error e' =>
    rw [hos] at he
    cases he
    obtain ⟨o, ho, hfail⟩ := exists_mem_of_mapM_error hos
    exact print?_of_below (h o ho) hfail
  | ok operands =>
    rw [hos] at he
    -- what is left to fail is the name of the command
    cases hn : commandName i.command with
    | ok name =>
      rw [hn] at he
      cases he
    | error e' =>
      rw [hn] at he
      cases he
      unfold commandName at hn
      split at hn
      · cases hn
      · split at hn <;> cases hn
        rintro (h | h) <;> cases h

/-- The name of an entry is in the table. -/
theorem Consistent.key_lt (h : a.Consistent) {p : Nat × Nat} (hp : p ∈ a.byName.entries) :
    p.1 < a.strings.length := by
  obtain ⟨hlt, hname⟩ := h.entry p hp
  exact hname ▸ h.name_lt _ hlt

/-- If consistent code cannot be listed, that is for an instruction in the listing. -/
theorem Consistent.exists_instr_of_print (h : a.Consistent) {e : Fault} (he : a.print = .error e) :
    ∃ p ∈ a.byName.entries, ∃ i ∈ (a.label p.2).instrs, i.print a.strings = .error e := by
  unfold Assembly.print printListing at he
  cases hls : (a.listing.map fun p => ((p.1 : Int), p.2.instrs)).mapM
      fun l => printLabel a.strings l.1 l.2 with
  | ok texts =>
    rw [hls] at he
    cases he
  | error e' =>
    rw [hls] at he
    cases he
    obtain ⟨l, hl, hfail⟩ := exists_mem_of_mapM_error hls
    simp only [listing, List.map_map, List.mem_map] at hl
    obtain ⟨p, hp, rfl⟩ := hl
    simp only [Function.comp_apply, printLabel, entryAt_of_lt (h.key_lt hp)] at hfail
    cases his : (a.label p.2).instrs.mapM (Instr.print a.strings) with
    | ok lines =>
      rw [his] at hfail
      cases hfail
    | error e'' =>
      rw [his] at hfail
      cases hfail
      exact ⟨p, hp, exists_mem_of_mapM_error his⟩

/-- **Listing consistent code never fails for lack of a string.** -/
theorem Consistent.print_ne (h : a.Consistent) {e : Fault} (he : a.print = .error e) :
    ¬ LacksString e := by
  obtain ⟨p, hp, i, hi, hfail⟩ := h.exists_instr_of_print he
  exact instr_print_of_below (h.below _ i hi) hfail

end Assembly

end EvScript
