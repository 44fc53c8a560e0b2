import Mathlib.Data.List.Infix
import Mathlib.Tactic.Common
import EvScript.Code.Assembly

/-!
# How Code Grows

Code under construction only grows. While the statements of a block are compiled, one label is
**open**: instructions go to it and to labels made meanwhile, and all other labels stay as they are.
This is `GrowsAt x a b`, the frame condition that lets a proof about one branch forget the others.

A jump gives a name, and the name means the label made last under it. In code that is `Tied` every
name of a label means some label of that name, and growth keeps it so.
-/

namespace EvScript

variable {s : String}

namespace Assembly

variable {a b c : Assembly} {x y id : LabelId}

/-! ### Strings -/

theorem idxOf?_of_prefix {l l' : List String} (h : l <+: l') {i : Nat}
    (hi : l.idxOf? s = some i) : l'.idxOf? s = some i := by
  obtain ⟨r, rfl⟩ := h
  rw [List.idxOf?, List.findIdx?_append]
  rw [List.idxOf?] at hi
  simp [hi]

theorem idxOf?_concat_self {l : List String} (h : l.idxOf? s = none) :
    (l ++ [s]).idxOf? s = some l.length := by
  rw [List.idxOf?] at h
  rw [List.idxOf?, List.findIdx?_append]
  simp [h]

/-- Looking up a string leaves the labels alone. -/
@[simp] theorem intern_labels (a : Assembly) (s : String) : (a.intern s).2.labels = a.labels := by
  unfold intern
  split <;> rfl

@[simp] theorem intern_byName (a : Assembly) (s : String) : (a.intern s).2.byName = a.byName := by
  unfold intern
  split <;> rfl

/-- Looking up a string only adds to the table. -/
theorem prefix_intern (a : Assembly) (s : String) : a.strings <+: (a.intern s).2.strings := by
  unfold intern
  split
  · exact List.prefix_rfl
  · exact List.prefix_append _ _

theorem idxOf?_intern (a : Assembly) (s : String) :
    (a.intern s).2.strings.idxOf? s = some (a.intern s).1 := by
  unfold intern
  split
  · assumption
  · exact idxOf?_concat_self ‹_›

theorem intern_lt (a : Assembly) (s : String) : (a.intern s).1 < (a.intern s).2.strings.length := by
  have hi := idxOf?_intern a s
  rw [List.idxOf?_eq_some_iff] at hi
  exact hi.1

/-- A table that already has all that looking up a string leaves, has it at the same index and
does not change. -/
theorem intern_of_prefix (h : (a.intern s).2.strings <+: c.strings) :
    c.intern s = ((a.intern s).1, c) := by
  have hi := idxOf?_of_prefix h (idxOf?_intern a s)
  generalize (a.intern s).1 = i at hi
  simp only [intern, hi]

/-! ### Labels -/

theorem label_of_getElem? {l : Label} (h : a.labels[id]? = some l) : a.label id = l := by
  simp [label, h]

/-- A handle that no label has yet stands for a label without instructions. -/
theorem label_of_size_le (h : a.labels.size ≤ x) : a.label x = ⟨0, [], []⟩ := by
  simp [label, Array.getElem?_eq_none h]

/-- Whatever is put into an array of labels elsewhere, a label stays as it is. -/
theorem label_congr (h : a.labels[id]? = b.labels[id]?) : a.label id = b.label id := by
  simp [label, h]

@[simp] theorem newLabel_fst (a : Assembly) (name : String) :
    (a.newLabel name).1 = a.labels.size := by
  simp [newLabel]

@[simp] theorem newLabel_labels (a : Assembly) (name : String) :
    (a.newLabel name).2.labels = a.labels.push ⟨(a.intern name).1, [], []⟩ := by
  simp [newLabel]

@[simp] theorem newLabel_byName (a : Assembly) (name : String) :
    (a.newLabel name).2.byName = a.byName.insert (a.intern name).1 a.labels.size := by
  simp [newLabel]

/-- A new label has no instructions yet. -/
theorem label_newLabel_self (a : Assembly) (name : String) :
    (a.newLabel name).2.label a.labels.size = ⟨(a.intern name).1, [], []⟩ :=
  label_of_getElem? (by simp)

theorem label_newLabel_of_lt (name : String) (h : id < a.labels.size) :
    (a.newLabel name).2.label id = a.label id :=
  label_congr (by simp [Array.getElem?_push, Nat.ne_of_lt h])

/-- A label that is new, or is not there at all, has no instructions before and after. -/
theorem instrs_newLabel (a : Assembly) (name : String) (id : LabelId) :
    ((a.newLabel name).2.label id).instrs = (a.label id).instrs := by
  rcases Nat.lt_trichotomy id a.labels.size with hlt | heq | hgt
  · rw [label_newLabel_of_lt name hlt]
  · rw [heq, label_newLabel_self, label_of_size_le (Nat.le_refl _)]
  · rw [label_of_size_le (Nat.le_of_lt hgt),
      label_of_size_le (by simpa using Nat.succ_le_of_lt hgt)]

/-- The name that a new child of a label gets. -/
def nextChildName (a : Assembly) (parent : LabelId) : String :=
  childName (a.strings[(a.label parent).name]?.getD "") (a.label parent).children.length

@[simp] theorem newChild_fst (a : Assembly) (parent : LabelId) :
    (a.newChild parent).1 = a.labels.size := by
  simp [newChild]

theorem newChild_labels (a : Assembly) (parent : LabelId) : (a.newChild parent).2.labels =
      (a.labels.push ⟨(a.intern (a.nextChildName parent)).1, [], []⟩).modify parent fun l =>
        { l with children := l.children ++ [(a.intern (a.nextChildName parent)).1] } := by
  simp only [newChild, newLabel_labels, newLabel_fst, label_newLabel_self]
  rfl

@[simp] theorem newChild_size (a : Assembly) (parent : LabelId) :
    (a.newChild parent).2.labels.size = a.labels.size + 1 := by
  simp [newChild_labels]

@[simp] theorem newChild_byName (a : Assembly) (parent : LabelId) : (a.newChild parent).2.byName =
      a.byName.insert (a.intern (a.nextChildName parent)).1 a.labels.size := by
  simp [newChild, nextChildName]

/-- A new child has no instructions yet. -/
theorem label_newChild_self (h : x < a.labels.size) :
    (a.newChild x).2.label a.labels.size = ⟨(a.intern (a.nextChildName x)).1, [], []⟩ := by
  apply label_of_getElem?
  rw [newChild_labels, Array.getElem?_modify, if_neg (Nat.ne_of_lt h), Array.getElem?_push_size]

theorem label_newChild_of_ne (h : id < a.labels.size) (hx : id ≠ x) :
    (a.newChild x).2.label id = a.label id := by
  apply label_congr
  rw [newChild_labels, Array.getElem?_modify, if_neg (Ne.symm hx), Array.getElem?_push,
    if_neg (Nat.ne_of_lt h)]

/-- A label that is there is found by its handle. -/
theorem getElem?_eq_label (h : id < a.labels.size) : a.labels[id]? = some (a.label id) := by
  simp [label, Array.getElem?_eq_getElem h]

theorem label_newChild_parent (h : x < a.labels.size) : (a.newChild x).2.label x = { a.label x with
      children := (a.label x).children ++ [(a.intern (a.nextChildName x)).1] } := by
  apply label_of_getElem?
  rw [newChild_labels, Array.getElem?_modify, if_pos rfl, Array.getElem?_push,
    if_neg (Nat.ne_of_lt h), getElem?_eq_label h]
  rfl

theorem instrs_newChild (a : Assembly) (parent id : LabelId) :
    ((a.newChild parent).2.label id).instrs = (a.label id).instrs := by
  refine Eq.trans ?_ (instrs_newLabel a (a.nextChildName parent) id)
  rw [label, label, newChild_labels, newLabel_labels, Array.getElem?_modify]
  split
  · cases (a.labels.push _)[id]? <;> rfl
  · rfl

@[simp] theorem emit_size (a : Assembly) (x : LabelId) (is : List Instr) :
    (a.emit x is).labels.size = a.labels.size := by
  simp [emit]

/-- Instructions go behind those of their label. -/
theorem label_emit_self (is : List Instr) (h : x < a.labels.size) :
    (a.emit x is).label x = { a.label x with instrs := (a.label x).instrs ++ is } := by
  apply label_of_getElem?
  simp [emit, Array.getElem?_modify, getElem?_eq_label h]

theorem label_emit_of_ne (is : List Instr) (h : id ≠ x) : (a.emit x is).label id = a.label id := by
  apply label_congr
  simp [emit, Array.getElem?_modify, Ne.symm h]

theorem instrs_emit (is : List Instr) (h : x < a.labels.size) (id : LabelId) :
    ((a.emit x is).label id).instrs = (a.label id).instrs ++ if x = id then is else [] := by
  by_cases hx : x = id
  · rw [← hx, label_emit_self is h, if_pos rfl]
  · rw [label_emit_of_ne is (Ne.symm hx), if_neg hx, List.append_nil]

theorem emit_append (a : Assembly) (x : LabelId) (is js : List Instr) :
    a.emit x (is ++ js) = (a.emit x is).emit x js := by
  have hmod : ∀ (ls : Array Label) (f g : Label → Label),
      (ls.modify x f).modify x g = ls.modify x (g ∘ f) := by
    intro ls f g
    ext i hi hi' <;> simp [Array.getElem_modify]
    split <;> rfl
  simp [emit, hmod, Function.comp_def]

/-! ### Names and the labels they mean -/

/-- Every name of a label means some label of that name. -/
def Tied (a : Assembly) : Prop :=
  ∀ id, id < a.labels.size → ∃ j, a.byName.find? (a.label id).name = some j ∧
    j < a.labels.size ∧ (a.label j).name = (a.label id).name

/-- No two labels have the same name. -/
def Distinct (a : Assembly) : Prop :=
  ∀ i, i < a.labels.size → ∀ j, j < a.labels.size →
    (a.label i).name = (a.label j).name → i = j

instance (a : Assembly) : Decidable a.Distinct :=
  inferInstanceAs (Decidable (∀ i, i < a.labels.size → ∀ j, j < a.labels.size →
    (a.label i).name = (a.label j).name → i = j))

/-- Every label is the one its name means. -/
def Unclashed (a : Assembly) : Prop :=
  ∀ id, id < a.labels.size → a.byName.find? (a.label id).name = some id

instance (a : Assembly) : Decidable a.Unclashed :=
  inferInstanceAs (Decidable (∀ id, id < a.labels.size →
    a.byName.find? (a.label id).name = some id))

theorem Tied.unclashed (h : a.Tied) (hd : a.Distinct) : a.Unclashed := by
  intro id hid
  obtain ⟨j, hj, hlt, hname⟩ := h id hid
  rw [hj, hd j hlt id hid hname]

theorem tied_empty : empty.Tied := fun _ h => absurd h (Nat.not_lt_zero _)

theorem Tied.of_names (h : a.Tied) (hsize : b.labels.size = a.labels.size)
    (hby : b.byName = a.byName) (hname : ∀ id, id < a.labels.size →
      (b.label id).name = (a.label id).name) : b.Tied := by
  intro id hid
  rw [hsize] at hid
  obtain ⟨j, hj, hlt, hjn⟩ := h id hid
  exact ⟨j, by rw [hby, hname id hid, hj], hsize ▸ hlt, by rw [hname j hlt, hname id hid, hjn]⟩

theorem Tied.emit (h : a.Tied) (x : LabelId) (is : List Instr) : (a.emit x is).Tied := by
  refine h.of_names (by simp) rfl fun id hid => ?_
  by_cases hx : id = x
  · subst hx
    rw [label_emit_self is hid]
  · rw [label_emit_of_ne is hx]

theorem Tied.concat (h : a.Tied) {index : Nat} (hsize : b.labels.size = a.labels.size + 1)
    (hby : b.byName = a.byName.insert index a.labels.size)
    (hold : ∀ id, id < a.labels.size → (b.label id).name = (a.label id).name)
    (hnew : (b.label a.labels.size).name = index) : b.Tied := by
  intro id hid
  by_cases hn : (b.label id).name = index
  · exact ⟨a.labels.size, by rw [hby, hn, Table.find?_insert_self], by omega, by rw [hnew, hn]⟩
  · have hlt : id < a.labels.size := by
      rcases Nat.lt_or_ge id a.labels.size with hlt | hge
      · exact hlt
      · obtain rfl : id = a.labels.size := by omega
        exact absurd hnew hn
    obtain ⟨j, hj, hjlt, hjn⟩ := h id hlt
    refine ⟨j, ?_, by omega, by rw [hold j hjlt, hold id hlt, hjn]⟩
    rw [hby, Table.find?_insert_of_ne _ _ hn, hold id hlt, hj]

theorem Tied.newLabel (h : a.Tied) (name : String) : (a.newLabel name).2.Tied :=
  h.concat (by simp) (newLabel_byName a name) (fun _ hid => by rw [label_newLabel_of_lt name hid])
    (by rw [label_newLabel_self])

theorem Tied.newChild (h : a.Tied) (hx : x < a.labels.size) : (a.newChild x).2.Tied := by
  refine h.concat (by simp) (newChild_byName a x) (fun id hid => ?_)
    (by rw [label_newChild_self hx])
  by_cases hne : id = x
  · rw [hne, label_newChild_parent hx]
  · rw [label_newChild_of_ne hid hne]

/-! ### More strings -/

/-- The code `b` is the code `a`, maybe with more strings. -/
structure MoreStrings (a b : Assembly) : Prop where
  strings : a.strings <+: b.strings
  labels : b.labels = a.labels
  byName : b.byName = a.byName

theorem MoreStrings.refl (a : Assembly) : a.MoreStrings a := ⟨List.prefix_rfl, rfl, rfl⟩

theorem MoreStrings.trans (h : a.MoreStrings b) (g : b.MoreStrings c) : a.MoreStrings c :=
  ⟨h.strings.trans g.strings, g.labels.trans h.labels, g.byName.trans h.byName⟩

theorem MoreStrings.intern (a : Assembly) (s : String) : a.MoreStrings (a.intern s).2 :=
  ⟨prefix_intern a s, intern_labels a s, intern_byName a s⟩

theorem MoreStrings.size (h : a.MoreStrings b) : b.labels.size = a.labels.size := by
  rw [h.labels]

theorem MoreStrings.label (h : a.MoreStrings b) (id : LabelId) : b.label id = a.label id :=
  label_congr (by rw [h.labels])

theorem Tied.moreStrings (h : a.Tied) (hm : a.MoreStrings b) : b.Tied :=
  h.of_names hm.size hm.byName fun id _ => by rw [hm.label]

/-! ### Growth with one open label -/

/-- The code `b` comes from `a` by growing at the label `x`: labels of `a` other than `x` are
the same in `b`, and `x` has kept its name and what it had. -/
structure GrowsAt (x : LabelId) (a b : Assembly) : Prop where
  strings : a.strings <+: b.strings
  size : a.labels.size ≤ b.labels.size
  other : ∀ id, id < a.labels.size → id ≠ x → b.label id = a.label id
  name : x < a.labels.size → (b.label x).name = (a.label x).name
  children : x < a.labels.size → (a.label x).children <+: (b.label x).children
  instrs : x < a.labels.size → (a.label x).instrs <+: (b.label x).instrs
  tied : a.Tied → b.Tied

namespace GrowsAt

theorem refl (x : LabelId) (a : Assembly) : GrowsAt x a a where
  strings := List.prefix_rfl
  size := Nat.le_refl _
  other _ _ _ := rfl
  name _ := rfl
  children _ := List.prefix_rfl
  instrs _ := List.prefix_rfl
  tied h := h

theorem trans (h : GrowsAt x a b) (g : GrowsAt x b c) : GrowsAt x a c where
  strings := h.strings.trans g.strings
  size := Nat.le_trans h.size g.size
  other id hid hx := (g.other id (Nat.lt_of_lt_of_le hid h.size) hx).trans (h.other id hid hx)
  name hx := (g.name (Nat.lt_of_lt_of_le hx h.size)).trans (h.name hx)
  children hx := (h.children hx).trans (g.children (Nat.lt_of_lt_of_le hx h.size))
  instrs hx := (h.instrs hx).trans (g.instrs (Nat.lt_of_lt_of_le hx h.size))
  tied ht := g.tied (h.tied ht)

/-- Growth at a label that was made meanwhile leaves all labels from before alone. -/
theorem trans_fresh (h : GrowsAt x a b) (hy : a.labels.size ≤ y) (g : GrowsAt y b c) :
    GrowsAt x a c := by
  have hkeep : ∀ id, id < a.labels.size → c.label id = b.label id := fun id hid =>
    g.other id (Nat.lt_of_lt_of_le hid h.size) (Nat.ne_of_lt (Nat.lt_of_lt_of_le hid hy))
  refine ⟨h.strings.trans g.strings, Nat.le_trans h.size g.size, ?_, ?_, ?_, ?_,
    fun ht => g.tied (h.tied ht)⟩
  · intro id hid hx
    rw [hkeep id hid, h.other id hid hx]
  · intro hx
    rw [hkeep x hx, h.name hx]
  · intro hx
    rw [hkeep x hx]
    exact h.children hx
  · intro hx
    rw [hkeep x hx]
    exact h.instrs hx

/-- Every label of `a` has its name in `b`. -/
theorem name_eq (h : GrowsAt x a b) (hid : id < a.labels.size) :
    (b.label id).name = (a.label id).name := by
  by_cases hx : id = x
  · subst hx
    exact h.name hid
  · rw [h.other id hid hx]

/-- Every label of `a` has its instructions in `b`, and maybe more behind them. -/
theorem instrs_prefix (h : GrowsAt x a b) (hid : id < a.labels.size) :
    (a.label id).instrs <+: (b.label id).instrs := by
  by_cases hx : id = x
  · subst hx
    exact h.instrs hid
  · rw [h.other id hid hx]

theorem of_moreStrings (x : LabelId) (h : a.MoreStrings b) : GrowsAt x a b where
  strings := h.strings
  size := Nat.le_of_eq h.size.symm
  other id _ _ := h.label id
  name _ := by rw [h.label]
  children _ := by rw [h.label]
  instrs _ := by rw [h.label]
  tied ht := ht.moreStrings h

theorem newLabel (x : LabelId) (a : Assembly) (name : String) :
    GrowsAt x a (a.newLabel name).2 where
  strings := prefix_intern a name
  size := by simp
  other id hid _ := label_newLabel_of_lt name hid
  name hx := by rw [label_newLabel_of_lt name hx]
  children hx := by rw [label_newLabel_of_lt name hx]
  instrs hx := by rw [label_newLabel_of_lt name hx]
  tied ht := ht.newLabel name

theorem newChild (h : x < a.labels.size) : GrowsAt x a (a.newChild x).2 := by
  have hl := label_newChild_parent h
  refine ⟨prefix_intern a _, by simp, fun id hid hx => label_newChild_of_ne hid hx, ?_, ?_, ?_,
    fun ht => ht.newChild h⟩
  · intro _
    rw [hl]
  · intro _
    rw [hl]
    exact List.prefix_append _ _
  · intro _
    rw [hl]

theorem emit (is : List Instr) (h : x < a.labels.size) : GrowsAt x a (a.emit x is) where
  strings := List.prefix_rfl
  size := by simp
  other id _ hx := label_emit_of_ne is hx
  name _ := by rw [label_emit_self is h]
  children _ := by rw [label_emit_self is h]
  instrs _ := by
    rw [label_emit_self is h]
    exact List.prefix_append _ _
  tied ht := ht.emit x is

theorem jump (h : x < a.labels.size) : GrowsAt x a (a.jump x y) := emit _ h

end GrowsAt

/-! ### Growth by labels alone -/

/-- The code `b` comes from `a` by adding labels: the labels of `a` are the same in `b`. -/
structure Adds (a b : Assembly) : Prop where
  strings : a.strings <+: b.strings
  size : a.labels.size ≤ b.labels.size
  label : ∀ id, id < a.labels.size → b.label id = a.label id
  tied : a.Tied → b.Tied

theorem Adds.refl (a : Assembly) : Adds a a :=
  ⟨List.prefix_rfl, Nat.le_refl _, fun _ _ => rfl, id⟩

theorem Adds.trans (h : Adds a b) (g : Adds b c) : Adds a c where
  strings := h.strings.trans g.strings
  size := Nat.le_trans h.size g.size
  label id hid := (g.label id (Nat.lt_of_lt_of_le hid h.size)).trans (h.label id hid)
  tied ht := g.tied (h.tied ht)

/-- Growth at a new label adds labels. -/
theorem GrowsAt.adds (h : GrowsAt x a b) (hx : a.labels.size ≤ x) : Adds a b where
  strings := h.strings
  size := h.size
  label id hid := h.other id hid (Nat.ne_of_lt (Nat.lt_of_lt_of_le hid hx))
  tied := h.tied

theorem MoreStrings.adds (h : a.MoreStrings b) : Adds a b :=
  (GrowsAt.of_moreStrings a.labels.size h).adds (Nat.le_refl _)

end Assembly

end EvScript
