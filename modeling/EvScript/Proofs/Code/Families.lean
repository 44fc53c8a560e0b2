import Mathlib.Data.List.Nodup
import EvScript.Proofs.Code.Edits

/-!
# Families of Labels

A label comes up under a name that is given, or as a child of a label that is there, under a name
from which its parent's name and its number can be read off. So two labels have the same name only
if their parents have. If the names that are given differ, and none of them looks like that of a
child, all names differ, and the listing has one entry for each label, in the order in which they
were made.
-/

namespace EvScript

namespace Assembly

/-! ### Names of children -/

/-- The name looks like that of a child. -/
def looksLikeChild (name : String) : Bool := "__child_".toList.isPrefixOf name.toList

theorem looksLikeChild_childName (parent : String) (i : Nat) :
    looksLikeChild (childName parent i) = true := by
  simp [looksLikeChild, childName]

/-- What stands behind the last bar in a list, and what stands in front of it. -/
theorem append_cons_inj_of_not_mem_right {α : Type} {p q d e : List α} {bar : α} (hd : bar ∉ d)
    (he : bar ∉ e) (h : p ++ bar :: d = q ++ bar :: e) : p = q ∧ d = e := by
  rcases List.append_eq_append_iff.mp h with ⟨c, rfl, hc⟩ | ⟨c, rfl, hc⟩
  · cases c with
    | nil => simpa using hc
    | cons x c =>
      obtain ⟨-, rfl⟩ := List.cons.inj hc
      exact absurd (by simp) hd
  · cases c with
    | nil => simpa [eq_comm] using hc
    | cons x c =>
      obtain ⟨-, rfl⟩ := List.cons.inj hc
      exact absurd (by simp) he

theorem toList_toString (k : Nat) : (toString k).toList = Nat.toDigits 10 k := by
  rw [show toString k = k.repr from rfl, Nat.toList_repr]

/-- **The name of a child gives away its parent and its number.** -/
theorem childName_inj {p q : String} {i j : Nat} (h : childName p i = childName q j) :
    p = q ∧ i = j := by
  have hlist := congrArg String.toList h
  simp only [childName, String.toList_append, List.append_assoc, List.append_cancel_left_eq,
    toList_toString] at hlist
  obtain ⟨hparent, hdigits⟩ := append_cons_inj_of_not_mem_right Nat.underscore_not_in_toDigits
    Nat.underscore_not_in_toDigits hlist
  have hnumber := congrArg (Nat.ofDigitChars 10 · 0) hdigits
  simp only [Nat.ofDigitChars_toDigits (show 1 < 10 by omega) (Nat.le_refl 10)] at hnumber
  exact ⟨String.toList_inj.mp hparent, hnumber⟩

end Assembly

/-! ### Origins -/

/-- How a label came up: under a given name, or as the `i`-th child of a label. -/
inductive Origin where
  | root (name : String)
  | child (parent : Nat) (i : Nat)
  deriving DecidableEq

/-- The name that was given, if one was. -/
def Origin.given : Origin → Option String
  | .root name => some name
  | .child _ _ => none

/-- The origin of the label that an edit makes, if it makes one. -/
def Edit.origin (a : Assembly) : Edit → Option Origin
  | .label name => some (.root name)
  | .child p => some (.child p (a.label p).children.length)
  | _ => none

/-- The origins of the labels that a record makes, in their order. -/
def origins (a : Assembly) : List Edit → List Origin
  | [] => []
  | e :: t => (e.origin a).toList ++ origins (a.edit e) t

theorem filterMap_given_origins (a : Assembly) (t : List Edit) :
    (origins a t).filterMap Origin.given = t.filterMap Edit.name := by
  induction t generalizing a with
  | nil => rfl
  | cons e t ih =>
    rw [origins, List.filterMap_append, ih, List.filterMap_cons]
    cases e <;> rfl

namespace Assembly

variable {known : Option Int → Prop} {a b : Assembly} {e : Edit} {t : List Edit}
  {os : List Origin} {x : Nat}

/-- The name of a label as a string. -/
def text (a : Assembly) (x : LabelId) : String := a.strings[(a.label x).name]?.getD ""

/-- In consistent code, names are the same as strings if they are the same as indices. -/
theorem Consistent.text_eq_iff (h : a.Consistent) {x y : LabelId} (hx : x < a.labels.size)
    (hy : y < a.labels.size) : a.text x = a.text y ↔ (a.label x).name = (a.label y).name := by
  rw [text, text, List.getElem?_eq_getElem (h.name_lt x hx),
    List.getElem?_eq_getElem (h.name_lt y hy)]
  exact List.Nodup.getElem_inj_iff h.nodup

/-- The label has the name that its origin gives it; a child is noted with its parent. -/
def Stems (a : Assembly) (x : Nat) : Origin → Prop
  | .root name => a.text x = name
  | .child p i => p < x ∧ (a.label p).children[i]? = some (a.label x).name ∧
      a.text x = childName (a.text p) i

/-- The labels of the code, in their order, have these origins. -/
structure Family (a : Assembly) (os : List Origin) : Prop where
  size : os.length = a.labels.size
  stems : ∀ x o, os[x]? = some o → a.Stems x o
  born : ∀ p i, .child p i ∈ os ↔ i < (a.label p).children.length
  once : (os.filterMap Origin.given).Nodup → os.Nodup

theorem family_empty : Family empty [] where
  size := rfl
  stems x o h := by simp at h
  born p i := by
    have hnone : (empty.label p).children = [] := by rw [label_of_size_le (Nat.zero_le p)]
    simp [hnone]
  once _ := List.nodup_nil

/-! ### Growing families -/

/-- Names stay as they are when code grows. -/
theorem Extends.text_eq (h : a.Extends b) (ha : a.Consistent) (hx : x < a.labels.size) :
    b.text x = a.text x := by
  have hlt := ha.name_lt x hx
  rw [text, text, h.name x hx, List.getElem?_eq_getElem hlt,
    List.getElem?_eq_getElem (Nat.lt_of_lt_of_le hlt h.strings.length_le), h.strings.getElem hlt]

theorem children_edit (h : e.Lawful known a) (x : LabelId) :
    ((a.edit e).label x).children = (a.label x).children ++
      if e = .child x then [(a.intern (a.nextChildName x)).1] else [] := by
  have hemit : ∀ y is, y < a.labels.size →
      ((a.emit y is).label x).children = (a.label x).children := by
    intro y is hy
    by_cases hx : y = x
    · subst hx
      rw [label_emit_self is hy]
    · rw [label_emit_of_ne is (Ne.symm hx)]
  cases e with
  | string s => simp [edit, (MoreStrings.intern a s).label]
  | label name =>
    simp only [edit, reduceCtorEq, if_false, List.append_nil]
    rcases Nat.lt_trichotomy x a.labels.size with hx | rfl | hx
    · rw [label_newLabel_of_lt name hx]
    · rw [label_newLabel_self, label_of_size_le (Nat.le_refl _)]
    · rw [label_of_size_le (Nat.le_of_lt hx),
        label_of_size_le (by simpa using Nat.succ_le_of_lt hx)]
  | child p =>
    simp only [edit, Edit.child.injEq]
    rcases Nat.lt_trichotomy x a.labels.size with hx | rfl | hx
    · by_cases hp : p = x
      · subst hp
        rw [label_newChild_parent hx, if_pos rfl]
      · rw [label_newChild_of_ne hx (Ne.symm hp), if_neg hp, List.append_nil]
    · rw [label_newChild_self h, label_of_size_le (Nat.le_refl _), if_neg (Nat.ne_of_lt h)]
      rfl
    · have hp : p ≠ x := Nat.ne_of_lt (Nat.lt_trans h hx)
      rw [label_of_size_le (Nat.le_of_lt hx),
        label_of_size_le (by simpa using Nat.succ_le_of_lt hx),
        if_neg hp]
      rfl
  | put y is => simpa [edit] using hemit y is h.1
  | jump y z => simpa [edit, Assembly.jump] using hemit y _ h.1
  | test y q z => simpa [edit] using hemit y _ h.1

theorem size_edit (a : Assembly) (e : Edit) :
    (a.edit e).labels.size = a.labels.size + (e.origin a).toList.length := by
  cases e <;> simp [edit, Edit.origin, Assembly.jump]

theorem child_mem_origin {p i : Nat} :
    .child p i ∈ (e.origin a).toList ↔ e = .child p ∧ i = (a.label p).children.length := by
  cases e <;> simp [Edit.origin]
  grind

theorem getElem?_intern (a : Assembly) (s : String) :
    (a.intern s).2.strings[(a.intern s).1]? = some s := by
  obtain ⟨hlt, hat, -⟩ := List.idxOf?_eq_some_iff.mp (idxOf?_intern a s)
  rw [List.getElem?_eq_getElem hlt, hat]

theorem stems_edit (ha : a.Consistent) (he : e.Lawful known a) :
    ∀ o ∈ e.origin a, (a.edit e).Stems a.labels.size o := by
  have hext := extends_edit he
  have hchildren := children_edit he
  intro o ho
  cases e with
  | label name =>
    obtain rfl := Option.some.inj ho
    have hname : ((a.newLabel name).2.label a.labels.size).name = (a.intern name).1 := by
      rw [label_newLabel_self]
    show ((a.newLabel name).2.strings[((a.newLabel name).2.label _).name]?).getD "" = name
    rw [hname, show (a.newLabel name).2.strings = (a.intern name).2.strings from rfl,
      getElem?_intern, Option.getD_some]
  | child p =>
    obtain rfl := Option.some.inj ho
    have hname : ((a.newChild p).2.label a.labels.size).name =
        (a.intern (a.nextChildName p)).1 := by
      rw [label_newChild_self he]
    refine ⟨he, ?_, ?_⟩
    · rw [hchildren, if_pos rfl, List.getElem?_concat_length, show (a.edit (.child p)).label _ =
        (a.newChild p).2.label _ from rfl, hname]
    · rw [hext.text_eq ha he]
      show ((a.newChild p).2.strings[((a.newChild p).2.label _).name]?).getD "" = _
      rw [hname, show (a.newChild p).2.strings = (a.intern (a.nextChildName p)).2.strings from rfl,
        getElem?_intern, Option.getD_some]
      rfl
  | _ => cases ho

/-- A family grows by the label that an edit makes. -/
theorem Family.edit (h : Family a os) (ha : a.Consistent) (he : e.Lawful known a) :
    Family (a.edit e) (os ++ (e.origin a).toList) := by
  have hext := extends_edit he
  have hchildren := children_edit he
  refine ⟨?_, fun x o ho => ?_, fun p i => ?_, fun hgiven => ?_⟩
  · rw [List.length_append, h.size, size_edit]
  · rcases Nat.lt_or_ge x os.length with hlt | hge
    · -- what is there keeps its origin
      rw [List.getElem?_append_left hlt] at ho
      have hx : x < a.labels.size := h.size ▸ hlt
      have hstems := h.stems x o ho
      cases o with
      | root name => exact (hext.text_eq ha hx).trans hstems
      | child p i =>
        obtain ⟨hp, hi, htext⟩ := hstems
        refine ⟨hp, ?_, ?_⟩
        · rw [hchildren, hext.name x hx, List.getElem?_append_left]
          · exact hi
          · exact (List.getElem?_eq_some_iff.mp hi).1
        · rw [hext.text_eq ha hx, hext.text_eq ha (Nat.lt_trans hp hx), htext]
    · rw [List.getElem?_append_right hge] at ho
      have hmem : o ∈ e.origin a := Option.mem_toList.mp (List.mem_of_getElem? ho)
      have hx : x = a.labels.size := by
        obtain ⟨hlt, -⟩ := List.getElem?_eq_some_iff.mp ho
        rw [Option.mem_def.mp hmem, Option.toList_some, List.length_singleton] at hlt
        have := h.size
        omega
      rw [hx]
      exact stems_edit ha he o hmem
  · rw [List.mem_append, h.born, child_mem_origin, hchildren, List.length_append]
    split
    · rename_i hchild
      simp [hchild]
      omega
    · rename_i hchild
      simp [hchild]
  · rw [List.filterMap_append, List.nodup_append] at hgiven
    refine List.nodup_append.mpr ⟨h.once hgiven.1, ?_, fun o ho o' ho' heq => ?_⟩
    · cases e.origin a <;> simp
    · subst heq
      cases o with
      | root name =>
        exact hgiven.2.2 name (List.mem_filterMap.mpr ⟨_, ho, rfl⟩) name
          (List.mem_filterMap.mpr ⟨_, ho', rfl⟩) rfl
      | child p i =>
        have hlt := (h.born p i).mp ho
        obtain ⟨-, rfl⟩ := child_mem_origin.mp ho'
        exact Nat.lt_irrefl _ hlt

/-- **Families grow with the record.** -/
theorem Family.replay (h : Family a os) (ha : a.Consistent) (ht : Lawful known a t) :
    Family (a.replay t) (os ++ origins a t) := by
  induction t generalizing a os with
  | nil => simpa [origins] using h
  | cons e t ih =>
    rw [replay_cons, origins, ← List.append_assoc]
    exact ih (h.edit ha ht.1) (ha.edit ht.1) ht.2

theorem family_replay (ht : Lawful known empty t) : Family (empty.replay t) (origins empty t) :=
  family_empty.replay consistent_empty ht

/-! ### Different names -/

/-- **If the given names are different, and none of them looks like that of a child, all names are
different.** -/
theorem Family.text_inj (h : Family a os) (hgiven : (os.filterMap Origin.given).Nodup)
    (hroot : ∀ name ∈ os.filterMap Origin.given, looksLikeChild name = false) :
    ∀ x y, x < a.labels.size → y < a.labels.size → a.text x = a.text y → x = y := by
  have hnodup := h.once hgiven
  -- a label of a given name has not got the name of a child
  have hapart : ∀ {name p : String} {i : Nat}, .root name ∈ os → name ≠ childName p i := by
    intro name p i hmem heq
    have hno := hroot name (List.mem_filterMap.mpr ⟨_, hmem, rfl⟩)
    rw [heq, looksLikeChild_childName] at hno
    cases hno
  intro x
  -- parents come before their children
  induction x using Nat.strongRecOn with
  | ind x ih =>
    intro y hx hy htext
    rw [← h.size] at hx hy
    have hox := List.getElem?_eq_getElem hx
    have hoy := List.getElem?_eq_getElem hy
    suffices horigin : os[x] = os[y] from
      (List.Nodup.getElem_inj_iff hnodup).mp horigin
    have hsx := h.stems x _ hox
    have hsy := h.stems y _ hoy
    have hmx := List.getElem_mem hx
    have hmy := List.getElem_mem hy
    generalize os[x] = ox at *
    generalize os[y] = oy at *
    cases ox with
    | root name =>
      cases oy with
      | root name' => rw [show name = name' from hsx.symm.trans (htext.trans hsy)]
      | child q j =>
        exact absurd (hsx.symm.trans (htext.trans hsy.2.2)) (hapart hmx)
    | child p i =>
      cases oy with
      | root name' =>
        exact absurd (hsy.symm.trans (htext.symm.trans hsx.2.2)) (hapart hmy)
      | child q j =>
        obtain ⟨hparent, rfl⟩ := childName_inj (hsx.2.2.symm.trans (htext.trans hsy.2.2))
        have hp : p < a.labels.size := by
          have := hsx.1
          have := h.size
          omega
        have hq : q < a.labels.size := by
          have := hsy.1
          have := h.size
          omega
        rw [ih p hsx.1 q hp hq hparent]

theorem Family.distinct (h : Family a os) (hgiven : (os.filterMap Origin.given).Nodup)
    (hroot : ∀ name ∈ os.filterMap Origin.given, looksLikeChild name = false) : a.Distinct := by
  intro x hx y hy hname
  refine h.text_inj hgiven hroot x y hx hy ?_
  rw [text, text, hname]

/-! ### Listings without gaps -/

theorem Distinct.of_extends (hb : b.Distinct) (h : a.Extends b) : a.Distinct := by
  intro x hx y hy hname
  have hsize := h.size
  refine hb x (by omega) y (by omega) ?_
  rw [h.name x hx, h.name y hy, hname]

theorem entries_insert_of_not_mem {κ α : Type} [DecidableEq κ] {t : Table κ α} {key : κ} {value : α}
    (h : ∀ p ∈ t.entries, p.1 ≠ key) :
    (t.insert key value).entries = t.entries ++ [(key, value)] := by
  obtain ⟨es⟩ := t
  simp only [Table.insert] at h ⊢
  induction es with
  | nil => rfl
  | cons q es ih =>
    rw [Table.insertIn, if_neg (h q List.mem_cons_self), List.cons_append,
      ih fun p hp => h p (List.mem_cons_of_mem _ hp)]

/-- An edit leaves labels and entries as many as they are, or it makes one label, which its name
then means. -/
theorem byName_edit (he : e.Lawful known a) :
    ((a.edit e).labels.size = a.labels.size ∧ (a.edit e).byName = a.byName) ∨
    ((a.edit e).labels.size = a.labels.size + 1 ∧ (a.edit e).byName =
      a.byName.insert ((a.edit e).label a.labels.size).name a.labels.size) := by
  cases e with
  | string s => exact .inl ⟨by simp [edit], intern_byName a s⟩
  | label name =>
    refine .inr ⟨by simp [edit], ?_⟩
    simp only [edit, label_newLabel_self, newLabel_byName]
  | child p =>
    refine .inr ⟨newChild_size a p, ?_⟩
    simp only [edit, label_newChild_self he, newChild_byName]
  | put x is => exact .inl ⟨emit_size a x is, rfl⟩
  | jump x y => exact .inl ⟨emit_size a x _, rfl⟩
  | test x q y => exact .inl ⟨emit_size a x _, rfl⟩

/-- Every label has its entry, in the order in which the labels were made. -/
def Listed (a : Assembly) : Prop :=
  a.byName.entries = (List.range a.labels.size).map fun x => ((a.label x).name, x)

theorem Listed.edit (h : a.Listed) (he : e.Lawful known a) (hd : (a.edit e).Distinct) :
    (a.edit e).Listed := by
  have hext := extends_edit he
  have hsame : ((List.range a.labels.size).map fun x => (((a.edit e).label x).name, x)) =
      a.byName.entries := by
    rw [h]
    refine List.map_congr_left fun x hx => ?_
    rw [hext.name x (List.mem_range.mp hx)]
  rcases byName_edit he with ⟨hsize, hby⟩ | ⟨hsize, hby⟩
  · rw [Listed, hby, hsize, hsame]
  · rw [Listed, hby, hsize, List.range_succ, List.map_append, hsame, List.map_singleton]
    refine entries_insert_of_not_mem fun p hp heq => ?_
    rw [h] at hp
    obtain ⟨x, hx, rfl⟩ := List.mem_map.mp hp
    have hlt := List.mem_range.mp hx
    rw [← hext.name x hlt] at heq
    have := hd x (by omega) _ (by omega) heq
    omega

theorem Listed.replay (h : a.Listed) (ht : Lawful known a t) (hd : (a.replay t).Distinct) :
    (a.replay t).Listed := by
  induction t generalizing a with
  | nil => exact h
  | cons e t ih =>
    have hnext : (a.edit e).Distinct := Distinct.of_extends hd (extends_replay ht.2)
    exact ih (h.edit ht.1 hnext) ht.2 hd

/-- **If all names are different, the listing has one entry for each label**, in the order in
which the labels were made. -/
theorem listing_replay (ht : Lawful known empty t) (hd : (empty.replay t).Distinct) :
    (empty.replay t).listing = (empty.replay t).labels.toList.map fun l => (l.name, l) := by
  have hempty : empty.Listed := rfl
  rw [listing, hempty.replay ht hd, List.map_map]
  refine List.ext_getElem (by simp) fun x hx _ => ?_
  have hlt : x < (empty.replay t).labels.size := by simpa using hx
  simp [label, Array.getElem?_eq_getElem hlt]

/-! ### The last label of a name -/

/-- A name means no label that was made before another one of that name. -/
def Latest (a : Assembly) : Prop :=
  ∀ x, x < a.labels.size → ∀ j, a.byName.find? (a.label x).name = some j → x ≤ j

theorem Latest.edit (h : a.Latest) (he : e.Lawful known a) : (a.edit e).Latest := by
  have hext := extends_edit he
  intro x hx j hj
  rcases byName_edit he with ⟨hsize, hby⟩ | ⟨hsize, hby⟩
  · rw [hsize] at hx
    rw [hby, hext.name x hx] at hj
    exact h x hx j hj
  · rw [hby] at hj
    by_cases hname : ((a.edit e).label x).name = ((a.edit e).label a.labels.size).name
    · rw [hname, Table.find?_insert_self] at hj
      cases hj
      omega
    · rw [Table.find?_insert_of_ne _ _ hname] at hj
      have hne : x ≠ a.labels.size := by
        rintro rfl
        exact hname rfl
      have hlt : x < a.labels.size := by omega
      rw [hext.name x hlt] at hj
      exact h x hlt j hj

theorem Latest.replay (h : a.Latest) (ht : Lawful known a t) : (a.replay t).Latest := by
  induction t generalizing a with
  | nil => exact h
  | cons e t ih => exact ih (h.edit ht.1) ht.2

/-- **The name of a label means that label exactly if no later label has it.** -/
theorem Latest.find?_eq_iff (h : a.Latest) (ht : a.Tied) (hx : x < a.labels.size) :
    a.byName.find? (a.label x).name = some x ↔
      ∀ y, x < y → y < a.labels.size → (a.label y).name ≠ (a.label x).name := by
  obtain ⟨j, hj, hlt, hname⟩ := ht x hx
  constructor
  · intro hfind y hxy hy heq
    rw [← heq] at hfind
    have := h y hy x hfind
    omega
  · intro hlast
    have hle := h x hx j hj
    rcases Nat.lt_or_eq_of_le hle with hxj | rfl
    · exact absurd hname (hlast j hxj hlt)
    · exact hj

end Assembly

end EvScript
