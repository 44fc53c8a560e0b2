import EvScript.Proofs.Scope.Tidy

/-!
# Names of Imported Files

An import hands over the scopes of a file as they are. If its global scope becomes a namespace, the
name of the file followed by any name means what that name means in the file, if no other namespace
has the name of the file. If its declarations and namespaces are taken over, every name means what
it means in the imported file, and if it means nothing there, what it meant before, if the two files
have no namespaces of the same name.
-/

namespace EvScript

/-! ### Names behind names -/

theorem splitQualified_qualify {front : List Char} (h : ':' ∉ front) (rest : List Char) :
    splitQualified (front ++ ':' :: ':' :: rest) = front :: splitQualified rest := by
  induction front with
  | nil => rw [List.nil_append, splitQualified]
  | cons c front ih =>
    rw [List.mem_cons, not_or] at h
    rw [List.cons_append, splitQualified, ih h.2]
    intro cs hcs
    exact absurd hcs.symm h.1

/-- **The parts of a name behind another one.** -/
theorem nameParts_qualify {m : String} (hm : ':' ∉ m.toList) (q : String) :
    nameParts (m ++ "::" ++ q) = (m :: (nameParts q).1, (nameParts q).2) := by
  have htext : (m ++ "::" ++ q).toList = m.toList ++ ':' :: ':' :: q.toList := by simp
  have hsplit := nameParts_concat (m ++ "::" ++ q)
  rw [htext, splitQualified_qualify hm, List.map_cons, String.ofList_toList,
    ← nameParts_concat q, ← List.cons_append] at hsplit
  obtain ⟨hfront, hlast⟩ := List.append_inj' hsplit rfl
  exact Prod.ext hfront (List.cons.inj hlast).1

/-- A name that is not plain has a last qualifier. -/
theorem nameParts_eq_concat {q first : String} {more : List String}
    (h : (nameParts q).1 = first :: more) :
    ∃ ps p, nameParts q = (ps ++ [p], (nameParts q).2) := by
  obtain ⟨ps, p, hps⟩ : ∃ ps p, first :: more = ps ++ [p] :=
    (List.eq_nil_or_concat' _).resolve_left (List.cons_ne_nil _ _)
  exact ⟨ps, p, Prod.ext (h.trans hps) rfl⟩

theorem nameParts_snd_of_isPlain {q : String} (h : IsPlain q) : (nameParts q).2 = q := by
  have hjoin := intercalate_nameParts q
  rw [nameParts_fst_eq_nil_iff.mpr h] at hjoin
  simpa using hjoin

/-! ### Regions -/

namespace ScopeGraph

variable {α : Type} {g g' : ScopeGraph} {region : ScopeId → Prop} {a : ScopeId} {shelf : Shelf α}
  {p leaf : String} {ps : List String}

/-- What is in the scopes of a region is the same in both graphs, and is in the region again. -/
structure Agrees (region : ScopeId → Prop) (g g' : ScopeGraph) : Prop where
  children : ∀ x, region x → (g'.scope x).children = (g.scope x).children
  closed : ∀ x, region x → ∀ y ∈ (g.scope x).children, region y
  name : ∀ x, region x → ∀ y ∈ (g.scope x).children, (g'.scope y).name = (g.scope y).name
  tables : ∀ x, region x → ∀ y ∈ (g.scope x).children,
    ∀ (α : Type) (shelf : Shelf α), IsShelf shelf → shelf (g'.scope y) = shelf (g.scope y)

theorem Agrees.find?_eq (h : Agrees region g g') (ha : region a) (p : String) :
    (g'.scope a).children.find? (g'.isNamed p) = (g.scope a).children.find? (g.isNamed p) := by
  rw [h.children a ha, ← List.head?_filter, ← List.head?_filter]
  refine congrArg _ (List.filter_congr fun y hy => ?_)
  rw [isNamed, isNamed, h.name a ha y hy]

theorem Agrees.declaredBelow_eq (h : Agrees region g g') (hg : g.Ordered) (hg' : g'.Ordered)
    (ht : g.Tidy) (ht' : g'.Tidy) (hshelf : IsShelf shelf) (ha : region a) (p leaf : String) :
    g'.declaredBelow shelf p leaf a = g.declaredBelow shelf p leaf a := by
  rw [ht'.declaredBelow_eq hg', ht.declaredBelow_eq hg, h.children a ha]
  have hnamed : (g.scope a).children.filter (g'.isNamed p) =
      (g.scope a).children.filter (g.isNamed p) := by
    refine List.filter_congr fun y hy => ?_
    rw [isNamed, isNamed, h.name a ha y hy]
  rw [hnamed, ← List.head?_filterMap, ← List.head?_filterMap]
  refine congrArg _ (List.filterMap_congr fun y hy => ?_)
  rw [lookup, lookup, h.tables a ha y (List.mem_of_mem_filter hy) α shelf hshelf]

/-- **Searches in a region** on which two graphs agree come to the same end. -/
theorem Agrees.search_eq (h : Agrees region g g') (hg : g.Ordered) (hg' : g'.Ordered)
    (ht : g.Tidy) (ht' : g'.Tidy) (hshelf : IsShelf shelf) (ha : region a) (ps : List String)
    (p leaf : String) : (g'.lead a ps).bind (g'.declaredBelow shelf p leaf) =
      (g.lead a ps).bind (g.declaredBelow shelf p leaf) := by
  induction ps generalizing a with
  | nil =>
    rw [lead, lead, Option.bind_some, Option.bind_some]
    exact h.declaredBelow_eq hg hg' ht ht' hshelf ha p leaf
  | cons q ps ih =>
    rw [ht'.lead_cons hg', ht.lead_cons hg, h.find?_eq ha, Option.bind_assoc,
      Option.bind_assoc]
    cases hfind : (g.scope a).children.find? (g.isNamed q) with
    | none => rfl
    | some y => exact ih (h.closed a ha y (List.mem_of_find?_eq_some hfind))

end ScopeGraph

open ScopeGraph

/-- **New scopes behind the others** do not matter to names, if they are in none of the others. -/
theorem Cursor.resolve_of_same {α : Type} {c : Cursor} {g g' : ScopeGraph} {shelf : Shelf α}
    (hg : g.Ordered) (hg' : g'.Ordered) (ht : g.Tidy) (ht' : g'.Tidy) (hc : c.Rooted g)
    (hsize : g.size ≤ g'.size) (hsame : ∀ y < g.size, g'.scope y = g.scope y)
    (hshelf : IsShelf shelf) (q : String) : c.resolve g' shelf q = c.resolve g shelf q := by
  have hc' : c.Rooted g' := hc.of_parents hsize (fun z hz => by rw [hsame z hz])
    (by rw [hsame _ hc.top_lt])
  cases hparts : (nameParts q).1 with
  | nil =>
    have hq := nameParts_fst_eq_nil_iff.mp hparts
    have henclosing := hc.trail.lt_size hg
    have hopen : ∀ y ∈ c.enclosing, g'.isOpen y = g.isOpen y := fun y hy => by
      rw [isOpen, hsame y (henclosing y hy)]
      rfl
    have hseen : ∀ y ∈ c.outward g, g'.lookup shelf q y = g.lookup shelf q y := by
      intro y hy
      have hlt : y < g.size := by
        rcases List.mem_append.mp hy with hy | hy
        · rcases List.mem_cons.mp hy with rfl | hy
          · exact hc.here_lt
          · exact henclosing y ((List.takeWhile_sublist _).subset hy)
        · exact List.mem_singleton.mp hy ▸ hc.top_lt
      rw [lookup, hsame y hlt]
      rfl
    rw [resolve_eq_or hg' hc' shelf hq, resolve_eq_or hg hc shelf hq, innermost, outward,
      takeWhile_isOpen_eq hopen, ← outward, ← List.head?_filterMap, List.filterMap_congr hseen,
      List.head?_filterMap, lookup, hsame _ hc.top_lt]
    rfl
  | cons first more =>
    obtain ⟨ps, p, hq⟩ := nameParts_eq_concat hparts
    have hagrees : Agrees (· < g.size) g g' := by
      have hchild : ∀ x, x < g.size → ∀ y ∈ (g.scope x).children, y < g.size := fun x _ y hy =>
        (hg.child hy).2
      refine ⟨fun x hx => by rw [hsame x hx], hchild, fun x hx y hy => ?_,
        fun x hx y hy _ _ _ => ?_⟩ <;> rw [hsame y (hchild x hx y hy)]
    rw [resolve_eq_lead hg' hc' hq, resolve_eq_lead hg hc hq]
    exact hagrees.search_eq hg hg' ht ht' hshelf hc.top_lt ps p _

/-! ### A file beside another one -/

/-- The place in a file that has been gone through, at its global scope, beside the place of the
file that imports it. -/
structure Cursor.Beside (c other : Cursor) (g : ScopeGraph) : Prop where
  ordered : g.Ordered
  tidy : g.Tidy
  rooted : c.Rooted g
  rooted' : other.Rooted g
  lt : c.top < other.top
  here : other.here = other.top
  enclosing : other.enclosing = []

namespace Cursor.Beside

variable {α : Type} {c other : Cursor} {g : ScopeGraph} {shelf : Shelf α} {m q : String}

theorem resolve_of_isPlain (h : c.Beside other g) (hq : IsPlain q) :
    other.resolve g shelf q = g.lookup shelf q other.top := by
  rw [resolve_eq_or h.ordered h.rooted' shelf hq, innermost, outward, h.here, h.enclosing]
  cases htop : g.lookup shelf q other.top <;> simp [htop]

theorem lt_child (h : c.Beside other g) {x : ScopeId}
    (hx : x ∈ (g.scope c.top).children ++ (g.scope other.top).children) : c.top < x :=
  (List.mem_append.mp hx).elim (fun hx => (h.ordered.child hx).1) fun hx =>
    Nat.lt_trans h.lt (h.ordered.child hx).1

/-! ### A file under its name -/

theorem scope_mount (h : c.Beside other g) (m : String) (z : ScopeId) :
    (c.mount g other m).scope z =
      if z = c.top then
        { g.scope c.top with children := (g.scope c.top).children ++ [other.top] }
      else if z = other.top then
        { g.scope other.top with name := some m, parent := some c.top }
      else g.scope z :=
  ScopeGraph.scope_mount h.rooted.top_lt h.rooted'.top_lt (Nat.ne_of_lt h.lt) m z

theorem agrees_mount (h : c.Beside other g) (m : String) :
    Agrees (other.top ≤ ·) g (c.mount g other m) := by
  have hchild : ∀ x, other.top ≤ x → ∀ y ∈ (g.scope x).children,
      other.top < y ∧ (c.mount g other m).scope y = g.scope y := by
    intro x hx y hy
    have hlt : other.top < y := Nat.lt_of_le_of_lt hx (h.ordered.child hy).1
    rw [h.scope_mount, if_neg (Nat.ne_of_gt (Nat.lt_trans h.lt hlt)), if_neg (Nat.ne_of_gt hlt)]
    exact ⟨hlt, rfl⟩
  refine ⟨fun x hx => ?_, fun x hx y hy => Nat.le_of_lt (hchild x hx y hy).1,
    fun x hx y hy => by rw [(hchild x hx y hy).2],
    fun x hx y hy _ _ _ => by rw [(hchild x hx y hy).2]⟩
  rw [h.scope_mount, if_neg (Nat.ne_of_gt (Nat.lt_of_lt_of_le h.lt hx))]
  split
  · rename_i hxo
    rw [hxo]
  · rfl

/-- Among the children of the global scope, the new one is the only one with its name. -/
theorem filter_children_mount (h : c.Beside other g)
    (hfresh : ∀ x ∈ (g.scope c.top).children, (g.scope x).name ≠ some m) :
    ((c.mount g other m).scope c.top).children.filter ((c.mount g other m).isNamed m) =
      [other.top] := by
  have hold : (g.scope c.top).children.filter ((c.mount g other m).isNamed m) = [] := by
    refine List.filter_eq_nil_iff.mpr fun x hx hxm => ?_
    have hne : x ≠ c.top := Nat.ne_of_gt (h.ordered.child hx).1
    have hne' : x ≠ other.top := fun heq => h.tidy.parented hx (heq ▸ h.rooted'.parent)
    rw [isNamed_iff, h.scope_mount, if_neg hne, if_neg hne'] at hxm
    exact hfresh x hx hxm
  have hnew : (c.mount g other m).isNamed m other.top = true := by
    rw [isNamed_iff, h.scope_mount, if_neg (Nat.ne_of_gt h.lt), if_pos rfl]
  rw [h.scope_mount, if_pos rfl]
  dsimp only
  rw [List.filter_append, hold, List.nil_append, List.filter_cons_of_pos hnew, List.filter_nil]

/-- **A file under its name.** If no other namespace in the global scope has the name of the file,
then behind that name every name means what it means in the file. -/
theorem resolve_mount (h : c.Beside other g) (hm : ':' ∉ m.toList)
    (hc' : c.Rooted (c.mount g other m))
    (hfresh : ∀ x ∈ (g.scope c.top).children, (g.scope x).name ≠ some m)
    (hshelf : IsShelf shelf) (q : String) :
    c.resolve (c.mount g other m) shelf (m ++ "::" ++ q) = other.resolve g shelf q := by
  have hg' := h.ordered.mount h.lt h.rooted'.top_lt m
  have ht' := h.tidy.mount h.lt h.rooted'.top_lt h.rooted.parent h.rooted'.parent m
  have hnamed := h.filter_children_mount hfresh
  have hqualify := nameParts_qualify hm q
  cases hparts : (nameParts q).1 with
  | nil =>
    have hq := nameParts_fst_eq_nil_iff.mp hparts
    rw [hparts, nameParts_snd_of_isPlain hq, ← List.nil_append [m]] at hqualify
    rw [resolve_eq_lead hg' hc' hqualify, lead, Option.bind_some, ht'.declaredBelow_eq hg', hnamed,
      List.findSome?_singleton, h.resolve_of_isPlain hq, lookup, lookup, h.scope_mount,
      if_neg (Nat.ne_of_gt h.lt), if_pos rfl, hshelf.ignores]
  | cons first more =>
    obtain ⟨ps, p, hq⟩ := nameParts_eq_concat hparts
    rw [hq, ← List.cons_append] at hqualify
    rw [resolve_eq_lead hg' hc' hqualify, ht'.lead_cons hg', ← List.head?_filter, hnamed,
      List.head?_cons, Option.bind_some, resolve_eq_lead h.ordered h.rooted' hq]
    exact (h.agrees_mount m).search_eq h.ordered hg' h.tidy ht' hshelf (Nat.le_refl _) ps p _

/-! ### A file taken over -/

/-- Behind the global scope of the importing file, the scopes are as they were. -/
theorem agrees_takeAll (h : c.Beside other g) : Agrees (c.top < ·) g (c.takeAll g other) := by
  have hchild : ∀ x, c.top < x → ∀ y ∈ (g.scope x).children, c.top < y := fun x hx y hy =>
    Nat.lt_trans hx (h.ordered.child hy).1
  refine ⟨fun x hx => ?_, hchild, fun x hx y hy => ?_, fun x hx y hy _ _ _ => ?_⟩
  · rw [scope_takeAll_of_ne (Nat.ne_of_gt hx)]
  · rw [scope_takeAll_of_ne (Nat.ne_of_gt (hchild x hx y hy))]
  · rw [scope_takeAll_of_ne (Nat.ne_of_gt (hchild x hx y hy))]

theorem resolve_takeAll_of_isPlain (h : c.Beside other g) (hshelf : IsShelf shelf)
    (hq : IsPlain q) : c.resolve (c.takeAll g other) shelf q =
      (other.resolve g shelf q).or (c.resolve g shelf q) := by
  have htop := scope_takeAll g other h.rooted.top_lt
  have hdistinct : (g.scope other.top).Distinct := h.tidy.distinct fun hb => hb.2 h.rooted'.parent
  have hlookup : (c.takeAll g other).lookup shelf q c.top =
      (g.lookup shelf q other.top).or (g.lookup shelf q c.top) := by
    rw [lookup, htop, hshelf.takeAll, Table.find?_merge (hdistinct α shelf hshelf)]
    rfl
  have hc' : c.Rooted (c.takeAll g other) := h.rooted.modify (fun _ => rfl) fun _ => rfl
  rw [resolve_eq_or (h.ordered.takeAll h.lt) hc' shelf hq,
    resolve_eq_or h.ordered h.rooted shelf hq, h.resolve_of_isPlain hq, hlookup]
  cases hfound : g.lookup shelf q other.top with
  | some d => rfl
  | none =>
    rw [hfound, Option.none_or] at hlookup
    -- the same scopes are seen, and they declare the same
    have hsame : ∀ x, (c.takeAll g other).lookup shelf q x = g.lookup shelf q x := by
      intro x
      by_cases hx : x = c.top
      · rw [hx, hlookup]
      · rw [lookup, scope_takeAll_of_ne hx]
        rfl
    have hopen : ∀ x, (c.takeAll g other).isOpen x = g.isOpen x := by
      intro x
      by_cases hx : x = c.top
      · rw [isOpen, hx, htop]
        rfl
      · rw [isOpen, scope_takeAll_of_ne hx]
        rfl
    rw [Option.none_or, Option.none_or, innermost, innermost, outward, outward,
      takeWhile_isOpen_eq fun y _ => hopen y, funext hsame]

/-- No namespace of the one file has the same name as one of the other. -/
def NamesApart (c other : Cursor) (g : ScopeGraph) : Prop :=
  ∀ x ∈ (g.scope c.top).children, ∀ y ∈ (g.scope other.top).children,
    ∀ p, (g.scope x).name = some p → (g.scope y).name ≠ some p

theorem NamesApart.filter_eq_nil (h : NamesApart c other g) (p : String) :
    (g.scope c.top).children.filter (g.isNamed p) = [] ∨
      (g.scope other.top).children.filter (g.isNamed p) = [] := by
  by_contra hboth
  rw [not_or] at hboth
  obtain ⟨x, hx⟩ := List.exists_mem_of_ne_nil _ hboth.1
  obtain ⟨y, hy⟩ := List.exists_mem_of_ne_nil _ hboth.2
  rw [List.mem_filter, isNamed_iff] at hx hy
  exact h x hx.1 y hy.1 p hx.2 hy.2

theorem filter_children_takeAll (h : c.Beside other g) (p : String) :
    ((c.takeAll g other).scope c.top).children.filter ((c.takeAll g other).isNamed p) =
      (g.scope c.top).children.filter (g.isNamed p) ++
        (g.scope other.top).children.filter (g.isNamed p) := by
  rw [scope_takeAll g other h.rooted.top_lt, ← List.filter_append]
  refine List.filter_congr fun x hx => ?_
  rw [isNamed, isNamed, scope_takeAll_of_ne (Nat.ne_of_gt (h.lt_child hx))]

theorem declaredBelow_takeAll (h : c.Beside other g) (hapart : NamesApart c other g)
    (p leaf : String) : (c.takeAll g other).declaredBelow shelf p leaf c.top =
      (g.declaredBelow shelf p leaf other.top).or (g.declaredBelow shelf p leaf c.top) := by
  have ht' : (c.takeAll g other).Tidy := h.tidy.takeAll h.rooted.top_lt h.rooted.parent
  rw [ht'.declaredBelow_eq (h.ordered.takeAll h.lt), h.tidy.declaredBelow_eq h.ordered,
    h.tidy.declaredBelow_eq h.ordered, h.filter_children_takeAll, ← List.filter_append]
  have hsame : ∀ x ∈ ((g.scope c.top).children ++ (g.scope other.top).children).filter
      (g.isNamed p), (c.takeAll g other).lookup shelf leaf x = g.lookup shelf leaf x := by
    intro x hx
    rw [lookup, scope_takeAll_of_ne (Nat.ne_of_gt (h.lt_child (List.mem_of_mem_filter hx)))]
    rfl
  rw [← List.head?_filterMap, List.filterMap_congr hsame, List.head?_filterMap, List.filter_append,
    List.findSome?_append]
  rcases hapart.filter_eq_nil p with hnil | hnil <;> rw [hnil] <;> simp

theorem lead_takeAll (h : c.Beside other g) (s : String) (ps : List String) :
    (c.takeAll g other).lead c.top (s :: ps) =
      (((g.scope c.top).children.find? (g.isNamed s)).or
        ((g.scope other.top).children.find? (g.isNamed s))).bind
          fun x => (c.takeAll g other).lead x ps := by
  have ht' : (c.takeAll g other).Tidy := h.tidy.takeAll h.rooted.top_lt h.rooted.parent
  rw [ht'.lead_cons (h.ordered.takeAll h.lt), ← List.head?_filter, h.filter_children_takeAll,
    List.head?_append, List.head?_filter, List.head?_filter]

/-- **A file taken over.** If no namespace in the global scope has the same name as one of the file,
then every name means what it means in the file, and if it means nothing there, what it meant
before. -/
theorem resolve_takeAll (h : c.Beside other g) (hapart : NamesApart c other g)
    (hshelf : IsShelf shelf) (q : String) : c.resolve (c.takeAll g other) shelf q =
      (other.resolve g shelf q).or (c.resolve g shelf q) := by
  have hg := h.ordered
  have hg' := hg.takeAll h.lt
  have ht' : (c.takeAll g other).Tidy := h.tidy.takeAll h.rooted.top_lt h.rooted.parent
  have hc' : c.Rooted (c.takeAll g other) := h.rooted.modify (fun _ => rfl) fun _ => rfl
  cases hparts : (nameParts q).1 with
  | nil => exact h.resolve_takeAll_of_isPlain hshelf (nameParts_fst_eq_nil_iff.mp hparts)
  | cons first more =>
    obtain ⟨ps, p, hq⟩ := nameParts_eq_concat hparts
    rw [resolve_eq_lead hg' hc' hq, resolve_eq_lead hg h.rooted hq,
      resolve_eq_lead hg h.rooted' hq]
    cases ps with
    | nil => exact h.declaredBelow_takeAll hapart p _
    | cons s ps =>
      have hgoon : ∀ x, c.top < x → ((c.takeAll g other).lead x ps).bind
          ((c.takeAll g other).declaredBelow shelf p (nameParts q).2) =
          (g.lead x ps).bind (g.declaredBelow shelf p (nameParts q).2) := fun x hx =>
        h.agrees_takeAll.search_eq hg hg' h.tidy ht' hshelf hx ps p _
      rw [h.lead_takeAll, h.tidy.lead_cons hg, h.tidy.lead_cons hg, Option.bind_assoc,
        Option.bind_assoc, Option.bind_assoc, ← List.head?_filter, ← List.head?_filter]
      -- the qualifier is the name of namespaces of one file at most
      rcases hapart.filter_eq_nil s with hnil | hnil
      · rw [hnil, List.head?_nil, Option.none_or, Option.bind_none, Option.or_none,
          List.head?_filter]
        cases hfind : (g.scope other.top).children.find? (g.isNamed s) with
        | none => rfl
        | some x => exact hgoon x (h.lt_child (List.mem_append_right _
            (List.mem_of_find?_eq_some hfind)))
      · rw [hnil, List.head?_nil, Option.or_none, Option.bind_none, Option.none_or,
          List.head?_filter]
        cases hfind : (g.scope c.top).children.find? (g.isNamed s) with
        | none => rfl
        | some x => exact hgoon x (h.lt_child (List.mem_append_left _
            (List.mem_of_find?_eq_some hfind)))

end Cursor.Beside

end EvScript
