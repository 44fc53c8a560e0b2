import Mathlib.Data.List.Basic
import EvScript.Proofs.Scope.Search

/-!
# What a Block Leaves Behind

A block is a scope of its own, which stays in the graph when the block ends, as a child of the scope
around it. Around it nothing changes but that there is one child more; it has no name, and a search
for a qualified name finds no namespace in it. So every name means the same before and after a
block.
-/

namespace EvScript

variable {c : Cursor} {top y : ScopeId}

namespace ScopeGraph

variable {g g' g'' : ScopeGraph} {x : ScopeId}

/-! ### Statements and blocks -/

/-- From `g` to `g'` the scope `x` gets variables and children. The children are new, all new scopes
are without a name and somewhere below `x`, and the other scopes are as they were. -/
structure Grows (x : ScopeId) (g g' : ScopeGraph) : Prop where
  size_le : g.size ≤ g'.size
  same : ∀ y < g.size, y ≠ x → g'.scope y = g.scope y
  here : ∃ vars children, (∀ y ∈ children, g.size ≤ y) ∧ g'.scope x =
    { g.scope x with vars := vars, children := (g.scope x).children ++ children }
  name : ∀ y, g.size ≤ y → (g'.scope y).name = none
  parent : ∀ y, g.size ≤ y → y < g'.size →
    ∃ p, (g'.scope y).parent = some p ∧ (p = x ∨ g.size ≤ p)

/-- From `g` to `g'` the scope `x` gets one child. That is a new scope without a name, all other
new scopes are without a name and below it, and the other scopes are as they were. -/
structure GainsBlock (x : ScopeId) (g g' : ScopeGraph) : Prop where
  size_lt : g.size < g'.size
  same : ∀ y < g.size, y ≠ x → g'.scope y = g.scope y
  here : g'.scope x = { g.scope x with children := (g.scope x).children ++ [g.size] }
  name : ∀ y, g.size ≤ y → (g'.scope y).name = none
  child : (g'.scope g.size).parent = some x
  parent : ∀ y, g.size < y → y < g'.size → ∃ p, (g'.scope y).parent = some p ∧ g.size ≤ p

theorem Grows.refl (x : ScopeId) (g : ScopeGraph) : Grows x g g where
  size_le := Nat.le_refl _
  same _ _ _ := rfl
  here := ⟨(g.scope x).vars, [], List.forall_mem_nil _, by rw [List.append_nil]⟩
  name y hy := by rw [scope_of_size_le hy]
  parent _ hy hlt := absurd hlt (Nat.not_lt_of_le hy)

theorem Grows.trans (hx : x < g.size) (h : Grows x g g') (h' : Grows x g' g'') : Grows x g g'' := by
  -- the scopes that are new in `g'` are not touched any more
  have hnew : ∀ y, g.size ≤ y → y < g'.size → g''.scope y = g'.scope y := fun y hy hlt =>
    h'.same y hlt (Nat.ne_of_gt (Nat.lt_of_lt_of_le hx hy))
  refine ⟨Nat.le_trans h.size_le h'.size_le, fun y hy hne => ?_, ?_, fun y hy => ?_,
    fun y hy hlt => ?_⟩
  · rw [h'.same y (Nat.lt_of_lt_of_le hy h.size_le) hne, h.same y hy hne]
  · obtain ⟨vars, children, hchildren, hhere⟩ := h.here
    obtain ⟨vars', children', hchildren', hhere'⟩ := h'.here
    refine ⟨vars', children ++ children', fun y hy => ?_, ?_⟩
    · rcases List.mem_append.mp hy with hy | hy
      · exact hchildren y hy
      · exact Nat.le_trans h.size_le (hchildren' y hy)
    · rw [hhere', hhere, List.append_assoc]
  · rcases Nat.lt_or_ge y g'.size with hlt | hge
    · rw [hnew y hy hlt, h.name y hy]
    · exact h'.name y hge
  · rcases Nat.lt_or_ge y g'.size with hlt' | hge
    · rw [hnew y hy hlt']
      exact h.parent y hy hlt'
    · obtain ⟨p, hp, hle⟩ := h'.parent y hge hlt
      exact ⟨p, hp, hle.imp_right (Nat.le_trans h.size_le)⟩

theorem Grows.addVariable (hc : c.here < g.size) (v : Variable) :
    Grows c.here g (c.addVariable g v) := by
  unfold Cursor.addVariable
  refine ⟨Nat.le_of_eq size_modify.symm, fun y _ hne => scope_modify_of_ne hne, ?_, fun y hy => ?_,
    fun y hy hlt => ?_⟩
  · refine ⟨(g.scope c.here).vars.insert v.name v, [], List.forall_mem_nil _, ?_⟩
    rw [scope_modify_self hc, List.append_nil]
  · rw [scope_modify_of_ne (Nat.ne_of_gt (Nat.lt_of_lt_of_le hc hy)), scope_of_size_le hy]
  · rw [size_modify] at hlt
    exact absurd hlt (Nat.not_lt_of_le hy)

/-- **A block around statements**: they go into a new scope, which is a child of the current one. -/
theorem Grows.gainsBlock {s : Scope} (hc : c.here < g.size) (hs : s.name = none)
    (h : Grows g.size (c.enterNew g s).2 g') : GainsBlock c.here g g' := by
  have hne : c.here ≠ g.size := Nat.ne_of_lt hc
  have hlt : ∀ y < g.size, y < (c.enterNew g s).2.size := fun y hy => by
    rw [size_enterNew]
    exact Nat.lt_succ_of_lt hy
  have hself : (c.enterNew g s).2.scope g.size = { s with parent := some c.here } := by
    rw [scope_enterNew hc, if_pos rfl]
  obtain ⟨vars, children, -, hblock⟩ := h.here
  rw [hself] at hblock
  refine ⟨?_, fun y hy hyne => ?_, ?_, fun y hy => ?_, ?_, fun y hy hylt => ?_⟩
  · have hle := h.size_le
    rw [size_enterNew] at hle
    exact hle
  · rw [h.same y (hlt y hy) (Nat.ne_of_lt hy), scope_enterNew hc, if_neg (Nat.ne_of_lt hy),
      if_neg hyne]
  · rw [h.same _ (hlt _ hc) hne, scope_enterNew hc, if_neg hne, if_pos rfl]
  · rcases Nat.eq_or_lt_of_le hy with rfl | hy
    · rw [hblock]
      exact hs
    · exact h.name y (by rw [size_enterNew]; exact hy)
  · rw [hblock]
  · obtain ⟨p, hp, hle⟩ := h.parent y (by rw [size_enterNew]; exact hy) hylt
    rw [size_enterNew] at hle
    exact ⟨p, hp, hle.elim (fun hp => Nat.le_of_eq hp.symm) Nat.le_of_succ_le⟩

/-- A block among statements. -/
theorem GainsBlock.grows (h : GainsBlock x g g') : Grows x g g' where
  size_le := Nat.le_of_lt h.size_lt
  same := h.same
  here := ⟨(g.scope x).vars, [g.size], fun _ hy => Nat.le_of_eq (List.mem_singleton.mp hy).symm,
    h.here⟩
  name := h.name
  parent y hy hlt := by
    rcases Nat.eq_or_lt_of_le hy with rfl | hy
    · exact ⟨x, h.child, .inl rfl⟩
    · obtain ⟨p, hp, hle⟩ := h.parent y hy hlt
      exact ⟨p, hp, .inr hle⟩

/-! ### Names -/

/-- The shelf does not look at the children of a scope. -/
def IgnoresChildren {α : Type} (shelf : Shelf α) : Prop :=
  ∀ (s : Scope) (children : List ScopeId), shelf { s with children := children } = shelf s

/-- Those of the scopes that are in the graph. -/
def oldOnes (g : ScopeGraph) (ids : List ScopeId) : List ScopeId := ids.filter (· < g.size)

theorem oldOnes_append (ids ids' : List ScopeId) :
    g.oldOnes (ids ++ ids') = g.oldOnes ids ++ g.oldOnes ids' :=
  List.filter_append ..

variable {α : Type} {shelf : Shelf α}

theorem GainsBlock.exists_scope_eq (h : GainsBlock x g g') (hy : y < g.size) :
    ∃ children, (∀ z ∈ children, g.size ≤ z) ∧
      g'.scope y = { g.scope y with children := (g.scope y).children ++ children } := by
  by_cases hyx : y = x
  · subst hyx
    exact ⟨[g.size], fun z hz => Nat.le_of_eq (List.mem_singleton.mp hz).symm, h.here⟩
  · refine ⟨[], List.forall_mem_nil _, ?_⟩
    rw [h.same y hy hyx, List.append_nil]

theorem GainsBlock.lookup_eq (h : GainsBlock x g g') (hshelf : IgnoresChildren shelf)
    (name : String) (hy : y < g.size) :
    g'.lookup shelf name y = g.lookup shelf name y := by
  obtain ⟨children, -, hscope⟩ := h.exists_scope_eq hy
  rw [lookup, hscope, hshelf]
  rfl

theorem GainsBlock.name_eq (h : GainsBlock x g g') (hy : y < g.size) :
    (g'.scope y).name = (g.scope y).name := by
  obtain ⟨children, -, hscope⟩ := h.exists_scope_eq hy
  rw [hscope]

theorem GainsBlock.parent_eq (h : GainsBlock x g g') (hy : y < g.size) :
    (g'.scope y).parent = (g.scope y).parent := by
  obtain ⟨children, -, hscope⟩ := h.exists_scope_eq hy
  rw [hscope]

/-- Of the children of a scope that was there, the old ones are those it had. -/
theorem GainsBlock.oldOnes_children (h : GainsBlock x g g') (hg : g.Ordered)
    (hy : y < g.size) : g.oldOnes (g'.scope y).children = (g.scope y).children := by
  obtain ⟨children, hchildren, hscope⟩ := h.exists_scope_eq hy
  have hold : g.oldOnes (g.scope y).children = (g.scope y).children :=
    List.filter_eq_self.mpr fun z hz => decide_eq_true (hg.child hz).2
  have hnew : g.oldOnes children = [] :=
    List.filter_eq_nil_iff.mpr fun z hz => by simpa using hchildren z hz
  rw [hscope]
  show g.oldOnes ((g.scope y).children ++ children) = _
  rw [oldOnes_append, hold, hnew, List.append_nil]

/-- In a new scope there are new scopes only. -/
theorem oldOnes_children_of_le (hg' : g'.Ordered) {y : Nat} (hy : g.size ≤ y) :
    g.oldOnes (g'.scope y).children = [] := by
  refine List.filter_eq_nil_iff.mpr fun z hz => ?_
  have hle : g.size ≤ z := Nat.le_of_lt (Nat.lt_of_le_of_lt hy (hg'.child hz).1)
  simpa using hle

/-- What searching a level comes to, without the new scopes. -/
def Level.old (g : ScopeGraph) : Level α → Level α
  | .found a => .found a
  | .down first more next => .down first more (g.oldOnes next)

/-- **New scopes make no difference to a level**: they have no names, and in them there are new
scopes only. -/
theorem GainsBlock.searchLevel_eq (h : GainsBlock x g g') (hg : g.Ordered) (hg' : g'.Ordered)
    (hshelf : IgnoresChildren shelf) (first : String) (more : List String) (leaf : String)
    (level below : List ScopeId) :
    g.searchLevel shelf first more leaf (g.oldOnes below) (g.oldOnes level) =
      (g'.searchLevel shelf first more leaf below level).old g := by
  induction level generalizing below with
  | nil => rfl
  | cons y level ih =>
    by_cases hy : y < g.size
    · have hlevel : g.oldOnes (y :: level) = y :: g.oldOnes level :=
        List.filter_cons_of_pos (decide_eq_true hy)
      have hchildren := h.oldOnes_children hg hy
      rw [hlevel, searchLevel.eq_def, searchLevel.eq_def g']
      dsimp only
      rw [h.name_eq hy]
      cases hname : (g.scope y).name with
      | none =>
        dsimp only
        rw [← ih, oldOnes_append, hchildren]
      | some n =>
        dsimp only
        split
        · cases more with
          | nil =>
            have hfind := h.lookup_eq hshelf leaf hy
            unfold lookup at hfind
            dsimp only
            rw [hfind]
            cases (shelf (g.scope y)).find? leaf with
            | some a => rfl
            | none => exact ih below
          | cons second more =>
            show _ = Level.down second more (g.oldOnes _)
            rw [hchildren]
        · exact ih below
    · have hle : g.size ≤ y := Nat.le_of_not_lt hy
      have hlevel : g.oldOnes (y :: level) = g.oldOnes level :=
        List.filter_cons_of_neg (by simpa using hle)
      rw [hlevel, searchLevel.eq_def g']
      dsimp only
      rw [h.name y hle]
      dsimp only
      rw [← ih, oldOnes_append, oldOnes_children_of_le hg' hle, List.append_nil]

theorem descend_nil (leaf : String) (n : Nat) (first : String) (more : List String) :
    g.descend shelf leaf n first more [] = none := by
  cases n <;> rfl

theorem GainsBlock.descend_eq (h : GainsBlock x g g') (hg : g.Ordered) (hg' : g'.Ordered)
    (hshelf : IgnoresChildren shelf) (leaf : String) (n : Nat) (first : String)
    (more : List String) (level : List ScopeId) :
    g'.descend shelf leaf n first more level =
      g.descend shelf leaf n first more (g.oldOnes level) := by
  induction n generalizing first more level with
  | zero => rfl
  | succ n ih =>
    cases level with
    | nil => rfl
    | cons y level =>
      have hlevel := h.searchLevel_eq hg hg' hshelf first more leaf (y :: level) []
      rw [descend]
      · cases hold : g.oldOnes (y :: level) with
        | nil =>
          -- only new scopes: the search goes on with nothing in the old graph
          rw [hold] at hlevel
          rw [descend_nil]
          cases hs : g'.searchLevel shelf first more leaf [] (y :: level) with
          | found a =>
            rw [hs] at hlevel
            cases hlevel
          | down first' more' next =>
            rw [hs] at hlevel
            have hnext : g.oldOnes next = [] := by
              cases hn : g.oldOnes next with
              | nil => rfl
              | cons =>
                rw [Level.old, hn] at hlevel
                cases hlevel
            dsimp only
            rw [ih, hnext, descend_nil]
        | cons z zs =>
          rw [hold] at hlevel
          rw [descend]
          · rw [show g.searchLevel shelf first more leaf [] (z :: zs) = _ from hlevel]
            cases hs : g'.searchLevel shelf first more leaf [] (y :: level) with
            | found a => rfl
            | down first' more' next => exact ih first' more' next
          · simp
      · simp

theorem descend_eq_of_le (hg : g.Ordered) (htop : top < g.size) {n : Nat}
    (hn : g.size ≤ n) (leaf first : String) (more : List String) :
    g.descend shelf leaf n first more [top] =
      g.descend shelf leaf (g.size + 1) first more [top] := by
  have hlevel : ∀ y ∈ [top], 0 ≤ y ∧ y < g.size := fun y hy => by
    rw [List.mem_singleton.mp hy]
    exact ⟨Nat.zero_le _, htop⟩
  have hends : ∀ m, g.size ≤ m → Descends g shelf leaf first more [top]
      (g.descend shelf leaf m first more [top]) := fun m hm =>
    descends_descend hg m 0 first more [top] hlevel (by rwa [Nat.zero_add])
  exact (hends n hn).unique (hends _ (Nat.le_succ _))

theorem Trail.lt_size {ys : List ScopeId} (hg : g.Ordered)
    (h : g.Trail top y ys) : ∀ z ∈ ys, z < g.size := by
  induction ys generalizing y with
  | nil => exact fun z hz => absurd hz List.not_mem_nil
  | cons w ys ih =>
    obtain ⟨hparent, htrail⟩ := h
    refine List.forall_mem_cons.mpr ⟨?_, ih htrail⟩
    exact Nat.lt_trans (hg.parent hparent) (lt_size_of_parent hparent)

theorem GainsBlock.rooted (h : GainsBlock x g g') (hc : c.Rooted g) : c.Rooted g' :=
  hc.of_parents (Nat.le_of_lt h.size_lt) (fun _ hz => h.parent_eq hz) (h.name_eq hc.top_lt)

theorem takeWhile_isOpen_eq {ys : List ScopeId} (h : ∀ y ∈ ys, g'.isOpen y = g.isOpen y) :
    ys.takeWhile g'.isOpen = ys.takeWhile g.isOpen := by
  induction ys with
  | nil => rfl
  | cons y ys ih =>
    rw [List.forall_mem_cons] at h
    rw [List.takeWhile_cons, List.takeWhile_cons, h.1, ih h.2]

theorem GainsBlock.outward_eq (h : GainsBlock x g g') (hg : g.Ordered)
    (hc : c.Rooted g) : c.outward g' = c.outward g := by
  have hopen : ∀ y ∈ c.enclosing, g'.isOpen y = g.isOpen y := fun y hy => by
    rw [isOpen, h.name_eq (hc.trail.lt_size hg y hy)]
    rfl
  rw [Cursor.outward, takeWhile_isOpen_eq hopen]
  rfl

/-- **Names mean the same before and after a block.** -/
theorem GainsBlock.resolve_eq (h : GainsBlock x g g') (hg : g.Ordered) (hg' : g'.Ordered)
    (hc : c.Rooted g) (hshelf : IgnoresChildren shelf) (name : String) :
    c.resolve g' shelf name = c.resolve g shelf name := by
  cases hparts : (nameParts name).1 with
  | nil =>
    have hplain := nameParts_fst_eq_nil_iff.mp hparts
    have hseen : ∀ y ∈ c.outward g, g'.lookup shelf name y = g.lookup shelf name y := by
      intro y hy
      refine h.lookup_eq hshelf name ?_
      rcases List.mem_append.mp hy with hy | hy
      · rcases List.mem_cons.mp hy with rfl | hy
        · exact hc.here_lt
        · exact hc.trail.lt_size hg y ((List.takeWhile_sublist _).subset hy)
      · rw [List.mem_singleton.mp hy]
        exact hc.top_lt
    rw [Cursor.resolve_eq_or hg' (h.rooted hc) shelf hplain,
      Cursor.resolve_eq_or hg hc shelf hplain, Cursor.innermost, h.outward_eq hg hc,
      h.lookup_eq hshelf name hc.top_lt, ← List.head?_filterMap, List.filterMap_congr hseen,
      List.head?_filterMap]
    rfl
  | cons first more =>
    have hname : nameParts name = (first :: more, (nameParts name).2) := Prod.ext hparts rfl
    have htop : g.oldOnes [c.top] = [c.top] :=
      List.filter_cons_of_pos (decide_eq_true hc.top_lt)
    rw [Cursor.resolve_of_nameParts hname, Cursor.resolve_of_nameParts hname,
      h.descend_eq hg hg' hshelf, htop]
    exact descend_eq_of_le hg hc.top_lt (Nat.le_succ_of_le (Nat.le_of_lt h.size_lt)) _ _ _

end ScopeGraph

end EvScript
