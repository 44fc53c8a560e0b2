import EvScript.Proofs.Scope.Paths
import EvScript.Proofs.Syntax.Bare

/-!
# Graphs with a Gap

Two runs that do the same, one of them among scopes of others, make the same scopes under other
numbers, moved past a **gap**. A graph is **shifted** into another if each of its scopes is there in
its place, with the same declarations up to numbers and places, and with the same scopes in it. The
global scope of the first file may have more scopes in it, from the gap, if all of these have one
certain name.

A name that does not begin with that one means the same in both graphs. For a qualified name, the
scopes below a scope are those of the first graph in the same order, with some of the wrong name in
between, and since these have a name at all, the search does not go on in them.
-/

namespace EvScript

/-! ### Gaps -/

/-- A gap in a row of numbers: `size` numbers from `start` on. -/
structure Gap where
  start : Nat
  size : Nat

namespace Gap

variable {a : Gap} {m n : Nat}

/-- The number past the gap. -/
def shift (a : Gap) (n : Nat) : Nat := if n < a.start then n else n + a.size

/-- Whether a number is outside the gap. -/
def spares (a : Gap) (n : Nat) : Bool := n < a.start || a.start + a.size ≤ n

/-- No gap at all. -/
def empty : Gap := ⟨0, 0⟩

@[simp] theorem shift_empty : empty.shift n = n := by simp [shift, empty]

@[simp] theorem spares_empty : empty.spares n = true := by simp [spares, empty]

theorem shift_of_le (h : a.start ≤ n) : a.shift n = n + a.size := if_neg (Nat.not_lt_of_le h)

theorem shift_of_lt (h : n < a.start) : a.shift n = n := if_pos h

theorem shift_lt_iff : a.shift m < a.shift n ↔ m < n := by
  unfold shift
  split <;> split <;> omega

theorem shift_inj : a.shift m = a.shift n ↔ m = n := by
  unfold shift
  split <;> split <;> omega

@[simp] theorem spares_shift : a.spares (a.shift n) = true := by
  unfold spares shift
  split <;> simp <;> omega

theorem spares_eq_false_iff : a.spares n = false ↔ a.start ≤ n ∧ n < a.start + a.size := by
  simp [spares]

theorem ne_shift_of_spares (h : a.spares m = false) (n : Nat) : m ≠ a.shift n := by
  rintro rfl
  rw [spares_shift] at h
  cases h

end Gap

/-- How one run lies in another: the scopes and the commands of others, the name that those of the
scopes have which are in the first run's global scope, whether the runs say the same, and the
parameters of the commands of others. -/
structure Shift where
  scopes : Gap
  serials : Gap
  hidden : Option String
  heard : Bool
  guests : Nat → Option (List Param)

/-- A run lies in itself, without a gap. -/
def Shift.same : Shift := ⟨.empty, .empty, none, true, fun _ => none⟩

/-! ### Declarations without places -/

/-- A type of a result without its place. -/
def ResultType.bare (r : ResultType) : ResultType := { r with line := Pos.start.line }

/-- A variable without its place. -/
def Variable.bare (v : Variable) : Variable := { v with pos := .start }

/-- A function without places. -/
def Function.bare (f : Function) : Function :=
  { f with result := f.result.map ResultType.bare, pos := .start }

/-- An animation without its place. -/
def Animation.bare (a : Animation) : Animation := { a with pos := .start }

/-- A command without places, its serial number past a gap. -/
def Command.past (a : Gap) (c : Command) : Command :=
  { c with result := c.result.map ResultType.bare, serial := a.shift c.serial, pos := .start }

namespace Table

variable {κ α β : Type} [DecidableEq κ]

/-- A table with its values changed. -/
def map (f : α → β) (t : Table κ α) : Table κ β := ⟨t.entries.map fun e => (e.1, f e.2)⟩

theorem find?_map (f : α → β) (t : Table κ α) (key : κ) :
    (t.map f).find? key = (t.find? key).map f := by
  simp only [find?, map, List.find?_map, Option.map_map]
  rfl

theorem map_insert (f : α → β) (t : Table κ α) (key : κ) (value : α) :
    (t.insert key value).map f = (t.map f).insert key (f value) := by
  obtain ⟨es⟩ := t
  simp only [insert, map]
  congr 1
  induction es with
  | nil => rfl
  | cons e es ih =>
    simp only [insertIn, List.map_cons]
    split
    · rfl
    · rw [List.map_cons, ih]

theorem map_merge (f : α → β) (t other : Table κ α) :
    (t.merge other).map f = (t.map f).merge (other.map f) := by
  obtain ⟨es⟩ := other
  simp only [merge, map]
  induction es generalizing t with
  | nil => rfl
  | cons e es ih =>
    rw [List.foldl_cons, ih, List.map_cons, List.foldl_cons]
    exact congrArg (List.foldl _ · _) (map_insert f t e.1 e.2)

end Table

/-! ### Scopes -/

/-- The scopes have the same name, the same declarations and the same parent, up to numbers and
places. -/
structure Scope.Shifted (π : Shift) (s s' : Scope) : Prop where
  name : s'.name = s.name
  animations : s'.animations.map Animation.bare = s.animations.map Animation.bare
  commands : s'.commands.map (Command.past .empty) = s.commands.map (Command.past π.serials)
  functions : s'.functions.map Function.bare = s.functions.map Function.bare
  vars : s'.vars.map Variable.bare = s.vars.map Variable.bare
  parent : s'.parent = s.parent.map π.scopes.shift

/-- Scopes without anything in them. -/
theorem Scope.shifted_fresh (π : Shift) (name : Option String) :
    Scope.Shifted π { name := name } { name := name } :=
  ⟨rfl, rfl, rfl, rfl, rfl, rfl⟩

namespace ScopeGraph

/-- The first graph lies in the second one, past the gap. -/
structure Shifted (π : Shift) (g g' : ScopeGraph) : Prop where
  start_le : π.scopes.start ≤ g.size
  size : g'.size = g.size + π.scopes.size
  scope : ∀ x, (g.scope x).Shifted π (g'.scope (π.scopes.shift x))
  children : ∀ x, (g'.scope (π.scopes.shift x)).children.filter π.scopes.spares =
    (g.scope x).children.map π.scopes.shift
  guest : ∀ x, ∀ z ∈ (g'.scope (π.scopes.shift x)).children, π.scopes.spares z = false →
    x = 0 ∧ ∃ m ∈ π.hidden, (g'.scope z).name = some m

variable {π : Shift} {g g' : ScopeGraph} {x y : ScopeId} {s s' : Scope} {f f' : Scope → Scope}

theorem Shifted.shift_size (h : g.Shifted π g') : π.scopes.shift g.size = g'.size := by
  rw [Gap.shift_of_le h.start_le, h.size]

theorem Shifted.shift_lt_iff (h : g.Shifted π g') : π.scopes.shift x < g'.size ↔ x < g.size := by
  rw [← h.shift_size, Gap.shift_lt_iff]

theorem Shifted.shift_eq_size_iff (h : g.Shifted π g') :
    π.scopes.shift x = g'.size ↔ x = g.size := by
  rw [← h.shift_size, Gap.shift_inj]

/-- Only the global scope of the first file has scopes of others in it. -/
theorem Shifted.children_of_ne (h : g.Shifted π g') (hx : x ≠ 0) :
    (g'.scope (π.scopes.shift x)).children = (g.scope x).children.map π.scopes.shift := by
  rw [← h.children x, List.filter_eq_self.mpr]
  intro z hz
  by_contra hguest
  exact hx (h.guest x z hz (Bool.not_eq_true _ ▸ hguest)).1

/-! ### No gap -/

theorem map_shift_empty (ids : List ScopeId) : ids.map Gap.empty.shift = ids := by
  rw [funext fun n => Gap.shift_empty (n := n), List.map_id']

theorem filter_spares_empty (ids : List ScopeId) : ids.filter Gap.empty.spares = ids :=
  List.filter_eq_self.mpr fun _ _ => Gap.spares_empty

theorem optionMap_shift_empty (o : Option ScopeId) : o.map Gap.empty.shift = o := by
  rw [funext fun n => Gap.shift_empty (n := n), Option.map_id']

/-- Graphs with the same scopes but for places, and the same scopes in these. -/
theorem Shifted.of_same (hsize : g'.size = g.size)
    (hscope : ∀ x, (g.scope x).Shifted .same (g'.scope x))
    (hchildren : ∀ x, (g'.scope x).children = (g.scope x).children) : g.Shifted .same g' := by
  refine ⟨Nat.zero_le _, hsize, fun x => ?_, fun x => ?_, fun x z _ hz => ?_⟩
  · rw [show Shift.same.scopes.shift x = x from Gap.shift_empty]
    exact hscope x
  · rw [show Shift.same.scopes.shift x = x from Gap.shift_empty, hchildren]
    exact (filter_spares_empty _).trans (map_shift_empty _).symm
  · rw [show Shift.same.scopes.spares z = true from Gap.spares_empty] at hz
    cases hz

theorem Shifted.scope_same (h : g.Shifted .same g') (x : ScopeId) :
    (g.scope x).Shifted .same (g'.scope x) := by
  have hx := h.scope x
  rwa [show Shift.same.scopes.shift x = x from Gap.shift_empty] at hx

theorem Shifted.children_same (h : g.Shifted .same g') (x : ScopeId) :
    (g'.scope x).children = (g.scope x).children := by
  have hx := h.children x
  rw [show Shift.same.scopes.shift x = x from Gap.shift_empty] at hx
  exact (filter_spares_empty _).symm.trans (hx.trans (map_shift_empty _))

/-- A graph lies in itself. -/
theorem Shifted.refl (g : ScopeGraph) : g.Shifted .same g :=
  .of_same rfl (fun _ => ⟨rfl, rfl, rfl, rfl, rfl, (optionMap_shift_empty _).symm⟩) fun _ => rfl

theorem Shifted.trans_same {k : ScopeGraph} (h : g.Shifted π g') (h' : k.Shifted .same g') :
    g.Shifted π k := by
  refine ⟨h.start_le, ?_, fun x => ?_, fun x => ?_, fun x z hz hspare => ?_⟩
  · rw [← h.size]
    exact h'.size.symm
  · have hx := h.scope x
    have hsame := h'.scope_same (π.scopes.shift x)
    have hparent := hsame.parent.trans (optionMap_shift_empty _)
    exact ⟨hsame.name.symm.trans hx.name, hsame.animations.symm.trans hx.animations,
      hsame.commands.symm.trans hx.commands, hsame.functions.symm.trans hx.functions,
      hsame.vars.symm.trans hx.vars, hparent.symm.trans hx.parent⟩
  · rw [← h'.children_same]
    exact h.children x
  · rw [← h'.children_same] at hz
    obtain ⟨hx, m, hm, hname⟩ := h.guest x z hz hspare
    exact ⟨hx, m, hm, (h'.scope_same z).name.symm.trans hname⟩

/-! ### Changes -/

theorem Shifted.modify (h : g.Shifted π g')
    (hs : (f (g.scope x)).Shifted π (f' (g'.scope (π.scopes.shift x))))
    (hchildren : (f' (g'.scope (π.scopes.shift x))).children.filter π.scopes.spares =
      (f (g.scope x)).children.map π.scopes.shift)
    (hguest : ∀ z ∈ (f' (g'.scope (π.scopes.shift x))).children, π.scopes.spares z = false →
      z ∈ (g'.scope (π.scopes.shift x)).children) :
    (g.modify x f).Shifted π (g'.modify (π.scopes.shift x) f') := by
  -- both graphs change at the same scope, or neither does
  have hscope : ∀ y, (y = x ∧ x < g.size ∧ (g.modify x f).scope y = f (g.scope x) ∧
      (g'.modify (π.scopes.shift x) f').scope (π.scopes.shift y) =
        f' (g'.scope (π.scopes.shift x))) ∨
      ((g.modify x f).scope y = g.scope y ∧
        (g'.modify (π.scopes.shift x) f').scope (π.scopes.shift y) =
          g'.scope (π.scopes.shift y)) := by
    intro y
    simp only [scope_modify, h.shift_lt_iff, Gap.shift_inj]
    by_cases hy : y = x ∧ x < g.size
    · exact .inl ⟨hy.1, hy.2, if_pos hy, if_pos hy⟩
    · exact .inr ⟨if_neg hy, if_neg hy⟩
  have hname : ∀ z, π.scopes.spares z = false →
      (g'.modify (π.scopes.shift x) f').scope z = g'.scope z := fun z hz =>
    scope_modify_of_ne (Gap.ne_shift_of_spares hz x)
  refine ⟨?_, ?_, fun y => ?_, fun y => ?_, fun y z hz hspare => ?_⟩
  · rw [size_modify]
    exact h.start_le
  · rw [size_modify, size_modify]
    exact h.size
  · rcases hscope y with ⟨-, -, hy, hy'⟩ | ⟨hy, hy'⟩
    · rw [hy, hy']
      exact hs
    · rw [hy, hy']
      exact h.scope y
  · rcases hscope y with ⟨-, -, hy, hy'⟩ | ⟨hy, hy'⟩
    · rw [hy, hy']
      exact hchildren
    · rw [hy, hy']
      exact h.children y
  · rw [hname z hspare]
    rcases hscope y with ⟨rfl, -, -, hy'⟩ | ⟨-, hy'⟩
    · rw [hy'] at hz
      exact h.guest y z (hguest z hz hspare) hspare
    · rw [hy'] at hz
      exact h.guest y z hz hspare

/-- Changing what a scope declares on both sides. -/
theorem Shifted.modify_declared (h : g.Shifted π g')
    (hs : ∀ s s', s.Shifted π s' → (f s).Shifted π (f' s'))
    (hchildren : ∀ s, (f s).children = s.children)
    (hchildren' : ∀ s, (f' s).children = s.children) (x : ScopeId) :
    (g.modify x f).Shifted π (g'.modify (π.scopes.shift x) f') := by
  refine h.modify (hs _ _ (h.scope x)) ?_ fun z hz _ => ?_
  · rw [hchildren, hchildren']
    exact h.children x
  · rwa [hchildren'] at hz

/-- A new scope with nothing in it. -/
theorem Shifted.add (h : g.Shifted π g') (hs : s.Shifted π s') (hchildren : s.children = [])
    (hchildren' : s'.children = []) : (g.add s).2.Shifted π (g'.add s').2 := by
  have hname : ∀ z, π.scopes.spares z = false → (g'.add s').2.scope z = g'.scope z := by
    intro z hz
    rw [scope_add, if_neg]
    rw [← h.shift_size]
    exact Gap.ne_shift_of_spares hz _
  have hscope : ∀ y, (g'.add s').2.scope (π.scopes.shift y) =
      if y = g.size then s' else g'.scope (π.scopes.shift y) := by
    intro y
    simp only [scope_add, h.shift_eq_size_iff]
  refine ⟨?_, ?_, fun y => ?_, fun y => ?_, fun y z hz hspare => ?_⟩
  · rw [size_add]
    exact Nat.le_succ_of_le h.start_le
  · rw [size_add, size_add, h.size]
    omega
  · rw [scope_add, hscope]
    split
    · exact hs
    · exact h.scope y
  · rw [hscope, scope_add]
    split
    · rw [hchildren, hchildren']
      rfl
    · exact h.children y
  · rw [hname z hspare]
    rw [hscope] at hz
    split at hz
    · rw [hchildren'] at hz
      cases hz
    · exact h.guest y z hz hspare

theorem Shifted.adopt (h : g.Shifted π g') (x y : ScopeId) :
    (g.adopt x y).Shifted π (g'.adopt (π.scopes.shift x) (π.scopes.shift y)) := by
  have hparent : (g.modify y fun s => { s with parent := some x }).Shifted π
      (g'.modify (π.scopes.shift y) fun s => { s with parent := some (π.scopes.shift x) }) := by
    refine h.modify_declared (fun s s' hs => ?_) ?_ ?_ y
    · exact ⟨hs.name, hs.animations, hs.commands, hs.functions, hs.vars, rfl⟩
    · exact fun _ => rfl
    · exact fun _ => rfl
  refine hparent.modify ?_ ?_ ?_
  · have hs := hparent.scope x
    exact ⟨hs.name, hs.animations, hs.commands, hs.functions, hs.vars, hs.parent⟩
  · rw [List.filter_append, hparent.children x, List.map_append]
    simp
  · intro z hz hspare
    rcases List.mem_append.mp hz with hz | hz
    · exact hz
    · rw [List.mem_singleton.mp hz, Gap.spares_shift] at hspare
      cases hspare

end ScopeGraph

/-! ### Cursors -/

/-- The cursor in the graph past the gap. -/
def Cursor.past (a : Gap) (c : Cursor) : Cursor :=
  ⟨a.shift c.top, a.shift c.here, c.enclosing.map a.shift⟩

theorem Cursor.past_empty (c : Cursor) : c.past .empty = c := by
  obtain ⟨top, here, enclosing⟩ := c
  simp only [Cursor.past, Gap.shift_empty, ScopeGraph.map_shift_empty]

namespace ScopeGraph

variable {π : Shift} {g g' : ScopeGraph} {c other : Cursor} {s s' : Scope}

theorem Shifted.start (h : g.Shifted π g') : (Cursor.start g).2.Shifted π (Cursor.start g').2 :=
  h.add (Scope.shifted_fresh π none) rfl rfl

theorem Shifted.cursor_start (h : g.Shifted π g') :
    (Cursor.start g').1 = (Cursor.start g).1.past π.scopes := by
  show (⟨g'.size, g'.size, []⟩ : Cursor) = ⟨π.scopes.shift g.size, π.scopes.shift g.size, []⟩
  rw [h.shift_size]

theorem Shifted.enterNew (h : g.Shifted π g') (hs : s.Shifted π s') (hchildren : s.children = [])
    (hchildren' : s'.children = []) (c : Cursor) :
    (c.enterNew g s).2.Shifted π ((c.past π.scopes).enterNew g' s').2 := by
  show ((g.add s).2.adopt c.here g.size).Shifted π
    ((g'.add s').2.adopt (π.scopes.shift c.here) g'.size)
  rw [← h.shift_size]
  exact (h.add hs hchildren hchildren').adopt c.here g.size

theorem Shifted.cursor_enterNew (h : g.Shifted π g') (c : Cursor) :
    ((c.past π.scopes).enterNew g' s').1 = (c.enterNew g s).1.past π.scopes := by
  show (⟨π.scopes.shift c.top, g'.size, _⟩ : Cursor) =
    ⟨π.scopes.shift c.top, π.scopes.shift g.size, _⟩
  rw [h.shift_size]
  rfl

theorem Shifted.mount (h : g.Shifted π g') (c other : Cursor) (name : String) :
    (c.mount g other name).Shifted π
      ((c.past π.scopes).mount g' (other.past π.scopes) name) := by
  have hnamed : (g.modify other.top fun s => { s with name := some name }).Shifted π
      (g'.modify (π.scopes.shift other.top) fun s => { s with name := some name }) := by
    refine h.modify_declared (fun s s' hs => ?_) ?_ ?_ other.top
    · exact ⟨rfl, hs.animations, hs.commands, hs.functions, hs.vars, hs.parent⟩
    · exact fun _ => rfl
    · exact fun _ => rfl
  exact hnamed.adopt c.top other.top

/-- Sharing the scopes of another file. Its global scope is not that of the first one. -/
theorem Shifted.takeAll (h : g.Shifted π g') (c : Cursor) (hother : other.top ≠ 0) :
    (c.takeAll g other).Shifted π ((c.past π.scopes).takeAll g' (other.past π.scopes)) := by
  have hto := h.scope c.top
  have hfrom := h.scope other.top
  refine h.modify ⟨hto.name, ?_, ?_, ?_, ?_, hto.parent⟩ ?_ ?_
  · simp only [Table.map_merge]
    exact congr (congrArg Table.merge hto.animations) hfrom.animations
  · simp only [Table.map_merge]
    exact congr (congrArg Table.merge hto.commands) hfrom.commands
  · simp only [Table.map_merge]
    exact congr (congrArg Table.merge hto.functions) hfrom.functions
  · simp only [Table.map_merge]
    exact congr (congrArg Table.merge hto.vars) hfrom.vars
  · exact (List.filter_append ..).trans
      (by rw [List.map_append, ← h.children c.top, ← h.children other.top]; rfl)
  · intro z hz hspare
    rcases List.mem_append.mp hz with hz | hz
    · exact hz
    · exact absurd (h.guest other.top z hz hspare).1 hother

/-! ### Searches -/

variable {α β : Type} {shelf : Shelf α} {f f' : α → β} {a x : ScopeId} {p leaf : String}
  {ps : List String} {level : List ScopeId}

theorem Shifted.isNamed (h : g.Shifted π g') (p : String) (x : ScopeId) :
    g'.isNamed p (π.scopes.shift x) = g.isNamed p x := by
  rw [ScopeGraph.isNamed, ScopeGraph.isNamed, (h.scope x).name]

theorem Shifted.isOpen (h : g.Shifted π g') (x : ScopeId) :
    g'.isOpen (π.scopes.shift x) = g.isOpen x := by
  rw [ScopeGraph.isOpen, ScopeGraph.isOpen, (h.scope x).name]

theorem inOpen_filter {q : ScopeId → Bool} (h : ∀ z ∈ level, q z = false → g.isOpen z = false) :
    g.inOpen (level.filter q) = g.inOpen level := by
  rw [inOpen, inOpen, List.filter_filter, List.filter_congr]
  intro z hz
  cases hq : q z with
  | true => exact Bool.and_true _
  | false => rw [h z hz hq]; rfl

theorem Shifted.inOpen (h : g.Shifted π g') (hlevel : ∀ x ∈ level, x ≠ 0) :
    g'.inOpen (level.map π.scopes.shift) = (g.inOpen level).map π.scopes.shift := by
  induction level with
  | nil => rfl
  | cons x level ih =>
    obtain ⟨hx, hlevel⟩ := List.forall_mem_cons.mp hlevel
    have hname := (h.scope x).name
    rw [List.map_cons]
    cases hn : (g.scope x).name with
    | none =>
      rw [inOpen_cons_of_none (hname.trans hn), inOpen_cons_of_none hn, List.map_append,
        ih hlevel, h.children_of_ne hx]
    | some p => rw [inOpen_cons_of_some (hname.trans hn), inOpen_cons_of_some hn, ih hlevel]

theorem ne_zero_of_mem_inOpen (hg : g.Ordered) (hx : x ∈ g.inOpen level) : x ≠ 0 := by
  obtain ⟨y, -, -, hchild⟩ := mem_inOpen.mp hx
  exact Nat.ne_of_gt (Nat.lt_of_le_of_lt (Nat.zero_le y) (hg.child hchild).1)

theorem Shifted.levels (h : g.Shifted π g') (hg : g.Ordered) (hlevel : ∀ x ∈ level, x ≠ 0)
    (n : Nat) :
    g'.levels n (level.map π.scopes.shift) = (g.levels n level).map π.scopes.shift := by
  induction n generalizing level with
  | zero => rfl
  | succ n ih =>
    rw [ScopeGraph.levels, ScopeGraph.levels, h.inOpen hlevel, List.map_append,
      ih fun _ => ne_zero_of_mem_inOpen hg]

theorem Counted.levels_eq {n k : Nat} (hc : g.Counted n k level) (hg : g.Ordered) {m : Nat}
    (hle : n ≤ m) : g.levels m level = g.levels n level := by
  induction n generalizing k m level with
  | zero =>
    obtain rfl : level = [] := by
      by_contra hne
      obtain ⟨_, h⟩ := hc.exists_succ hne
      cases h
    rw [levels_nil, levels_nil]
  | succ n ih =>
    obtain ⟨m, rfl⟩ : ∃ l, m = l + 1 := ⟨m - 1, by omega⟩
    rw [ScopeGraph.levels, ScopeGraph.levels, ih (hc.inOpen hg) (by omega)]

/-- **The scopes of a name below a scope** are the same on both sides, unless it is the name of the
scopes from the gap. -/
theorem Shifted.filter_allBelow (h : g.Shifted π g') (hg : g.Ordered)
    (hfree : a = 0 → ∀ m ∈ π.hidden, m ≠ p) :
    (g'.allBelow (π.scopes.shift a)).filter (g'.isNamed p) =
      ((g.allBelow a).filter (g.isNamed p)).map π.scopes.shift := by
  have hchild : ∀ x ∈ (g.scope a).children, x ≠ 0 := fun x hx =>
    Nat.ne_of_gt (Nat.lt_of_le_of_lt (Nat.zero_le a) (hg.child hx).1)
  have hcomp : ∀ ids : List ScopeId, (ids.map π.scopes.shift).filter (g'.isNamed p) =
      (ids.filter (g.isNamed p)).map π.scopes.shift := by
    intro ids
    rw [List.filter_map]
    exact congrArg (List.map _ <| List.filter · ids) (funext (h.isNamed p))
  have hsize : g.size ≤ g'.size := by
    rw [h.size]
    exact Nat.le_add_right _ _
  rw [allBelow, allBelow, ← (counted_children hg a).levels_eq hg hsize]
  cases g'.size with
  | zero => rfl
  | succ n =>
    -- the search goes on in the scopes without a name, and those are not from the gap
    have hopen : g'.inOpen (g'.scope (π.scopes.shift a)).children =
        (g.inOpen (g.scope a).children).map π.scopes.shift := by
      rw [← h.inOpen hchild, ← h.children a, inOpen_filter]
      intro z hz hspare
      obtain ⟨-, m, -, hm⟩ := h.guest a z hz hspare
      simp [ScopeGraph.isOpen, hm]
    have hfirst : (g'.scope (π.scopes.shift a)).children.filter (g'.isNamed p) =
        ((g.scope a).children.filter (g.isNamed p)).map π.scopes.shift := by
      rw [← hcomp, ← h.children a, List.filter_filter]
      refine List.filter_congr fun z hz => ?_
      cases hspare : π.scopes.spares z with
      | true => exact (Bool.and_true _).symm
      | false =>
        obtain ⟨ha, m, hm, hname⟩ := h.guest a z hz hspare
        simp [ScopeGraph.isNamed, hname, hfree ha m hm]
    rw [ScopeGraph.levels, ScopeGraph.levels, List.filter_append, List.filter_append,
      List.map_append, hfirst, hopen, h.levels hg fun _ => ne_zero_of_mem_inOpen hg, hcomp]

theorem ne_zero_of_mem_allBelow (hg : g.Ordered) (hx : x ∈ g.allBelow a) : x ≠ 0 := by
  cases (mem_allBelow_iff hg).mp hx with
  | child hchild | deeper _ _ hchild =>
    exact Nat.ne_of_gt (Nat.lt_of_le_of_lt (Nat.zero_le _) (hg.child hchild).1)

theorem Shifted.lead (h : g.Shifted π g') (hg : g.Ordered)
    (hfree : a = 0 → ∀ m ∈ π.hidden, ps.head? ≠ some m) :
    g'.lead (π.scopes.shift a) ps = (g.lead a ps).map π.scopes.shift := by
  induction ps generalizing a with
  | nil => rfl
  | cons q ps ih =>
    have hfind : (g'.allBelow (π.scopes.shift a)).find? (g'.isNamed q) =
        ((g.allBelow a).find? (g.isNamed q)).map π.scopes.shift := by
      rw [← List.head?_filter, ← List.head?_filter, h.filter_allBelow hg, List.head?_map]
      exact fun ha m hm heq => hfree ha m hm (congrArg some heq.symm)
    rw [ScopeGraph.lead, ScopeGraph.lead, hfind]
    cases hx : (g.allBelow a).find? (g.isNamed q) with
    | none => rfl
    | some x =>
      have hx0 := ne_zero_of_mem_allBelow hg (List.mem_of_find?_eq_some hx)
      exact ih fun h0 => absurd h0 hx0

/-- Front parts lead away from the first scope. -/
theorem eq_nil_of_lead_eq_zero (hg : g.Ordered) (h : g.lead a ps = some 0) : a = 0 ∧ ps = [] := by
  induction ps generalizing a with
  | nil => exact ⟨Option.some.inj h, rfl⟩
  | cons q ps ih =>
    obtain ⟨x, hx, hlead⟩ := Option.bind_eq_some_iff.mp h
    exact absurd (ih hlead).1 (ne_zero_of_mem_allBelow hg (List.mem_of_find?_eq_some hx))

variable (f f') in
/-- A table of the scopes holds the same on both sides, up to changes of its values. -/
def SameShelf (π : Shift) (g g' : ScopeGraph) (shelf : Shelf α) : Prop :=
  ∀ x, (shelf (g'.scope (π.scopes.shift x))).map f' = (shelf (g.scope x)).map f

theorem SameShelf.lookup (h : SameShelf f f' π g g' shelf) (name : String) (x : ScopeId) :
    (g'.lookup shelf name (π.scopes.shift x)).map f' = (g.lookup shelf name x).map f := by
  rw [ScopeGraph.lookup, ScopeGraph.lookup, ← Table.find?_map, ← Table.find?_map, h x]

theorem SameShelf.findSome? (h : SameShelf f f' π g g' shelf) (name : String) (ids : List ScopeId) :
    ((ids.map π.scopes.shift).findSome? (g'.lookup shelf name)).map f' =
      (ids.findSome? (g.lookup shelf name)).map f := by
  rw [List.findSome?_map, List.map_findSome?, List.map_findSome?]
  exact congrArg (List.findSome? · ids) (funext (h.lookup name))

end ScopeGraph

open ScopeGraph

/-- **Names mean the same on both sides**, except for those that begin with the name of the scopes
from the gap. -/
theorem ScopeGraph.Shifted.resolve {α β : Type} {shelf : Shelf α} {f f' : α → β} {π : Shift}
    {g g' : ScopeGraph} {c : Cursor} {name : String} (h : g.Shifted π g')
    (hshelf : SameShelf f f' π g g' shelf) (hg : g.Ordered) (hg' : g'.Ordered)
    (hc : c.Rooted g) (hc' : (c.past π.scopes).Rooted g')
    (hfree : c.top = 0 → ∀ m ∈ π.hidden, (nameParts name).1.head? ≠ some m) :
    ((c.past π.scopes).resolve g' shelf name).map f' = (c.resolve g shelf name).map f := by
  by_cases hplain : IsPlain name
  · have houtward : (c.past π.scopes).outward g' = (c.outward g).map π.scopes.shift := by
      have hopen : g'.isOpen ∘ π.scopes.shift = g.isOpen := funext h.isOpen
      simp only [Cursor.outward, Cursor.past, List.takeWhile_map, hopen, List.map_append,
        List.map_cons, List.map_nil]
    have hor : ∀ o o' : Option α, ∀ k : α → β, (o.or o').map k = (o.map k).or (o'.map k) := by
      intro o o' k
      cases o <;> rfl
    rw [Cursor.resolve_eq_or hg hc shelf hplain, Cursor.resolve_eq_or hg' hc' shelf hplain,
      hor, hor, Cursor.innermost, Cursor.innermost, houtward, hshelf.findSome?]
    exact congrArg (Option.or · _) (hshelf.lookup name c.top)
  · obtain ⟨ps, p, hparts⟩ : ∃ ps p, nameParts name = (ps ++ [p], (nameParts name).2) := by
      rcases List.eq_nil_or_concat' (nameParts name).1 with hnil | ⟨ps, p, hps⟩
      · exact absurd (nameParts_fst_eq_nil_iff.mp hnil) hplain
      · exact ⟨ps, p, Prod.ext hps rfl⟩
    rw [hparts] at hfree
    rw [Cursor.resolve_eq_lead hg hc hparts, Cursor.resolve_eq_lead hg' hc' hparts]
    show ((g'.lead (π.scopes.shift c.top) ps).bind _).map f' = _
    have hlead : g'.lead (π.scopes.shift c.top) ps = (g.lead c.top ps).map π.scopes.shift := by
      refine h.lead hg fun htop m hm hhead => hfree htop m hm ?_
      rw [List.head?_append, hhead, Option.some_or]
    rw [hlead]
    cases hx : g.lead c.top ps with
    | none => rfl
    | some x =>
      show (g'.declaredBelow shelf p _ (π.scopes.shift x)).map f' = _
      have hfreeLast : x = 0 → ∀ m ∈ π.hidden, m ≠ p := by
        rintro rfl m hm rfl
        obtain ⟨htop, rfl⟩ := eq_nil_of_lead_eq_zero hg hx
        exact hfree htop m hm rfl
      rw [declaredBelow, h.filter_allBelow hg hfreeLast, hshelf.findSome?]
      rfl

end EvScript
