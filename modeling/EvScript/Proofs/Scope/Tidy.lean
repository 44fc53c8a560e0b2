import EvScript.Proofs.Scope.Blocks
import EvScript.Proofs.Scope.Paths

/-!
# Tidy Scopes

A global scope has no parent, a namespace has a name, and a **block** has a parent and no name.
Namespaces never stand in blocks, so a search for a qualified name only has to look at the children
of the scopes it comes to. Names in a global scope and in its namespaces are distinct for each kind
of declaration, so it does not matter in which order a table is put into another one.
-/

namespace EvScript

/-! ### Tables with distinct keys -/

namespace Table

variable {κ α : Type} {t other : Table κ α}
variable {es : List (κ × α)}

/-- No key has two entries. -/
def Distinct (t : Table κ α) : Prop := (t.entries.map (·.1)).Nodup

theorem distinct_empty : (empty : Table κ α).Distinct := List.nodup_nil

variable [DecidableEq κ]

theorem mem_keys_insertIn {key k : κ} {value : α} :
    k ∈ (insertIn key value es).map (·.1) ↔ k = key ∨ k ∈ es.map (·.1) := by
  induction es with
  | nil => simp [insertIn]
  | cons e es ih =>
    rw [insertIn]
    split
    · rename_i he
      simp [he]
    · rw [List.map_cons, List.map_cons, List.mem_cons, List.mem_cons, ih]
      exact or_left_comm

theorem Distinct.insert (h : t.Distinct) (key : κ) (value : α) : (t.insert key value).Distinct := by
  obtain ⟨es⟩ := t
  unfold Distinct Table.insert at *
  dsimp only at h ⊢
  induction es with
  | nil => simp [insertIn]
  | cons e es ih =>
    rw [List.map_cons, List.nodup_cons] at h
    rw [insertIn]
    split
    · rename_i he
      exact List.nodup_cons.mpr ⟨he ▸ h.1, h.2⟩
    · rename_i he
      refine List.nodup_cons.mpr ⟨fun hmem => ?_, ih h.2⟩
      exact (mem_keys_insertIn.mp hmem).elim he h.1

theorem Distinct.merge (h : t.Distinct) (other : Table κ α) : (t.merge other).Distinct := by
  obtain ⟨es⟩ := other
  unfold Table.merge
  dsimp only
  induction es generalizing t with
  | nil => exact h
  | cons e es ih => exact ih (h.insert e.1 e.2)

theorem find?_cons (e : κ × α) (es : List (κ × α)) (key : κ) :
    find? ⟨e :: es⟩ key = if e.1 = key then some e.2 else find? ⟨es⟩ key := by
  unfold find?
  dsimp only
  split
  · rename_i he
    rw [List.find?_cons_of_pos (by simpa using he)]
    rfl
  · rename_i he
    rw [List.find?_cons_of_neg (by simpa using he)]

theorem find?_eq_none_of_not_mem {key : κ} (h : key ∉ es.map (·.1)) : find? ⟨es⟩ key = none := by
  unfold find?
  rw [List.find?_eq_none.mpr fun e he => ?_]
  · rfl
  · intro hkey
    exact h (beq_iff_eq.mp hkey ▸ List.mem_map_of_mem he)

/-- **A table put into another one**: its entries are found first. -/
theorem find?_merge (h : other.Distinct) (key : κ) :
    (t.merge other).find? key = (other.find? key).or (t.find? key) := by
  obtain ⟨es⟩ := other
  unfold Table.Distinct at h
  unfold merge
  dsimp only at h ⊢
  induction es generalizing t with
  | nil => rfl
  | cons e es ih =>
    rw [List.map_cons, List.nodup_cons] at h
    rw [List.foldl_cons, ih h.2, find?_cons]
    by_cases he : e.1 = key
    · subst he
      rw [if_pos rfl, find?_eq_none_of_not_mem h.1, find?_insert_self]
      rfl
    · rw [if_neg he, find?_insert_of_ne _ _ (Ne.symm he)]

end Table

/-! ### Kinds of declarations -/

/-- The shelf is that of a kind of declaration. -/
inductive IsShelf : ∀ {α : Type}, Shelf α → Prop where
  | animations : IsShelf fun s => s.animations
  | commands : IsShelf fun s => s.commands
  | functions : IsShelf fun s => s.functions
  | vars : IsShelf fun s => s.vars

theorem IsShelf.ignores {α : Type} {shelf : Shelf α} (h : IsShelf shelf) (s : Scope)
    (name : Option String) (parent : Option ScopeId) (children : List ScopeId) :
    shelf { s with name := name, parent := parent, children := children } = shelf s := by
  cases h <;> rfl

/-- No kind of declaration has two entries for a name. -/
def Scope.Distinct (s : Scope) : Prop :=
  ∀ (α : Type) (shelf : Shelf α), IsShelf shelf → (shelf s).Distinct

theorem Scope.distinct_of_ignores {s : Scope} (h : s.Distinct) (name : Option String)
    (parent : Option ScopeId) (children : List ScopeId) :
    ({ s with name := name, parent := parent, children := children } : Scope).Distinct := by
  intro α shelf hshelf
  rw [hshelf.ignores]
  exact h α shelf hshelf

/-- A scope without declarations. -/
theorem Scope.distinct_fresh (name : Option String) (parent : Option ScopeId)
    (children : List ScopeId) :
    ({ name := name, parent := parent, children := children } : Scope).Distinct := by
  intro α shelf hshelf
  cases hshelf <;> exact Table.distinct_empty

/-- Taking over the declarations of another scope. -/
theorem IsShelf.takeAll {α : Type} {shelf : Shelf α} (h : IsShelf shelf) (s source : Scope)
    (children : List ScopeId) : shelf { s with
      animations := s.animations.merge source.animations
      commands := s.commands.merge source.commands
      functions := s.functions.merge source.functions
      vars := s.vars.merge source.vars
      children := children } = (shelf s).merge (shelf source) := by
  cases h <;> rfl

/-! ### Tidy graphs -/

namespace ScopeGraph

variable {g g' : ScopeGraph} {x y : ScopeId} {c other : Cursor} {f : Scope → Scope}

/-- The scope is neither a global one nor a namespace. -/
def IsBlock (g : ScopeGraph) (x : ScopeId) : Prop :=
  (g.scope x).name = none ∧ (g.scope x).parent ≠ none

/-- What was put into a scope has a parent; in blocks there are only blocks; and elsewhere names
are distinct. -/
structure Tidy (g : ScopeGraph) : Prop where
  parented : ∀ {x y}, y ∈ (g.scope x).children → (g.scope y).parent ≠ none
  flat : ∀ {x y}, g.IsBlock x → y ∈ (g.scope x).children → g.IsBlock y
  distinct : ∀ {x}, ¬ g.IsBlock x → (g.scope x).Distinct

theorem isBlock_congr (hname : (g'.scope x).name = (g.scope x).name)
    (hparent : (g'.scope x).parent = (g.scope x).parent) : g'.IsBlock x ↔ g.IsBlock x := by
  rw [IsBlock, IsBlock, hname, hparent]

theorem tidy_empty : empty.Tidy where
  parented h := absurd (lt_size_of_child h) (Nat.not_lt_zero _)
  flat _ h := absurd (lt_size_of_child h) (Nat.not_lt_zero _)
  distinct _ := by
    rw [scope_of_size_le (Nat.zero_le _)]
    exact Scope.distinct_fresh _ _ _

/-- Changing declarations keeps a graph tidy. -/
theorem Tidy.modify (h : g.Tidy) {id : ScopeId} (hname : ∀ s, (f s).name = s.name)
    (hparent : ∀ s, (f s).parent = s.parent) (hchildren : ∀ s, (f s).children = s.children)
    (hdistinct : ∀ s : Scope, s.Distinct → (f s).Distinct) : (g.modify id f).Tidy := by
  have hblock : ∀ z, (g.modify id f).IsBlock z ↔ g.IsBlock z := fun z =>
    isBlock_congr (field_scope_modify hname z) (field_scope_modify hparent z)
  refine ⟨fun hy => ?_, fun hx hy => ?_, fun {x} hx => ?_⟩
  · rw [field_scope_modify hchildren] at hy
    rw [field_scope_modify hparent]
    exact h.parented hy
  · rw [field_scope_modify hchildren] at hy
    exact (hblock _).mpr (h.flat ((hblock _).mp hx) hy)
  · have hold := h.distinct (mt (hblock _).mpr hx)
    rw [scope_modify]
    split
    · rename_i hid
      exact hdistinct _ (hid.1 ▸ hold)
    · exact hold

/-- A new global scope. -/
theorem Tidy.start (h : g.Tidy) (hg : g.Ordered) : (Cursor.start g).2.Tidy := by
  have hnew : (Cursor.start g).2.scope g.size = {} := (scope_start _).trans (if_pos rfl)
  have hold : ∀ z, z ≠ g.size → (Cursor.start g).2.scope z = g.scope z := fun z hz =>
    (scope_start z).trans (if_neg hz)
  have hchild : ∀ {x y}, y ∈ ((Cursor.start g).2.scope x).children →
      x ≠ g.size ∧ y ≠ g.size ∧ y ∈ (g.scope x).children := by
    intro x y hy
    by_cases hx : x = g.size
    · rw [hx, hnew] at hy
      cases hy
    · rw [hold x hx] at hy
      exact ⟨hx, Nat.ne_of_lt (hg.child hy).2, hy⟩
  refine ⟨fun {x y} hy => ?_, fun {x y} hx hy => ?_, fun {x} hx => ?_⟩
  · obtain ⟨-, hne, hy⟩ := hchild hy
    rw [hold _ hne]
    exact h.parented hy
  · obtain ⟨hxne, hyne, hy⟩ := hchild hy
    unfold IsBlock at hx ⊢
    rw [hold _ hxne] at hx
    rw [hold _ hyne]
    exact h.flat hx hy
  · by_cases hxne : x = g.size
    · rw [hxne, hnew]
      exact Scope.distinct_fresh _ _ _
    · unfold IsBlock at hx
      rw [hold _ hxne] at hx ⊢
      exact h.distinct hx

/-- A new namespace in a scope that is no block. -/
theorem Tidy.enterNew (h : g.Tidy) (hg : g.Ordered) (hc : c.here < g.size)
    (hhere : ¬ g.IsBlock c.here) (name : String) :
    (c.enterNew g { name := some name }).2.Tidy := by
  have hnew : (c.enterNew g { name := some name }).2.scope g.size =
      { name := some name, parent := some c.here } := (scope_enterNew hc _).trans (if_pos rfl)
  -- the other scopes have got children at most
  have hold : ∀ z, z ≠ g.size → ∃ children, (∀ y ∈ children, y = g.size ∨
      y ∈ (g.scope z).children) ∧ (z ≠ c.here → children = (g.scope z).children) ∧
      (c.enterNew g { name := some name }).2.scope z = { g.scope z with children := children } := by
    intro z hz
    rw [scope_enterNew hc, if_neg hz]
    by_cases hzc : z = c.here
    · subst hzc
      rw [if_pos rfl]
      refine ⟨_, fun y hy => ?_, fun hne => absurd rfl hne, rfl⟩
      exact (List.mem_append.mp hy).symm.imp_left List.mem_singleton.mp
    · rw [if_neg hzc]
      exact ⟨_, fun y hy => .inr hy, fun _ => rfl, rfl⟩
  have hblock : ∀ z, z ≠ g.size → ((c.enterNew g { name := some name }).2.IsBlock z ↔
      g.IsBlock z) := by
    intro z hz
    obtain ⟨children, -, -, hscope⟩ := hold z hz
    exact isBlock_congr (by rw [hscope]) (by rw [hscope])
  have hchild : ∀ {x y}, y ∈ ((c.enterNew g { name := some name }).2.scope x).children →
      x ≠ g.size ∧ (y = g.size ∨ y ∈ (g.scope x).children) := by
    intro x y hy
    by_cases hx : x = g.size
    · rw [hx, hnew] at hy
      cases hy
    · obtain ⟨children, hchildren, -, hscope⟩ := hold x hx
      rw [hscope] at hy
      exact ⟨hx, hchildren y hy⟩
  refine ⟨fun {x y} hy => ?_, fun {x y} hx hy => ?_, fun {x} hx => ?_⟩
  · obtain ⟨-, rfl | hy⟩ := hchild hy
    · rw [hnew]
      exact Option.some_ne_none _
    · obtain ⟨children, -, -, hscope⟩ := hold y (Nat.ne_of_lt (hg.child hy).2)
      rw [hscope]
      exact h.parented hy
  · obtain ⟨hxne, -⟩ := hchild hy
    have hxold := (hblock x hxne).mp hx
    obtain ⟨children, -, hsame, hscope⟩ := hold x hxne
    rw [hscope, hsame fun heq => hhere (heq ▸ hxold)] at hy
    exact (hblock y (Nat.ne_of_lt (hg.child hy).2)).mpr (h.flat hxold hy)
  · by_cases hxne : x = g.size
    · rw [hxne, hnew]
      exact Scope.distinct_fresh _ _ _
    · have hdistinct := h.distinct (mt (hblock x hxne).mpr hx)
      obtain ⟨children, -, -, hscope⟩ := hold x hxne
      rw [hscope]
      exact Scope.distinct_of_ignores hdistinct _ _ children

/-- A scope that gets a block. -/
theorem GainsBlock.tidy (h : GainsBlock x g g') (hg : g.Ordered) (hg' : g'.Ordered)
    (ht : g.Tidy) : g'.Tidy := by
  have hold : ∀ z < g.size, (g'.IsBlock z ↔ g.IsBlock z) := fun z hz =>
    isBlock_congr (h.name_eq hz) (h.parent_eq hz)
  have hnew : ∀ z, g.size ≤ z → z < g'.size → g'.IsBlock z := by
    intro z hz hlt
    refine ⟨h.name z hz, ?_⟩
    rcases Nat.eq_or_lt_of_le hz with rfl | hz
    · rw [h.child]
      exact Option.some_ne_none _
    · obtain ⟨p, hp, -⟩ := h.parent z hz hlt
      rw [hp]
      exact Option.some_ne_none _
  -- a child is new, or was a child before
  have hchild : ∀ {w z}, z ∈ (g'.scope w).children →
      g'.IsBlock z ∨ w < g.size ∧ z < g.size ∧ z ∈ (g.scope w).children := by
    intro w z hz
    have hlt := hg'.child hz
    rcases Nat.lt_or_ge z g.size with hzlt | hzle
    · have hw : w < g.size := Nat.lt_trans hlt.1 hzlt
      have hmem : z ∈ g.oldOnes (g'.scope w).children :=
        List.mem_filter.mpr ⟨hz, decide_eq_true hzlt⟩
      rw [h.oldOnes_children hg hw] at hmem
      exact .inr ⟨hw, hzlt, hmem⟩
    · exact .inl (hnew z hzle hlt.2)
  refine ⟨fun {w z} hz => ?_, fun {w z} hw hz => ?_, fun {w} hw => ?_⟩
  · rcases hchild hz with hblock | ⟨-, hzlt, hz⟩
    · exact hblock.2
    · rw [h.parent_eq hzlt]
      exact ht.parented hz
  · rcases hchild hz with hblock | ⟨hwlt, hzlt, hz⟩
    · exact hblock
    · exact (hold z hzlt).mpr (ht.flat ((hold w hwlt).mp hw) hz)
  · rcases Nat.lt_or_ge w g.size with hwlt | hwle
    · obtain ⟨children, -, hscope⟩ := h.exists_scope_eq hwlt
      rw [hscope]
      exact Scope.distinct_of_ignores (ht.distinct (mt (hold w hwlt).mpr hw)) _ _ _
    · rcases Nat.lt_or_ge w g'.size with hwlt | hwle
      · exact absurd (hnew w hwle hwlt) hw
      · rw [scope_of_size_le hwle]
        exact Scope.distinct_fresh _ _ _

theorem Tidy.mount (h : g.Tidy) (hlt : c.top < other.top) (ho : other.top < g.size)
    (hparent : (g.scope c.top).parent = none) (hparent' : (g.scope other.top).parent = none)
    (name : String) : (c.mount g other name).Tidy := by
  have hscope := scope_mount (Nat.lt_trans hlt ho) ho (Nat.ne_of_lt hlt) name
  have hother : (c.mount g other name).scope other.top =
      { g.scope other.top with name := some name, parent := some c.top } := by
    rw [hscope, if_neg (Nat.ne_of_gt hlt), if_pos rfl]
  have htop : (c.mount g other name).scope c.top =
      { g.scope c.top with children := (g.scope c.top).children ++ [other.top] } := by
    rw [hscope, if_pos rfl]
  have hrest : ∀ z, z ≠ c.top → z ≠ other.top → (c.mount g other name).scope z = g.scope z :=
    fun z hz hz' => by rw [hscope, if_neg hz, if_neg hz']
  have hblock : ∀ z, (c.mount g other name).IsBlock z ↔ g.IsBlock z := by
    intro z
    by_cases hz' : z = other.top
    · subst hz'
      simp [IsBlock, hother, hparent']
    · by_cases hz : z = c.top
      · subst hz
        simp [IsBlock, htop]
      · rw [IsBlock, IsBlock, hrest z hz hz']
  have hchildren : ∀ z, z ≠ c.top →
      ((c.mount g other name).scope z).children = (g.scope z).children := by
    intro z hz
    by_cases hz' : z = other.top
    · rw [hz', hother]
    · rw [hrest z hz hz']
  have hkept : ∀ {y}, (g.scope y).parent ≠ none →
      ((c.mount g other name).scope y).parent ≠ none := by
    intro y hy
    rw [hrest y (fun heq => hy (heq ▸ hparent)) fun heq => hy (heq ▸ hparent')]
    exact hy
  refine ⟨fun {x y} hy => ?_, fun {x y} hx hy => ?_, fun {x} hx => ?_⟩
  · by_cases hx : x = c.top
    · rw [hx, htop] at hy
      rcases List.mem_append.mp hy with hy | hy
      · exact hkept (h.parented hy)
      · rw [List.mem_singleton.mp hy, hother]
        exact Option.some_ne_none _
    · rw [hchildren x hx] at hy
      exact hkept (h.parented hy)
  · have hxold := (hblock x).mp hx
    rw [hchildren x fun heq => hxold.2 (heq ▸ hparent)] at hy
    exact (hblock y).mpr (h.flat hxold hy)
  · have hdistinct := h.distinct (mt (hblock x).mpr hx)
    rw [hscope]
    split
    · rename_i hxt
      exact Scope.distinct_of_ignores (hxt ▸ hdistinct) _ _ _
    · split
      · rename_i hxo
        exact Scope.distinct_of_ignores (hxo ▸ hdistinct) _ _ _
      · exact hdistinct

theorem scope_takeAll (g : ScopeGraph) (other : Cursor) (hc : c.top < g.size) :
    (c.takeAll g other).scope c.top = { g.scope c.top with
      animations := (g.scope c.top).animations.merge (g.scope other.top).animations
      commands := (g.scope c.top).commands.merge (g.scope other.top).commands
      functions := (g.scope c.top).functions.merge (g.scope other.top).functions
      vars := (g.scope c.top).vars.merge (g.scope other.top).vars
      children := (g.scope c.top).children ++ (g.scope other.top).children } :=
  scope_modify_self hc

theorem scope_takeAll_of_ne (h : x ≠ c.top) : (c.takeAll g other).scope x = g.scope x :=
  scope_modify_of_ne h

theorem Tidy.takeAll (h : g.Tidy) (hc : c.top < g.size)
    (hparent : (g.scope c.top).parent = none) : (c.takeAll g other).Tidy := by
  have htop := scope_takeAll g other hc
  have hblock : ∀ z, (c.takeAll g other).IsBlock z ↔ g.IsBlock z := by
    intro z
    by_cases hz : z = c.top
    · rw [hz]
      exact isBlock_congr (by rw [htop]) (by rw [htop])
    · rw [IsBlock, IsBlock, scope_takeAll_of_ne hz]
  have hkept : ∀ {y}, (g.scope y).parent ≠ none →
      ((c.takeAll g other).scope y).parent ≠ none := by
    intro y hy
    have hne : y ≠ c.top := fun heq => hy (heq ▸ hparent)
    rw [scope_takeAll_of_ne hne]
    exact hy
  refine ⟨fun {x y} hy => ?_, fun {x y} hx hy => ?_, fun {x} hx => ?_⟩
  · by_cases hx : x = c.top
    · rw [hx, htop] at hy
      exact hkept ((List.mem_append.mp hy).elim h.parented h.parented)
    · rw [scope_takeAll_of_ne hx] at hy
      exact hkept (h.parented hy)
  · have hxold := (hblock x).mp hx
    have hne : x ≠ c.top := fun heq => hxold.2 (heq ▸ hparent)
    rw [scope_takeAll_of_ne hne] at hy
    exact (hblock y).mpr (h.flat hxold hy)
  · have hdistinct := h.distinct (mt (hblock x).mpr hx)
    by_cases hxt : x = c.top
    · subst hxt
      rw [htop]
      intro α shelf hshelf
      rw [hshelf.takeAll]
      exact (hdistinct α shelf hshelf).merge _
    · rw [scope_takeAll_of_ne hxt]
      exact hdistinct

/-! ### Searches -/

theorem Tidy.isBlock_of_mem_levels (h : g.Tidy) {n : Nat} {level : List ScopeId}
    (hlevel : ∀ x ∈ level, g.IsBlock x) (hx : x ∈ g.levels n level) : g.IsBlock x := by
  induction n generalizing level with
  | zero => exact absurd hx List.not_mem_nil
  | succ n ih =>
    rcases List.mem_append.mp hx with hx | hx
    · exact hlevel x hx
    · refine ih (fun y hy => ?_) hx
      obtain ⟨z, hz, -, hy⟩ := mem_inOpen.mp hy
      exact h.flat (hlevel z hz) hy

/-- **Below a scope, only its children can have a name.** -/
theorem Tidy.filter_allBelow (h : g.Tidy) (hg : g.Ordered) (a : ScopeId) (p : String) :
    (g.allBelow a).filter (g.isNamed p) = (g.scope a).children.filter (g.isNamed p) := by
  have hcounted := counted_children hg a
  by_cases hne : (g.scope a).children = []
  · rw [allBelow, hne, levels_nil]
  · obtain ⟨m, hm⟩ := hcounted.exists_succ hne
    rw [allBelow, hm, levels, List.filter_append]
    refine List.append_right_eq_self.mpr (List.filter_eq_nil_iff.mpr fun x hx hnamed => ?_)
    have hblock : g.IsBlock x := h.isBlock_of_mem_levels (fun y hy => ?_) hx
    · rw [isNamed_iff, hblock.1] at hnamed
      cases hnamed
    · obtain ⟨z, hz, hname, hy⟩ := mem_inOpen.mp hy
      exact h.flat ⟨hname, h.parented hz⟩ hy

theorem Tidy.lead_cons (h : g.Tidy) (hg : g.Ordered) (a : ScopeId) (p : String)
    (ps : List String) : g.lead a (p :: ps) =
      ((g.scope a).children.find? (g.isNamed p)).bind fun x => g.lead x ps := by
  rw [lead, ← List.head?_filter, h.filter_allBelow hg, List.head?_filter]

theorem Tidy.declaredBelow_eq (h : g.Tidy) (hg : g.Ordered) {α : Type} (shelf : Shelf α)
    (p leaf : String) (a : ScopeId) : g.declaredBelow shelf p leaf a =
      ((g.scope a).children.filter (g.isNamed p)).findSome? (g.lookup shelf leaf) := by
  rw [declaredBelow, h.filter_allBelow hg]

end ScopeGraph

end EvScript
