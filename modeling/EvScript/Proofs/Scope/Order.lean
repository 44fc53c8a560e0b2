import Mathlib.Tactic.Common
import EvScript.Scope.Cursor

/-!
# Scopes in Order

The scopes of a run are no tree, but a scope is only ever put into one with a smaller number,
because a file makes its global scope before it begins with the files it imports. So every walk
through the graph comes to an end. A cursor is **rooted** if the scopes it will go back to are the
parents of the current one, up to the global scope, which has neither a name nor a parent.
-/

namespace EvScript

namespace ScopeGraph

variable {g g' : ScopeGraph} {id x y top : ScopeId} {s : Scope} {f : Scope → Scope}
  {c other : Cursor}

/-! ### The scopes of a changed graph -/

/-- Behind the last scope there is nothing. -/
theorem scope_of_size_le (h : g.size ≤ x) : g.scope x = {} := by
  rw [scope, Array.getElem?_eq_none h]
  rfl

theorem lt_size_of_parent {p : ScopeId} (h : (g.scope x).parent = some p) : x < g.size := by
  by_contra hx
  rw [scope_of_size_le (Nat.le_of_not_lt hx)] at h
  cases h

theorem lt_size_of_child {p : ScopeId} (h : p ∈ (g.scope x).children) : x < g.size := by
  by_contra hx
  rw [scope_of_size_le (Nat.le_of_not_lt hx)] at h
  cases h

@[simp] theorem size_add : (g.add s).2.size = g.size + 1 := Array.size_push ..

@[simp] theorem size_modify : (g.modify id f).size = g.size := Array.size_modify ..

@[simp] theorem size_adopt : (g.adopt x y).size = g.size := by
  rw [adopt, size_modify, size_modify]

theorem scope_add (x : ScopeId) : (g.add s).2.scope x = if x = g.size then s else g.scope x := by
  unfold add scope
  rw [Array.getElem?_push]
  split
  · exact (if_pos ‹_›).symm
  · exact (if_neg ‹_›).symm

/-- A scope that is not there cannot be changed. -/
theorem scope_modify (x : ScopeId) :
    (g.modify id f).scope x = if x = id ∧ id < g.size then f (g.scope id) else g.scope x := by
  unfold modify scope
  rw [Array.getElem?_modify]
  by_cases hx : id = x
  · subst hx
    by_cases hid : id < g.size
    · rw [if_pos rfl, if_pos ⟨rfl, hid⟩, Array.getElem?_eq_getElem hid]
      rfl
    · rw [if_pos rfl, if_neg fun h => hid h.2, Array.getElem?_eq_none (Nat.le_of_not_lt hid)]
      rfl
  · rw [if_neg hx, if_neg fun h => hx h.1.symm]

theorem scope_modify_of_ne (h : x ≠ id) : (g.modify id f).scope x = g.scope x := by
  rw [scope_modify, if_neg fun hx => h hx.1]

theorem scope_modify_self (h : id < g.size) : (g.modify id f).scope id = f (g.scope id) := by
  rw [scope_modify, if_pos ⟨rfl, h⟩]

/-- A field that the change leaves alone. -/
theorem field_scope_modify {β : Type} {field : Scope → β} (h : ∀ s, field (f s) = field s)
    (x : ScopeId) : field ((g.modify id f).scope x) = field (g.scope x) := by
  rw [scope_modify]
  split
  · rename_i hx
    rw [h, hx.1]
  · rfl

theorem scope_adopt (hx : x < g.size) (hy : y < g.size) (hne : x ≠ y) (z : ScopeId) :
    (g.adopt x y).scope z =
      if z = x then { g.scope x with children := (g.scope x).children ++ [y] }
      else if z = y then { g.scope y with parent := some x } else g.scope z := by
  unfold adopt
  by_cases hzx : z = x
  · subst hzx
    rw [if_pos rfl, scope_modify_self (by rwa [size_modify]), scope_modify_of_ne hne]
  · rw [if_neg hzx, scope_modify_of_ne hzx, scope_modify]
    by_cases hzy : z = y
    · rw [if_pos hzy, if_pos ⟨hzy, hy⟩]
    · rw [if_neg hzy, if_neg fun h => hzy h.1]

@[simp] theorem size_enterNew : (c.enterNew g s).2.size = g.size + 1 := by
  simp [Cursor.enterNew, Cursor.enter]

/-- Entering a new scope: it comes behind all others, as the last child of the current one. -/
theorem scope_enterNew (h : c.here < g.size) (z : ScopeId) : (c.enterNew g s).2.scope z =
      if z = g.size then { s with parent := some c.here }
      else if z = c.here then
        { g.scope c.here with children := (g.scope c.here).children ++ [g.size] }
      else g.scope z := by
  have hne : c.here ≠ g.size := Nat.ne_of_lt h
  have hadopt := scope_adopt (g := (g.add s).2) (y := g.size) (x := c.here)
    (size_add ▸ Nat.lt_succ_of_lt h) (size_add ▸ Nat.lt_succ_self _) hne z
  simp only [scope_add, hne, if_true, if_false] at hadopt
  rw [show (c.enterNew g s).2 = (g.add s).2.adopt c.here g.size from rfl, hadopt]
  by_cases hz : z = g.size
  · rw [if_neg (hz ▸ hne.symm), if_pos hz, if_pos hz]
  · rw [if_neg hz, if_neg hz, if_neg hz]

@[simp] theorem size_start : (Cursor.start g).2.size = g.size + 1 := size_add

theorem scope_start (z : ScopeId) :
    (Cursor.start g).2.scope z = if z = g.size then {} else g.scope z :=
  scope_add z

@[simp] theorem size_mount {name : String} : (c.mount g other name).size = g.size := by
  simp [Cursor.mount]

theorem scope_mount (hc : c.top < g.size) (ho : other.top < g.size) (hne : c.top ≠ other.top)
    (name : String) (z : ScopeId) : (c.mount g other name).scope z =
      if z = c.top then
        { g.scope c.top with children := (g.scope c.top).children ++ [other.top] }
      else if z = other.top then
        { g.scope other.top with name := some name, parent := some c.top }
      else g.scope z := by
  unfold Cursor.mount
  rw [scope_adopt (by rwa [size_modify]) (by rwa [size_modify]) hne, scope_modify_of_ne hne,
    scope_modify_self ho]
  by_cases hzo : z = other.top
  · rw [if_pos hzo, if_pos hzo]
  · rw [if_neg hzo, if_neg hzo, scope_modify_of_ne hzo]

@[simp] theorem size_takeAll : (c.takeAll g other).size = g.size := by
  simp [Cursor.takeAll]

/-! ### Order -/

/-- Numbers grow from parents to children, and all children are there. -/
structure Ordered (g : ScopeGraph) : Prop where
  parent : ∀ {x p}, (g.scope x).parent = some p → p < x
  child : ∀ {x y}, y ∈ (g.scope x).children → x < y ∧ y < g.size

theorem ordered_empty : empty.Ordered where
  parent h := absurd (lt_size_of_parent h) (Nat.not_lt_zero _)
  child h := absurd (lt_size_of_child h) (Nat.not_lt_zero _)

theorem Ordered.modify (h : g.Ordered) (hparent : ∀ s, (f s).parent = s.parent)
    (hchildren : ∀ s, (f s).children = s.children) : (g.modify id f).Ordered := by
  refine ⟨fun hp => ?_, fun hy => ?_⟩
  · rw [field_scope_modify hparent] at hp
    exact h.parent hp
  · rw [field_scope_modify hchildren] at hy
    rw [size_modify]
    exact h.child hy

theorem Ordered.start (h : g.Ordered) : (Cursor.start g).2.Ordered := by
  constructor
  · intro x p hp
    rw [scope_start] at hp
    split at hp
    · cases hp
    · exact h.parent hp
  · intro x y hy
    rw [scope_start] at hy
    split at hy
    · cases hy
    · rw [size_start]
      exact (h.child hy).imp_right Nat.lt_succ_of_lt

theorem Ordered.enterNew (h : g.Ordered) (hc : c.here < g.size) (hs : s.children = []) :
    (c.enterNew g s).2.Ordered := by
  constructor
  · intro x p hp
    rw [scope_enterNew hc] at hp
    split at hp
    · rename_i hx
      obtain rfl := Option.some.inj hp
      exact hx ▸ hc
    · split at hp
      · rename_i hx
        exact hx ▸ h.parent hp
      · exact h.parent hp
  · intro x y hy
    rw [scope_enterNew hc] at hy
    rw [size_enterNew]
    split at hy
    · rw [show _ = [] from hs] at hy
      cases hy
    · split at hy
      · rename_i hx
        subst hx
        rcases List.mem_append.mp hy with hy | hy
        · exact (h.child hy).imp_right Nat.lt_succ_of_lt
        · rw [List.mem_singleton.mp hy]
          exact ⟨hc, Nat.lt_succ_self _⟩
      · exact (h.child hy).imp_right Nat.lt_succ_of_lt

theorem Ordered.mount (h : g.Ordered) (hlt : c.top < other.top) (ho : other.top < g.size)
    (name : String) : (c.mount g other name).Ordered := by
  have hscope := scope_mount (Nat.lt_trans hlt ho) ho (Nat.ne_of_lt hlt) name
  constructor
  · intro x p hp
    rw [hscope] at hp
    split at hp
    · rename_i hx
      exact hx ▸ h.parent hp
    · split at hp
      · rename_i hx
        obtain rfl := Option.some.inj hp
        exact hx ▸ hlt
      · exact h.parent hp
  · intro x y hy
    rw [hscope] at hy
    rw [size_mount]
    split at hy
    · rename_i hx
      subst hx
      rcases List.mem_append.mp hy with hy | hy
      · exact h.child hy
      · rw [List.mem_singleton.mp hy]
        exact ⟨hlt, ho⟩
    · split at hy
      · rename_i hx
        exact hx ▸ h.child hy
      · exact h.child hy

theorem Ordered.takeAll (h : g.Ordered) (hlt : c.top < other.top) :
    (c.takeAll g other).Ordered := by
  constructor
  · intro x p hp
    unfold Cursor.takeAll at hp
    rw [scope_modify] at hp
    split at hp
    · rename_i hx
      exact hx.1 ▸ h.parent hp
    · exact h.parent hp
  · intro x y hy
    unfold Cursor.takeAll at hy
    rw [scope_modify] at hy
    rw [size_takeAll]
    split at hy
    · rename_i hx
      obtain ⟨rfl, -⟩ := hx
      rcases List.mem_append.mp hy with hy | hy
      · exact h.child hy
      · exact (h.child hy).imp_left (Nat.lt_trans hlt)
    · exact h.child hy

/-! ### Trails -/

/-- `Trail g top x ys`: `ys` are the parent of `x`, its parent and so on, up to `top`. -/
def Trail (g : ScopeGraph) (top : ScopeId) : ScopeId → List ScopeId → Prop
  | x, [] => x = top
  | x, y :: ys => (g.scope x).parent = some y ∧ g.Trail top y ys

/-- A trail leads through scopes that are there. -/
theorem Trail.congr {ys : List ScopeId} (h : g.Trail top x ys)
    (hp : ∀ z < g.size, (g'.scope z).parent = (g.scope z).parent) : g'.Trail top x ys := by
  induction ys generalizing x with
  | nil => exact h
  | cons y ys ih => exact ⟨(hp x (lt_size_of_parent h.1)).trans h.1, ih h.2⟩

end ScopeGraph

open ScopeGraph

/-- The cursor can go back to the global scope, from each scope to the one around it. -/
structure Cursor.Rooted (c : Cursor) (g : ScopeGraph) : Prop where
  top_lt : c.top < g.size
  name : (g.scope c.top).name = none
  parent : (g.scope c.top).parent = none
  trail : g.Trail c.top c.here c.enclosing

namespace Cursor.Rooted

variable {c : Cursor} {g g' : ScopeGraph} {s : Scope}

theorem here_lt (h : c.Rooted g) : c.here < g.size := by
  have htrail := h.trail
  cases henclosing : c.enclosing with
  | nil =>
    rw [henclosing] at htrail
    exact htrail ▸ h.top_lt
  | cons y ys =>
    rw [henclosing] at htrail
    exact lt_size_of_parent htrail.1

theorem of_parents (h : c.Rooted g) (hsize : g.size ≤ g'.size)
    (hparent : ∀ z < g.size, (g'.scope z).parent = (g.scope z).parent)
    (hname : (g'.scope c.top).name = (g.scope c.top).name) : c.Rooted g' where
  top_lt := Nat.lt_of_lt_of_le h.top_lt hsize
  name := hname.trans h.name
  parent := (hparent _ h.top_lt).trans h.parent
  trail := h.trail.congr hparent

theorem modify (h : c.Rooted g) {id : ScopeId} {f : Scope → Scope}
    (hname : ∀ s, (f s).name = s.name) (hparent : ∀ s, (f s).parent = s.parent) :
    c.Rooted (g.modify id f) :=
  h.of_parents (Nat.le_of_eq size_modify.symm) (fun z _ => field_scope_modify hparent z)
    (field_scope_modify hname _)

theorem start (g : ScopeGraph) : (Cursor.start g).1.Rooted (Cursor.start g).2 where
  top_lt := by
    rw [size_start]
    exact Nat.lt_succ_self _
  name := by
    rw [scope_start]
    exact congrArg Scope.name (if_pos rfl)
  parent := by
    rw [scope_start]
    exact congrArg Scope.parent (if_pos rfl)
  trail := rfl

theorem enterNew (h : c.Rooted g) : (c.enterNew g s).1.Rooted (c.enterNew g s).2 := by
  have hlt := h.here_lt
  have hold : ∀ z < g.size, ((c.enterNew g s).2.scope z).parent = (g.scope z).parent := by
    intro z hz
    rw [scope_enterNew hlt, if_neg (Nat.ne_of_lt hz)]
    split
    · rename_i hx
      rw [hx]
    · rfl
  have htop : ((c.enterNew g s).2.scope c.top).name = (g.scope c.top).name := by
    rw [scope_enterNew hlt, if_neg (Nat.ne_of_lt h.top_lt)]
    split
    · rename_i hx
      rw [hx]
    · rfl
  have hback := h.of_parents (by rw [size_enterNew]; omega) hold htop
  refine ⟨hback.top_lt, hback.name, hback.parent, ?_, hback.trail⟩
  show ((c.enterNew g s).2.scope g.size).parent = some c.here
  rw [scope_enterNew hlt, if_pos rfl]

/-- A scope that was entered can be left. -/
theorem leave (h : c.Rooted g) {y : ScopeId} {ys : List ScopeId} (hc : c.enclosing = y :: ys) :
    c.leave = .ok ⟨c.top, y, ys⟩ ∧ (⟨c.top, y, ys⟩ : Cursor).Rooted g := by
  have htrail := h.trail
  rw [hc] at htrail
  refine ⟨?_, h.top_lt, h.name, h.parent, htrail.2⟩
  have hne : c.here ≠ c.top := by
    intro heq
    have hnone := h.parent
    rw [← heq, htrail.1] at hnone
    cases hnone
  unfold Cursor.leave
  rw [hc]
  exact if_neg hne

end Cursor.Rooted

end EvScript
