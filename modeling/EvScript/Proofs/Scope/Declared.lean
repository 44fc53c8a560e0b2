import Mathlib.Tactic.Common
import EvScript.Scope.Cursor

/-!
# Declarations Do Not Come from Nowhere

`Cursor.resolve` gives what stands on the searched shelf of some scope of the graph, and only
declaring a command puts a command on a shelf that stood on none before.
-/

namespace EvScript

variable {id : ScopeId} {first leaf name : String} {more : List String} {f : Scope → Scope}
variable {α : Type}

/-! ### Tables -/

namespace Table

variable {κ : Type} [DecidableEq κ] {t u : Table κ α} {key : κ} {value a : α}

/-- The values of a table, in the order of its keys. -/
def values (t : Table κ α) : List α := t.entries.map (·.2)

theorem mem_values_of_find? (h : t.find? key = some a) : a ∈ t.values := by
  obtain ⟨e, he, rfl⟩ := Option.map_eq_some_iff.mp h
  exact List.mem_map_of_mem (List.mem_of_find?_eq_some he)

theorem mem_values_insert (h : a ∈ (t.insert key value).values) : a = value ∨ a ∈ t.values := by
  obtain ⟨es⟩ := t
  simp only [values, insert] at h ⊢
  induction es with
  | nil => exact .inl (by simpa [insertIn] using h)
  | cons e es ih =>
    rw [insertIn] at h
    split at h
    · rcases List.mem_cons.mp h with h | h
      · exact .inl h
      · exact .inr (List.mem_cons_of_mem _ h)
    · rcases List.mem_cons.mp h with h | h
      · exact .inr (h ▸ List.mem_cons_self)
      · exact (ih h).imp_right (List.mem_cons_of_mem _)

theorem mem_values_merge (h : a ∈ (t.merge u).values) : a ∈ t.values ∨ a ∈ u.values := by
  obtain ⟨es⟩ := u
  simp only [merge] at h
  induction es generalizing t with
  | nil => exact .inl h
  | cons e es ih =>
    rcases ih h with h | h
    · rcases mem_values_insert h with rfl | h
      · exact .inr List.mem_cons_self
      · exact .inl h
    · exact .inr (List.mem_cons_of_mem _ h)

end Table

namespace ScopeGraph

variable {g : ScopeGraph} {shelf : Shelf α} {a : α}

/-- A declaration stands on the shelf of some scope. -/
def OnShelf (g : ScopeGraph) (shelf : Shelf α) (a : α) : Prop :=
  ∃ id, a ∈ (shelf (g.scope id)).values

/-! ### What a name means -/

theorem onShelf_of_climb {top : ScopeId} {n : Nat}
    (h : g.climb top shelf name n id = some a) : g.OnShelf shelf a := by
  induction n generalizing id with
  | zero => cases h
  | succ n ih =>
    unfold climb at h
    dsimp only at h
    split at h
    · cases h
    · split at h
      · rename_i hfind
        exact ⟨id, Table.mem_values_of_find? (hfind.trans h)⟩
      · split at h
        · split at h
          · cases h
          · exact ih h
        · cases h

theorem onShelf_of_searchLevel {below level : List ScopeId}
    (h : g.searchLevel shelf first more leaf below level = .found a) : g.OnShelf shelf a := by
  induction level generalizing below with
  | nil => cases h
  | cons id ids ih =>
    unfold searchLevel at h
    dsimp only at h
    split at h
    · exact ih h
    · split at h
      · split at h
        · split at h
          · rename_i hfind
            cases h
            exact ⟨id, Table.mem_values_of_find? hfind⟩
          · exact ih h
        · cases h
      · exact ih h

theorem onShelf_of_descend {level : List ScopeId}
    {n : Nat} (h : g.descend shelf leaf n first more level = some a) : g.OnShelf shelf a := by
  induction n generalizing first more level with
  | zero => cases h
  | succ n ih =>
    cases level with
    | nil => cases h
    | cons id ids =>
      rw [descend] at h
      · split at h
        · rename_i hfound
          cases h
          exact onShelf_of_searchLevel hfound
        · exact ih h
      · simp

end ScopeGraph

/-- **What a name means** stands on a shelf of some scope. -/
theorem Cursor.onShelf_of_resolve {c : Cursor} {g : ScopeGraph} {shelf : Shelf α}
    {a : α} (h : c.resolve g shelf name = some a) : g.OnShelf shelf a := by
  unfold resolve at h
  split at h
  · exact ScopeGraph.onShelf_of_descend h
  · unfold resolvePlain at h
    split at h
    · rename_i hfind
      exact ⟨c.top, Table.mem_values_of_find? (hfind.trans h)⟩
    · split at h
      · rename_i hfind
        exact ⟨c.here, Table.mem_values_of_find? (hfind.trans h)⟩
      · split at h
        · exact ScopeGraph.onShelf_of_climb h
        · cases h

/-! ### Changing the graph -/

namespace ScopeGraph

variable {g : ScopeGraph} {shelf : Shelf α} {a : α}

theorem onShelf_of_add {s : Scope} (h : (g.add s).2.OnShelf shelf a) :
    a ∈ (shelf s).values ∨ g.OnShelf shelf a := by
  obtain ⟨id, h⟩ := h
  unfold add scope at h
  rw [Array.getElem?_push] at h
  split at h
  · exact .inl h
  · exact .inr ⟨id, h⟩

theorem onShelf_of_modify (h : (g.modify id f).OnShelf shelf a) :
    a ∈ (shelf (f (g.scope id))).values ∨ g.OnShelf shelf a := by
  obtain ⟨x, h⟩ := h
  unfold modify scope at h
  rw [Array.getElem?_modify] at h
  split at h
  · rename_i hx
    subst x
    cases hs : g.scopes[id]? with
    | none => exact .inr ⟨id, by simpa [scope, hs] using h⟩
    | some s => exact .inl (by simpa [scope, hs] using h)
  · exact .inr ⟨x, h⟩

theorem onShelf_of_modify_of_eq
    (hf : ∀ s, shelf (f s) = shelf s) (h : (g.modify id f).OnShelf shelf a) :
    g.OnShelf shelf a := by
  rcases onShelf_of_modify h with h | h
  · exact ⟨id, hf _ ▸ h⟩
  · exact h

variable {c other : Cursor} {d : Command}

theorem onShelf_of_adopt {parent child : ScopeId}
    (h : (g.adopt parent child).OnShelf (·.commands) d) : g.OnShelf (·.commands) d := by
  unfold adopt at h
  have h := onShelf_of_modify_of_eq (by intro s; rfl) h
  exact onShelf_of_modify_of_eq (by intro s; rfl) h

theorem onShelf_of_enterNew {s : Scope} (hs : s.commands = .empty)
    (h : (c.enterNew g s).2.OnShelf (·.commands) d) : g.OnShelf (·.commands) d := by
  rcases onShelf_of_add (onShelf_of_adopt h) with h | h
  · rw [hs] at h
    cases h
  · exact h

theorem onShelf_of_start (h : (Cursor.start g).2.OnShelf (·.commands) d) :
    g.OnShelf (·.commands) d := by
  rcases onShelf_of_add h with h | h
  · cases h
  · exact h

theorem onShelf_of_mount (h : (c.mount g other name).OnShelf (·.commands) d) :
    g.OnShelf (·.commands) d := by
  have h := onShelf_of_adopt h
  exact onShelf_of_modify_of_eq (by intro s; rfl) h

/-- Copied commands stood on a shelf already. -/
theorem onShelf_of_takeAll (h : (c.takeAll g other).OnShelf (·.commands) d) :
    g.OnShelf (·.commands) d := by
  rcases onShelf_of_modify h with h | h
  · rcases Table.mem_values_merge h with h | h
    · exact ⟨_, h⟩
    · exact ⟨_, h⟩
  · exact h

/-- Declaring a command brings that command. -/
theorem onShelf_of_addCommand {new : Command} (h : (c.addCommand g new).OnShelf (·.commands) d) :
    d = new ∨ g.OnShelf (·.commands) d := by
  rcases onShelf_of_modify h with h | h
  · exact (Table.mem_values_insert h).imp_right fun h => ⟨_, h⟩
  · exact .inr h

end ScopeGraph

end EvScript
