import EvScript.Number.Literal
import EvScript.Proofs.Scope.Declared

/-!
# Scopes that Hold What They Should

Scopes are sound if the number of every command is **known** to be declared somewhere, no constant
is a string, and a constant integer is kept as the word of an integer. Moving through the graph,
naming scopes and putting them into one another keep it; declaring keeps it if what is declared is
sound.
-/

namespace EvScript

variable {v : Variable} {s : Scope} {d : Command}
variable {known : Option Int → Prop}

/-- The number of the command is known. -/
def Command.Sound (known : Option Int → Prop) (d : Command) : Prop := known d.number

/-- The variable is no constant string, and a constant integer is the word of an integer. -/
structure Variable.Sound (v : Variable) : Prop where
  type_ne : v.constant.isSome = true → v.type ≠ .string
  word : v.type = .integer → ∀ c, v.constant = some c →
    ∃ n, (Number.Quantity.int n).encode = .ok c

/-- A variable that is not constant is sound. -/
theorem Variable.sound_of_none (h : v.constant = none) : v.Sound :=
  ⟨fun hsome => by simp [h] at hsome, fun _ c hc => by simp [h] at hc⟩

/-- The commands and variables of the scope are sound. -/
structure Scope.Sound (known : Option Int → Prop) (s : Scope) : Prop where
  commands : ∀ d ∈ s.commands.values, d.Sound known
  vars : ∀ v ∈ s.vars.values, v.Sound

/-- All scopes of the graph are sound. -/
def ScopeGraph.Sound (known : Option Int → Prop) (g : ScopeGraph) : Prop :=
  ∀ id, (g.scope id).Sound known

/-- A scope that declares nothing is sound. -/
theorem Scope.sound_of_empty (hc : s.commands = .empty) (hv : s.vars = .empty) : s.Sound known := by
  refine ⟨fun d hd => ?_, fun v hv' => ?_⟩
  · rw [hc] at hd
    cases hd
  · rw [hv] at hv'
    cases hv'

/-- Only commands and variables count. -/
theorem Scope.Sound.of_eq {s' : Scope} (h : s.Sound known) (hc : s'.commands = s.commands)
    (hv : s'.vars = s.vars) : s'.Sound known :=
  ⟨fun d hd => h.commands d (hc ▸ hd), fun v hv' => h.vars v (hv ▸ hv')⟩

theorem Scope.Sound.addVariable (h : s.Sound known) (hv : v.Sound) :
    Scope.Sound known { s with vars := s.vars.insert v.name v } := by
  refine ⟨h.commands, fun w hw => ?_⟩
  rcases Table.mem_values_insert hw with rfl | hw
  · exact hv
  · exact h.vars w hw

theorem Scope.Sound.addCommand (h : s.Sound known) (hd : d.Sound known) :
    Scope.Sound known { s with commands := s.commands.insert d.name d } := by
  refine ⟨fun c hc => ?_, h.vars⟩
  rcases Table.mem_values_insert hc with rfl | hc
  · exact hd
  · exact h.commands c hc

/-- Parameters are declared one by one. -/
theorem Scope.Sound.insertAll {vs : List Variable} (h : s.Sound known) (hvs : ∀ v ∈ vs, v.Sound) :
    Scope.Sound known
      { s with vars := vs.foldl (fun t v => t.insert v.name v) s.vars } := by
  induction vs generalizing s with
  | nil => exact h
  | cons v vs ih =>
    have hstep := h.addVariable (hvs v List.mem_cons_self)
    exact ih hstep fun w hw => hvs w (List.mem_cons_of_mem _ hw)

namespace ScopeGraph

variable {g : ScopeGraph} {id : ScopeId} {s : Scope} {f : Scope → Scope}

theorem sound_empty : empty.Sound known :=
  fun _ => Scope.sound_of_empty rfl rfl

theorem Sound.add (h : g.Sound known) (hs : s.Sound known) : (g.add s).2.Sound known := by
  intro x
  have hx := h x
  unfold ScopeGraph.add scope
  rw [Array.getElem?_push]
  split
  · exact hs
  · exact hx

/-- A change of one scope that keeps it sound keeps all sound. -/
theorem Sound.modify (h : g.Sound known) (hf : ∀ s : Scope, s.Sound known → (f s).Sound known) :
    (g.modify id f).Sound known := by
  intro x
  have hx := h x
  unfold ScopeGraph.modify scope
  unfold scope at hx
  rw [Array.getElem?_modify]
  split
  · rename_i hid
    subst hid
    cases hs : g.scopes[id]? with
    | none => simpa [hs] using hx
    | some s =>
      rw [hs] at hx
      exact hf s hx
  · exact hx

theorem Sound.modify_of_eq (h : g.Sound known) (hc : ∀ s, (f s).commands = s.commands)
    (hv : ∀ s, (f s).vars = s.vars) : (g.modify id f).Sound known :=
  h.modify fun s hs => hs.of_eq (hc s) (hv s)

theorem Sound.adopt (h : g.Sound known) (parent child : ScopeId) :
    (g.adopt parent child).Sound known := by
  have hchild : (g.modify child fun s => { s with parent := some parent }).Sound known :=
    h.modify_of_eq (fun _ => rfl) fun _ => rfl
  exact hchild.modify_of_eq (fun _ => rfl) fun _ => rfl

variable {c other : Cursor}

theorem Sound.enterNew (h : g.Sound known) (hs : s.Sound known) : (c.enterNew g s).2.Sound known :=
  (h.add hs).adopt _ _

theorem Sound.start (h : g.Sound known) : (Cursor.start g).2.Sound known :=
  h.add (Scope.sound_of_empty rfl rfl)

theorem Sound.mount (h : g.Sound known) (name : String) : (c.mount g other name).Sound known := by
  have hnamed : (g.modify other.top fun s => { s with name := some name }).Sound known :=
    h.modify_of_eq (fun _ => rfl) fun _ => rfl
  exact hnamed.adopt _ _

/-- Taking over declarations that are sound keeps scopes sound. -/
theorem Sound.takeAll (h : g.Sound known) : (c.takeAll g other).Sound known := by
  have hfrom := h other.top
  refine h.modify fun s hs => ⟨fun d hd => ?_, fun v hv => ?_⟩
  · rcases Table.mem_values_merge hd with hd | hd
    · exact hs.commands d hd
    · exact hfrom.commands d hd
  · rcases Table.mem_values_merge hv with hv | hv
    · exact hs.vars v hv
    · exact hfrom.vars v hv

theorem Sound.addFunction (h : g.Sound known) (f : Function) : (c.addFunction g f).Sound known :=
  h.modify_of_eq (fun _ => rfl) fun _ => rfl

/-- So does a declaration of a variable that is. -/
theorem Sound.addVariable (h : g.Sound known) (hv : v.Sound) : (c.addVariable g v).Sound known :=
  h.modify fun _ hs => hs.addVariable hv

theorem Sound.addCommand (h : g.Sound known) (hd : d.Sound known) :
    (c.addCommand g d).Sound known :=
  h.modify fun _ hs => hs.addCommand hd

/-! ### What a name means -/

/-- Every command in sound scopes has a known number. -/
theorem Sound.command (h : g.Sound known) (hd : g.OnShelf (·.commands) d) : known d.number := by
  obtain ⟨x, hx⟩ := hd
  exact (h x).commands d hx

/-- Every variable in sound scopes is sound. -/
theorem Sound.variable (h : g.Sound known) (hv : g.OnShelf (·.vars) v) : v.Sound := by
  obtain ⟨x, hx⟩ := hv
  exact (h x).vars v hx

end ScopeGraph

end EvScript
