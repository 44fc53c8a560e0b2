import Mathlib.Data.List.TakeWhile
import EvScript.Proofs.Scope.Order

/-!
# Importing by Names

Importing names of a file goes through the names one by one. A name that the global scope of the
file declares is copied into the current scope at once; the first one that it does not declare ends
the import. So an import that fails leaves behind what was copied in front of that name, and nothing
is changed only if all of it was there before. The answer tells a failure from a success, but it is
never `true`: a failed import answers `false`, and one that goes to the end answers nothing.

## Main results

* `takeNames_changes` — what an import by names answers and leaves behind.
-/

namespace EvScript

theorem Table.insert_of_find? {κ α : Type} [DecidableEq κ] {t : Table κ α} {key : κ} {value : α}
    (h : t.find? key = some value) : t.insert key value = t := by
  obtain ⟨es⟩ := t
  simp only [insert, find?, mk.injEq] at h ⊢
  induction es with
  | nil => cases h
  | cons e es ih =>
    rw [insertIn]
    split
    · rename_i he
      rw [List.find?_cons_of_pos (by simpa using he)] at h
      rw [← he, ← Option.some.inj h]
    · rename_i he
      rw [List.find?_cons_of_neg (by simpa using he)] at h
      rw [ih h]

/-! ### Declarations of any kind -/

/-- A declaration. -/
inductive Declaration where
  | animation (a : Animation)
  | command (d : Command)
  | function (f : Function)
  | var (v : Variable)
  deriving DecidableEq

/-- The declarations are of the same kind. -/
def Declaration.sameKind (d d' : Declaration) : Bool := d.ctorIdx == d'.ctorIdx

namespace Scope

variable {s source : Scope} {name key : String} {names : List String} {d d' : Declaration}

/-- What a scope has under a name. A name that is declared several times is an animation first, then
a command, then a function. -/
def declaration? (s : Scope) (name : String) : Option Declaration :=
  ((s.animations.find? name).map .animation).or <| ((s.commands.find? name).map .command).or <|
    ((s.functions.find? name).map .function).or ((s.vars.find? name).map .var)

/-- Whether a scope declares a name. -/
def declares (s : Scope) (name : String) : Bool := (s.declaration? name).isSome

/-- Under the name there is this declaration, among those of its kind. -/
def Holds (s : Scope) (name : String) : Declaration → Prop
  | .animation a => s.animations.find? name = some a
  | .command d => s.commands.find? name = some d
  | .function f => s.functions.find? name = some f
  | .var v => s.vars.find? name = some v

/-- Put a declaration under a name. -/
def put (s : Scope) (name : String) : Declaration → Scope
  | .animation a => { s with animations := s.animations.insert name a }
  | .command d => { s with commands := s.commands.insert name d }
  | .function f => { s with functions := s.functions.insert name f }
  | .var v => { s with vars := s.vars.insert name v }

theorem holds_of_declaration? (h : s.declaration? name = some d) : s.Holds name d := by
  unfold declaration? at h
  cases ha : s.animations.find? name <;> cases hc : s.commands.find? name <;>
    cases hf : s.functions.find? name <;> cases hv : s.vars.find? name <;>
    simp_all [Option.or] <;> subst h <;> assumption

theorem takeName_eq : Cursor.takeName source name s =
    (source.declaration? name).map (s.put name) := by
  unfold Cursor.takeName declaration?
  cases source.animations.find? name <;> cases source.commands.find? name <;>
    cases source.functions.find? name <;> cases source.vars.find? name <;> rfl

theorem holds_put : (s.put name d).Holds key d' ↔
    if key = name ∧ d.sameKind d' then d = d' else s.Holds key d' := by
  by_cases hkey : key = name
  · subst hkey
    cases d <;> cases d' <;>
      simp [put, Holds, Declaration.sameKind, Declaration.ctorIdx, Table.find?_insert_self]
  · cases d <;> cases d' <;> simp [put, Holds, hkey, Table.find?_insert_of_ne _ _ hkey]

theorem put_eq_self_iff : s.put name d = s ↔ s.Holds name d := by
  constructor
  · intro h
    rw [← h, holds_put, if_pos ⟨rfl, beq_self_eq_true _⟩]
  · intro h
    cases d <;> simp only [put, Table.insert_of_find? h]

theorem around_put : (s.put name d).name = s.name ∧ (s.put name d).parent = s.parent ∧
    (s.put name d).children = s.children := by
  cases d <;> exact ⟨rfl, rfl, rfl⟩

/-- Put the declarations that a scope has under some names. -/
def putAll (source : Scope) (names : List String) (s : Scope) : Scope :=
  names.foldl (fun s name => ((source.declaration? name).map (s.put name)).getD s) s

theorem putAll_cons (h : source.declaration? name = some d) :
    source.putAll (name :: names) s = source.putAll names (s.put name d) := by
  rw [putAll, List.foldl_cons, h]
  rfl

/-- **What a row of names brings**: each name the declaration that the source has under it. -/
theorem holds_putAll (h : ∀ name ∈ names, source.declares name = true) :
    (source.putAll names s).Holds key d ↔
      if key ∈ names ∧ (source.declaration? key).any (·.sameKind d) then
        source.declaration? key = some d
      else s.Holds key d := by
  induction names generalizing s with
  | nil => simp [putAll]
  | cons name names ih =>
    obtain ⟨hname, hnames⟩ := List.forall_mem_cons.mp h
    obtain ⟨d₀, hd₀⟩ := Option.isSome_iff_exists.mp hname
    rw [putAll_cons hd₀, ih hnames, holds_put]
    by_cases hkey : key = name
    · subst hkey
      simp only [hd₀, Option.any_some, List.mem_cons, true_or, true_and, Option.some.injEq]
      split <;> split <;> simp_all
    · simp [hkey]

theorem around_putAll : (source.putAll names s).name = s.name ∧
    (source.putAll names s).parent = s.parent ∧ (source.putAll names s).children = s.children := by
  induction names generalizing s with
  | nil => exact ⟨rfl, rfl, rfl⟩
  | cons name names ih =>
    cases hd : source.declaration? name with
    | none => rw [putAll, List.foldl_cons, hd]; exact ih
    | some d =>
      rw [putAll_cons hd]
      obtain ⟨hname, hparent, hchildren⟩ : (s.put name d).name = s.name ∧
        (s.put name d).parent = s.parent ∧ (s.put name d).children = s.children := around_put
      rw [← hname, ← hparent, ← hchildren]
      exact ih

theorem putAll_eq_self_iff (h : ∀ name ∈ names, source.declares name = true) :
    source.putAll names s = s ↔
      ∀ name ∈ names, ∀ d, source.declaration? name = some d → s.Holds name d := by
  constructor
  · intro hself name hname d hd
    rw [← hself, holds_putAll h, if_pos ⟨hname, by simp [hd, Declaration.sameKind]⟩, hd]
  · intro hthere
    induction names with
    | nil => rfl
    | cons name names ih =>
      obtain ⟨hname, hnames⟩ := List.forall_mem_cons.mp h
      obtain ⟨hfirst, hrest⟩ := List.forall_mem_cons.mp hthere
      obtain ⟨d, hd⟩ := Option.isSome_iff_exists.mp hname
      rw [putAll_cons hd, put_eq_self_iff.mpr (hfirst d hd)]
      exact ih hnames hrest

end Scope

/-! ### Going through the names -/

theorem ScopeGraph.ext_scope {g g' : ScopeGraph} (hsize : g.size = g'.size)
    (h : ∀ x, g.scope x = g'.scope x) : g = g' := by
  obtain ⟨xs⟩ := g
  obtain ⟨ys⟩ := g'
  refine congrArg mk (Array.ext hsize fun i hi hi' => ?_)
  simpa [scope, Array.getElem?_eq_getElem hi, Array.getElem?_eq_getElem hi'] using h i

namespace Cursor

open ScopeGraph

variable {c other : Cursor} {g : ScopeGraph} {names : List String}

theorem modify_putAll_nil (source : Scope) : g.modify c.here (source.putAll []) = g := by
  refine ext_scope size_modify fun x => ?_
  rw [scope_modify]
  split
  · rename_i hx
    rw [hx.1]
    rfl
  · rfl

/-- **Going through the names.** One step copies a declaration into the current scope, which leaves
the global scope of the file as it is, also if the two are the same. -/
theorem takeNames_eq (hc : c.here < g.size) : c.takeNames other names g =
    (if names.all (g.scope other.top).declares then none else some false,
      g.modify c.here ((g.scope other.top).putAll
        (names.takeWhile (g.scope other.top).declares))) := by
  induction names generalizing g with
  | nil => rw [takeNames, List.takeWhile_nil, modify_putAll_nil, List.all_nil, if_pos rfl]
  | cons name names ih =>
    rw [takeNames, Scope.takeName_eq, List.takeWhile_cons, List.all_cons]
    cases hd : (g.scope other.top).declaration? name with
    | none =>
      have hnot : (g.scope other.top).declares name = false := by rw [Scope.declares, hd]; rfl
      simp only [Option.map_none, hnot, Bool.false_and, Bool.false_eq_true, if_false,
        modify_putAll_nil]
    | some d =>
      have hyes : (g.scope other.top).declares name = true := by rw [Scope.declares, hd]; rfl
      have hkept : (g.modify c.here fun _ => (g.scope c.here).put name d).scope other.top =
          g.scope other.top := by
        rw [scope_modify]
        split
        · rename_i hx
          rw [← hx.1, Scope.put_eq_self_iff]
          exact Scope.holds_of_declaration? hd
        · rfl
      simp only [Option.map_some, hyes, Bool.true_and, if_true]
      rw [ih (by rwa [size_modify]), hkept]
      refine congrArg (Prod.mk _) (ext_scope (by simp) fun x => ?_)
      by_cases hx : x = c.here
      · subst hx
        rw [scope_modify_self (by rwa [size_modify]), scope_modify_self hc, scope_modify_self hc,
          Scope.putAll_cons hd]
      · rw [scope_modify_of_ne hx, scope_modify_of_ne hx, scope_modify_of_ne hx]

/-- **An import by names is not all or nothing.** The answer is never `true`; there is none if the
global scope of the file declares all the names, and otherwise it is `false`. In the current scope,
each name in front of the first one that is not declared gets the declaration that the file has
under it, and all other entries, all other scopes and the place of the scope are as before. So
nothing is changed exactly if these names had these declarations already, also if the import fails.
-/
theorem takeNames_changes (c other : Cursor) (names : List String) (g : ScopeGraph)
    (hc : c.here < g.size) : ∃ answer g', c.takeNames other names g = (answer, g') ∧
      answer ≠ some true ∧
      (answer = none ↔ ∀ name ∈ names, (g.scope other.top).declares name = true) ∧
      (answer = some false ↔ ∃ name ∈ names, (g.scope other.top).declares name = false) ∧
      g'.size = g.size ∧ (∀ x, x ≠ c.here → g'.scope x = g.scope x) ∧
      (g'.scope c.here).name = (g.scope c.here).name ∧
      (g'.scope c.here).parent = (g.scope c.here).parent ∧
      (g'.scope c.here).children = (g.scope c.here).children ∧
      (∀ key d, (g'.scope c.here).Holds key d ↔
        if key ∈ names.takeWhile (g.scope other.top).declares ∧
            ((g.scope other.top).declaration? key).any (·.sameKind d) then
          (g.scope other.top).declaration? key = some d
        else (g.scope c.here).Holds key d) ∧
      (g' = g ↔ ∀ name ∈ names.takeWhile (g.scope other.top).declares, ∀ d,
        (g.scope other.top).declaration? name = some d → (g.scope c.here).Holds name d) := by
  have htaken : ∀ name ∈ names.takeWhile (g.scope other.top).declares,
      (g.scope other.top).declares name = true := fun _ => List.mem_takeWhile_imp
  refine ⟨_, _, takeNames_eq hc, ?_, ?_, ?_, size_modify, fun x hx => scope_modify_of_ne hx, ?_⟩
  · split <;> decide
  · rw [← List.all_eq_true]
    split <;> simp_all
  · split <;> simp_all
  · rw [scope_modify_self hc]
    obtain ⟨hname, hparent, hchildren⟩ := Scope.around_putAll (s := g.scope c.here)
    refine ⟨hname, hparent, hchildren, fun key d => Scope.holds_putAll htaken, ?_⟩
    rw [← Scope.putAll_eq_self_iff htaken]
    constructor
    · intro h
      conv_rhs => rw [← h]
      exact (scope_modify_self hc).symm
    · intro h
      refine ext_scope size_modify fun x => ?_
      by_cases hx : x = c.here
      · rw [hx, scope_modify_self hc, h]
      · exact scope_modify_of_ne hx

/-- A failed import of two names that has brought the first one. -/
theorem first_name_taken : ∃ (c other : Cursor) (g g' : ScopeGraph), c.here < g.size ∧
    c.takeNames other ["x", "y"] g = (some false, g') ∧ g' ≠ g ∧
    (g'.scope c.here).Holds "x" (.animation ⟨"x", 0, .start⟩) := by
  let source : Scope := { animations := ⟨[("x", ⟨"x", 0, .start⟩)]⟩ }
  obtain ⟨answer, g', heq, -, -, hanswer, -, -, -, -, -, hholds, hsame⟩ :=
    takeNames_changes ⟨0, 0, []⟩ ⟨1, 1, []⟩ ["x", "y"] ⟨#[{}, source]⟩ (by decide)
  have hfalse : answer = some false := hanswer.mpr ⟨"y", by decide, by decide⟩
  refine ⟨_, _, _, g', by decide, hfalse ▸ heq, fun h => ?_, (hholds _ _).mpr ?_⟩
  · exact absurd (hsame.mp h "x" (by decide) _ rfl) nofun
  · rw [if_pos ⟨by decide, by decide⟩]
    rfl

end Cursor

end EvScript
