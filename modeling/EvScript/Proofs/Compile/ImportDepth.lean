import Mathlib.Data.Finset.Card
import Mathlib.Logic.Relation
import EvScript.Proofs.Compile.Rereading

/-!
# How Deep Imports Nest

A file that is compiled to the end has had all its imports compiled to the end, each with one level
less to go. So it does not import itself, directly or through others, and its imports nest no deeper
than there are files that can be come to; from there on the limit does not matter.
-/

namespace EvScript

open CompileM ScopeGraph

variable {fs : Files} {mode : ReadMode} {path p q : String} {n : Nat}

/-- The file at a path imports another one, directly or through others, or is that file. -/
def Files.Leads (fs : Files) (mode : ReadMode) : String → String → Prop :=
  Relation.ReflTransGen fun p q => q ∈ fs.imports mode p

/-- Along any chain of imports from the file at a path there are at most `n` files. -/
def Files.NestsWithin (fs : Files) (mode : ReadMode) : Nat → String → Prop
  | 0, _ => False
  | n + 1, path => ∀ q ∈ fs.imports mode path, NestsWithin fs mode n q

namespace Files.NestsWithin

theorem succ (h : fs.NestsWithin mode n p) : fs.NestsWithin mode (n + 1) p := by
  induction n generalizing p with
  | zero => exact h.elim
  | succ n ih => exact fun q hq => ih (h q hq)

theorem mono (h : fs.NestsWithin mode n p) {n' : Nat} (hle : n ≤ n') :
    fs.NestsWithin mode n' p := by
  induction hle with
  | refl => exact h
  | step _ ih => exact ih.succ

/-- What a file leads to nests no deeper. -/
theorem of_leads (h : fs.NestsWithin mode n p) (hleads : fs.Leads mode p q) :
    fs.NestsWithin mode n q := by
  induction hleads with
  | refl => exact h
  | tail _ hq ih =>
    cases n with
    | zero => exact ih.elim
    | succ n => exact (ih _ hq).succ

/-- **No file leads to itself** if its imports nest only so deep. -/
theorem not_leads (h : fs.NestsWithin mode n p) (hq : q ∈ fs.imports mode p) :
    ¬ fs.Leads mode q p := by
  intro hleads
  induction n with
  | zero => exact h
  | succ n ih => exact ih ((h q hq).of_leads hleads)

/-- **The number of files that can be come to is limit enough.** -/
theorem card (h : fs.NestsWithin mode n p) {all : Finset String}
    (hall : ∀ q, fs.Leads mode p q → q ∈ all) : fs.NestsWithin mode all.card p := by
  induction n generalizing p all with
  | zero => exact h.elim
  | succ n ih =>
    have hp : p ∈ all := hall p .refl
    rw [← Finset.card_erase_add_one hp]
    intro q hq
    -- from an import the file itself cannot be come to again
    refine ih (h q hq) fun r hr => Finset.mem_erase.mpr ⟨?_, hall r (.head hq hr)⟩
    rintro rfl
    exact h.not_leads hq hr

theorem alike (h : fs.NestsWithin mode n p) {n' : Nat} (hle : n ≤ n') :
    Files.Alike mode fs fs n n' p := by
  induction n generalizing p n' with
  | zero => exact h.elim
  | succ n ih =>
    obtain ⟨n', rfl⟩ : ∃ k, n' = k + 1 := ⟨n' - 1, by omega⟩
    exact ⟨.of_bytes rfl, fun q hq => ih (h q hq) (by omega)⟩

end Files.NestsWithin

/-- **Files that do not lead to the one that is different** are alike. -/
theorem Files.alike_put {text text' : String}
    (h : ¬ (fs.put path text).Leads mode p path) (n : Nat) :
    Files.Alike mode (fs.put path text) (fs.put path text') n n p := by
  induction n generalizing p with
  | zero => trivial
  | succ n ih =>
    refine ⟨Files.readAlike_put_of_ne ?_, fun q hq => ih fun hleads => h (.head hq hleads)⟩
    rintro rfl
    exact h .refl

/-! ### Files that are compiled to the end -/

variable {τ : FileQueries} {importer : Importer} {s t : CompileState}

/-- A state that is matched matches itself. -/
theorem CompileState.Matches.self {π : Shift} {s' : CompileState} (h : s.Matches π τ s') :
    s.Matches .same τ s :=
  .refl h.here h.path

theorem CompileM.Tracks.self {α β : Type} {R : α → β → Prop} {m : CompileM α} {m' : CompileM β}
    {a : α} (h : Tracks .same τ R m m') (hs : s.Matches .same τ s) (hy : Yields m s a t) :
    t.Matches .same τ t := by
  obtain ⟨_, _, -, -, ht⟩ := h.yields hs hy
  exact ht.self

/-- The file that is imported by a name is there and was compiled to the end. -/
def ImportedFrom (fs : Files) (importer : Importer) (τ : FileQueries) (name : String) : Prop :=
  ∃ q u c v, findImport fs τ.path name = some q ∧ u.Matches .same τ u ∧ Yields (importer q) u c v

theorem importedFrom_of_yields {name : Option String} {pos : Pos} {r : String × Cursor}
    (hs : s.Matches .same τ s) (h : Yields (importByName fs importer name pos) s r t) :
    ∀ m ∈ name.toList, ImportedFrom fs importer τ m := by
  intro m hm
  obtain rfl := Option.mem_toList.mp hm
  simp only [importByName, need, pure_bind] at h
  replace h := h.get_bind
  rw [hs.path] at h
  cases hfind : findImport fs τ.path m with
  | none =>
    rw [hfind] at h
    exact h.stop.elim
  | some q =>
    rw [hfind] at h
    obtain ⟨c, v, hy, -⟩ := h.bind
    exact ⟨q, s, c, v, hfind, hs, hy⟩

mutual

theorem importedFrom_of_entry (hself : ∀ names, ImportAlike .same τ names fs fs importer importer)
    (hasks : ∀ n, τ.asks n) :
    ∀ (e : Entry) (s t : CompileState), s.Matches .same τ s →
    Yields (compileEntry fs importer e) s () t → ∀ m ∈ e.imports, ImportedFrom fs importer τ m
  | .importAll name pos, s, t, hs, h, m, hm => by
    obtain ⟨r, u, hr, -⟩ := h.bind
    exact importedFrom_of_yields hs hr m hm
  | .importFrom name everything pos, s, t, hs, h, m, hm => by
    obtain ⟨r, u, hr, -⟩ := h.bind
    exact importedFrom_of_yields hs hr m hm
  | .space name entries, s, t, hs, h, m, hm => by
    obtain ⟨word, -, h⟩ := h.need_bind
    obtain ⟨_, u, henter, h⟩ := h.bind
    obtain ⟨_, v, hentries, -⟩ := h.bind
    have hu := (tracks_enterScope (Scope.shifted_fresh .same (some word)) ⟨rfl, rfl⟩
      ⟨rfl, rfl⟩).self hs henter
    exact importedFrom_of_entries hself hasks entries u v hu hentries m hm
  | .define _, _, _, _, _, _, hm | .command _, _, _, _, _, _, hm | .function _, _, _, _, _, _, hm
  | .inert _, _, _, _, _, _, hm => nomatch hm

/-- Entries that are compiled to the end have had their imports compiled to the end. -/
theorem importedFrom_of_entries (hself : ∀ names, ImportAlike .same τ names fs fs importer importer)
    (hasks : ∀ n, τ.asks n) :
    ∀ (es : List Entry) (s t : CompileState), s.Matches .same τ s →
    Yields (compileEntries fs importer es) s () t →
    ∀ m ∈ entriesImports es, ImportedFrom fs importer τ m
  | [], _, _, _, _, _, hm => nomatch hm
  | e :: es, s, t, hs, h, m, hm => by
    obtain ⟨_, u, he, hes⟩ := h.bind
    rcases List.mem_append.mp hm with hm | hm
    · exact importedFrom_of_entry hself hasks e s u hs he m hm
    · have hu := (tracks_compileEntry e (fun n _ => hasks n) (hself _)).self hs he
      exact importedFrom_of_entries hself hasks es u t hu hes m hm

end

/-- **The imports of a file that was compiled to the end nest within the limit.** -/
theorem nestsWithin_of_yields (hs : s.Matches .same (.any path) s)
    (h : Yields (compileFile fs mode n path) s () t) : fs.NestsWithin mode n path := by
  induction n generalizing path s t with
  | zero => exact h.throw.elim
  | succ n ih =>
    rw [compileFile_succ] at h
    obtain ⟨tree, u, hload, h⟩ := h.bind
    have hread : ReadAlike mode fs fs path := .of_bytes rfl
    have hu := (hread .same (.any path)).self hs hload
    intro q hq
    obtain ⟨tree', htree', hq⟩ := List.mem_flatMap.mp hq
    obtain rfl : tree' = tree := Option.some.inj
      ((Option.mem_toList.mp htree').symm.trans (Files.tree?_of_yields hload))
    obtain ⟨name, hname, hfind⟩ := List.mem_filterMap.mp hq
    have hself := importAlike_self (π := .same) fs mode n (.any path)
    obtain ⟨q', v, c, w, hfind', hv, hy⟩ :=
      importedFrom_of_entries hself (fun _ => trivial) tree'.entries u t hu h name hname
    obtain rfl : q' = q := Option.some.inj (hfind'.symm.trans hfind)
    -- the file was compiled where it was imported
    obtain ⟨_, x, hprint, hy⟩ := hy.bind
    obtain ⟨y, hy, -, -⟩ := yields_inFile.mp hy
    have hx := (tracks_printLine _).self hv hprint
    exact ih (hx.fresh q') hy

end EvScript
