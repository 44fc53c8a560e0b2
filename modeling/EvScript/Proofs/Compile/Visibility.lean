import EvScript.Proofs.Compile.Stations
import EvScript.Proofs.Scope.Paths

/-!
# Names in a Run

The scopes are in order at every station of a run, so what is known about searches and blocks holds
throughout. The global scope is asked first and the others from the inside out: a local variable or
a parameter cannot be reached by its name if the file, or one whose declarations it took over,
declares a global variable of that name. And of a qualified name the front parts lead to one scope,
and other paths are not followed, even if one of them is the only one to a declaration.

## Main results

* `names_kept_by_blocks` — blocks do not leak names.
* `resolve_eq_global_or_innermost`, `resolve_finds_seen` — what a plain name means.
* `resolve_qualified_iff` — what a qualified name means.
-/

namespace EvScript

open CompileM ScopeGraph

variable {fs : Files} {mode : ReadMode} {path : String} {r : Run}

/-- What a name means in a state. -/
def CompileState.meaning {α : Type} (s : CompileState) (shelf : Shelf α) (name : String) :
    Option α :=
  s.file.cursor.resolve s.graph shelf name

/-! ### Blocks -/

/-- A block that goes on has changed no name. -/
theorem LeavesBlock.meaning_eq {s t : CompileState} (h : LeavesBlock s t) (hs : s.Scoped)
    (ht : t.Scoped) {α : Type} {shelf : Shelf α} (hshelf : IgnoresChildren shelf)
    (name : String) : t.meaning shelf name = s.meaning shelf name := by
  rw [CompileState.meaning, h.cursor]
  exact h.gains.resolve_eq hs.ordered ht.ordered hs.rooted hshelf name

/-- **Blocks do not leak names, and what is entered is left.** Let a block be compiled from any
state that has the scopes of a station of a run of a script, in a scope without a name and without
children. If it goes on, the current scope and those to go back to are the same, the graph has got
one child of the current scope and nothing else, and every name means the same variable, command
and function as before. So a run that comes to the end, be it the script or an import, is back at
its global scope with no scope to go back to. -/
theorem names_kept_by_blocks (fs : Files) (mode : ReadMode) (path : String) :
    (∀ r ∈ scriptRuns fs mode path, ∀ station ∈ r.stations fs mode,
      ∀ (scope : Scope) (l last : LabelId) (b : Block) (s t : CompileState),
      scope.name = none → scope.children = [] → SameScopes station s →
      Yields (compileBlock scope l b) s last t →
      t.file.cursor = s.file.cursor ∧
      s.graph.GainsBlock s.file.cursor.here t.graph ∧
      ∀ name : String, t.meaning (·.vars) name = s.meaning (·.vars) name ∧
        t.meaning (·.commands) name = s.meaning (·.commands) name ∧
        t.meaning (·.functions) name = s.meaning (·.functions) name) ∧
    (∀ r ∈ scriptRuns fs mode path, (r.ending fs mode).1 = .ok () →
      (r.ending fs mode).2.file.cursor.here = (r.ending fs mode).2.file.cursor.top ∧
      (r.ending fs mode).2.file.cursor.enclosing = []) ∧
    ((compileScript fs mode path).ended = .ok () →
      (compileScript fs mode path).state.file.cursor.here =
        (compileScript fs mode path).state.file.cursor.top ∧
      (compileScript fs mode path).state.file.cursor.enclosing = []) := by
  refine ⟨?_, fun r hr hok => cursor_of_ending_ok hr hok,
    fun hok => cursor_of_ending_ok (mainRun_mem fs mode path) hok⟩
  intro r hr station hs scope l last b s t hname hchildren hsame hy
  have hscoped := (scoped_of_mem_stations hr hs).of_sameScopes hsame
  have hblock := along_compileBlock hname hchildren b s l
  have ht := hblock.scoped hscoped hy
  obtain ⟨-, -, hpost⟩ := hblock hscoped
  have hleaves := hpost last t hy
  exact ⟨hleaves.cursor, hleaves.gains, fun name =>
    ⟨hleaves.meaning_eq hscoped ht (fun _ _ => rfl) name,
      hleaves.meaning_eq hscoped ht (fun _ _ => rfl) name,
      hleaves.meaning_eq hscoped ht (fun _ _ => rfl) name⟩⟩

/-- A function with a local variable, in a file with a global variable of the same name. -/
def shadowFiles : Files :=
  ⟨[("shadow.evc", ("command c(int x):5;int v:9;function f()\x7bint v:3;c(v);\x7d").toUTF8)]⟩

/-- A block that defines an integer variable. -/
def definingBlock : Block :=
  .of ⟨1, 0⟩ [.define ⟨false, some ⟨"int", ⟨1, 1⟩⟩, some "w", some ⟨"7", some "7"⟩, none, ⟨1, 1⟩⟩]

set_option maxRecDepth 100000 in
/-- A block in a function: its variable is in its scope, and behind it the name means nothing. -/
theorem block_in_function : ∃ r ∈ scriptRuns shadowFiles .strict "shadow.evc",
    (r.ending shadowFiles .strict).1 = .ok () ∧
    (r.ending shadowFiles .strict).2.file.cursor.enclosing = [] ∧
    ∃ s ∈ r.stations shadowFiles .strict, ∃ last t,
      Yields (compileBlock {} 0 definingBlock) s last t ∧ s.file.cursor.enclosing ≠ [] ∧
      (t.graph.lookup (·.vars) "w" s.graph.size).isSome = true ∧
      t.file.cursor = s.file.cursor ∧ s.graph.GainsBlock s.file.cursor.here t.graph ∧
      t.meaning (·.vars) "w" = none ∧ t.meaning (·.vars) "v" = s.meaning (·.vars) "v" := by
  have hcheck : (((mainRun shadowFiles "shadow.evc").ending shadowFiles .strict).1.isOk &&
      ((mainRun shadowFiles "shadow.evc").stations shadowFiles .strict).any fun s =>
        decide (s.file.cursor.enclosing ≠ []) && (s.meaning (·.vars) "w").isNone &&
        (ending (compileBlock {} 0 definingBlock) s).1.isOk &&
        ((ending (compileBlock {} 0 definingBlock) s).2.graph.lookup (·.vars) "w"
          s.graph.size).isSome) = true := by
    decide +kernel
  simp only [Bool.and_eq_true, List.any_eq_true, decide_eq_true_eq, Option.isNone_iff_eq_none]
    at hcheck
  obtain ⟨hok, s, hs, ⟨⟨hinside, hw⟩, hblock⟩, hdeclared⟩ := hcheck
  have hmain := mainRun_mem shadowFiles .strict "shadow.evc"
  obtain ⟨hblocks, hends, -⟩ := names_kept_by_blocks shadowFiles .strict "shadow.evc"
  have hok : ((mainRun shadowFiles "shadow.evc").ending shadowFiles .strict).1 = .ok () := by
    cases hend : ((mainRun shadowFiles "shadow.evc").ending shadowFiles .strict).1 with
    | ok => rfl
    | error e =>
      rw [hend] at hok
      cases hok
  refine ⟨_, hmain, hok, (hends _ hmain hok).2, s, hs, ?_⟩
  generalize hend : ending (compileBlock {} 0 definingBlock) s = result at hblock hdeclared
  obtain ⟨e | last, t⟩ := result
  · cases hblock
  · obtain ⟨hcursor, hgains, hnames⟩ := hblocks _ hmain s hs {} 0 last definingBlock s t rfl rfl
      (.refl s) hend
    exact ⟨last, t, hend, hinside, hdeclared, hcursor, hgains, (hnames "w").1.trans hw,
      (hnames "v").1⟩

/-! ### Shadowing -/

/-- **A plain name means what the global scope declares, and only if that declares nothing the
innermost declaration.** At any station of any run of a script, the scopes that are seen come in an
order from the inside out. The name means the innermost of their declarations exactly if the global
scope has none, or has that one; in particular, what the current scope declares is meant by its
name exactly if no global declaration has the name. -/
theorem resolve_eq_global_or_innermost (fs : Files) (mode : ReadMode) (path : String) (r : Run)
    (hr : r ∈ scriptRuns fs mode path) (s : CompileState) (hs : s ∈ r.stations fs mode)
    {α : Type} (shelf : Shelf α) (name : String) (hplain : IsPlain name) :
    (∀ x, x ∈ s.file.cursor.outward s.graph ↔ s.file.cursor.Sees s.graph x) ∧
    s.meaning shelf name = (s.graph.lookup shelf name s.file.cursor.top).or
      (s.file.cursor.innermost s.graph shelf name) ∧
    (s.meaning shelf name = s.file.cursor.innermost s.graph shelf name ↔
      s.graph.lookup shelf name s.file.cursor.top = none ∨
      s.graph.lookup shelf name s.file.cursor.top =
        s.file.cursor.innermost s.graph shelf name) ∧
    ∀ d, s.graph.lookup shelf name s.file.cursor.here = some d →
      (s.meaning shelf name = some d ↔ s.graph.lookup shelf name s.file.cursor.top = none ∨
        s.graph.lookup shelf name s.file.cursor.top = some d) := by
  have hscoped := scoped_of_mem_stations hr hs
  have hmeaning : s.meaning shelf name = (s.graph.lookup shelf name s.file.cursor.top).or
      (s.file.cursor.innermost s.graph shelf name) :=
    Cursor.resolve_eq_or hscoped.ordered hscoped.rooted shelf hplain
  have hinner : s.meaning shelf name = s.file.cursor.innermost s.graph shelf name ↔
      s.graph.lookup shelf name s.file.cursor.top = none ∨
      s.graph.lookup shelf name s.file.cursor.top =
        s.file.cursor.innermost s.graph shelf name := by
    rw [hmeaning]
    cases s.graph.lookup shelf name s.file.cursor.top with
    | none => simp
    | some a => simp
  refine ⟨fun x => Cursor.mem_outward_iff hscoped.rooted, hmeaning, hinner, fun d hd => ?_⟩
  rwa [Cursor.innermost_of_here hd] at hinner

set_option maxRecDepth 100000 in
/-- Behind its definition, the local variable is there and its name means the global one. -/
theorem shadow_means_global : ∃ r ∈ scriptRuns shadowFiles .strict "shadow.evc",
    ∃ s ∈ r.stations shadowFiles .strict, ∃ inner outer : Variable,
      s.graph.lookup (·.vars) "v" s.file.cursor.here = some inner ∧ inner.storage = some 3 ∧
      s.file.cursor.innermost s.graph (·.vars) "v" = some inner ∧
      s.meaning (·.vars) "v" = some outer ∧ outer.storage = some 9 ∧
      s.graph.lookup (·.vars) "v" s.file.cursor.top ≠ none := by
  have hcheck : ((mainRun shadowFiles "shadow.evc").stations shadowFiles .strict).any (fun s =>
      decide ((s.graph.lookup (·.vars) "v" s.file.cursor.here).map (·.storage) = some (some 3)) &&
      decide ((s.meaning (·.vars) "v").map (·.storage) = some (some 9))) = true := by
    decide +kernel
  obtain ⟨s, hs, hcheck⟩ := List.any_eq_true.mp hcheck
  simp only [Bool.and_eq_true, decide_eq_true_eq, Option.map_eq_some_iff] at hcheck
  obtain ⟨⟨inner, hinner, h3⟩, outer, houter, h9⟩ := hcheck
  have hmain := mainRun_mem shadowFiles .strict "shadow.evc"
  obtain ⟨-, -, -, hhere⟩ := resolve_eq_global_or_innermost shadowFiles .strict "shadow.evc" _
    hmain s hs (·.vars) "v" (by rw [IsPlain]; decide +kernel)
  refine ⟨_, hmain, s, hs, inner, outer, hinner, h3, Cursor.innermost_of_here hinner, houter, h9,
    fun hnone => ?_⟩
  -- without a global declaration the name would mean the local one
  have hlocal := (hhere inner hinner).mpr (.inl hnone)
  rw [houter, Option.some.injEq] at hlocal
  rw [hlocal, h3] at h9
  cases h9

/-! ### Visibility -/

/-- **Names mean only what is seen.** At any station of any run of a script the global scope has no
parent, and for every name:

* a plain name means something exactly if a scope that is seen declares it, and then a declaration
  of such a scope;
* a qualified name consists of plain parts, joined by `::`. If it means something, there are scopes
  with its parts but the last as names, each reached from the one before by going down through
  scopes without a name, the first one from the global scope; and it means what the last of them
  declares under its last part;
* the search for it comes to one end, and this is what it means. -/
theorem resolve_finds_seen (fs : Files) (mode : ReadMode) (path : String) (r : Run)
    (hr : r ∈ scriptRuns fs mode path) (s : CompileState) (hs : s ∈ r.stations fs mode)
    {α : Type} (shelf : Shelf α) (name : String) :
    (s.graph.scope s.file.cursor.top).parent = none ∧
    (IsPlain name →
      ((s.meaning shelf name).isSome = true ↔ ∃ x, s.file.cursor.Sees s.graph x ∧
        (s.graph.lookup shelf name x).isSome = true) ∧
      ∀ d, s.meaning shelf name = some d →
        ∃ x, s.file.cursor.Sees s.graph x ∧ s.graph.lookup shelf name x = some d) ∧
    (¬ IsPlain name → ∃ parts last, nameParts name = (parts, last) ∧ parts ≠ [] ∧
      (∀ part ∈ parts ++ [last], IsPlain part) ∧ "::".intercalate (parts ++ [last]) = name ∧
      ∀ d, s.meaning shelf name = some d →
        ∃ x, s.graph.Path s.file.cursor.top parts x ∧ s.graph.lookup shelf last x = some d) ∧
    ∀ result, s.file.cursor.Searches s.graph shelf name result ↔ s.meaning shelf name = result := by
  obtain ⟨hg, hc⟩ := scoped_of_mem_stations hr hs
  refine ⟨hc.parent, fun hplain => ⟨Cursor.isSome_resolve_iff hg hc hplain, fun d hd =>
    Cursor.exists_sees_of_resolve hg hc hplain hd⟩, fun hname => ?_, fun result => ?_⟩
  · refine ⟨_, _, rfl, fun hnil => hname (nameParts_fst_eq_nil_iff.mp hnil),
      fun part hpart => isPlain_of_mem_nameParts hpart, intercalate_nameParts name, fun d hd => ?_⟩
    exact Cursor.exists_path_of_resolve hg hc hname hd
  · have hends := Cursor.searches_resolve hg hc shelf name
    constructor
    · exact fun h => hends.unique h
    · rintro rfl
      exact hends

/-- A namespace in a namespace, and the same name as a global variable. -/
def nestedFiles : Files :=
  ⟨[("nested.evc", ("int y:1;namespace a\x7bnamespace b\x7bint y:2;\x7d\x7dfunction f()\x7b" ++
    "int x:3;\x7d").toUTF8)]⟩

set_option maxRecDepth 100000 in
/-- In the function, the qualified name means the variable of the inner namespace, which lies at the
end of a path, and the plain one means the global variable. -/
theorem nested_path : ∃ r ∈ scriptRuns nestedFiles .strict "nested.evc",
    ∃ s ∈ r.stations nestedFiles .strict, s.file.cursor.enclosing ≠ [] ∧
      (∃ d x, s.meaning (·.vars) "a::b::y" = some d ∧ d.storage = some 2 ∧
        s.graph.Path s.file.cursor.top ["a", "b"] x ∧ s.graph.lookup (·.vars) "y" x = some d) ∧
      ∃ d x, s.meaning (·.vars) "y" = some d ∧ d.storage = some 1 ∧
        s.file.cursor.Sees s.graph x ∧ s.graph.lookup (·.vars) "y" x = some d := by
  have hcheck : ((mainRun nestedFiles "nested.evc").stations nestedFiles .strict).any (fun s =>
      decide (s.file.cursor.enclosing ≠ []) &&
      decide ((s.meaning (·.vars) "a::b::y").map (·.storage) = some (some 2)) &&
      decide ((s.meaning (·.vars) "y").map (·.storage) = some (some 1))) = true := by
    decide +kernel
  obtain ⟨s, hs, hcheck⟩ := List.any_eq_true.mp hcheck
  simp only [Bool.and_eq_true, decide_eq_true_eq, Option.map_eq_some_iff] at hcheck
  obtain ⟨⟨hinside, d, hd, h2⟩, e, he, h1⟩ := hcheck
  have hmain := mainRun_mem nestedFiles .strict "nested.evc"
  have hseen := resolve_finds_seen nestedFiles .strict "nested.evc" _ hmain s hs (·.vars)
  obtain ⟨-, -, hqualified, -⟩ := hseen "a::b::y"
  obtain ⟨-, hplain, -⟩ := hseen "y"
  obtain ⟨parts, last, hparts, -, -, -, hpath⟩ := hqualified (by rw [IsPlain]; decide +kernel)
  have hname : nameParts "a::b::y" = (["a", "b"], "y") := by decide +kernel
  obtain ⟨rfl, rfl⟩ := Prod.mk.inj (hname.symm.trans hparts)
  obtain ⟨x, hx, hlookup⟩ := hpath d hd
  obtain ⟨z, hz, hlookup'⟩ := (hplain (by rw [IsPlain]; decide +kernel)).2 e he
  exact ⟨_, hmain, s, hs, hinside, ⟨d, x, hd, h2, hx, hlookup⟩, e, z, he, h1, hz, hlookup'⟩

/-! ### Qualified names -/

/-- **A qualified name means something exactly if the way its front parts lead comes to a
declaration.** At any station of any run of a script, let a name consist of front parts, a last
qualifier and a leaf. All scopes below a scope are listed, and with them the front parts lead to at
most one scope, each to the first that has it as its name. The name means something exactly if a
scope below that one has the last qualifier as its name and declares the leaf.

So the name means something whenever a path with its qualifiers ends at a declaration of the leaf,
if no two paths with the same front parts have different ends; in particular if there is only one
qualifier, however many scopes share it. -/
theorem resolve_qualified_iff (fs : Files) (mode : ReadMode) (path : String) (r : Run)
    (hr : r ∈ scriptRuns fs mode path) (s : CompileState) (hs : s ∈ r.stations fs mode)
    {α : Type} (shelf : Shelf α) (name : String) (front : List String) (last leaf : String)
    (hname : nameParts name = (front ++ [last], leaf)) :
    (∀ a x, x ∈ s.graph.allBelow a ↔ s.graph.Below a x) ∧
    s.meaning shelf name = (s.graph.lead s.file.cursor.top front).bind
      (s.graph.declaredBelow shelf last leaf) ∧
    ((s.meaning shelf name).isSome = true ↔
      ∃ a x, s.graph.lead s.file.cursor.top front = some a ∧ s.graph.Below a x ∧
        (s.graph.scope x).name = some last ∧ (s.graph.lookup shelf leaf x).isSome = true) ∧
    (s.graph.OneWay s.file.cursor.top front ∨ front = [] →
      ((s.meaning shelf name).isSome = true ↔
        ∃ x, s.graph.Path s.file.cursor.top (front ++ [last]) x ∧
          (s.graph.lookup shelf leaf x).isSome = true)) := by
  obtain ⟨hg, hc⟩ := scoped_of_mem_stations hr hs
  have hmeaning : s.meaning shelf name = (s.graph.lead s.file.cursor.top front).bind
      (s.graph.declaredBelow shelf last leaf) := Cursor.resolve_eq_lead hg hc hname
  have hsome : (s.meaning shelf name).isSome = true ↔
      ∃ a x, s.graph.lead s.file.cursor.top front = some a ∧ s.graph.Below a x ∧
        (s.graph.scope x).name = some last ∧ (s.graph.lookup shelf leaf x).isSome = true := by
    rw [hmeaning]
    cases s.graph.lead s.file.cursor.top front with
    | none => simp
    | some a => simp [isSome_declaredBelow_iff hg]
  refine ⟨fun a x => mem_allBelow_iff hg, hmeaning, hsome, fun hone => ?_⟩
  rw [hsome]
  constructor
  · rintro ⟨a, x, hlead, hbelow, hx, hdeclared⟩
    exact ⟨x, path_concat_iff.mpr ⟨a, path_of_lead hg hlead, hbelow, hx⟩, hdeclared⟩
  · rintro ⟨x, hpath, hdeclared⟩
    obtain ⟨a, ha, hbelow, hx⟩ := path_concat_iff.mp hpath
    have hone : s.graph.OneWay s.file.cursor.top front := hone.elim id fun h => h ▸ oneWay_nil
    exact ⟨a, x, lead_eq_some_of_path hg hone ha, hbelow, hx, hdeclared⟩

/-- A namespace that is opened twice, with a namespace in its second part. -/
def reopenedFiles : Files :=
  ⟨[("reopened.evc", ("namespace a\x7bint z:1;\x7dnamespace a\x7bint w:4;namespace b\x7bint y:2;" ++
    "\x7d\x7dfunction f()\x7bint x:3;\x7d").toUTF8)]⟩

set_option maxRecDepth 100000 in
/-- In the function, what the second part declares is found with one qualifier, and what the
namespace in it declares is not found, although a path ends there: the front part leads to the
first part of the outer namespace, which has nothing below it. -/
theorem reopened_namespace_not_found :
    ∃ r ∈ scriptRuns reopenedFiles .strict "reopened.evc",
    ∃ s ∈ r.stations reopenedFiles .strict, s.file.cursor.enclosing ≠ [] ∧
      (∃ x, s.graph.Path s.file.cursor.top ["a"] x ∧
        (s.graph.lookup (·.vars) "w" x).isSome = true) ∧
      (s.meaning (·.vars) "a::w").isSome = true ∧
      (∃ x, s.graph.Path s.file.cursor.top ["a", "b"] x ∧
        (s.graph.lookup (·.vars) "y" x).isSome = true) ∧
      s.meaning (·.vars) "a::b::y" = none ∧
      ∃ a, s.graph.lead s.file.cursor.top ["a"] = some a ∧ ∀ x, ¬ s.graph.Below a x := by
  have hcheck : ((mainRun reopenedFiles "reopened.evc").stations reopenedFiles .strict).any
      (fun s => decide (s.file.cursor.enclosing ≠ []) &&
        (s.meaning (·.vars) "a::w").isSome && (s.meaning (·.vars) "a::b::y").isNone &&
        decide (s.file.cursor.top = 0) && decide (2 ∈ s.graph.allBelow 0) &&
        decide ((s.graph.scope 2).name = some "a") && decide (3 ∈ s.graph.allBelow 2) &&
        decide ((s.graph.scope 3).name = some "b") &&
        (s.graph.lookup (·.vars) "y" 3).isSome && decide (s.graph.lead 0 ["a"] = some 1) &&
        decide (s.graph.allBelow 1 = [])) = true := by
    decide +kernel
  obtain ⟨s, hs, hcheck⟩ := List.any_eq_true.mp hcheck
  simp only [Bool.and_eq_true, decide_eq_true_eq, Option.isNone_iff_eq_none] at hcheck
  obtain ⟨⟨⟨⟨⟨⟨⟨⟨⟨⟨hinside, hw⟩, hnone⟩, htop⟩, h2⟩, ha⟩, h3⟩, hb⟩, hy⟩, hlead⟩, h1⟩ := hcheck
  have hmain := mainRun_mem reopenedFiles .strict "reopened.evc"
  have hqualified := resolve_qualified_iff reopenedFiles .strict "reopened.evc" _ hmain s hs
    (·.vars)
  obtain ⟨hbelow, -, -, -⟩ := hqualified "a::b::y" ["a"] "b" "y" (by decide +kernel)
  obtain ⟨-, -, -, hone⟩ := hqualified "a::w" [] "a" "w" (by decide +kernel)
  refine ⟨_, hmain, s, hs, hinside, (hone (.inr rfl)).mp hw, hw, ⟨3, ?_, hy⟩, hnone, 1,
    htop ▸ hlead, fun x hx => ?_⟩
  · rw [htop]
    exact ⟨2, (hbelow 0 2).mp h2, ha, 3, (hbelow 2 3).mp h3, hb, rfl⟩
  · have hmem := (hbelow 1 x).mpr hx
    rw [h1] at hmem
    cases hmem

end EvScript
