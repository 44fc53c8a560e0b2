import EvScript.Proofs.Code.Families
import EvScript.Proofs.Compile.ScriptRecord

/-!
# Functions and Their Code

A function is declared with an index, and its code is under the label that the name at the index
means. That name is made from the name of the function alone, without the namespaces around it, so
functions of the same name share their index, and only the last of them keeps its code.

## Main results

* `labels_nodup_iff` — which functions keep their code.
-/

namespace EvScript

open CompileM Assembly

variable {V : List (FunctionDecl × CompileState)}
variable {fs : Files} {importer : Importer} {mode : ReadMode} {path : String}

/-! ### Labels of functions -/

/-- The handle of the label that the body of a function goes under. -/
def handle (v : FunctionDecl × CompileState) : Nat := v.2.file.code.labels.size

/-- Each function has a label of its own, in the order of the functions, made after those of what
comes before and before those of what follows. -/
theorem Visited.handles {c c' : Assembly} (h : Visited V c c') : V.Pairwise (handle · < handle ·) ∧
      ∀ v ∈ V, c.labels.size ≤ handle v ∧ handle v < c'.labels.size := by
  induction h with
  | aside => exact ⟨.nil, nofun⟩
  | function h =>
    refine ⟨List.pairwise_singleton _ _, fun v hv => ?_⟩
    rw [List.mem_singleton.mp hv]
    exact ⟨Nat.le_refl _, (compileFunction_lays h).2.1⟩
  | append h h' ih ih' =>
    refine ⟨List.pairwise_append.mpr ⟨ih.1, ih'.1, fun v hv w hw => ?_⟩, fun v hv => ?_⟩
    · exact Nat.lt_of_lt_of_le (ih.2 v hv).2 (ih'.2 w hw).1
    · rcases List.mem_append.mp hv with hv | hv
      · exact ⟨(ih.2 v hv).1, Nat.lt_of_lt_of_le (ih.2 v hv).2 h'.adds.size⟩
      · exact ⟨Nat.le_trans h.adds.size (ih'.2 v hv).1, (ih'.2 v hv).2⟩

/-! ### Declarations of functions -/

/-- The declaration of a function that a compilation comes to. -/
def functionAt (v : FunctionDecl × CompileState) : Option Function :=
  match v.1.name, resultOf v.1.result with
  | some name, .ok result =>
    some ⟨v.1.kind, (v.2.file.code.intern (functionLabel v.1.kind name)).1, name, result, v.1.pos⟩
  | _, _ => none

/-- The function is declared as `g`, and its body is compiled under its own label. In the code
the label is as the body left it, and its name is at the index that `g` has. -/
structure Placed (code : Assembly) (v : FunctionDecl × CompileState) (g : Function) : Prop where
  record : functionAt v = some g
  body : ∃ name result parameters last t',
    (v.2.openFunction v.1 name result).graph = v.2.file.cursor.addFunction v.2.graph g ∧
    Yields (compileBlock (parameterScope parameters) (handle v) v.1.body)
      (v.2.openFunction v.1 name result) last t' ∧ Adds t'.file.code code
  lt : handle v < code.labels.size
  index : (code.label (handle v)).name = g.label
  name : ∃ name, v.1.labelName = some name ∧ code.strings.idxOf? name = some g.label

/-- **Every function of a script is declared, and its body compiled, under its own label.** -/
theorem placed_of_mem_scriptVisits (hok : (compileScript fs mode path).ended = .ok ())
    {v : FunctionDecl × CompileState} (hv : v ∈ scriptVisits fs mode path) :
    ∃ g, Placed (compileScript fs mode path).state.file.code v g := by
  obtain ⟨f, s⟩ := v
  obtain ⟨-, t', hfun, hadds⟩ := compileFunction_of_mem_scriptVisits hok hv
  obtain ⟨name, parameters, result, last, hname, -, hresult, hbody⟩ := yields_compileFunction hfun
  have hcode : (s.openFunction f name result).file.code =
      (s.file.code.newLabel (functionLabel f.kind name)).2 := rfl
  have hlt : s.file.code.labels.size < (s.openFunction f name result).file.code.labels.size := by
    rw [hcode]
    simp
  obtain ⟨flow, -, hlays⟩ := compileBlock_lays _ f.body hbody hlt
  have hgrows := hlays.grows
  rw [hcode] at hgrows
  have hlt' : s.file.code.labels.size < t'.file.code.labels.size :=
    Nat.lt_of_lt_of_le hlt hlays.grows.size
  refine ⟨⟨f.kind, (s.file.code.intern (functionLabel f.kind name)).1, name, result, f.pos⟩,
    ?_, ⟨name, result, parameters, last, t', rfl, hbody, hadds⟩,
    Nat.lt_of_lt_of_le hlt' hadds.size, ?_, functionLabel f.kind name, ?_, ?_⟩
  · simp only [functionAt, hname, hresult]
  · rw [handle, hadds.label _ hlt', hgrows.name_eq (by simp), label_newLabel_self]
  · rw [FunctionDecl.labelName, hname]
    rfl
  · exact idxOf?_of_prefix (hgrows.strings.trans hadds.strings) (idxOf?_intern _ _)

theorem map_label_functionAt {code : Assembly} (h : ∀ v ∈ V, ∃ g, Placed code v g) :
    (V.filterMap functionAt).map (·.label) =
      (labelNamesOf V).map fun name => (code.strings.idxOf? name).getD 0 := by
  induction V with
  | nil => rfl
  | cons v V ih =>
    obtain ⟨⟨g, hg⟩, hrest⟩ := List.forall_mem_cons.mp h
    obtain ⟨name, hname, hindex⟩ := hg.name
    have hnames : labelNamesOf (v :: V) = name :: labelNamesOf V := by
      rw [labelNamesOf, List.filterMap_cons, hname]
      rfl
    rw [List.filterMap_cons, hg.record, hnames, List.map_cons, List.map_cons, ih hrest, hindex,
      Option.getD_some]

/-- Functions have different indices exactly if their labels have different names. -/
theorem nodup_map_label_functionAt {code : Assembly} (h : ∀ v ∈ V, ∃ g, Placed code v g) :
    ((V.filterMap functionAt).map (·.label)).Nodup ↔ (labelNamesOf V).Nodup := by
  have hstands : ∀ name ∈ labelNamesOf V, ∃ i, code.strings.idxOf? name = some i := by
    intro name hname
    obtain ⟨v, hv, hlabel⟩ := List.mem_filterMap.mp hname
    obtain ⟨g, hg⟩ := h v hv
    obtain ⟨name', hname', hindex⟩ := hg.name
    rw [hlabel] at hname'
    cases hname'
    exact ⟨g.label, hindex⟩
  rw [map_label_functionAt h]
  refine ⟨fun hnodup => hnodup.of_map _, fun hnodup => hnodup.map_on fun x hx y hy heq => ?_⟩
  obtain ⟨i, hi⟩ := hstands x hx
  obtain ⟨j, hj⟩ := hstands y hy
  rw [hi, hj, Option.getD_some, Option.getD_some] at heq
  subst heq
  obtain ⟨_, hx, -⟩ := List.idxOf?_eq_some_iff.mp hi
  obtain ⟨_, hy, -⟩ := List.idxOf?_eq_some_iff.mp hj
  exact hx.symm.trans hy

/-- **Which functions keep their code.** Take a script that is compiled to the end. Each of its
functions has a label of its own, under which its body is compiled, and is declared with the index
of the name of that label. Functions have different indices exactly if their labels have different
names. By the index of a function its own label is found exactly if no later label has the same
name; so every function keeps its code if the labels of functions have different names that do not
look like those of children. -/
theorem labels_nodup_iff (fs : Files) (mode : ReadMode) (path : String)
    (hok : (compileScript fs mode path).ended = .ok ()) :
    ∃ code V, code = (compileScript fs mode path).state.file.code ∧
      V = scriptVisits fs mode path ∧ V.Pairwise (handle · < handle ·) ∧
      (((V.filterMap functionAt).map (·.label)).Nodup ↔ (labelNamesOf V).Nodup) ∧
      (∀ v ∈ V, ∃ g, Placed code v g ∧ (code.byName.find? g.label = some (handle v) ↔
        ∀ y, handle v < y → y < code.labels.size → code.text y ≠ code.text (handle v))) ∧
      ((labelNamesOf V).Nodup → (∀ name ∈ labelNamesOf V, looksLikeChild name = false) →
        ∀ v ∈ V, ∃ g, functionAt v = some g ∧ code.byName.find? g.label = some (handle v)) := by
  obtain ⟨t, hlaw, hcode, hstretch⟩ := exists_record fs mode path
  have hplaced := fun v => @placed_of_mem_scriptVisits fs mode path hok v
  have hconsistent : (compileScript fs mode path).state.file.code.Consistent :=
    hcode ▸ consistent_empty.replay hlaw
  have hlatest : (compileScript fs mode path).state.file.code.Latest := by
    have hempty : empty.Latest := fun x h => absurd h (Nat.not_lt_zero x)
    exact hcode ▸ hempty.replay hlaw
  have hfamily : Family (compileScript fs mode path).state.file.code (origins .empty t) :=
    hcode ▸ family_replay hlaw
  have hgiven : (origins .empty t).filterMap Origin.given =
      labelNamesOf (scriptVisits fs mode path) := by
    rw [filterMap_given_origins, (hstretch hok).names]
  generalize (compileScript fs mode path).state.file.code = code at *
  refine ⟨code, _, rfl, rfl, (visited_compileScript hok).handles.1,
    nodup_map_label_functionAt hplaced,
    fun v hv => ?_, fun hnodup hroot v hv => ?_⟩
  · obtain ⟨g, hg⟩ := hplaced v hv
    refine ⟨g, hg, ?_⟩
    rw [← hg.index, hlatest.find?_eq_iff hconsistent.tied hg.lt]
    refine forall_congr' fun y => imp_congr_right fun _ => imp_congr_right fun hy => ?_
    exact not_congr (hconsistent.text_eq_iff hy hg.lt).symm
  · obtain ⟨g, hg⟩ := hplaced v hv
    have hdistinct := hfamily.distinct (hgiven ▸ hnodup) (hgiven ▸ hroot)
    refine ⟨g, hg.record, ?_⟩
    rw [← hg.index]
    exact hconsistent.tied.unclashed hdistinct _ hg.lt

/-- A script with two functions of the same name in two namespaces. -/
def twinFiles : Files :=
  ⟨[("twin.evc", ("command c(int x):5;namespace a\x7bfunction f()\x7bc(1);\x7d\x7d" ++
    "namespace b\x7bfunction f()\x7bc(2);\x7d\x7d").toUTF8)]⟩

/-- The namespace that the compilation is in. -/
def CompileState.space (s : CompileState) : Option String := (s.graph.scope s.file.cursor.here).name

set_option maxRecDepth 100000 in
theorem twinFiles_visits : ∃ state, compileScript twinFiles .strict "twin.evc" = ⟨.ok (), state⟩ ∧
    (scriptVisits twinFiles .strict "twin.evc").map (fun v => (v.2.space, v.1.labelName)) =
      [(some "a", some "_f"), (some "b", some "_f")] := by
  have hcheck : (compileScript twinFiles .strict "twin.evc").endsWith (fun _ =>
      decide ((scriptVisits twinFiles .strict "twin.evc").map
        (fun v => (v.2.space, v.1.labelName)) =
          [(some "a", some "_f"), (some "b", some "_f")])) = true := by
    decide +kernel
  obtain ⟨state, hscript, hvisits⟩ := Outcome.eq_of_endsWith hcheck
  exact ⟨state, hscript, of_decide_eq_true hvisits⟩

/-- The two functions share their index, and by it the code of the first is not found. -/
theorem twins_share_label : ∃ v w g h, scriptVisits twinFiles .strict "twin.evc" = [v, w] ∧
    v.2.space = some "a" ∧ w.2.space = some "b" ∧
    functionAt v = some g ∧ functionAt w = some h ∧ g.label = h.label ∧
    (compileScript twinFiles .strict "twin.evc").state.file.code.byName.find? g.label ≠
      some (handle v) := by
  obtain ⟨state, hscript, hvisits⟩ := twinFiles_visits
  obtain ⟨code, V, hcode, hV, horder, -, hplaced, -⟩ :=
    labels_nodup_iff twinFiles .strict "twin.evc" (congrArg Outcome.ended hscript)
  rw [← hV] at hvisits ⊢
  rw [← hcode]
  clear hV hcode hscript
  obtain ⟨v, V, rfl, hv, hrest⟩ := List.map_eq_cons_iff.mp hvisits
  obtain ⟨w, W, rfl, hw, hnil⟩ := List.map_eq_cons_iff.mp hrest
  obtain rfl := List.map_eq_nil_iff.mp hnil
  obtain ⟨hspace, hname⟩ := Prod.mk.inj hv
  obtain ⟨hspace', hname'⟩ := Prod.mk.inj hw
  obtain ⟨g, hg, hkeeps⟩ := hplaced v (by simp)
  obtain ⟨h, hh, -⟩ := hplaced w (by simp)
  have hlabel : g.label = h.label := by
    obtain ⟨n, hn, hi⟩ := hg.name
    obtain ⟨n', hn', hi'⟩ := hh.name
    rw [hname, Option.some.injEq] at hn
    rw [hname', Option.some.injEq] at hn'
    subst hn hn'
    exact Option.some.inj (hi.symm.trans hi')
  have hlater : handle v < handle w := (List.pairwise_cons.mp horder).1 w (by simp)
  refine ⟨v, w, g, h, rfl, hspace, hspace', hg.record, hh.record, hlabel, fun hfind => ?_⟩
  refine hkeeps.mp hfind (handle w) hlater hh.lt ?_
  rw [text, text, hg.index, hh.index, hlabel]

end EvScript
