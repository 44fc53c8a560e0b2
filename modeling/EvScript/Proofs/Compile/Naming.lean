import EvScript.Proofs.Code.Families
import EvScript.Proofs.Compile.Moments

/-!
# No Label Is Lost

A name means the label that was made last under it, and an earlier label of the same name drops
out of the listing with all its code. In a run this does not happen as long as the functions have
labels of different names, and none of these looks like the name of a child: then the listing
has an entry for every label that was ever made, with everything that was ever put under it.

## Main results

* `keepsLabels_of_labelNames` — a condition on functions under which no label is lost.
-/

namespace EvScript

open CompileM Assembly

/-- The edit makes a label. -/
def Edit.makesLabel : Edit → Bool
  | .label _ => true
  | .child _ => true
  | _ => false

theorem length_origins (a : Assembly) (t : List Edit) :
    (origins a t).length = t.countP Edit.makesLabel := by
  induction t generalizing a with
  | nil => rfl
  | cons e t ih =>
    rw [origins, List.length_append, ih, List.countP_cons, Nat.add_comm]
    cases e <;> rfl

theorem Assembly.labelCalled_text {a : Assembly} {x : LabelId} (ha : a.Consistent)
    (hu : a.Unclashed) (hx : x < a.labels.size) : a.labelCalled (a.text x) = some x := by
  have hlt := ha.name_lt x hx
  have htext : a.text x = a.strings[(a.label x).name] := by
    rw [text, List.getElem?_eq_getElem hlt, Option.getD_some]
  have hindex : a.strings.idxOf? (a.text x) = some (a.label x).name := by
    rw [htext, List.idxOf?_eq_some_iff]
    refine ⟨hlt, rfl, fun j hj heq => ?_⟩
    exact absurd ((List.Nodup.getElem_inj_iff ha.nodup).mp heq) (Nat.ne_of_lt hj)
  rw [labelCalled, hindex, Option.bind_some]
  exact hu x hx

/-- The record says how the code of the run was built, and nothing of that is lost. -/
structure Run.KeepsLabels (fs : Files) (mode : ReadMode) (r : Run) (t : List Edit) : Prop where
  lawful : Lawful (fs.Declares mode) .empty t
  replay : r.code fs mode = Assembly.empty.replay t
  /-- No two labels have the same name. -/
  distinct : (r.code fs mode).Distinct
  /-- There is one entry for each label, in the order in which they were made. -/
  listing : (r.code fs mode).listing = (r.code fs mode).labels.toList.map fun l => (l.name, l)
  /-- There is one label for each edit that makes one. -/
  size : (r.code fs mode).labels.size = t.countP Edit.makesLabel
  /-- Under a label stands all that was put there. -/
  instrs : ∀ x, ((r.code fs mode).label x).instrs = t.flatMap (Edit.under (r.code fs mode) x)
  /-- What stood under a label at a moment of the run still stands there, at the front. -/
  kept : ∀ u ∈ r.moments fs mode, ∀ x, x < u.file.code.labels.size →
    (u.file.code.label x).instrs <+: ((r.code fs mode).label x).instrs
  /-- The name of a label means that label. -/
  called : ∀ x, x < (r.code fs mode).labels.size →
    (r.code fs mode).labelCalled ((r.code fs mode).text x) = some x
  /-- The `i`-th child of a label is found by the name made up for it. -/
  child : ∀ p i, i < ((r.code fs mode).label p).children.length → ∃ x, p < x ∧
    ((r.code fs mode).label p).children[i]? = some ((r.code fs mode).label x).name ∧
    (r.code fs mode).labelCalled (childName ((r.code fs mode).text p) i) = some x

/-- **No label is lost.** Take a run of a script that comes to the end. If the labels of its
functions have different names, and none of these looks like the name of a child, then all labels
have different names, and the listing has one entry for each label with everything that was put
under it; the `i`-th child of a label has the name made up from the name of that label and `i`. -/
theorem keepsLabels_of_labelNames (fs : Files) (mode : ReadMode) (path : String) (r : Run)
    (hr : r ∈ scriptRuns fs mode path) (hok : (r.ending fs mode).1 = .ok ())
    (hnodup : (labelNamesOf (r.visits fs mode)).Nodup)
    (hroot : ∀ name ∈ labelNamesOf (r.visits fs mode), looksLikeChild name = false) :
    ∃ t, r.KeepsLabels fs mode t := by
  obtain ⟨t, hlaw, hcode, hnames⟩ := exists_record_of_run hr
  have hfamily : Family (r.code fs mode) (origins .empty t) := hcode ▸ family_replay hlaw
  have hgiven : (origins .empty t).filterMap Origin.given = labelNamesOf (r.visits fs mode) := by
    rw [filterMap_given_origins, hnames hok]
  have hdistinct : (r.code fs mode).Distinct :=
    hfamily.distinct (hgiven ▸ hnodup) (hgiven ▸ hroot)
  have hconsistent : (r.code fs mode).Consistent := hcode ▸ consistent_empty.replay hlaw
  have hcalled : ∀ x, x < (r.code fs mode).labels.size →
      (r.code fs mode).labelCalled ((r.code fs mode).text x) = some x :=
    fun x => labelCalled_text hconsistent (hconsistent.tied.unclashed hdistinct)
  refine ⟨t, hlaw, hcode, hdistinct, ?_, ?_, fun x => ?_,
    fun u hu => (extends_of_mem_moments hr hu).instrs, hcalled, fun p i hi => ?_⟩
  · rw [hcode] at hdistinct ⊢
    exact listing_replay hlaw hdistinct
  · rw [← hfamily.size, length_origins]
  · rw [hcode, instrs_replay hlaw, label_of_size_le (Nat.zero_le x), List.nil_append]
  · obtain ⟨x, hx⟩ := List.mem_iff_getElem?.mp ((hfamily.born p i).mpr hi)
    obtain ⟨hp, hchild, htext⟩ := hfamily.stems x _ hx
    have hlt : x < (r.code fs mode).labels.size :=
      hfamily.size ▸ (List.getElem?_eq_some_iff.mp hx).1
    refine ⟨x, hp, hchild, ?_⟩
    rw [← htext]
    exact hcalled x hlt

/-- A script with two functions, and a choice inside a choice. -/
def nestFiles : Files :=
  ⟨[("nest.evc", ("command c():5;int v:9;function f()\x7bif(v==1)\x7bif(v==2)\x7bc();\x7d" ++
    "c();\x7d\x7dfunction g()\x7bc();\x7d").toUTF8)]⟩

set_option maxRecDepth 100000 in
theorem nestFiles_names : ∃ state, compileScript nestFiles .strict "nest.evc" = ⟨.ok (), state⟩ ∧
    state.file.code.strings = ["_f", "__child__f_0", "__child__f_1", "EQ",
      "__child___child__f_1_0", "__child___child__f_1_1", "_g"] ∧
    labelNamesOf ((mainRun nestFiles "nest.evc").visits nestFiles .strict) = ["_f", "_g"] := by
  have hcheck : (compileScript nestFiles .strict "nest.evc").endsWith (fun state =>
      decide (state.file.code.strings = ["_f", "__child__f_0", "__child__f_1", "EQ",
        "__child___child__f_1_0", "__child___child__f_1_1", "_g"]) &&
      decide (labelNamesOf ((mainRun nestFiles "nest.evc").visits nestFiles .strict) =
        ["_f", "_g"])) = true := by
    decide +kernel
  obtain ⟨state, hscript, hstate⟩ := Outcome.eq_of_endsWith hcheck
  simp only [Bool.and_eq_true, decide_eq_true_eq] at hstate
  exact ⟨state, hscript, hstate⟩

/-- The inner `if` makes children of a child. -/
theorem nest_keepsLabels : ∃ r ∈ scriptRuns nestFiles .strict "nest.evc",
    (r.ending nestFiles .strict).1 = .ok () ∧
    labelNamesOf (r.visits nestFiles .strict) = ["_f", "_g"] ∧
    "__child___child__f_1_0" ∈ (r.code nestFiles .strict).strings ∧
    ∃ t, r.KeepsLabels nestFiles .strict t := by
  obtain ⟨state, hscript, hstrings, hnames⟩ := nestFiles_names
  have hmain := mainRun_mem nestFiles .strict "nest.evc"
  have hend : (mainRun nestFiles "nest.evc").ending nestFiles .strict = (.ok (), state) := by
    rw [ending_mainRun, hscript]
  have hok := congrArg Prod.fst hend
  refine ⟨_, hmain, hok, hnames, ?_, ?_⟩
  · rw [Run.code, hend, hstrings]
    decide
  · refine keepsLabels_of_labelNames nestFiles .strict "nest.evc" _ hmain hok ?_ ?_
    · rw [hnames]
      decide
    · rw [hnames]
      decide

end EvScript
