import EvScript.Proofs.Compile.Moments

/-!
# Tables that Fit Together

Code refers to its table of strings by index: labels by their names, instructions by their string
operands, jumps and tests by the names of labels. At every moment of every run, also when a fault
ends it, all these indices are good. So a listing never fails for lack of a string.

## Main results

* `closed_throughout` — all indices are good at every moment of a run.
-/

namespace EvScript

open CompileM

namespace Assembly

variable {known : Option Int → Prop} {a : Assembly} {t : List Edit} {y : LabelId}

/-- All that the code refers to is there; `known` are the numbers of commands that may move
control on their own account. -/
structure Closed (known : Option Int → Prop) (a : Assembly) : Prop where
  /-- No string is in the table twice. -/
  nodup : a.strings.Nodup
  /-- Under an index stands the label of that name, and the name is in the table. -/
  keys : ∀ p ∈ a.listing, p.2.name = p.1 ∧ p.1 < a.strings.length
  /-- The string operands of instructions are in the table. -/
  strings : ∀ x, ∀ i ∈ (a.label x).instrs, ∀ o ∈ i.operands, o.kind = .string →
    ∃ k : Nat, o.data = some (k : Int) ∧ k < a.strings.length
  /-- Jumps and tests lead to labels. -/
  targets : ∀ x, ∀ i ∈ (a.label x).instrs, i.isControl = true → known i.command ∨
    ∃ p ∈ a.listing, i.operands.getLast? = some (.ofString p.1)
  /-- A listing does not fail for lack of a string. -/
  listed : ∀ e, a.print = .error e → ¬ LacksString e

/-- What is found under a key is an entry. -/
theorem mem_entries_of_find? {κ α : Type} [DecidableEq κ] {t : Table κ α} {key : κ} {value : α}
    (h : t.find? key = some value) : (key, value) ∈ t.entries := by
  obtain ⟨⟨k, v⟩, he, rfl⟩ := Option.map_eq_some_iff.mp h
  have hk : k = key := by simpa using List.find?_some he
  rw [← hk]
  exact List.mem_of_find?_eq_some he

theorem Tied.target_mem (h : a.Tied) (hy : y < a.labels.size) :
    ∃ p ∈ a.listing, a.target y = .ofString p.1 := by
  obtain ⟨j, hj, -⟩ := h y hy
  exact ⟨_, List.mem_map.mpr ⟨_, mem_entries_of_find? hj, rfl⟩, rfl⟩

/-- **Code built by lawful edits is closed.** -/
theorem closed_replay (ht : Lawful known empty t) : Closed known (empty.replay t) := by
  have hc := consistent_empty.replay ht
  refine ⟨hc.nodup, fun p hp => ?_, fun x i hi o ho hkind => hc.below x i hi o ho hkind,
    fun x i hi hcontrol => ?_, fun e he => hc.print_ne he⟩
  · obtain ⟨e, he, rfl⟩ := List.mem_map.mp hp
    obtain ⟨hlt, hname⟩ := hc.entry e he
    exact ⟨hname, hname ▸ hc.name_lt _ hlt⟩
  · rcases control_of_mem_instrs ht hi hcontrol with hknown | ⟨-, -, y, -, hy, hlast⟩
    · exact .inl hknown
    · obtain ⟨p, hp, htarget⟩ := hc.tied.target_mem hy
      exact .inr ⟨p, hp, by rw [hlast, htarget]⟩

end Assembly

/-- **The tables fit together throughout.** Take any run of a script, whether it comes to the end
or is ended by a fault. At each of its moments, the last one included, the code is closed, and the
table of strings is the beginning of that at every later moment. The same holds of all code in
between: the record of the run has the moments at its cuts, after every beginning of it the code
is closed and every jump or test made so far leads to an entry of the listing, and after a longer
beginning the table has only grown at its end. -/
theorem closed_throughout (fs : Files) (mode : ReadMode) (path : String) (r : Run)
    (hr : r ∈ scriptRuns fs mode path) :
    (∀ u ∈ r.moments fs mode, u.file.code.Closed (fs.Declares mode)) ∧
    (r.moments fs mode).Pairwise (fun u v => u.file.code.strings <+: v.file.code.strings) ∧
    ∃ (t : List Edit) (cuts : List (List Edit)), r.code fs mode = Assembly.empty.replay t ∧
      (r.moments fs mode).map (·.file.code) = cuts.map Assembly.empty.replay ∧
      cuts.Pairwise (· <+: ·) ∧ (∀ cut ∈ cuts, cut <+: t) ∧
      ∀ t₁ t₂, t₁ <+: t₂ → t₂ <+: t →
        (Assembly.empty.replay t₁).strings <+: (Assembly.empty.replay t₂).strings ∧
        (Assembly.empty.replay t₂).Closed (fs.Declares mode) ∧
        ∀ e ∈ t₂, ∀ y, e.aim = some y → ∃ p ∈ (Assembly.empty.replay t₂).listing,
          (Assembly.empty.replay t₂).target y = .ofString p.1 := by
  obtain ⟨t, cuts, hlaw, hcode, hmoments, hpairs, hcuts⟩ := exists_cuts hr
  refine ⟨fun u hu => ?_, ?_, t, cuts, hcode, hmoments, hpairs, hcuts, fun t₁ t₂ h₁ h₂ => ?_⟩
  · obtain ⟨cut, hcut, hu⟩ := exists_cut_of_mem hmoments hu
    rw [← hu]
    exact Assembly.closed_replay (Assembly.lawful_of_isPrefix hlaw (hcuts cut hcut)).1
  · have hstrings :
        (cuts.map Assembly.empty.replay).Pairwise fun a b => a.strings <+: b.strings := by
      refine List.pairwise_map.mpr (hpairs.imp_of_mem fun _ hb h => ?_)
      have hlater := (Assembly.lawful_of_isPrefix hlaw (hcuts _ hb)).1
      exact (Assembly.lawful_of_isPrefix hlater h).2.strings
    rw [← hmoments, List.pairwise_map] at hstrings
    exact hstrings
  · have hlaw₂ := (Assembly.lawful_of_isPrefix hlaw h₂).1
    refine ⟨(Assembly.lawful_of_isPrefix hlaw₂ h₁).2.strings, Assembly.closed_replay hlaw₂,
      fun e he y hy => ?_⟩
    exact (Assembly.consistent_empty.replay hlaw₂).tied.target_mem
      (Assembly.aim_lt_replay hlaw₂ he hy)

/-- A script that is ended by a fault behind a branch: what it calls at the end is not there. -/
def brokenFiles : Files :=
  ⟨[("broken.evc", ("command c(int s):5;int v:9;function f()\x7bif(v==1)\x7bc('a');\x7d" ++
    "d();\x7d").toUTF8)]⟩

set_option maxRecDepth 100000 in
theorem broken_closed_throughout : ∃ r ∈ scriptRuns brokenFiles .strict "broken.evc",
    (r.ending brokenFiles .strict).1.isOk = false ∧
    (r.moments brokenFiles .strict).map (·.file.code.strings.length) = [0, 0, 0, 0, 1, 4, 5, 5] ∧
    (∀ u ∈ r.moments brokenFiles .strict, u.file.code.Closed (brokenFiles.Declares .strict)) ∧
    (r.moments brokenFiles .strict).Pairwise
      (fun u v => u.file.code.strings <+: v.file.code.strings) := by
  have hcheck : (!((mainRun brokenFiles "broken.evc").ending brokenFiles .strict).1.isOk &&
      decide (((mainRun brokenFiles "broken.evc").moments brokenFiles .strict).map
        (·.file.code.strings.length) = [0, 0, 0, 0, 1, 4, 5, 5])) = true := by
    decide +kernel
  simp only [Bool.and_eq_true, Bool.not_eq_true', decide_eq_true_eq] at hcheck
  have hmain := mainRun_mem brokenFiles .strict "broken.evc"
  obtain ⟨hclosed, hstrings, -⟩ := closed_throughout brokenFiles .strict "broken.evc" _ hmain
  exact ⟨_, hmain, hcheck.1, hcheck.2, hclosed, hstrings⟩

end EvScript
