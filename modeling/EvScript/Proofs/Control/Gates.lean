import EvScript.Proofs.Control.Arrivals

/-!
# Gates in the Record of a Body

A stretch of a body leads to labels of its own and to the label behind the statement it is in, never
to another label that was there before. So the tests that lead to the label of a gate can be counted
stretch by stretch: there is one if a question is asked, and none otherwise.

In `Stretch n m outer names arrivals t` the labels from the `n`-th to before the `m`-th are made,
`outer` are the labels outside to which it may lead, `names` are the names of functions in it, and
the gates of the statements in `arrivals` are as they should be.
-/

namespace EvScript

open CompileM Registry

variable {condition : Option Condition} {number : Option Numeral} {name : Option String}

/-! ### Tests in a record -/

/-- The edit leads to the label. -/
def Edit.aimsAt (y : LabelId) (e : Edit) : Bool := e.aim == some y

/-- The test of a gate, if there is one. -/
def Gate.tests (x : Gate) : List Edit := (x.question.map (Edit.test x.label · x.inside)).toList

/-- The compilation gets past the guard of the gate. -/
def Gate.Asked (x : Gate) : Prop :=
  match x.guard with
  | .condition c => ∃ query u, Yields (askCondition c) x.state query u
  | .case _ number name => ∃ word u, Yields (readCase number name) x.state word u

/-- Of all edits in the record, the test of the gate and nothing else leads to its label. -/
structure Gate.Tested (x : Gate) (t : List Edit) : Prop where
  asked : x.Asked
  only : t.filter (Edit.aimsAt x.inside) = x.tests

/-- If the gate is a case, the code of the subject is put under its label before anything leads to
the label of the case. -/
def Gate.Opened (x : Gate) (t : List Edit) : Prop :=
  match x.guard with
  | .condition _ => True
  | .case switch _ _ =>
    (∃ u, Yields (compileSubject switch.subject switch.pos) switch.state switch.code u) ∧
      ∃ t₁ t₂, t = t₁ ++ .put x.label switch.code :: t₂ ∧ ∀ e ∈ t₁, e.aim ≠ some x.inside

variable {x : Gate} {t u : List Edit} {y : LabelId}

theorem filter_aimsAt_eq_nil (h : ∀ e ∈ t, e.aim ≠ some y) : t.filter (Edit.aimsAt y) = [] := by
  rw [List.filter_eq_nil_iff]
  intro e he
  simpa [Edit.aimsAt] using h e he

theorem Gate.Tested.append_right (h : x.Tested t) (hu : ∀ e ∈ u, e.aim ≠ some x.inside) :
    x.Tested (t ++ u) := by
  refine ⟨h.asked, ?_⟩
  rw [List.filter_append, filter_aimsAt_eq_nil hu, List.append_nil]
  exact h.only

theorem Gate.Tested.append_left (h : x.Tested u) (ht : ∀ e ∈ t, e.aim ≠ some x.inside) :
    x.Tested (t ++ u) := by
  refine ⟨h.asked, ?_⟩
  rw [List.filter_append, filter_aimsAt_eq_nil ht, List.nil_append]
  exact h.only

theorem Gate.Asked.tested_behind (h : x.Asked) (ht : ∀ e ∈ t, e.aim = none) :
    x.Tested (t ++ x.tests) := by
  have hself : x.Tested x.tests := by
    refine ⟨h, ?_⟩
    unfold tests
    cases x.question with
    | none => rfl
    | some q => simp [Edit.aimsAt, Edit.aim]
  refine hself.append_left fun e he heq => ?_
  rw [ht e he] at heq
  cases heq

theorem Gate.Opened.append_right (h : x.Opened t) (u : List Edit) : x.Opened (t ++ u) := by
  unfold Opened at h ⊢
  split
  · trivial
  · rename_i hguard
    rw [hguard] at h
    obtain ⟨hcode, t₁, t₂, rfl, ht₁⟩ := h
    exact ⟨hcode, t₁, t₂ ++ u, by simp, ht₁⟩

theorem Gate.Opened.append_left (h : x.Opened u) (ht : ∀ e ∈ t, e.aim ≠ some x.inside) :
    x.Opened (t ++ u) := by
  unfold Opened at h ⊢
  split
  · trivial
  · rename_i hguard
    rw [hguard] at h
    obtain ⟨hcode, t₁, t₂, rfl, ht₁⟩ := h
    refine ⟨hcode, t ++ t₁, t₂, by simp, fun e he => ?_⟩
    exact (List.mem_append.mp he).elim (ht e) (ht₁ e)

/-! ### Stretches -/

/-- The record of a stretch in which the labels from the `n`-th to before the `m`-th are made. -/
structure Stretch (n m : Nat) (outer : Nat → Prop) (names : List String)
    (arrivals : List Arrival) (t : List Edit) : Prop where
  le : n ≤ m
  aims : ∀ e ∈ t, ∀ y : Nat, e.aim = some y → (n ≤ y ∧ y < m) ∨ outer y
  names : t.filterMap Edit.name = names
  gates : ∀ v ∈ arrivals, ∀ x ∈ v.gates,
    (n ≤ x.inside ∧ x.inside < m) ∧ x.Tested t ∧ x.Opened t

/-- No label outside. -/
def nowhere (_ : Nat) : Prop := False

namespace Stretch

variable {n m k : Nat} {outer outer' : Nat → Prop} {names names' : List String}
  {arrivals arrivals' : List Arrival}

theorem plain (hle : n ≤ m) (ht : ∀ e ∈ t, e.aim = none ∧ e.name = none) :
    Stretch n m outer [] [] t where
  le := hle
  aims e he y hy := by
    rw [(ht e he).1] at hy
    cases hy
  names := List.filterMap_eq_nil_iff.mpr fun e he => (ht e he).2
  gates _ hv := absurd hv List.not_mem_nil

theorem nil : Stretch n n outer [] [] [] :=
  plain (Nat.le_refl n) fun _ h => absurd h List.not_mem_nil

theorem jump {l : LabelId} (hy : outer y) : Stretch n n outer [] [] [.jump l y] where
  le := Nat.le_refl n
  aims e he z hz := by
    rw [List.mem_singleton.mp he] at hz
    obtain rfl := Option.some.inj hz
    exact .inr hy
  names := rfl
  gates _ hv := absurd hv List.not_mem_nil

/-- The test of a gate whose label is made in the stretch, behind edits that lead nowhere. -/
theorem tests (hle : n ≤ m) (ht : ∀ e ∈ t, e.aim = none ∧ e.name = none)
    (hx : n ≤ x.inside ∧ x.inside < m) : Stretch n m outer [] [] (t ++ x.tests) where
  le := hle
  aims e he y hy := by
    rcases List.mem_append.mp he with he | he
    · rw [(ht e he).1] at hy
      cases hy
    · obtain ⟨q, -, rfl⟩ := Option.map_eq_some_iff.mp (Option.mem_toList.mp he)
      obtain rfl := Option.some.inj hy
      exact .inl hx
  names := by
    refine List.filterMap_eq_nil_iff.mpr fun e he => ?_
    rcases List.mem_append.mp he with he | he
    · exact (ht e he).2
    · obtain ⟨q, -, rfl⟩ := Option.map_eq_some_iff.mp (Option.mem_toList.mp he)
      rfl
  gates _ hv := absurd hv List.not_mem_nil

theorem arrive {v : Arrival} (h : Stretch n m outer names arrivals t)
    (hv : ∀ x ∈ v.gates, (n ≤ x.inside ∧ x.inside < m) ∧ x.Tested t ∧ x.Opened t) :
    Stretch n m outer names (v :: arrivals) t where
  le := h.le
  aims := h.aims
  names := h.names
  gates w hw := by
    rcases List.mem_cons.mp hw with rfl | hw
    · exact hv
    · exact h.gates w hw

/-- An arrival at a statement that guards nothing. -/
theorem arrive_plain {v : Arrival} (h : Stretch n m outer names arrivals t) (hv : v.gates = []) :
    Stretch n m outer names (v :: arrivals) t := by
  refine h.arrive fun x hx => ?_
  rw [hv] at hx
  cases hx

/-- A stretch leads to no label that is neither made in it nor among those outside. -/
theorem aim_ne (h : Stretch n m outer names arrivals t) {y : Nat} (hy : y < n ∨ m ≤ y)
    (ho : ¬ outer y) : ∀ e ∈ t, e.aim ≠ some y := by
  intro e he heq
  rcases h.aims e he y heq with hin | hout
  · omega
  · exact ho hout

/-- **Records of stretches go together**, as long as the second leads outside only to labels
that are no gates of the first. -/
theorem append (h : Stretch n m outer names arrivals t) (g : Stretch m k outer' names' arrivals' u)
    (hold : ∀ y, outer y → y < n)
    (hnew : ∀ y, outer' y → y < m ∧ (n ≤ y ∨ outer y) ∧
      ∀ v ∈ arrivals, ∀ x ∈ v.gates, x.inside ≠ y) :
    Stretch n k outer (names ++ names') (arrivals ++ arrivals') (t ++ u) := by
  have hle := h.le
  have hle' := g.le
  refine ⟨Nat.le_trans h.le g.le, fun e he y hy => ?_, ?_, fun v hv x hx => ?_⟩
  · rcases List.mem_append.mp he with he | he
    · rcases h.aims e he y hy with hin | hout
      · exact .inl ⟨hin.1, by omega⟩
      · exact .inr hout
    · rcases g.aims e he y hy with hin | hout
      · exact .inl ⟨by omega, hin.2⟩
      · obtain ⟨hlt, hn | ho, -⟩ := hnew y hout
        · exact .inl ⟨hn, by omega⟩
        · exact .inr ho
  · rw [List.filterMap_append, h.names, g.names]
  · rcases List.mem_append.mp hv with hv | hv
    · obtain ⟨hin, htested, hopened⟩ := h.gates v hv x hx
      -- the second stretch leads to labels made later, and to none of the gates of the first
      have hfree := g.aim_ne (.inl hin.2) fun hout => (hnew _ hout).2.2 v hv x hx rfl
      exact ⟨⟨hin.1, by omega⟩, htested.append_right hfree, hopened.append_right u⟩
    · obtain ⟨hin, htested, hopened⟩ := g.gates v hv x hx
      have hfree := h.aim_ne (.inr hin.1) fun hout => by
        have := hold _ hout
        omega
      exact ⟨⟨by omega, hin.2⟩, htested.append_left hfree, hopened.append_left hfree⟩

theorem append_same (h : Stretch n m outer names arrivals t)
    (g : Stretch m k outer names' arrivals' u) (hold : ∀ y, outer y → y < n) :
    Stretch n k outer (names ++ names') (arrivals ++ arrivals') (t ++ u) := by
  have hle := h.le
  refine h.append g hold fun y hy => ?_
  have hlt := hold y hy
  refine ⟨by omega, .inr hy, fun v hv x hx heq => ?_⟩
  have := (h.gates v hv x hx).1.1
  omega

/-- A stretch that leads to no label outside, and behind it a jump to one. -/
theorem leave_by {last : Nat} (h : Stretch n m nowhere names arrivals t) {y : Nat} (hy : y < n) :
    Stretch n m (· = y) names arrivals (t ++ [.jump last y]) := by
  have hopen : Stretch n m (· = y) names arrivals t :=
    ⟨h.le, fun e he z hz => (h.aims e he z hz).imp_right False.elim, h.names, h.gates⟩
  have hjump : Stretch m m (· = y) [] [] [.jump last y] := .jump rfl
  simpa using hopen.append_same hjump fun z hz => by omega

end Stretch

/-! ### Edits one by one -/

variable {known : Option Int → Prop} {s : CompileState} {l after : Nat}

theorem plain_of_onlyStrings (ht : OnlyStrings t) : ∀ e ∈ t, e.aim = none ∧ e.name = none := by
  intro e he
  obtain ⟨text, rfl⟩ := ht e he
  exact ⟨rfl, rfl⟩

theorem recorded_newChild (hl : l < s.file.code.labels.size) :
    Recorded known (newChild l) s fun t x s' => t = [.child l] ∧
      x = s.file.code.labels.size ∧ s'.file.code.labels.size = s.file.code.labels.size + 1 :=
  .onCode (.child l) rfl hl ⟨rfl, Assembly.newChild_fst _ _, Assembly.newChild_size _ _⟩

theorem recorded_emit {is : List Instr} (hl : l < s.file.code.labels.size)
    (his : ∀ i ∈ is, i.Fit known s.file.code.strings.length) :
    Recorded known (emit l is) s fun t _ s' => t = [.put l is] ∧
      s'.file.code.labels.size = s.file.code.labels.size :=
  .onCode (.put l is) rfl ⟨hl, his⟩ ⟨rfl, Assembly.emit_size _ _ _⟩

theorem recorded_jump {last : Nat} (hl : last < s.file.code.labels.size)
    (ha : after < s.file.code.labels.size) :
    Recorded known (jump last after) s fun t _ s' => t = [.jump last after] ∧
      s'.file.code.labels.size = s.file.code.labels.size :=
  .onCode (.jump last after) rfl ⟨hl, ha⟩ ⟨rfl, Assembly.emit_size _ _ _⟩

theorem recorded_enterScope {scope : Scope} (h : scope.Sound known) :
    Recorded known (enterScope scope) s fun t _ s' => t = [] ∧ s'.file.code = s.file.code :=
  .modify rfl (fun hs => hs.enterNew h) ⟨rfl, rfl⟩

/-- The code of a query is put under a label in two edits: what is done first, and the test. -/
theorem recorded_emit_aimed {query : Query} {inside : Nat} (hl : l < s.file.code.labels.size)
    (hin : inside < s.file.code.labels.size)
    (hfit : query.Fit known s.file.code.strings.length)
    (htest : ∀ q, query.question = some q → q.isTest = true) :
    Recorded known (emit l (query.aimed (s.file.code.target inside))) s fun t _ s' =>
      t = .put l query.setup :: (query.question.map (Edit.test l · inside)).toList ∧
      s'.file.code.labels.size = s.file.code.labels.size := by
  intro hs
  refine ⟨.put l query.setup :: (query.question.map (Edit.test l · inside)).toList,
    ⟨⟨hl, hfit.1⟩, ?_⟩, ?_, hs, fun _ s' hy => ⟨rfl, ?_⟩⟩
  · cases hq : query.question with
    | none => trivial
    | some q =>
      have hsize := Assembly.emit_size s.file.code l query.setup
      refine ⟨⟨?_, ?_, htest q hq, hfit.2 q hq⟩, trivial⟩
      · rwa [Assembly.edit, hsize]
      · rwa [Assembly.edit, hsize]
  · -- the test is aimed before what is done first is put there, which makes no difference
    have hext := (Assembly.GrowsAt.emit query.setup hl).toExtends
    show s.file.code.emit l (query.aimed (s.file.code.target inside)) = _
    cases hq : query.question with
    | none => simp [Query.aimed, hq, Assembly.edit]
    | some q => simp [Query.aimed, hq, Assembly.edit, Assembly.emit_append, hext.target_eq hin]
  · obtain rfl := yields_emit.mp hy
    exact Assembly.emit_size _ _ _

/-- Edits that lead nowhere and name no function. -/
def Plain (t : List Edit) : Prop := ∀ e ∈ t, e.aim = none ∧ e.name = none

theorem edits_emit {m : CompileM (List Instr)} (hl : l < s.file.code.labels.size)
    (hm : Tabled known m s fun is n => ∀ i ∈ is, i.Fit known n) :
    Recorded known (do emit l (← m); return l) s fun t last s' =>
      last = l ∧ s'.file.code.labels.size = s.file.code.labels.size ∧ Plain t := by
  refine hm.recorded.bind fun t₁ is u _ ⟨ht₁, hmore, his⟩ => ?_
  have hlu : l < u.file.code.labels.size := by rwa [hmore.size]
  refine (recorded_emit hlu his).bind ?_
  rintro _ _ v - ⟨rfl, hsize⟩
  refine .pure ⟨rfl, by rw [hsize, hmore.size], ?_⟩
  rw [List.append_nil]
  intro e he
  rcases List.mem_append.mp he with he | he
  · exact plain_of_onlyStrings ht₁ e he
  · rw [List.mem_singleton.mp he]
    exact ⟨rfl, rfl⟩

theorem edits_leaf (pos : Pos) {x : Statement} (hx : x.isLeaf = true)
    (hl : l < s.file.code.labels.size) :
    Recorded known (compileStatement pos l x) s fun t last s' =>
      last = l ∧ s'.file.code.labels.size = s.file.code.labels.size ∧ Plain t := by
  cases x with
  | define d =>
    rw [compileStatement]
    exact edits_emit hl (tabled_define .body d)
  | assign a =>
    rw [compileStatement]
    exact edits_emit hl (tabled_compileAssignment a)
  | call c =>
    rw [compileStatement]
    refine .of_sound fun hs => (keeps_resolveCall c).andThen
      fun ⟨callee, args⟩ u hcall hcode _ => ?_
    rw [← hcode] at hl ⊢
    cases callee with
    | function f =>
      refine (keeps_warn _ _).andThen fun _ v _ hv _ => .pure ⟨rfl, by rw [hv], ?_⟩
      exact fun _ h => absurd h List.not_mem_nil
    | command d =>
      have hcalled := called?_of_yields hcall
      obtain ⟨-, -, rfl⟩ := hcall.resolveCall_command
      have hstep : DoesOnly (fun _ => True)
          (do return [← compileCommandCall pos d args none none]) :=
        (doesOnly_compileCommandCall trivial fun _ _ _ _ => trivial).then fun _ => .pure _
      have hinstr : Tabled known (do return [← compileCommandCall pos d args none none]) s
          fun is n => ∀ i ∈ is, i.Fit known n := hstep.tabled fun hs is s' hy j hj => by
        obtain ⟨i, hi, rfl⟩ := hy.bind_pure
        rw [List.mem_singleton.mp hj]
        exact Instr.IsCall.fit hs ⟨_, _, _, _, _, _, hcalled, hi⟩
      have hleaf := edits_emit hl hinstr
      simp only [bind_assoc, pure_bind] at hleaf
      exact hleaf
  | inert rule =>
    rw [compileStatement]
    exact .pure ⟨rfl, rfl, fun _ h => absurd h List.not_mem_nil⟩
  | branch condition body elseIfs otherwise => cases hx
  | select subject cases switchPos => cases hx

/-- The record of statements: a stretch that leads to no label before it, and ends under a label. -/
structure Lines (V : List Arrival) (s : CompileState) (t : List Edit) (last : Nat)
    (s' : CompileState) : Prop where
  lt : last < s'.file.code.labels.size
  stretch : Stretch s.file.code.labels.size s'.file.code.labels.size nowhere [] V t

theorem recorded_leaf (pos : Pos) {x : Statement} (hx : x.isLeaf = true)
    (hl : l < s.file.code.labels.size) :
    Recorded known (compileStatement pos l x) s (Lines [⟨l, x, s⟩] s) := by
  refine (edits_leaf pos hx hl).mono ?_
  rintro t _ s' - - - ⟨rfl, hsize, ht⟩
  refine ⟨by rwa [hsize], (Stretch.plain (by omega) ht).arrive_plain ?_⟩
  cases x <;> first | rfl | cases hx

/-! ### Heads of statements -/

/-- Two labels are made for an `if`, and its test is put behind edits that lead nowhere. -/
theorem edits_openBranch (hl : l < s.file.code.labels.size) :
    Recorded known (openBranch l condition) s fun t arms s' =>
      arms = (s.file.code.labels.size + 1, s.file.code.labels.size) ∧
      s'.file.code.labels.size = s.file.code.labels.size + 2 ∧
      ∃ c front, condition = some c ∧ (branchGate l c s).Asked ∧ Plain front ∧
        t = front ++ (branchGate l c s).tests := by
  unfold openBranch
  refine (recorded_newChild hl).bind ?_
  rintro _ after u₁ h₁ ⟨rfl, rfl, hsize₁⟩
  refine (recorded_newChild (by omega)).bind ?_
  rintro _ inside u₂ h₂ ⟨rfl, rfl, hsize₂⟩
  refine (keeps_need _ _).andThen fun c _ hneed _ _ => ?_
  obtain ⟨rfl, rfl⟩ := hneed.need
  simp only [compileCondition_eq, bind_assoc, pure_bind]
  refine (tabled_askCondition c).recorded.bind fun t₃ query u₃ h₃ ⟨ht₃, hmore, hfit⟩ => ?_
  have hsize₃ := hmore.size
  refine (keeps_target _).andThen fun there _ htarget _ _ => ?_
  obtain ⟨rfl, rfl⟩ := htarget.target
  refine (recorded_emit_aimed (by omega) (by omega) hfit
    fun q => isTest_of_askCondition h₃).bind ?_
  rintro _ _ u₄ - ⟨rfl, hsize₄⟩
  -- the condition is asked in the state in which both labels have been made
  have hstate : (branchGate l c s).state = u₂ := by
    simp only [branchGate, h₁.state, h₂.state]
  have hquestion : (branchGate l c s).question = query.question := by
    show (result? (askCondition c) (branchGate l c s).state).bind _ = _
    rw [hstate, h₃.result?]
    rfl
  have htests : (query.question.map (Edit.test l · u₁.file.code.labels.size)).toList =
      (branchGate l c s).tests := by
    rw [Gate.tests, hquestion, hsize₁]
    rfl
  refine .pure ⟨by rw [hsize₁], by omega, c, [.child l, .child l] ++ t₃ ++ [.put l query.setup],
    rfl, ⟨query, u₃, hstate ▸ h₃⟩, fun e he => ?_, by rw [htests]; simp⟩
  simp only [List.mem_append, List.mem_cons, List.not_mem_nil, or_false] at he
  rcases he with ((rfl | rfl) | he) | rfl
  · exact ⟨rfl, rfl⟩
  · exact ⟨rfl, rfl⟩
  · exact plain_of_onlyStrings ht₃ e he
  · exact ⟨rfl, rfl⟩

theorem recorded_openBranch (hl : l < s.file.code.labels.size) :
    Recorded known (openBranch l condition) s fun t arms s' =>
      arms = (s.file.code.labels.size + 1, s.file.code.labels.size) ∧
      s'.file.code.labels.size = s.file.code.labels.size + 2 ∧
      ∀ body elseIfs otherwise, Stretch s.file.code.labels.size s'.file.code.labels.size nowhere []
        [⟨l, .branch condition body elseIfs otherwise, s⟩] t := by
  refine (edits_openBranch hl).mono ?_
  rintro _ arms s' - - - ⟨harms, hsize, c, front, rfl, hasked, hplain, rfl⟩
  refine ⟨harms, hsize, fun body elseIfs otherwise => ?_⟩
  have hinside : s.file.code.labels.size ≤ (branchGate l c s).inside ∧
      (branchGate l c s).inside < s'.file.code.labels.size := by
    simp only [branchGate]
    omega
  refine (Stretch.tests (by omega) hplain hinside).arrive fun x hx => ?_
  obtain rfl := List.mem_singleton.mp hx
  exact ⟨hinside, hasked.tested_behind fun e he => (hplain e he).1, trivial⟩

theorem recorded_openSelect {subject : Option Condition} {pos : Pos}
    (hl : l < s.file.code.labels.size) :
    Recorded known (openSelect l subject pos) s fun t after s' =>
      after = s.file.code.labels.size ∧
      s'.file.code.labels.size = s.file.code.labels.size + 1 ∧
      (∃ u, Yields (compileSubject subject pos) s (Switch.code ⟨subject, pos, s⟩) u) ∧
      ∃ t₁, OnlyStrings t₁ ∧ t = t₁ ++ [.put l (Switch.code ⟨subject, pos, s⟩), .child l] := by
  unfold openSelect
  refine (tabled_compileSubject subject pos).recorded.bind fun t₁ is u₁ h₁ ⟨ht₁, hmore, his⟩ => ?_
  have hsize₁ := hmore.size
  refine (recorded_emit (by omega) his).bind ?_
  rintro _ _ u₂ - ⟨rfl, hsize₂⟩
  refine (recorded_newChild (by omega)).mono ?_
  rintro _ after u₃ - - - ⟨rfl, rfl, hsize₃⟩
  have hcode : Switch.code ⟨subject, pos, s⟩ = is := by
    rw [Switch.code, h₁.result?]
    rfl
  rw [hcode]
  exact ⟨by rw [hsize₂, hsize₁], by omega, ⟨u₁, h₁⟩, t₁, ht₁, rfl⟩

/-- A label is made for a case, and its test is put behind edits that lead nowhere. -/
theorem edits_openCase (switch : Switch) (hl : l < s.file.code.labels.size) :
    Recorded known (openCase l number name) s fun t arm s' =>
      arm = (caseGate switch l number name s).question.map (fun _ => s.file.code.labels.size) ∧
      s'.file.code.labels.size = s.file.code.labels.size + 1 ∧
      (caseGate switch l number name s).Asked ∧
      ∃ front, Plain front ∧ t = front ++ (caseGate switch l number name s).tests := by
  unfold openCase
  refine (keeps_lift _ _).andThen fun n _ hlift _ _ => ?_
  obtain ⟨hn, rfl⟩ := hlift.lift
  refine (recorded_newChild hl).bind ?_
  rintro _ inside u₁ h₁ ⟨rfl, rfl, hsize₁⟩
  refine (keeps_caseWord _ _).andThen fun word u₂ h₂ hcode _ => ?_
  set gate := caseGate switch l number name s with hgate
  have hstate : gate.state = u₁ := h₁.state
  have hread : Yields (readCase number name) gate.state word u₂ :=
    yields_bind.mpr ⟨n, _, yields_lift.mpr ⟨hn, rfl⟩, hstate ▸ h₂⟩
  have hasked : gate.Asked := ⟨word, u₂, hread⟩
  have hquestion : gate.question = word.map caseQuestion := by
    show (result? (readCase number name) gate.state).join.map _ = _
    rw [hread.result?]
    rfl
  have hsize₂ : u₂.file.code.labels.size = s.file.code.labels.size + 1 := by
    rw [hcode, hsize₁]
  rw [Gate.tests, hquestion]
  cases word with
  | none =>
    refine .pure ⟨rfl, hsize₂, hasked, [.child l], fun e he => ?_, rfl⟩
    rw [List.mem_singleton.mp he]
    exact ⟨rfl, rfl⟩
  | some word =>
    refine (keeps_target _).andThen fun there _ htarget _ _ => ?_
    obtain ⟨rfl, rfl⟩ := htarget.target
    -- the code of a case is that of a query with nothing to do first
    let query : Query := ⟨[], some (caseQuestion word)⟩
    have hfit : query.Fit known u₂.file.code.strings.length := by
      refine ⟨fun i hi => absurd hi List.not_mem_nil, fun i hi => ?_⟩
      obtain rfl := Option.some.inj hi
      intro o ho
      rw [List.mem_singleton.mp ho]
      exact Operand.below_of_ne (by simp)
    have htest : ∀ q, query.question = some q → q.isTest = true := by
      intro q hq
      obtain rfl := Option.some.inj hq
      rfl
    have hl₂ : l < u₂.file.code.labels.size := by omega
    have hin₂ : s.file.code.labels.size < u₂.file.code.labels.size := by omega
    refine (recorded_emit_aimed hl₂ hin₂ hfit htest).bind ?_
    rintro _ _ u₃ - ⟨rfl, hsize₃⟩
    refine .pure ⟨rfl, by rw [hsize₃, hsize₂], hasked, [.child l, .put l []], fun e he => ?_, rfl⟩
    simp only [List.mem_cons, List.not_mem_nil, or_false] at he
    rcases he with rfl | rfl <;> exact ⟨rfl, rfl⟩

theorem recorded_openCase
    (outer : Nat → Prop) (switch : Switch) (hl : l < s.file.code.labels.size) :
    Recorded known (openCase l number name) s fun t arm s' =>
      (∀ inside, arm = some inside → inside = s.file.code.labels.size) ∧
      s'.file.code.labels.size = s.file.code.labels.size + 1 ∧
      Stretch s.file.code.labels.size s'.file.code.labels.size outer [] [] t ∧
      (caseGate switch l number name s).Tested t := by
  refine (edits_openCase switch hl).mono ?_
  rintro _ arm s' - - - ⟨rfl, hsize, hasked, front, hplain, rfl⟩
  refine ⟨fun inside h => ?_, hsize, .tests (by omega) hplain ⟨Nat.le_refl _, ?_⟩,
    hasked.tested_behind fun e he => (hplain e he).1⟩
  · obtain ⟨_, -, rfl⟩ := Option.map_eq_some_iff.mp h
    rfl
  · simp only [caseGate]
    omega

/-- The gates of cases belong to the label and the subject of their switch. -/
theorem mem_caseGates {switch : Switch} {cases : List Case}
    (hx : x ∈ caseGates switch l after cases s) :
    x.label = l ∧ ∃ number name, x.guard = .case switch number name := by
  induction cases generalizing s with
  | nil => cases hx
  | cons c cs ih =>
    rw [caseGates] at hx
    rcases List.mem_append.mp hx with hx | hx
    · cases c with
      | default body => cases hx
      | labelled number name body =>
        rw [List.mem_singleton.mp hx]
        exact ⟨rfl, number, name, rfl⟩
    · obtain ⟨_, t, -, hx⟩ := mem_onward.mp hx
      exact ih hx

theorem recorded_compileElseIfs {elseIfs : List ElseIf} (hl : l < s.file.code.labels.size) :
    Recorded known (compileElseIfs l elseIfs) s fun t _ s' => t = [] ∧ s' = s := by
  cases elseIfs with
  | nil =>
    rw [compileElseIfs]
    exact .pure ⟨rfl, rfl⟩
  | cons e es =>
    rw [compileElseIfs]
    refine (recorded_newChild hl).bind fun t x u _ _ => ?_
    exact (Keeps.throw _).recorded fun _ _ h => h.throw.elim

/-! ### Statements -/

/-- A scope without declarations is sound. -/
theorem sound_default : ({} : Scope).Sound known := Scope.sound_of_empty rfl rfl

theorem recorded_compileExit {b : Block} (ha : after < s.file.code.labels.size)
    (hb : Recorded known (compileBlock {} l b) s (Lines (blockArrivals {} l b s) s)) :
    Recorded known (compileExit l after b) s fun t _ s' =>
      Stretch s.file.code.labels.size s'.file.code.labels.size (· = after) []
        (blockArrivals {} l b s) t := by
  refine hb.bind fun t last u _ ⟨hlast, hstretch⟩ => ?_
  refine (recorded_jump hlast (Nat.lt_of_lt_of_le ha hstretch.le)).mono ?_
  rintro _ _ s' - - - ⟨rfl, hsize⟩
  rw [hsize]
  exact hstretch.leave_by ha

theorem recorded_compileInside {b : Block} (ha : after < s.file.code.labels.size)
    (hb : Recorded known (compileBlock {} l b) s (Lines (blockArrivals {} l b s) s)) :
    Recorded known (compileInside l after b) s fun t _ s' =>
      Stretch s.file.code.labels.size s'.file.code.labels.size (· = after) []
        (insideArrivals l b s) t := by
  cases b with
  | absent =>
    rw [compileInside]
    exact .pure .nil
  | of pos xs =>
    rw [compileInside_of]
    exact recorded_compileExit ha hb

mutual

theorem recorded_compileBlock {scope : Scope} (hscope : scope.Sound known) :
    ∀ (b : Block) (s : CompileState) (l : Nat), l < s.file.code.labels.size →
    Recorded known (compileBlock scope l b) s (Lines (blockArrivals scope l b s) s)
  | .absent, s, l, hl => by
    rw [compileBlock]
    refine (recorded_enterScope hscope).bind fun t _ u _ _ => ?_
    exact (Keeps.throw _).recorded fun _ _ h => h.throw.elim
  | .of pos statements, s, l, hl => by
    rw [compileBlock]
    refine (recorded_enterScope hscope).bind ?_
    rintro _ _ u hu ⟨rfl, hcode⟩
    refine (recorded_compileStatements pos statements u l (by rwa [hcode])).bind
      fun t last v _ ⟨hlast, hstretch⟩ => ?_
    refine keeps_leaveScope.andThen fun _ w _ hw _ => .pure ⟨hw ▸ hlast, ?_⟩
    rw [blockArrivals, hu.onward, hw, ← hcode, List.append_nil, List.nil_append]
    exact hstretch

theorem recorded_compileStatements (pos : Pos) :
    ∀ (xs : List Statement) (s : CompileState) (l : Nat), l < s.file.code.labels.size →
    Recorded known (compileStatements pos l xs) s (Lines (statementsArrivals pos l xs s) s)
  | [], s, l, hl => by
    rw [compileStatements]
    exact .pure ⟨hl, .nil⟩
  | x :: xs, s, l, hl => by
    rw [compileStatements]
    refine (recorded_compileStatement pos x s l hl).bind fun t last u hu ⟨hlast, hx⟩ => ?_
    refine (recorded_compileStatements pos xs u last hlast).mono
      fun t' last' s' _ _ _ ⟨hlast', hxs⟩ => ⟨hlast', ?_⟩
    rw [statementsArrivals, hu.onward]
    exact hx.append_same hxs fun _ h => h.elim

theorem recorded_compileStatement (pos : Pos) :
    ∀ (x : Statement) (s : CompileState) (l : Nat), l < s.file.code.labels.size →
    Recorded known (compileStatement pos l x) s (Lines (statementArrivals l x s) s)
  | .define _, _, _, hl | .assign _, _, _, hl | .call _, _, _, hl => recorded_leaf pos rfl hl
  | .branch condition body elseIfs otherwise, s, l, hl => by
    rw [compileStatement_branch]
    refine (recorded_openBranch hl).bind ?_
    rintro t₀ _ u hu ⟨rfl, hsize, hopen⟩
    have hfirst := hopen body elseIfs otherwise
    set n := s.file.code.labels.size with hn
    have hrest : Recorded known (do
        compileInside (n + 1) n body
        compileElseIfs l elseIfs
        compileElse l n otherwise
        return n) u fun t last s' => last = n ∧
          Stretch u.file.code.labels.size s'.file.code.labels.size (· = n) []
            (insideArrivals (n + 1) body u ++ onward (compileInside (n + 1) n body) u fun _ v =>
              onward (compileElseIfs l elseIfs) v fun _ w => elseArrivals l otherwise w) t := by
      refine (recorded_compileInside (by omega)
        (recorded_compileBlock sound_default body u (n + 1) (by omega))).bind
        fun t₁ _ v hv hinside => ?_
      have hle := hinside.le
      refine (recorded_compileElseIfs (by omega)).bind ?_
      rintro _ _ _ hw ⟨rfl, rfl⟩
      refine (recorded_compileElse otherwise _ l n (by omega) (by omega)).bind
        fun t₂ _ w _ helse => .pure ⟨rfl, ?_⟩
      rw [hv.onward, hw.onward, List.nil_append, List.append_nil]
      exact hinside.append_same helse fun y hy => by omega
    refine hrest.mono fun t last s' _ _ _ ⟨hlast, hstretch⟩ => ?_
    have hle := hstretch.le
    have hlt : n < s'.file.code.labels.size := by omega
    refine ⟨hlast ▸ hlt, ?_⟩
    rw [statementArrivals, hu.onward]
    refine hfirst.append hstretch (fun _ h => h.elim) ?_
    -- what follows leads back to the label behind the statement, which is no gate
    rintro y rfl
    refine ⟨by omega, .inl (Nat.le_refl _), fun v hv x hx => ?_⟩
    rw [List.mem_singleton.mp hv] at hx
    cases condition with
    | none => cases hx
    | some c =>
      rw [List.mem_singleton.mp hx]
      exact Nat.succ_ne_self _
  | .select subject cases switchPos, s, l, hl => by
    rw [compileStatement_select]
    refine (recorded_openSelect hl).bind ?_
    rintro _ _ u hu ⟨rfl, hsize, hcode, t₁, ht₁, rfl⟩
    set n := s.file.code.labels.size with hn
    set switch : Switch := ⟨subject, switchPos, s⟩ with hswitch
    have hplain : ∀ e ∈ t₁ ++ [.put l switch.code, .child l], e.aim = none ∧ e.name = none := by
      intro e he
      simp only [List.mem_append, List.mem_cons, List.not_mem_nil, or_false] at he
      rcases he with he | rfl | rfl
      · exact plain_of_onlyStrings ht₁ e he
      · exact ⟨rfl, rfl⟩
      · exact ⟨rfl, rfl⟩
    have hfree : ∀ y, ∀ e ∈ t₁ ++ [.put l switch.code, .child l], e.aim ≠ some y := by
      intro y e he
      rw [(hplain e he).1]
      simp
    refine (recorded_compileCases switch cases u l n (by omega) (by omega)).bind
      fun t₂ _ v _ ⟨hcases, hgates⟩ => ?_
    have hle := hcases.le
    have hlt : n < v.file.code.labels.size := by omega
    refine .pure ⟨hlt, ?_⟩
    rw [statementArrivals, hu.onward, List.append_nil]
    have hfront : Stretch n u.file.code.labels.size nowhere [] []
        (t₁ ++ [.put l switch.code, .child l]) := .plain (by omega) hplain
    have hall := hfront.append hcases (fun _ h => h.elim) fun y hy =>
      ⟨by omega, .inl (by omega), fun _ h => absurd h List.not_mem_nil⟩
    refine hall.arrive fun x hx => ?_
    rw [Arrival.gates, hu.onward] at hx
    obtain ⟨hin, htested⟩ := hgates x hx
    refine ⟨by omega, htested.append_left (hfree _), ?_⟩
    obtain ⟨hlabel, number, name, hguard⟩ := mem_caseGates hx
    rw [Gate.Opened, hguard]
    refine ⟨hcode, t₁, .child l :: t₂, by simp [hlabel, hswitch], fun e he => ?_⟩
    exact hfree _ e (List.mem_append_left _ he)
  | .inert _, _, _, hl => recorded_leaf pos rfl hl

theorem recorded_compileElse :
    ∀ (b : Option Block) (s : CompileState) (l after : Nat), l < s.file.code.labels.size →
    after < s.file.code.labels.size →
    Recorded known (compileElse l after b) s fun t _ s' =>
      Stretch s.file.code.labels.size s'.file.code.labels.size (· = after) []
        (elseArrivals l b s) t
  | none, s, l, after, hl, ha => by
    rw [compileElse]
    exact .pure .nil
  | some body, s, l, after, hl, ha => by
    rw [compileElse]
    exact recorded_compileExit ha (recorded_compileBlock sound_default body s l hl)

theorem recorded_compileCases (switch : Switch) :
    ∀ (cs : List Case) (s : CompileState) (l after : Nat), l < s.file.code.labels.size →
    after < s.file.code.labels.size →
    Recorded known (compileCases l after cs) s fun t _ s' =>
      Stretch s.file.code.labels.size s'.file.code.labels.size (· = after) []
        (casesArrivals l after cs s) t ∧
      ∀ x ∈ caseGates switch l after cs s, (s.file.code.labels.size ≤ x.inside ∧
        x.inside < s'.file.code.labels.size) ∧ x.Tested t
  | [], s, l, after, hl, ha => by
    rw [compileCases]
    exact .pure ⟨.nil, fun x hx => absurd hx List.not_mem_nil⟩
  | c :: cs, s, l, after, hl, ha => by
    rw [compileCases]
    refine (recorded_compileCase switch c s l after hl ha).bind
      fun t _ u hu ⟨hfirst, hgates⟩ => ?_
    have hle := hfirst.le
    refine (recorded_compileCases switch cs u l after (by omega) (by omega)).mono
      fun t' _ s' _ _ _ ⟨hrest, hgates'⟩ => ?_
    have hle' := hrest.le
    rw [casesArrivals, caseGates, hu.onward, hu.onward]
    refine ⟨hfirst.append_same hrest fun y hy => by omega, fun x hx => ?_⟩
    rcases List.mem_append.mp hx with hx | hx
    · obtain ⟨hin, htested⟩ := hgates x hx
      exact ⟨by omega, htested.append_right (hrest.aim_ne (.inl hin.2) (by omega))⟩
    · obtain ⟨hin, htested⟩ := hgates' x hx
      exact ⟨by omega, htested.append_left (hfirst.aim_ne (.inr hin.1) (by omega))⟩

theorem recorded_compileCase (switch : Switch) :
    ∀ (c : Case) (s : CompileState) (l after : Nat), l < s.file.code.labels.size →
    after < s.file.code.labels.size →
    Recorded known (compileCase l after c) s fun t _ s' =>
      Stretch s.file.code.labels.size s'.file.code.labels.size (· = after) []
        (caseArrivals l c s) t ∧
      ∀ x ∈ c.gates switch l s, (s.file.code.labels.size ≤ x.inside ∧
        x.inside < s'.file.code.labels.size) ∧ x.Tested t
  | .default body, s, l, after, hl, ha => by
    rw [compileCase]
    exact (recorded_compileExit ha (recorded_compileBlock sound_default body s l hl)).mono
      fun _ _ _ _ _ _ h => ⟨h, fun x hx => absurd hx List.not_mem_nil⟩
  | .labelled number name body, s, l, after, hl, ha => by
    rw [compileCase_labelled]
    refine (recorded_openCase (· = after) switch hl).bind
      fun t arm u hu ⟨harm, hsize, hstretch, htested⟩ => ?_
    have hgates : ∀ (t' : List Edit) (s' : CompileState),
        u.file.code.labels.size ≤ s'.file.code.labels.size →
        (∀ e ∈ t', e.aim ≠ some s.file.code.labels.size) →
        ∀ x ∈ (Case.labelled number name body).gates switch l s,
          (s.file.code.labels.size ≤ x.inside ∧ x.inside < s'.file.code.labels.size) ∧
            x.Tested (t ++ t') := by
      intro t' s' hle hfree x hx
      obtain rfl := List.mem_singleton.mp hx
      exact ⟨⟨Nat.le_refl _, by simp only [caseGate]; omega⟩, htested.append_right hfree⟩
    rw [caseArrivals, hu.onward]
    cases arm with
    | none =>
      refine .pure ⟨?_, hgates [] u (Nat.le_refl _) fun _ h => absurd h List.not_mem_nil⟩
      rw [List.append_nil]
      exact hstretch
    | some inside =>
      obtain rfl := harm inside rfl
      refine (recorded_compileInside (by omega)
        (recorded_compileBlock sound_default body u _ (by omega))).mono
        fun t' _ s' _ _ _ hbody => ⟨?_, hgates t' s' hbody.le ?_⟩
      · have hall := hstretch.append_same hbody fun y hy => by omega
        simpa using hall
      · exact hbody.aim_ne (.inl (by omega)) (by omega)

end

end EvScript
