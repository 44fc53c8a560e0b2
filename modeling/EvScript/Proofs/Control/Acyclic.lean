import EvScript.Proofs.Compile.Naming
import Mathlib.Logic.Relation
import Mathlib.Data.List.Nodup

/-!
# The Graph of Jumps

A test leads from the label of a choice to the inside of an arm, and where an arm is over, a jump
leads to the label behind the choice: these are the **links** of the code. Neither the order in
which labels are made nor that of parents and children agrees with them. But the labels of a stretch
of a body can be put in a **row** such that links go forward only: the labels of the first arm,
those of the next, and so on, and at the end the label behind the choice.

## Main results

* `branching_never_loops` — the graph of links has no cycle.
-/

namespace EvScript

open CompileM Assembly

/-! ### Links -/

/-- The links of a record. -/
def linksIn (t : List Edit) : List (Nat × Nat) := t.filterMap Edit.link

/-- The link of the jump behind a block. -/
def exitLinks (l after : LabelId) : Block → CompileState → List (Nat × Nat)
  | .absent, _ => []
  | .of pos xs, s => onward (compileBlock {} l (.of pos xs)) s fun last _ => [(last, after)]

/-- The links of a case: to its inside, if it is tested for, and from there. -/
def Case.links (l after : LabelId) : Case → CompileState → List (Nat × Nat)
  | .default body, s => exitLinks l after body s
  | .labelled number name body, s =>
    onward (openCase l number name) s fun arm t =>
      arm.toList.flatMap fun inside => (l, inside) :: exitLinks inside after body t

/-- The links of the cases of a switch. -/
def caseLinks (l after : LabelId) : List Case → CompileState → List (Nat × Nat)
  | [], _ => []
  | c :: cs, s => c.links l after s ++
    onward (compileCase l after c) s fun _ t => caseLinks l after cs t

/-- The links that a statement makes, apart from those of the statements in it. -/
def Arrival.links : Arrival → List (Nat × Nat)
  | ⟨l, .branch (some c) body elseIfs otherwise, s⟩ =>
    onward (openBranch l (some c)) s fun arms t =>
      (branchGate l c s).question.toList.map (fun _ => (l, arms.1)) ++
        exitLinks arms.1 arms.2 body t ++
        onward (compileInside arms.1 arms.2 body) t fun _ u =>
          onward (compileElseIfs l elseIfs) u fun _ v =>
            otherwise.toList.flatMap (exitLinks l arms.2 · v)
  | ⟨l, .select subject cases pos, s⟩ =>
    onward (openSelect l subject pos) s fun after t => caseLinks l after cases t
  | _ => []

/-- The links of the statements that a compilation comes to. -/
def linksOf (V : List Arrival) : List (Nat × Nat) := V.flatMap Arrival.links

/-- The links of a script. -/
def scriptLinks (fs : Files) (mode : ReadMode) (path : String) : List (Nat × Nat) :=
  linksOf (scriptArrivals fs mode path)

@[simp] theorem linksIn_append (t u : List Edit) : linksIn (t ++ u) = linksIn t ++ linksIn u :=
  List.filterMap_append

@[simp] theorem linksOf_append (V W : List Arrival) : linksOf (V ++ W) = linksOf V ++ linksOf W :=
  List.flatMap_append

@[simp] theorem linksOf_cons (v : Arrival) (V : List Arrival) :
    linksOf (v :: V) = v.links ++ linksOf V :=
  List.flatMap_cons

theorem linksIn_of_plain {t : List Edit} (h : Plain t) : linksIn t = [] := by
  refine List.filterMap_eq_nil_iff.mpr fun e he => ?_
  have haim := (h e he).1
  cases e <;> first | rfl | cases haim

theorem linksIn_tests (x : Gate) :
    linksIn x.tests = x.question.toList.map fun _ => (x.label, x.inside) := by
  unfold Gate.tests
  cases x.question <;> rfl

/-! ### Rows -/

/-- The labels are different ones from the `n`-th to before the `m`-th. -/
structure Row (n m : Nat) (L : List Nat) : Prop where
  nodup : L.Nodup
  mem : ∀ x ∈ L, n ≤ x ∧ x < m

/-- All links go forward in the row. -/
def Forward (L : List Nat) (E : List (Nat × Nat)) : Prop := ∀ p ∈ E, [p.1, p.2].Sublist L

/-- The labels that are made can be put in a row behind `l`, so that it ends with `last` and links
go forward. -/
structure Threaded (n m l last : Nat) (E : List (Nat × Nat)) : Prop where
  le : n ≤ m
  row : ∃ L, Row n m L ∧ (l :: L).getLast? = some last ∧ Forward (l :: L) E

/-- The labels that are made can be put in a row between `l` and `after`, so that links go
forward. -/
structure Fanned (n m l after : Nat) (E : List (Nat × Nat)) : Prop where
  le : n ≤ m
  row : ∃ L, Row n m L ∧ Forward (l :: (L ++ [after])) E

section Rows

variable {n m k l last after inside : Nat} {E E' : List (Nat × Nat)} {L L' : List Nat}

theorem Row.nil (n m : Nat) : Row n m [] := ⟨List.nodup_nil, fun _ h => absurd h List.not_mem_nil⟩

theorem Row.append (h : Row n m L) (h' : Row m k L') (hn : n ≤ m) (hk : m ≤ k) :
    Row n k (L ++ L') := by
  refine ⟨List.Nodup.append h.nodup h'.nodup fun x hx hx' => ?_, fun x hx => ?_⟩
  · have hlt := (h.mem x hx).2
    have hle := (h'.mem x hx').1
    omega
  · rcases List.mem_append.mp hx with hx | hx
    · have hin := h.mem x hx
      omega
    · have hin := h'.mem x hx
      omega

/-- One more label in front of a row. -/
theorem Row.cons (h : Row n m L) (hk : k ≤ inside) (hin : inside < n) (hle : n ≤ m) :
    Row k m (inside :: L) := by
  refine ⟨List.nodup_cons.mpr ⟨fun hmem => ?_, h.nodup⟩, fun x hx => ?_⟩
  · have hle := (h.mem _ hmem).1
    omega
  · rcases List.mem_cons.mp hx with rfl | hx
    · omega
    · have hin := h.mem x hx
      omega

theorem Forward.mono (h : Forward L E) (hL : L.Sublist L') (hE : ∀ p ∈ E', p ∈ E) : Forward L' E' :=
  fun p hp => (h p (hE p hp)).trans hL

theorem Forward.append (h : Forward L E) (h' : Forward L E') : Forward L (E ++ E') :=
  fun p hp => (List.mem_append.mp hp).elim (h p) (h' p)

theorem Threaded.nil (n l : Nat) : Threaded n n l l [] :=
  ⟨Nat.le_refl n, [], .nil n n, rfl, fun _ h => absurd h List.not_mem_nil⟩

/-- **A row goes on where another one ends.** -/
theorem Threaded.trans {mid : Nat} (h : Threaded n m l mid E) (h' : Threaded m k mid last E') :
    Threaded n k l last (E ++ E') := by
  obtain ⟨hle, L, hL, hlast, hE⟩ := h
  obtain ⟨hle', L', hL', hlast', hE'⟩ := h'
  obtain ⟨front, hfront⟩ := List.getLast?_eq_some_iff.mp hlast
  have hrow : l :: (L ++ L') = front ++ mid :: L' := by
    rw [← List.cons_append, hfront, List.append_assoc, List.singleton_append]
  refine ⟨by omega, L ++ L', hL.append hL' hle hle', ?_, .append ?_ ?_⟩
  · rw [hrow, List.getLast?_append, hlast']
    rfl
  · exact hE.mono (List.sublist_append_left (l :: L) L') fun _ => id
  · exact hE'.mono (hrow ▸ List.sublist_append_right front _) fun _ => id

theorem Fanned.nil (n l after : Nat) : Fanned n n l after [] :=
  ⟨Nat.le_refl n, [], .nil n n, fun _ h => absurd h List.not_mem_nil⟩

theorem Threaded.leave (h : Threaded n m l last E) (after : Nat) :
    Fanned n m l after (E ++ [(last, after)]) := by
  obtain ⟨hle, L, hL, hlast, hE⟩ := h
  refine ⟨hle, L, hL, .append ?_ fun p hp => ?_⟩
  · exact hE.mono (List.sublist_append_left (l :: L) [after]) fun _ => id
  · rw [List.mem_singleton.mp hp]
    obtain ⟨front, hfront⟩ := List.getLast?_eq_some_iff.mp hlast
    rw [← List.cons_append, hfront, List.append_assoc]
    exact List.sublist_append_right front _

/-- The arms of a choice, one behind the other. -/
theorem Fanned.append (h : Fanned n m l after E) (h' : Fanned m k l after E') :
    Fanned n k l after (E ++ E') := by
  obtain ⟨hle, L, hL, hE⟩ := h
  obtain ⟨hle', L', hL', hE'⟩ := h'
  refine ⟨by omega, L ++ L', hL.append hL' hle hle', .append ?_ ?_⟩
  · refine hE.mono (.cons_cons _ ?_) fun _ => id
    rw [List.append_assoc]
    exact (List.Sublist.refl L).append (List.sublist_append_right L' _)
  · refine hE'.mono (.cons_cons _ ?_) fun _ => id
    rw [List.append_assoc]
    exact List.sublist_append_right L _

theorem Fanned.under (h : Fanned n m inside after E) (l : Nat) (hk : k ≤ inside)
    (hin : inside < n) : Fanned k m l after ((l, inside) :: E) := by
  obtain ⟨hle, L, hL, hE⟩ := h
  refine ⟨by omega, inside :: L, hL.cons hk hin hle, fun p hp => ?_⟩
  rcases List.mem_cons.mp hp with rfl | hp
  · exact .cons_cons _ (.cons_cons _ (List.nil_sublist _))
  · exact (hE p hp).trans (List.sublist_cons_self _ _)

theorem Fanned.of_mem (h : Fanned n m l after E) (hE : ∀ p ∈ E', p ∈ E) :
    Fanned n m l after E' := by
  obtain ⟨hle, L, hL, hrow⟩ := h
  exact ⟨hle, L, hL, hrow.mono (.refl _) hE⟩

/-- **A choice.** The label behind it is made first and comes last. -/
theorem Fanned.close (h : Fanned (n + 1) m l n E) : Threaded n m l n E := by
  obtain ⟨hle, L, hL, hE⟩ := h
  refine ⟨by omega, L ++ [n], ⟨?_, fun x hx => ?_⟩, ?_, hE⟩
  · refine List.Nodup.append hL.nodup (List.nodup_singleton n) fun x hx hn => ?_
    rw [List.mem_singleton.mp hn] at hx
    have hle := (hL.mem n hx).1
    omega
  · rcases List.mem_append.mp hx with hx | hx
    · have hin := hL.mem x hx
      omega
    · rw [List.mem_singleton.mp hx]
      omega
  · rw [← List.cons_append, List.getLast?_append]
    rfl

/-- In a row of different labels, links go from smaller to greater positions. -/
theorem idxOf_lt_of_forward (hL : L.Nodup) (h : Forward L E) {p : Nat × Nat} (hp : p ∈ E) :
    L.idxOf p.1 < L.idxOf p.2 := by
  obtain ⟨r₁, r₂, rfl, h₁, h₂⟩ := List.cons_sublist_iff.mp (h p hp)
  have hmem : p.2 ∈ r₂ := List.singleton_sublist.mp h₂
  have hfree : p.2 ∉ r₁ := fun h => List.disjoint_of_nodup_append hL h hmem
  rw [List.idxOf_append_of_mem h₁, List.idxOf_append_of_notMem hfree]
  have hlt := List.idxOf_lt_length_of_mem h₁
  omega

end Rows

/-! ### Statements -/

variable {known : Option Int → Prop} {s : CompileState} {l after : Nat}

/-- The record of statements that begin under `l` and end under `last`. -/
structure Threads (V : List Arrival) (l : Nat) (s : CompileState) (t : List Edit) (last : Nat)
    (s' : CompileState) : Prop where
  lt : last < s'.file.code.labels.size
  links : ∀ p, p ∈ linksIn t ↔ p ∈ linksOf V
  row : Threaded s.file.code.labels.size s'.file.code.labels.size l last (linksIn t)

/-- The record of arms of a choice under `l`, with links of the choice itself. -/
structure Fans (V : List Arrival) (E : List (Nat × Nat)) (l after : Nat) (s : CompileState)
    (t : List Edit) (_ : Unit) (s' : CompileState) : Prop where
  links : ∀ p, p ∈ linksIn t ↔ p ∈ linksOf V ∨ p ∈ E
  row : Fanned s.file.code.labels.size s'.file.code.labels.size l after (linksIn t)

theorem threaded_leaf (pos : Pos) {x : Statement} (hx : x.isLeaf = true)
    (hl : l < s.file.code.labels.size) :
    Recorded known (compileStatement pos l x) s (Threads [⟨l, x, s⟩] l s) := by
  refine (edits_leaf pos hx hl).mono ?_
  rintro t _ s' - - - ⟨rfl, hsize, ht⟩
  refine ⟨hsize ▸ hl, fun p => ?_, ?_⟩
  · rw [linksIn_of_plain ht]
    cases x <;> first | exact Iff.rfl | cases hx
  · rw [linksIn_of_plain ht, hsize]
    exact .nil _ _

theorem fanned_compileExit {b : Block} (ha : after < s.file.code.labels.size)
    (hb : Recorded known (compileBlock {} l b) s (Threads (blockArrivals {} l b s) l s)) :
    Recorded known (compileExit l after b) s
      (Fans (blockArrivals {} l b s) (exitLinks l after b s) l after s) := by
  refine hb.bind fun t last u hu ⟨hlast, hlinks, hbody⟩ => ?_
  refine (recorded_jump hlast (Nat.lt_of_lt_of_le ha hbody.le)).mono ?_
  rintro _ _ s' - - - ⟨rfl, hsize⟩
  have hexit : exitLinks l after b s = [(last, after)] := by
    cases b with
    | absent =>
      rw [compileBlock] at hu
      obtain ⟨_, _, -, hu⟩ := hu.bind
      exact hu.throw.elim
    | of pos xs => exact hu.onward
  refine ⟨fun p => ?_, ?_⟩
  · rw [hexit, linksIn_append, List.mem_append, hlinks]
    rfl
  · rw [hsize, linksIn_append]
    exact hbody.leave after

theorem fanned_compileInside {b : Block} (ha : after < s.file.code.labels.size)
    (hb : Recorded known (compileBlock {} l b) s (Threads (blockArrivals {} l b s) l s)) :
    Recorded known (compileInside l after b) s
      (Fans (insideArrivals l b s) (exitLinks l after b s) l after s) := by
  cases b with
  | absent =>
    rw [compileInside]
    exact .pure ⟨fun p => (or_iff_left List.not_mem_nil).symm, .nil _ l after⟩
  | of pos xs =>
    rw [compileInside_of]
    exact fanned_compileExit ha hb

mutual

theorem threaded_compileBlock {scope : Scope} (hscope : scope.Sound known) :
    ∀ (b : Block) (s : CompileState) (l : Nat), l < s.file.code.labels.size →
    Recorded known (compileBlock scope l b) s (Threads (blockArrivals scope l b s) l s)
  | .absent, s, l, hl => by
    rw [compileBlock]
    refine (recorded_enterScope hscope).bind fun t _ u _ _ => ?_
    exact (Keeps.throw _).recorded fun _ _ h => h.throw.elim
  | .of pos statements, s, l, hl => by
    rw [compileBlock]
    refine (recorded_enterScope hscope).bind ?_
    rintro _ _ u hu ⟨rfl, hcode⟩
    refine (threaded_compileStatements pos statements u l (by rwa [hcode])).bind
      fun t last v _ ⟨hlast, hlinks, hrow⟩ => ?_
    refine keeps_leaveScope.andThen fun _ w _ hw _ => .pure ?_
    rw [blockArrivals, hu.onward, List.append_nil, List.nil_append]
    exact ⟨hw ▸ hlast, hlinks, by rwa [hw, ← hcode]⟩

theorem threaded_compileStatements (pos : Pos) :
    ∀ (xs : List Statement) (s : CompileState) (l : Nat), l < s.file.code.labels.size →
    Recorded known (compileStatements pos l xs) s (Threads (statementsArrivals pos l xs s) l s)
  | [], s, l, hl => by
    rw [compileStatements]
    exact .pure ⟨hl, fun _ => Iff.rfl, .nil _ l⟩
  | x :: xs, s, l, hl => by
    rw [compileStatements]
    refine (threaded_compileStatement pos x s l hl).bind
      fun t last u hu ⟨hlast, hlinks, hx⟩ => ?_
    refine (threaded_compileStatements pos xs u last hlast).mono
      fun t' last' s' _ _ _ ⟨hlast', hlinks', hxs⟩ => ⟨hlast', fun p => ?_, ?_⟩
    · rw [statementsArrivals, hu.onward, linksOf_append, linksIn_append, List.mem_append,
        List.mem_append, hlinks, hlinks']
    · rw [linksIn_append]
      exact hx.trans hxs

theorem threaded_compileStatement (pos : Pos) :
    ∀ (x : Statement) (s : CompileState) (l : Nat), l < s.file.code.labels.size →
    Recorded known (compileStatement pos l x) s (Threads (statementArrivals l x s) l s)
  | .define d, s, l, hl | .assign a, s, l, hl | .call c, s, l, hl | .inert rule, s, l, hl =>
    threaded_leaf pos rfl hl
  | .branch condition body elseIfs otherwise, s, l, hl => by
    rw [compileStatement_branch]
    refine (edits_openBranch hl).bind ?_
    rintro _ _ u hu ⟨rfl, hsize, c, front, rfl, -, hplain, rfl⟩
    refine (fanned_compileInside (by omega)
      (threaded_compileBlock sound_default body u _ (by omega))).bind
      fun t₁ _ v hv ⟨hlinks, hinside⟩ => ?_
    have hle := hinside.le
    refine (recorded_compileElseIfs (by omega)).bind ?_
    rintro _ _ _ hw ⟨rfl, rfl⟩
    refine (fanned_compileElse otherwise _ l _ (by omega) (by omega)).bind
      fun t₂ _ w _ ⟨hlinks', helse⟩ => .pure ⟨?_, fun p => ?_, ?_⟩
    · have hle' := helse.le
      show s.file.code.labels.size < w.file.code.labels.size
      omega
    · rw [statementArrivals, hu.onward, linksOf_cons, Arrival.links, hu.onward]
      simp only [hv.onward, hw.onward, linksIn_append, linksOf_append, linksIn_of_plain hplain,
        linksIn_tests, List.append_nil, List.nil_append, List.mem_append, hlinks, hlinks']
      show p ∈ ((branchGate l c s).question.toList.map fun _ => (l, s.file.code.labels.size + 1)) ∨
        _ ↔ _
      tauto
    · have harm := hinside.under l (k := s.file.code.labels.size + 1) (Nat.le_refl _) (by omega)
      refine Fanned.close ((harm.append helse).of_mem fun p hp => ?_)
      simp only [linksIn_append, linksIn_of_plain hplain, linksIn_tests, List.append_nil,
        List.nil_append, List.mem_append, List.mem_cons, List.mem_map] at hp ⊢
      rcases hp with ⟨_, -, rfl⟩ | hp | hp
      · exact .inl (.inl rfl)
      · exact .inl (.inr hp)
      · exact .inr hp
  | .select subject cases switchPos, s, l, hl => by
    rw [compileStatement_select]
    refine (recorded_openSelect hl).bind ?_
    rintro _ _ u hu ⟨rfl, hsize, -, t₁, ht₁, rfl⟩
    have hfront :
        linksIn (t₁ ++ [.put l (Switch.code ⟨subject, switchPos, s⟩), .child l]) = [] := by
      rw [linksIn_append, linksIn_of_plain (plain_of_onlyStrings ht₁)]
      rfl
    refine (fanned_compileCases cases u l _ (by omega) (by omega)).bind
      fun t₂ _ v _ ⟨hlinks, hcases⟩ => .pure ⟨?_, fun p => ?_, ?_⟩
    · have hle := hcases.le
      show s.file.code.labels.size < v.file.code.labels.size
      omega
    · rw [statementArrivals, hu.onward, linksOf_cons, Arrival.links, hu.onward, linksIn_append,
        hfront, List.append_nil, List.nil_append, hlinks, List.mem_append, or_comm]
    · rw [linksIn_append, hfront, List.append_nil, List.nil_append]
      rw [hsize] at hcases
      exact hcases.close

theorem fanned_compileElse : ∀ (b : Option Block) (s : CompileState) (l after : Nat),
    l < s.file.code.labels.size → after < s.file.code.labels.size →
    Recorded known (compileElse l after b) s
      (Fans (elseArrivals l b s) (b.toList.flatMap (exitLinks l after · s)) l after s)
  | none, s, l, after, hl, ha => by
    rw [compileElse]
    exact .pure ⟨fun p => (or_iff_left List.not_mem_nil).symm, .nil _ l after⟩
  | some b, s, l, after, hl, ha => by
    rw [compileElse, Option.toList_some, List.flatMap_singleton]
    exact fanned_compileExit ha (threaded_compileBlock sound_default b s l hl)

theorem fanned_compileCases : ∀ (cs : List Case) (s : CompileState) (l after : Nat),
    l < s.file.code.labels.size → after < s.file.code.labels.size →
    Recorded known (compileCases l after cs) s
      (Fans (casesArrivals l after cs s) (caseLinks l after cs s) l after s)
  | [], s, l, after, hl, ha => by
    rw [compileCases]
    exact .pure ⟨fun p => (or_iff_left List.not_mem_nil).symm, .nil _ l after⟩
  | c :: cs, s, l, after, hl, ha => by
    rw [compileCases]
    refine (fanned_compileCase c s l after hl ha).bind fun t _ u hu ⟨hlinks, hfirst⟩ => ?_
    have hle := hfirst.le
    refine (fanned_compileCases cs u l after (by omega) (by omega)).mono
      fun t' _ s' _ _ _ ⟨hlinks', hrest⟩ => ?_
    rw [casesArrivals, caseLinks, hu.onward, hu.onward]
    refine ⟨fun p => ?_, linksIn_append t t' ▸ hfirst.append hrest⟩
    simp only [linksIn_append, linksOf_append, List.mem_append, hlinks, hlinks']
    tauto

theorem fanned_compileCase : ∀ (c : Case) (s : CompileState) (l after : Nat),
    l < s.file.code.labels.size → after < s.file.code.labels.size →
    Recorded known (compileCase l after c) s
      (Fans (caseArrivals l c s) (c.links l after s) l after s)
  | .default body, s, l, after, hl, ha => by
    rw [compileCase]
    exact fanned_compileExit ha (threaded_compileBlock sound_default body s l hl)
  | .labelled number name body, s, l, after, hl, ha => by
    rw [compileCase_labelled]
    refine (edits_openCase ⟨none, ⟨0, 0⟩, s⟩ hl).bind ?_
    rintro _ _ u hu ⟨rfl, hsize, -, front, hplain, rfl⟩
    rw [caseArrivals, hu.onward, Case.links, hu.onward]
    cases hq : (caseGate ⟨none, ⟨0, 0⟩, s⟩ l number name s).question with
    | none =>
      have hnone : linksIn (front ++ (caseGate ⟨none, ⟨0, 0⟩, s⟩ l number name s).tests) = [] := by
        rw [linksIn_append, linksIn_of_plain hplain, linksIn_tests, hq]
        rfl
      refine .pure ?_
      rw [List.append_nil]
      refine ⟨fun p => ?_, by omega, [], .nil _ _, ?_⟩
      · rw [hnone]
        exact (or_iff_left List.not_mem_nil).symm
      · rw [hnone]
        exact fun _ h => absurd h List.not_mem_nil
    | some q =>
      have hone : linksIn (front ++ (caseGate ⟨none, ⟨0, 0⟩, s⟩ l number name s).tests) =
          [(l, s.file.code.labels.size)] := by
        rw [linksIn_append, linksIn_of_plain hplain, linksIn_tests, hq]
        rfl
      refine (fanned_compileInside (by omega)
        (threaded_compileBlock sound_default body u s.file.code.labels.size (by omega))).mono
        fun t' _ s' _ _ _ ⟨hlinks, hbody⟩ => ?_
      refine ⟨fun p => ?_, ?_⟩
      · simp only [linksIn_append, hone, Option.map_some, Option.toList_some,
          List.flatMap_singleton, List.mem_append, List.mem_cons, List.not_mem_nil,
          or_false, hlinks]
        tauto
      · rw [linksIn_append, hone]
        exact hbody.under l (Nat.le_refl _) (by omega)

end

/-! ### Functions and scripts -/

/-- What the links of statements say about code that goes on from other code: they are between new
labels, which can be put in a row; each stands for a jump or a test; and no other instruction that
is new moves control, calls of commands with known numbers apart. -/
structure Wired (known : Option Int → Prop) (V : List Arrival) (c c' : Assembly) : Prop where
  ext : c.Extends c'
  row : ∃ L, Row c.labels.size c'.labels.size L ∧ Forward L (linksOf V)
  drawn : ∀ p ∈ linksOf V, ∃ i ∈ (c'.label p.1).instrs, i.isControl = true ∧
    i.operands.getLast? = some (c'.target p.2)
  only : ∀ x, ∀ i ∈ (c'.label x).instrs, i.isControl = true → i ∈ (c.label x).instrs ∨
    known i.command ∨ ∃ y, (x, y) ∈ linksOf V ∧ i.operands.getLast? = some (c'.target y)

/-- The labels of links are new. -/
theorem Wired.mem {V : List Arrival} {c c' : Assembly} (h : Wired known V c c') {p : Nat × Nat}
    (hp : p ∈ linksOf V) : (c.labels.size ≤ p.1 ∧ p.1 < c'.labels.size) ∧
      c.labels.size ≤ p.2 ∧ p.2 < c'.labels.size := by
  obtain ⟨L, hL, hforward⟩ := h.row
  have hsub := (hforward p hp).subset
  exact ⟨hL.mem _ (hsub List.mem_cons_self),
    hL.mem _ (hsub (List.mem_cons_of_mem _ List.mem_cons_self))⟩

theorem wired_compileFunction {f : FunctionDecl} {t : CompileState} (hs : s.graph.Sound known)
    (hy : Yields (compileFunction f) s () t) :
    Wired known (bodyArrivals f s) s.file.code t.file.code := by
  have hrecord : Recorded known (compileFunction f) s fun t _ s' =>
      (∀ p, p ∈ linksIn t ↔ p ∈ linksOf (bodyArrivals f s)) ∧
      ∃ L, Row s.file.code.labels.size s'.file.code.labels.size L ∧ Forward L (linksIn t) := by
    rw [compileFunction_eq]
    refine (recorded_beginFunction f).bind ?_
    rintro _ ⟨scope, label⟩ u hu ⟨hscope, rfl, hsize, name, -, rfl⟩
    refine (threaded_compileBlock hscope f.body u _ (by omega)).bind
      fun t last v _ ⟨_, hlinks, hle, L, hL, _, hforward⟩ => .pure ?_
    rw [bodyArrivals, hu.onward, List.append_nil]
    exact ⟨hlinks, _, hL.cons (Nat.le_refl _) (by omega) hle, hforward⟩
  obtain ⟨r, hlaw, hcode, -, hpost⟩ := hrecord hs
  obtain ⟨hlinks, L, hL, hforward⟩ := hpost () t hy
  rw [hy.ends] at hcode
  dsimp only at hcode
  refine ⟨hcode ▸ extends_replay hlaw, ⟨L, hL, fun p hp => hforward p ((hlinks p).mpr hp)⟩,
    fun p hp => ?_, fun x i hi hc => ?_⟩
  · obtain ⟨e, he, hlink⟩ := List.mem_filterMap.mp ((hlinks p).mpr hp)
    rw [hcode]
    exact exists_instr_of_link hlaw he hlink
  · rw [hcode] at hi ⊢
    refine (control_of_mem_replay hlaw hi hc).imp_right (Or.imp_right ?_)
    rintro ⟨e, he, y, hlink, -, hlast⟩
    exact ⟨y, (hlinks _).mp (List.mem_filterMap.mpr ⟨e, he, hlink⟩), hlast⟩

theorem composes_wired : Composes (Wired known) where
  same h := by
    refine ⟨(GrowsAt.of_moreStrings 0 h).toExtends, ⟨[], .nil _ _, ?_⟩, ?_, fun x i hi _ => ?_⟩
    · exact fun _ hp => absurd hp List.not_mem_nil
    · exact fun _ hp => absurd hp List.not_mem_nil
    · rw [h.label] at hi
      exact .inl hi
  append {V W c c' c''} h h' := by
    obtain ⟨L, hL, hforward⟩ := h.row
    obtain ⟨L', hL', hforward'⟩ := h'.row
    refine ⟨h.ext.trans h'.ext, ⟨L ++ L', hL.append hL' h.ext.size h'.ext.size, ?_⟩, fun p hp => ?_,
      fun x i hi hc => ?_⟩
    · rw [linksOf_append]
      exact .append (hforward.mono (List.sublist_append_left L L') fun _ => id)
        (hforward'.mono (List.sublist_append_right L L') fun _ => id)
    · rw [linksOf_append] at hp
      rcases List.mem_append.mp hp with hp | hp
      · obtain ⟨i, hi, hc, hlast⟩ := h.drawn p hp
        obtain ⟨hx, hy⟩ := h.mem hp
        refine ⟨i, (h'.ext.instrs _ hx.2).subset hi, hc, ?_⟩
        rw [h'.ext.target_eq hy.2, hlast]
      · exact h'.drawn p hp
    · simp only [linksOf_append, List.mem_append]
      rcases h'.only x i hi hc with hi | hknown | ⟨y, hy, hlast⟩
      · refine (h.only x i hi hc).imp_right (Or.imp_right ?_)
        rintro ⟨y, hy, hlast⟩
        refine ⟨y, .inl hy, ?_⟩
        rw [h'.ext.target_eq (h.mem hy).2.2, hlast]
      · exact .inr (.inl hknown)
      · exact .inr (.inr ⟨y, .inr hy, hlast⟩)

/-- If the names given to the labels of functions are different and unlike those of children, all
labels have different names. -/
theorem distinct_of_scriptVisits {fs : Files} {mode : ReadMode} {path : String}
    (hok : (compileScript fs mode path).ended = .ok ())
    (hnodup : (labelNamesOf (scriptVisits fs mode path)).Nodup)
    (hroot : ∀ name ∈ labelNamesOf (scriptVisits fs mode path), looksLikeChild name = false) :
    (compileScript fs mode path).state.file.code.Consistent ∧
      (compileScript fs mode path).state.file.code.Distinct := by
  obtain ⟨t, hlaw, hcode, hstretch⟩ := exists_record fs mode path
  have hgiven : (origins .empty t).filterMap Origin.given =
      labelNamesOf (scriptVisits fs mode path) := by
    rw [filterMap_given_origins, (hstretch hok).names]
  rw [hcode]
  exact ⟨consistent_empty.replay hlaw,
    (family_replay hlaw).distinct (hgiven ▸ hnodup) (hgiven ▸ hroot)⟩

/-- The label with the one name has a jump or a test, made for a choice, to the label with the other
name. -/
def Assembly.Links (c : Assembly) (E : List (Nat × Nat)) (name name' : String) : Prop :=
  ∃ p ∈ E, c.text p.1 = name ∧ c.text p.2 = name'

/-- If links go forward in a row, and different labels have different names, a way along links leads
forward. -/
theorem idxOf_lt_of_transGen {c : Assembly} {E : List (Nat × Nat)} {L : List Nat}
    (hc : c.Consistent) (hd : c.Distinct) (hL : Row 0 c.labels.size L) (hE : Forward L E)
    {name name' : String} (h : Relation.TransGen (c.Links E) name name') :
    ∃ x ∈ L, ∃ y ∈ L, c.text x = name ∧ c.text y = name' ∧ L.idxOf x < L.idxOf y := by
  have hmem : ∀ p ∈ E, p.1 ∈ L ∧ p.2 ∈ L := fun p hp =>
    ⟨(hE p hp).subset List.mem_cons_self,
      (hE p hp).subset (List.mem_cons_of_mem _ List.mem_cons_self)⟩
  induction h with
  | single h =>
    obtain ⟨p, hp, hx, hy⟩ := h
    exact ⟨p.1, (hmem p hp).1, p.2, (hmem p hp).2, hx, hy, idxOf_lt_of_forward hL.nodup hE hp⟩
  | tail _ h ih =>
    obtain ⟨x, hx, y, hy, hxname, hyname, hlt⟩ := ih
    obtain ⟨p, hp, hpx, hpy⟩ := h
    obtain ⟨h₁, h₂⟩ := hmem p hp
    -- the way goes on from the label it has come to, since names are different
    obtain rfl : y = p.1 := hd y (hL.mem y hy).2 p.1 (hL.mem _ h₁).2
      ((hc.text_eq_iff (hL.mem y hy).2 (hL.mem _ h₁).2).mp (hyname.trans hpx.symm))
    exact ⟨x, hx, p.2, h₂, hxname, hpy, hlt.trans (idxOf_lt_of_forward hL.nodup hE hp)⟩

/-- **Branching never loops.** Take a script that is compiled to the end, in which the labels of
functions have different names, none of which looks like the name of a child. Each link is a jump or
a test under the one label that leads to the other, and every other instruction that moves control
is a call of a command with a number that a script has declared. The graph of links has no cycle,
and every link is between labels of one function. -/
theorem branching_never_loops (fs : Files) (mode : ReadMode) (path : String)
    (hok : (compileScript fs mode path).ended = .ok ())
    (hnodup : (labelNamesOf (scriptVisits fs mode path)).Nodup)
    (hroot : ∀ name ∈ labelNamesOf (scriptVisits fs mode path), looksLikeChild name = false) :
    ∃ code, code = (compileScript fs mode path).state.file.code ∧
      (∀ p ∈ scriptLinks fs mode path, ∃ i ∈ (code.label p.1).instrs,
        i.isControl = true ∧ code.destination i = some p.2) ∧
      (∀ x, ∀ i ∈ (code.label x).instrs, i.isControl = true → fs.Declares mode i.command ∨
        ∃ y, (x, y) ∈ scriptLinks fs mode path ∧ code.destination i = some y) ∧
      (∀ name, ¬ Relation.TransGen (code.Links (scriptLinks fs mode path)) name name) ∧
      ∀ p ∈ scriptLinks fs mode path, ∃ f s t, (f, s) ∈ scriptVisits fs mode path ∧
        Yields (compileFunction f) s () t ∧
        (s.file.code.labels.size ≤ p.1 ∧ p.1 < t.file.code.labels.size) ∧
        s.file.code.labels.size ≤ p.2 ∧ p.2 < t.file.code.labels.size := by
  obtain ⟨hconsistent, hdistinct⟩ := distinct_of_scriptVisits hok hnodup hroot
  have hwired := composes_wired.compileScript hok fun f s hf t hy =>
    wired_compileFunction (sound_of_mem_scriptVisits hf) hy
  have hu := hconsistent.tied.unclashed hdistinct
  have hleads : ∀ {i : Instr} {y : Nat},
      y < (compileScript fs mode path).state.file.code.labels.size →
      i.operands.getLast? = some ((compileScript fs mode path).state.file.code.target y) →
      (compileScript fs mode path).state.file.code.destination i = some y := by
    intro i y hy hlast
    rw [destination, hlast, Option.bind_some, hu.labelNamed_target hy]
  refine ⟨_, rfl, fun p hp => ?_, fun x i hi hc => ?_, fun name hcycle => ?_, fun p hp => ?_⟩
  · obtain ⟨i, hi, hc, hlast⟩ := hwired.drawn p hp
    exact ⟨i, hi, hc, hleads (hwired.mem hp).2.2 hlast⟩
  · rcases hwired.only x i hi hc with hi | hknown | ⟨y, hy, hlast⟩
    · rw [label_of_size_le (Nat.zero_le x)] at hi
      cases hi
    · exact .inl hknown
    · exact .inr ⟨y, hy, hleads (hwired.mem hy).2.2 hlast⟩
  · obtain ⟨L, hL, hforward⟩ := hwired.row
    obtain ⟨x, hx, y, hy, hxname, hyname, hlt⟩ :=
      idxOf_lt_of_transGen hconsistent hdistinct hL hforward hcycle
    have hxy : x = y := hdistinct x (hL.mem x hx).2 y (hL.mem y hy).2
      ((hconsistent.text_eq_iff (hL.mem x hx).2 (hL.mem y hy).2).mp (hxname.trans hyname.symm))
    rw [hxy] at hlt
    exact Nat.lt_irrefl _ hlt
  · obtain ⟨a, ha, hpa⟩ := List.mem_flatMap.mp hp
    obtain ⟨⟨f, s⟩, hf, ha⟩ := List.mem_flatMap.mp ha
    obtain ⟨-, t, hy, -⟩ := compileFunction_of_mem_scriptVisits hok hf
    exact ⟨f, s, t, hf, hy, (wired_compileFunction (sound_of_mem_scriptVisits hf) hy).mem
      (List.mem_flatMap.mpr ⟨a, ha, hpa⟩)⟩

set_option maxRecDepth 100000 in
theorem nestFiles_links : ∃ state, compileScript nestFiles .strict "nest.evc" = ⟨.ok (), state⟩ ∧
    labelNamesOf (scriptVisits nestFiles .strict "nest.evc") = ["_f", "_g"] ∧
    scriptLinks nestFiles .strict "nest.evc" = [(0, 2), (3, 1), (2, 4), (4, 3)] := by
  have hcheck : (compileScript nestFiles .strict "nest.evc").endsWith (fun _ =>
      decide (labelNamesOf (scriptVisits nestFiles .strict "nest.evc") = ["_f", "_g"]) &&
      decide (scriptLinks nestFiles .strict "nest.evc" = [(0, 2), (3, 1), (2, 4), (4, 3)])) =
      true := by
    decide +kernel
  obtain ⟨state, hscript, hstate⟩ := Outcome.eq_of_endsWith hcheck
  simp only [Bool.and_eq_true, decide_eq_true_eq] at hstate
  exact ⟨state, hscript, hstate⟩

/-- Of the labels behind the two choices, the outer one is made first and reached last. -/
theorem nest_never_loops : ∃ code,
    code = (compileScript nestFiles .strict "nest.evc").state.file.code ∧
    scriptLinks nestFiles .strict "nest.evc" = [(0, 2), (3, 1), (2, 4), (4, 3)] ∧
    ∀ name, ¬ Relation.TransGen (code.Links [(0, 2), (3, 1), (2, 4), (4, 3)]) name name := by
  obtain ⟨state, hscript, hnames, hlinks⟩ := nestFiles_links
  obtain ⟨code, hcode, -, -, hacyclic, -⟩ := branching_never_loops nestFiles .strict "nest.evc"
    (by rw [hscript]) (by rw [hnames]; decide) (by rw [hnames]; decide)
  rw [hlinks] at hacyclic
  exact ⟨code, hcode, hlinks, hacyclic⟩

end EvScript
