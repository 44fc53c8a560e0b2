import EvScript.Proofs.Compile.Rereading

/-!
# Behind What Is There

A file that is imported makes its scopes and commands behind those that are there. So its run is the
run that it would have by itself, moved past a gap. For the importing file, once the scopes of an
imported one stand in its global scope under a name, there is a gap behind all that was there; and
what is to be found that was not there before begins with that name.
-/

namespace EvScript

open CompileM ScopeGraph

variable {fs : Files} {mode : ReadMode} {path : String} {τ : FileQueries} {s t : CompileState}
  {n : Nat}

/-! ### The run of an import -/

/-- A run from the beginning lies in one that begins in a state: behind all that is there. -/
def Shift.after (s : CompileState) : Shift :=
  ⟨⟨0, s.graph.size⟩, ⟨0, s.unseen.size⟩, none, false,
    fun k => s.unseen[k]?.map (List.map Param.bare)⟩

theorem shifted_start (s : CompileState) :
    (CompileState.start path).graph.Shifted (.after s) (s.fresh path).graph := by
  have hstart : ∀ x, (Cursor.start .empty).2.scope x = {} := fun x => by
    rw [scope_start]
    split
    · rfl
    · exact scope_of_size_le (Nat.zero_le x)
  have hfresh : ∀ x, (Cursor.start s.graph).2.scope ((Shift.after s).scopes.shift x) = {} := by
    intro x
    rw [scope_start]
    split
    · rfl
    · refine scope_of_size_le ?_
      rw [Gap.shift_of_le (Nat.zero_le x)]
      exact Nat.le_add_left _ _
  refine ⟨Nat.zero_le _, ?_, fun x => ?_, fun x => ?_, fun x z hz => ?_⟩
  · show (Cursor.start s.graph).2.size = (Cursor.start .empty).2.size + s.graph.size
    rw [size_start, size_start]
    exact Nat.add_comm _ _
  · show ((Cursor.start .empty).2.scope x).Shifted _ ((Cursor.start s.graph).2.scope _)
    rw [hstart, hfresh]
    exact Scope.shifted_fresh _ none
  · show ((Cursor.start s.graph).2.scope _).children.filter _ =
      ((Cursor.start .empty).2.scope x).children.map _
    rw [hstart, hfresh]
    rfl
  · change z ∈ ((Cursor.start s.graph).2.scope _).children at hz
    rw [hfresh] at hz
    cases hz

theorem params_start (s : CompileState) : (Shift.after s).Params #[] s.unseen := by
  refine ⟨Nat.zero_le _, (Nat.zero_add _).symm, fun k => ?_, fun k _ => rfl⟩
  rw [Gap.shift_of_le (Nat.zero_le k)]
  have hnone : s.unseen[k + s.unseen.size]? = none :=
    Array.getElem?_eq_none (Nat.le_add_left _ _)
  exact (congrArg (Option.map _) hnone).trans rfl

theorem matches_start (h : s.Matches .same τ s) (path : String) :
    (CompileState.start path).Matches (.after s) (.any path) (s.fresh path) where
  here := standing_start path
  there := h.there.start
  graph := shifted_start s
  cursor := by
    have htop : (Shift.after s).scopes.shift 0 = s.graph.size := Nat.zero_add _
    show (⟨s.graph.size, s.graph.size, []⟩ : Cursor) =
      ⟨(Shift.after s).scopes.shift 0, (Shift.after s).scopes.shift 0, []⟩
    rw [htop]
  params := params_start s
  path := rfl
  path' := rfl
  code := rfl
  locals := rfl
  printed h := nomatch h
  log h := nomatch h
  free _ _ _ _ h := nomatch h

/-- From `s` to `t` another file was gone through, with `other` for the place in it, and neither the
scopes nor the parameters that were there have changed. -/
structure Undisturbed (s : CompileState) (other : Cursor) (t : CompileState) : Prop where
  imported : Imported s other t
  standing : Standing t.graph t.file.cursor t.unseen.size
  size_le : s.unseen.size ≤ t.unseen.size
  unseen : ∀ k < s.unseen.size,
    t.unseen[k]?.map (List.map Param.bare) = s.unseen[k]?.map (List.map Param.bare)

/-- **A file that comes to the end by itself does so where it is imported**, and leaves what is
there as it is. -/
theorem yields_fileImporter {u : CompileState} (hs : s.Matches .same τ s)
    (h : Yields (compileFile fs mode n path) (.start path) () u) :
    ∃ other t, Yields (fileImporter fs mode n path) s other t ∧ Undisturbed s other t := by
  let s₁ : CompileState := { s with printed := s.printed ++ [announcement path] }
  have hs₁ : s₁.Matches .same τ s₁ := { hs with printed := fun _ => rfl, log := fun _ => rfl }
  have hself : Files.Alike mode fs fs n n path :=
    Files.alike_of_forall (fun _ => .of_bytes rfl) n path
  obtain ⟨_, v, hv, -, hmatch⟩ :=
    (tracks_compileFile (fun _ _ => rfl) hself).yields (matches_start hs₁ path) h
  have hyields : Yields (fileImporter fs mode n path) s v.file.cursor { v with file := s.file } :=
    yields_bind.mpr ⟨(), s₁, rfl, yields_inFile.mpr ⟨v, hv, rfl, rfl⟩⟩
  obtain ⟨-, hproceeds, himported⟩ := importsBehind_fileImporter fs mode n path s hs.here.scoped
  rw [hyields.ends] at hproceeds
  have hscoped := hproceeds.inOrder
  refine ⟨_, _, hyields, himported _ _ hyields,
    ⟨hscoped.ordered, hscoped.rooted, hmatch.there.serials⟩, ?_, fun k hk => ?_⟩
  · show s.unseen.size ≤ v.unseen.size
    rw [hmatch.params.size]
    exact Nat.le_add_left _ _
  · refine hmatch.params.guest k (Gap.spares_eq_false_iff.mpr ⟨Nat.zero_le k, ?_⟩)
    exact Nat.lt_of_lt_of_eq hk (Nat.zero_add _).symm

/-! ### Going on behind an import -/

/-- A state lies in one that comes after an import: what has come up in between is a gap, and its
scopes are found under the name `m` only. -/
def Shift.between (m : String) (s t : CompileState) : Shift :=
  ⟨⟨s.graph.size, t.graph.size - s.graph.size⟩, ⟨s.unseen.size, t.unseen.size - s.unseen.size⟩,
    some m, false, fun k => t.unseen[k]?.map (List.map Param.bare)⟩

variable {m : String} {other : Cursor}

theorem Table.map_past_of_lt {a : Gap} {cs : Table String Command}
    (h : ∀ e ∈ cs.entries, e.2.serial < a.start) :
    cs.map (Command.past .empty) = cs.map (Command.past a) := by
  refine congrArg Table.mk (List.map_congr_left fun e he => ?_)
  rw [Command.past, Command.past, Gap.shift_empty, Gap.shift_of_lt (h e he)]

/-- Scopes in front of the gap lie in themselves, whatever scopes are put into them. -/
theorem Scope.shifted_of_lt {π : Shift} {x : Scope} (ids : List ScopeId)
    (hserials : ∀ e ∈ x.commands.entries, e.2.serial < π.serials.start)
    (hparent : ∀ p ∈ x.parent, p < π.scopes.start) :
    x.Shifted π { x with children := ids } := by
  refine ⟨rfl, rfl, Table.map_past_of_lt hserials, rfl, rfl, ?_⟩
  show x.parent = x.parent.map π.scopes.shift
  cases hp : x.parent with
  | none => rfl
  | some p => exact congrArg some (Gap.shift_of_lt (hparent p hp)).symm

/-- Scopes in front of the gap are spared by it, and keep their numbers. -/
theorem filter_append_of_lt {a : Gap} {ids guests : List ScopeId} (hids : ∀ x ∈ ids, x < a.start)
    (hguests : ∀ x ∈ guests, a.spares x = false) :
    (ids ++ guests).filter a.spares = ids.map a.shift := by
  have hshift : ids.map a.shift = ids :=
    (List.map_congr_left fun x hx => Gap.shift_of_lt (hids x hx)).trans (List.map_id' ids)
  have hspared : ∀ x ∈ ids, a.spares x = true := fun x hx => by
    rw [← Gap.shift_of_lt (hids x hx), Gap.spares_shift]
  rw [List.filter_append, List.filter_eq_self.mpr hspared, hshift,
    List.filter_eq_nil_iff.mpr fun x hx => by rw [hguests x hx]; exact Bool.false_ne_true,
    List.append_nil]

theorem Cursor.Rooted.past_of_size {g : ScopeGraph} {c : Cursor} {a : Gap} (h : c.Rooted g)
    (hg : g.Ordered) (ha : a.start = g.size) : c.past a = c := by
  have hshift : ∀ x < g.size, a.shift x = x := fun x hx => Gap.shift_of_lt (ha ▸ hx)
  have henclosing : c.enclosing.map a.shift = c.enclosing :=
    (List.map_congr_left fun x hx => hshift x (h.trail.lt_size hg x hx)).trans (List.map_id' _)
  rw [Cursor.past, hshift _ h.top_lt, hshift _ h.here_lt, henclosing]

namespace Undisturbed

/-- The global scope of the import gets the name. -/
theorem name_mount (h : Undisturbed s other t) (hs : s.Scoped) :
    ((t.file.cursor.mount t.graph other m).scope other.top).name = some m := by
  have hlt := h.imported.top_lt hs
  have hother : other.top < t.graph.size := h.imported.top ▸ h.imported.size_lt
  rw [scope_mount (Nat.lt_trans hlt hother) hother (Nat.ne_of_lt hlt), if_neg (Nat.ne_of_gt hlt),
    if_pos rfl]

/-- The scopes in front of the import are as they were, with one more in the global scope. -/
theorem scope_mount_of_lt (h : Undisturbed s other t) (hs : s.Scoped) {x : ScopeId}
    (hx : x < s.graph.size) :
    (t.file.cursor.mount t.graph other m).scope ((Shift.between m s t).scopes.shift x) =
      { s.graph.scope x with children := (s.graph.scope x).children ++
          if x = s.file.cursor.top then [other.top] else [] } := by
  have hlt := h.imported.top_lt hs
  have hother : other.top < t.graph.size := h.imported.top ▸ h.imported.size_lt
  rw [Gap.shift_of_lt (a := (Shift.between m s t).scopes) hx,
    scope_mount (Nat.lt_trans hlt hother) hother (Nat.ne_of_lt hlt), h.imported.file]
  split
  · next heq => rw [← heq, h.imported.same x hx]
  · rw [if_neg (h.imported.top ▸ Nat.ne_of_lt hx), h.imported.same x hx, List.append_nil]

/-- Behind the gap there is nothing yet. -/
theorem scope_mount_of_le (h : Undisturbed s other t) {x : ScopeId} (hx : s.graph.size ≤ x) :
    (t.file.cursor.mount t.graph other m).scope ((Shift.between m s t).scopes.shift x) = {} := by
  refine scope_of_size_le ?_
  rw [size_mount, Gap.shift_of_le (a := (Shift.between m s t).scopes) hx]
  exact Nat.le_trans (Nat.add_sub_cancel' h.imported.size_lt.le).ge (Nat.add_le_add_right hx _)

/-- **After an import the scopes are as they were, past a gap.** -/
theorem shifted (h : Undisturbed s other t) (hs : s.Matches .same τ s)
    (htop : s.file.cursor.top = 0) :
    s.graph.Shifted (.between m s t) (t.file.cursor.mount t.graph other m) := by
  have hscoped := hs.here.scoped
  have hsize : t.graph.size = s.graph.size + (t.graph.size - s.graph.size) :=
    (Nat.add_sub_cancel' h.imported.size_lt.le).symm
  have hother : (Shift.between m s t).scopes.spares other.top = false := by
    rw [Gap.spares_eq_false_iff, h.imported.top]
    exact ⟨Nat.le_refl _, Nat.lt_of_lt_of_eq h.imported.size_lt hsize⟩
  have hguests : ∀ x, ∀ z ∈ (if x = s.file.cursor.top then [other.top] else [] : List ScopeId),
      x = s.file.cursor.top ∧ z = other.top := by
    intro x z hz
    split at hz
    · exact ⟨‹_›, List.mem_singleton.mp hz⟩
    · cases hz
  refine ⟨Nat.le_refl _, size_mount.trans hsize, fun x => ?_, fun x => ?_, fun x z hz hspare => ?_⟩
  all_goals rcases Nat.lt_or_ge x s.graph.size with hx | hx
  · rw [h.scope_mount_of_lt hscoped hx]
    exact Scope.shifted_of_lt _ (hs.here.serials x) fun p hp =>
      Nat.lt_trans (hs.here.ordered.parent hp) hx
  · rw [h.scope_mount_of_le hx, scope_of_size_le hx]
    exact Scope.shifted_fresh _ none
  · rw [h.scope_mount_of_lt hscoped hx]
    refine filter_append_of_lt (fun z hz => (hs.here.ordered.child hz).2) fun z hz => ?_
    rw [(hguests x z hz).2, hother]
  · rw [h.scope_mount_of_le hx, scope_of_size_le hx]
    rfl
  · rw [h.scope_mount_of_lt hscoped hx] at hz
    rcases List.mem_append.mp hz with hz | hz
    · exact absurd (hs.here.ordered.child hz).2
        (Nat.not_lt_of_le (Gap.spares_eq_false_iff.mp hspare).1)
    · obtain ⟨hx, rfl⟩ := hguests x z hz
      exact ⟨hx.trans htop, m, rfl, h.name_mount hscoped⟩
  · rw [h.scope_mount_of_le hx] at hz
    cases hz

theorem params (h : Undisturbed s other t) : (Shift.between m s t).Params s.unseen t.unseen := by
  have hsize : t.unseen.size = s.unseen.size + (t.unseen.size - s.unseen.size) :=
    (Nat.add_sub_cancel' h.size_le).symm
  refine ⟨Nat.le_refl _, hsize, fun k => ?_, fun k _ => rfl⟩
  rcases Nat.lt_or_ge k s.unseen.size with hk | hk
  · rw [Gap.shift_of_lt (a := (Shift.between m s t).serials) hk]
    exact h.unseen k hk
  · rw [Gap.shift_of_le (a := (Shift.between m s t).serials) hk, Array.getElem?_eq_none hk,
      Array.getElem?_eq_none]
    exact Nat.le_trans hsize.le (Nat.add_le_add_right hk _)

/-- **After an import the state is as it was, past a gap**, for a file that asks for no name which
begins with that of the import. -/
theorem matches_mount (h : Undisturbed s other t) (hs : s.Matches .same τ s)
    (htop : s.file.cursor.top = 0)
    (hfree : ∀ name, τ.asks name → (nameParts name).1.head? ≠ some m) :
    s.Matches (.between m s t) τ
      { t with graph := t.file.cursor.mount t.graph other m } where
  here := hs.here
  there := by
    have hscoped := (h.imported.proceeds_mount hs.here.scoped h.standing.scoped m).inOrder
    exact ⟨hscoped.ordered, hscoped.rooted, h.standing.serials.mount m⟩
  graph := h.shifted hs htop
  cursor := by
    rw [hs.here.rooted.past_of_size hs.here.ordered rfl]
    exact congrArg FileState.cursor h.imported.file
  params := h.params
  path := hs.path
  path' := (congrArg FileState.path h.imported.file).trans hs.path
  code := congrArg FileState.code h.imported.file
  locals := congrArg FileState.locals h.imported.file
  printed hheard := nomatch hheard
  log hheard := nomatch hheard
  free _ name hname m' hm' := Option.mem_some_iff.mp hm' ▸ hfree name hname

end Undisturbed

end EvScript
