import EvScript.Proofs.Compile.Stations
import EvScript.Proofs.Scope.Shifted

/-!
# Two Runs Side by Side

Two runs go through the same program, one of them perhaps with other places in it and among scopes
and commands of others. Their states **match** if the scopes of one lie in those of the other past a
gap, the places correspond, and code, registers and unseen parameters are the same. A step is
**tracked** by another one if from matching states both end alike and the states they leave match
again. Steps that are put together alike from such steps are tracked too.
-/

namespace EvScript

open CompileM ScopeGraph

/-! ### Faults -/

/-- A fault without the place of its token. -/
def Fault.bare : Fault → Fault
  | .unreadable path token => .unreadable path token.bare
  | e => e

/-- Places are no part of what a fault says. -/
theorem Fault.message_bare (e : Fault) : e.bare.message = e.message := by cases e <;> rfl

/-! ### Serial numbers -/

/-- All commands that are declared have serial numbers below `n`. -/
def ScopeGraph.SerialsBelow (g : ScopeGraph) (n : Nat) : Prop :=
  ∀ x, ∀ e ∈ (g.scope x).commands.entries, e.2.serial < n

namespace Table

variable {κ α : Type} [DecidableEq κ]

theorem mem_entries_merge {t other : Table κ α} {e : κ × α} (h : e ∈ (t.merge other).entries) :
    e ∈ t.entries ∨ e ∈ other.entries := by
  obtain ⟨es⟩ := other
  change e ∈ (es.foldl (fun t d => t.insert d.1 d.2) t).entries at h
  show e ∈ t.entries ∨ e ∈ es
  induction es generalizing t with
  | nil => exact .inl h
  | cons d es ih =>
    rcases ih h with h | h
    · rcases mem_entries_insert h with rfl | h
      · exact .inr List.mem_cons_self
      · exact .inl h
    · exact .inr (List.mem_cons_of_mem _ h)

end Table

namespace ScopeGraph.SerialsBelow

variable {g : ScopeGraph} {n : Nat} {c other : Cursor} {s : Scope} {f : Scope → Scope}

theorem mono (h : g.SerialsBelow n) {m : Nat} (hle : n ≤ m) : g.SerialsBelow m :=
  fun x e he => Nat.lt_of_lt_of_le (h x e he) hle

theorem modify (h : g.SerialsBelow n) {id : ScopeId}
    (hf : ∀ e ∈ (f (g.scope id)).commands.entries, e.2.serial < n) :
    (g.modify id f).SerialsBelow n := by
  intro x e he
  rw [scope_modify] at he
  split at he
  · exact hf e he
  · exact h x e he

/-- A change that leaves the commands alone. -/
theorem modify_same (h : g.SerialsBelow n) {id : ScopeId}
    (hf : ∀ s, (f s).commands = s.commands) : (g.modify id f).SerialsBelow n :=
  h.modify fun e he => h id e (hf _ ▸ he)

theorem add (h : g.SerialsBelow n) (hs : s.commands = .empty) : (g.add s).2.SerialsBelow n := by
  intro x e he
  rw [scope_add] at he
  split at he
  · rw [hs] at he
    cases he
  · exact h x e he

theorem adopt (h : g.SerialsBelow n) (x y : ScopeId) : (g.adopt x y).SerialsBelow n := by
  refine modify_same (modify_same h ?_) ?_
  · exact fun _ => rfl
  · exact fun _ => rfl

theorem enterNew (h : g.SerialsBelow n) (hs : s.commands = .empty) :
    (c.enterNew g s).2.SerialsBelow n :=
  (h.add hs).adopt _ _

theorem mount (h : g.SerialsBelow n) (name : String) : (c.mount g other name).SerialsBelow n := by
  refine adopt (modify_same h ?_) _ _
  exact fun _ => rfl

theorem takeAll (h : g.SerialsBelow n) : (c.takeAll g other).SerialsBelow n := by
  refine h.modify fun e he => ?_
  rcases Table.mem_entries_merge he with he | he
  · exact h c.top e he
  · exact h other.top e he

end ScopeGraph.SerialsBelow

/-! ### Parameters -/

/-- The parameters that no call has looked at are the same on both sides, and those of the commands
of others are as they were. -/
structure Shift.Params (π : Shift) (u u' : Array (List Param)) : Prop where
  start_le : π.serials.start ≤ u.size
  size : u'.size = u.size + π.serials.size
  same : ∀ k, u'[π.serials.shift k]?.map (List.map Param.bare) =
    u[k]?.map (List.map Param.bare)
  guest : ∀ k, π.serials.spares k = false → u'[k]?.map (List.map Param.bare) = π.guests k

namespace Shift.Params

variable {π : Shift} {u u' : Array (List Param)} {ps ps' : List Param}

theorem shift_size (h : π.Params u u') : π.serials.shift u.size = u'.size := by
  rw [Gap.shift_of_le h.start_le, h.size]

theorem push (h : π.Params u u') (hps : ps'.map Param.bare = ps.map Param.bare) :
    π.Params (u.push ps) (u'.push ps') := by
  refine ⟨?_, ?_, fun k => ?_, fun k hk => ?_⟩
  · rw [Array.size_push]
    exact Nat.le_succ_of_le h.start_le
  · rw [Array.size_push, Array.size_push, h.size]
    omega
  · simp only [Array.getElem?_push, ← h.shift_size, Gap.shift_inj]
    split
    · exact congrArg some hps
    · exact h.same k
  · rw [Array.getElem?_push, if_neg]
    · exact h.guest k hk
    · rw [← h.shift_size]
      exact Gap.ne_shift_of_spares hk _

theorem modify (h : π.Params u u') (hps : ps'.map Param.bare = ps.map Param.bare) (i : Nat) :
    π.Params (u.modify i fun _ => ps) (u'.modify (π.serials.shift i) fun _ => ps') := by
  refine ⟨?_, ?_, fun k => ?_, fun k hk => ?_⟩
  · rw [Array.size_modify]
    exact h.start_le
  · rw [Array.size_modify, Array.size_modify]
    exact h.size
  · have hsame := h.same k
    simp only [Array.getElem?_modify, Gap.shift_inj]
    split
    · cases hu : u[k]? <;> cases hu' : u'[π.serials.shift k]? <;> simp_all
    · exact hsame
  · rw [Array.getElem?_modify, if_neg fun heq => Gap.ne_shift_of_spares hk i heq.symm]
    exact h.guest k hk

theorem same_same (h : Shift.same.Params u u') (k : Nat) :
    u'[k]?.map (List.map Param.bare) = u[k]?.map (List.map Param.bare) := by
  have hk := h.same k
  rwa [show Shift.same.serials.shift k = k from Gap.shift_empty] at hk

theorem of_same (hsize : u'.size = u.size)
    (hsame : ∀ k : Nat, u'[k]?.map (List.map Param.bare) = u[k]?.map (List.map Param.bare)) :
    Shift.same.Params u u' := by
  refine ⟨Nat.zero_le _, hsize, fun k => ?_, fun k hk => ?_⟩
  · rw [show Shift.same.serials.shift k = k from Gap.shift_empty]
    exact hsame k
  · rw [show Shift.same.serials.spares k = true from Gap.spares_empty] at hk
    cases hk

theorem refl (u : Array (List Param)) : Shift.same.Params u u := .of_same rfl fun _ => rfl

theorem trans_same {v : Array (List Param)} (h : π.Params u u') (h' : Shift.same.Params v u') :
    π.Params u v := by
  refine ⟨h.start_le, ?_, fun k => (h'.same_same _).symm.trans (h.same k), fun k hk =>
    (h'.same_same k).symm.trans (h.guest k hk)⟩
  rw [← h.size]
  exact h'.size.symm

end Shift.Params

/-! ### Matching states -/

/-- The scopes are in order, the place in them is rooted, and the commands have serial numbers that
were given out. -/
structure Standing (g : ScopeGraph) (c : Cursor) (n : Nat) : Prop where
  ordered : g.Ordered
  rooted : c.Rooted g
  serials : g.SerialsBelow n

namespace Standing

variable {g : ScopeGraph} {c : Cursor} {n : Nat} {s : Scope} {f : Scope → Scope}

theorem declare (h : Standing g c n) {id : ScopeId} (hname : ∀ s, (f s).name = s.name)
    (hparent : ∀ s, (f s).parent = s.parent) (hchildren : ∀ s, (f s).children = s.children)
    (hf : ∀ e ∈ (f (g.scope id)).commands.entries, e.2.serial < n) :
    Standing (g.modify id f) c n :=
  ⟨h.ordered.modify hparent hchildren, h.rooted.modify hname hparent, h.serials.modify hf⟩

theorem enterNew (h : Standing g c n) (hchildren : s.children = []) (hs : s.commands = .empty) :
    Standing (c.enterNew g s).2 (c.enterNew g s).1 n :=
  ⟨h.ordered.enterNew h.rooted.here_lt hchildren, h.rooted.enterNew, h.serials.enterNew hs⟩

theorem start (h : Standing g c n) : Standing (Cursor.start g).2 (Cursor.start g).1 n :=
  ⟨h.ordered.start, .start g, h.serials.add rfl⟩

end Standing

/-- What the file under way is about on both sides: its path, and the names that it may ask for. -/
structure FileQueries where
  path : String
  asks : String → Prop

/-- The file at a path, whatever names it asks for. -/
def FileQueries.any (path : String) : FileQueries := ⟨path, fun _ => True⟩

/-- The states of two runs side by side. While the first file is under way, none of the names that
are asked for begins with the name of the scopes of others. -/
structure CompileState.Matches (π : Shift) (τ : FileQueries) (s s' : CompileState) : Prop where
  here : Standing s.graph s.file.cursor s.unseen.size
  there : Standing s'.graph s'.file.cursor s'.unseen.size
  graph : s.graph.Shifted π s'.graph
  cursor : s'.file.cursor = s.file.cursor.past π.scopes
  params : π.Params s.unseen s'.unseen
  path : s.file.path = τ.path
  path' : s'.file.path = τ.path
  code : s'.file.code = s.file.code
  locals : s'.file.locals = s.file.locals
  printed : π.heard = true → s'.printed = s.printed
  log : π.heard = true → s'.log.map (·.level) = s.log.map (·.level)
  free : s.file.cursor.top = 0 → ∀ name, τ.asks name → ∀ m ∈ π.hidden,
    (nameParts name).1.head? ≠ some m

namespace CompileState.Matches

variable {π : Shift} {τ τ' : FileQueries} {s s' t : CompileState}

theorem refl (h : Standing s.graph s.file.cursor s.unseen.size) (hpath : s.file.path = τ.path) :
    s.Matches .same τ s where
  here := h
  there := h
  graph := .refl _
  cursor := (Cursor.past_empty _).symm
  params := .refl _
  path := hpath
  path' := hpath
  code := rfl
  locals := rfl
  printed _ := rfl
  log _ := rfl
  free _ _ _ _ hm := nomatch hm

/-- What matches a state matches one that differs from it in places only. -/
theorem trans_same (h : s.Matches π τ s') (h' : t.Matches .same τ' s') : s.Matches π τ t where
  here := h.here
  there := h'.here
  graph := h.graph.trans_same h'.graph
  cursor := ((h'.cursor.trans (Cursor.past_empty _)).symm.trans h.cursor)
  params := h.params.trans_same h'.params
  path := h.path
  path' := h'.path.trans (h'.path'.symm.trans h.path')
  code := h'.code.symm.trans h.code
  locals := h'.locals.symm.trans h.locals
  printed hheard := (h'.printed rfl).symm.trans (h.printed hheard)
  log hheard := (h'.log rfl).symm.trans (h.log hheard)
  free := h.free

end CompileState.Matches

namespace CompileM

variable {α β γ δ ε : Type} {π : Shift} {τ : FileQueries} {R : α → β → Prop} {S : γ → δ → Prop}
variable {m : CompileM α} {m' : CompileM β} {x : Except Fault α} {x' : Except Fault β}
  {k : α → CompileM γ} {k' : β → CompileM δ}

/-- Both steps go on, with results that are related, or both end with the same fault up to places;
and the states they leave match. -/
def Meets (π : Shift) (τ : FileQueries) (R : α → β → Prop) :
    Except Fault α × CompileState → Except Fault β × CompileState → Prop
  | (.ok a, t), (.ok b, t') => R a b ∧ t.Matches π τ t'
  | (.error e, t), (.error e', t') => e'.bare = e.bare ∧ t.Matches π τ t'
  | _, _ => False

/-- From matching states both steps end alike. -/
def Tracks (π : Shift) (τ : FileQueries) (R : α → β → Prop) (m : CompileM α) (m' : CompileM β) :
    Prop :=
  ∀ s s', s.Matches π τ s' → Meets π τ R (ending m s) (ending m' s')

/-! ### Putting steps together -/

theorem Meets.bind {s s' : CompileState} (hm : Meets π τ R (ending m s) (ending m' s'))
    (hk : ∀ a b t t', Yields m s a t → Yields m' s' b t' → R a b → t.Matches π τ t' →
      Meets π τ S (ending (k a) t) (ending (k' b) t')) :
    Meets π τ S (ending (m >>= k) s) (ending (m' >>= k') s') := by
  rw [ending_bind, ending_bind]
  rcases h : ending m s with ⟨e | a, t⟩ <;> rcases h' : ending m' s' with ⟨e' | b, t'⟩ <;>
    rw [h, h'] at hm
  · exact hm
  · exact hm.elim
  · exact hm.elim
  · exact hk a b t t' h h' hm.1 hm.2

theorem Tracks.bind (hm : Tracks π τ R m m')
    (hk : ∀ a b, R a b → Tracks π τ S (k a) (k' b)) : Tracks π τ S (m >>= k) (m' >>= k') :=
  fun s s' hs => (hm s s' hs).bind fun a b t t' _ _ hab ht => hk a b hab t t' ht

theorem Tracks.bind_same {m m' : CompileM α} {k : α → CompileM γ} {k' : α → CompileM δ}
    (hm : Tracks π τ Eq m m') (hk : ∀ a, Tracks π τ S (k a) (k' a)) :
    Tracks π τ S (m >>= k) (m' >>= k') :=
  hm.bind fun a _ h => h ▸ hk a

theorem Tracks.pure {a : α} {b : β} (h : R a b) :
    Tracks π τ R (Pure.pure a : CompileM α) (Pure.pure b : CompileM β) :=
  fun _ _ hs => ⟨h, hs⟩

theorem Tracks.throw (e : Fault) : Tracks π τ R (throw e : CompileM α) (throw e : CompileM β) :=
  fun _ _ hs => ⟨rfl, hs⟩

theorem Tracks.mono {R' : α → β → Prop} (h : Tracks π τ R m m')
    (hR : ∀ a b, R a b → R' a b) : Tracks π τ R' m m' := by
  intro s s' hs
  have hmeets := h s s' hs
  generalize ending m s = r at hmeets ⊢
  generalize ending m' s' = r' at hmeets ⊢
  obtain ⟨e | a, t⟩ := r <;> obtain ⟨e' | b, t'⟩ := r'
  · exact hmeets
  · exact hmeets
  · exact hmeets
  · exact ⟨hR a b hmeets.1, hmeets.2⟩

theorem Tracks.yields {s s' t : CompileState} {a : α}
    (h : Tracks π τ R m m') (hs : s.Matches π τ s') (hy : Yields m s a t) :
    ∃ b t', Yields m' s' b t' ∧ R a b ∧ t.Matches π τ t' := by
  have hmeets := h s s' hs
  rw [hy.ends] at hmeets
  rcases hy' : ending m' s' with ⟨e | b, t'⟩ <;> rw [hy'] at hmeets
  · exact hmeets.elim
  · exact ⟨b, t', hy', hmeets⟩

theorem Tracks.yields_back {s s' t' : CompileState} {b : β}
    (h : Tracks π τ R m m') (hs : s.Matches π τ s') (hy : Yields m' s' b t') :
    ∃ a t, Yields m s a t ∧ R a b ∧ t.Matches π τ t' := by
  have hmeets := h s s' hs
  rw [hy.ends] at hmeets
  rcases hy' : ending m s with ⟨e | a, t⟩ <;> rw [hy'] at hmeets
  · exact hmeets.elim
  · exact ⟨a, t, hy', hmeets⟩

/-- What is tracked by a step is tracked by one that differs from it in places only. -/
theorem Tracks.trans_same {τ' : FileQueries} {T : γ → β → Prop} {Q : α → γ → Prop}
    {k : CompileM γ} (h : Tracks π τ R m m')
    (h' : Tracks .same τ' T k m') (hpath : τ'.path = τ.path)
    (hQ : ∀ a b c, R a b → T c b → Q a c) : Tracks π τ Q m k := by
  intro s s' hs
  have hmeets := h s s' hs
  have hmeets' := h' s' s' (.refl hs.there (hs.path'.trans hpath.symm))
  generalize ending m s = r at hmeets ⊢
  generalize ending k s' = q at hmeets' ⊢
  generalize ending m' s' = r' at hmeets hmeets'
  obtain ⟨e | a, t⟩ := r <;> obtain ⟨e' | b, t'⟩ := r' <;> obtain ⟨d | c, u⟩ := q <;>
    first | exact hmeets.elim | exact hmeets'.elim | skip
  · exact ⟨hmeets'.1.symm.trans hmeets.1, hmeets.2.trans_same hmeets'.2⟩
  · exact ⟨hQ a b c hmeets.1 hmeets'.1, hmeets.2.trans_same hmeets'.2⟩

theorem Tracks.get_bind {k : CompileState → CompileM α} {k' : CompileState → CompileM β}
    (hk : ∀ s s', s.Matches π τ s' → Tracks π τ R (k s) (k' s')) :
    Tracks π τ R (get >>= k) (get >>= k') :=
  fun s s' hs => hk s s' hs s s' hs

theorem Tracks.modify {f f' : CompileState → CompileState}
    (hf : ∀ s s', s.Matches π τ s' → (f s).Matches π τ (f' s')) :
    Tracks π τ (fun _ _ => True) (modify f : CompileM Unit) (modify f' : CompileM Unit) :=
  fun s s' hs => ⟨trivial, hf s s' hs⟩

theorem Tracks.mapM {k' : β → CompileM γ} {f : α → β}
    {as : List α} (hk : ∀ a ∈ as, Tracks π τ Eq (k a) (k' (f a))) :
    Tracks π τ Eq (as.mapM k) ((as.map f).mapM k') := by
  induction as with
  | nil => exact .pure rfl
  | cons a as ih =>
    obtain ⟨ha, has⟩ := List.forall_mem_cons.mp hk
    rw [List.map_cons, List.mapM_cons, List.mapM_cons]
    refine ha.bind fun b _ hb => (ih has).bind fun bs _ hbs => ?_
    exact .pure (hb ▸ hbs ▸ rfl)

/-! ### Telling -/

theorem tracks_tell (level : LogLevel) (message message' : String) :
    Tracks π τ (fun _ _ => True) (tell level message) (tell level message') :=
  .modify fun s s' hs => { hs with
    log := fun h => by rw [List.map_append, List.map_append, hs.log h]; rfl }

theorem tracks_printLine (line : String) :
    Tracks π τ (fun _ _ => True) (printLine line) (printLine line) :=
  .modify fun s s' hs => { hs with printed := fun h => by rw [hs.printed h] }

theorem tracks_place (pos pos' : Pos) : Tracks π τ (fun _ _ => True) (place pos) (place pos') :=
  .get_bind fun _ _ _ => .pure trivial

theorem tracks_warn (message message' : String) (pos pos' : Pos) :
    Tracks π τ (fun _ _ => True) (warn message pos) (warn message' pos') :=
  (tracks_place pos pos').bind fun _ _ _ => tracks_tell _ _ _

theorem tracks_stopWith (message message' : String) :
    Tracks π τ R (stopWith message : CompileM α) (stopWith message' : CompileM β) :=
  (tracks_tell _ _ _).bind fun _ _ _ => .throw _

theorem tracks_stop (message message' : String) (pos pos' : Pos) :
    Tracks π τ R (stop message pos : CompileM α) (stop message' pos' : CompileM β) :=
  (tracks_place pos pos').bind fun _ _ _ => tracks_stopWith _ _

/-! ### Looking -/

theorem tracks_need (what : Absent) {o : Option α} {o' : Option β} (f : α → β) (h : o' = o.map f) :
    Tracks π τ (fun a b => o = some a ∧ b = f a) (need what o) (need what o') := by
  subst h
  cases o with
  | none => exact .throw _
  | some a => exact .pure ⟨rfl, rfl⟩

theorem tracks_need_of_map_eq (what : Absent) {o : Option α} {o' : Option β} {f : α → γ}
    {f' : β → γ} (h : o'.map f' = o.map f) :
    Tracks π τ (fun a b => f' b = f a) (need what o) (need what o') := by
  cases o with
  | none =>
    obtain rfl := Option.map_eq_none_iff.mp h
    exact .throw _
  | some a =>
    obtain ⟨b, rfl, hb⟩ := Option.map_eq_some_iff.mp h
    exact .pure hb

theorem tracks_need_same (what : Absent) (o : Option α) :
    Tracks π τ Eq (need what o) (need what o) := by
  cases o with
  | none => exact .throw _
  | some a => exact .pure rfl

theorem tracks_lift_of_map_eq {f : α → γ} {f' : β → γ} (h : x'.map f' = x.map f) :
    Tracks π τ (fun a b => f' b = f a) (lift id x) (lift id x') := by
  cases x with
  | error e =>
    cases x' with
    | error e' =>
      cases h
      exact .throw _
    | ok b => cases h
  | ok a =>
    cases x' with
    | error e' => cases h
    | ok b => exact .pure (Except.ok.inj h)

theorem tracks_lift (f : α → β) (h : x' = x.map f) :
    Tracks π τ (fun a b => b = f a) (lift id x) (lift id x') := by
  subst h
  cases x with
  | error e => exact .throw _
  | ok a => exact .pure rfl

theorem tracks_lift_same (x : Except Fault α) : Tracks π τ Eq (lift id x) (lift id x) := by
  cases x with
  | error e => exact .throw _
  | ok a => exact .pure rfl

theorem tracks_onCode (f : Assembly → α × Assembly) : Tracks π τ Eq (onCode f) (onCode f) := by
  intro s s' hs
  refine ⟨?_, { hs with code := ?_ }⟩
  · show (f s.file.code).1 = (f s'.file.code).1
    rw [hs.code]
  · show (f s'.file.code).2 = (f s.file.code).2
    rw [hs.code]

theorem tracks_target (label : LabelId) : Tracks π τ Eq (target label) (target label) :=
  .get_bind fun s s' hs => .pure (by rw [hs.code])

/-- **Names mean the same on both sides.** -/
theorem tracks_resolve {shelf : Shelf α} {f f' : α → β} {name : Option String}
    (hshelf : ∀ g g', ScopeGraph.Shifted π g g' → SameShelf f f' π g g' shelf)
    (hname : ∀ n ∈ name, τ.asks n) :
    Tracks π τ (fun a b => b.map f' = a.map f) (resolve shelf name) (resolve shelf name) := by
  cases name with
  | none => exact .throw _
  | some n =>
    simp only [resolve, need, pure_bind]
    refine .get_bind fun s s' hs => .pure ?_
    rw [hs.cursor]
    refine hs.graph.resolve (hshelf _ _ hs.graph) hs.here.ordered hs.there.ordered
      hs.here.rooted ?_ fun htop => hs.free htop n (hname n rfl)
    rw [← hs.cursor]
    exact hs.there.rooted

theorem tracks_resolveVariable {name : Option String} (hname : ∀ n ∈ name, τ.asks n) :
    Tracks π τ (fun a b => b.map Variable.bare = a.map Variable.bare) (resolveVariable name)
      (resolveVariable name) :=
  tracks_resolve (fun _ _ h x => (h.scope x).vars) hname

/-! ### Changing scopes -/

theorem tracks_declare {f f' : Scope → Scope}
    (hs : ∀ s s', Scope.Shifted π s s' → Scope.Shifted π (f s) (f' s'))
    (hf : ∀ s, (f s).name = s.name ∧ (f s).parent = s.parent ∧ (f s).children = s.children ∧
      (f s).commands = s.commands)
    (hf' : ∀ s, (f' s).name = s.name ∧ (f' s).parent = s.parent ∧ (f' s).children = s.children ∧
      (f' s).commands = s.commands) :
    Tracks π τ (fun _ _ => True) (onGraph fun c g => g.modify c.here f)
      (onGraph fun c g => g.modify c.here f') := by
  refine .modify fun s s' h => { h with here := ?_, there := ?_, graph := ?_ }
  · exact h.here.declare (fun s => (hf s).1) (fun s => (hf s).2.1) (fun s => (hf s).2.2.1)
      fun e he => h.here.serials _ e ((hf _).2.2.2 ▸ he)
  · exact h.there.declare (fun s => (hf' s).1) (fun s => (hf' s).2.1) (fun s => (hf' s).2.2.1)
      fun e he => h.there.serials _ e ((hf' _).2.2.2 ▸ he)
  · show (s.graph.modify s.file.cursor.here f).Shifted π
      (s'.graph.modify s'.file.cursor.here f')
    rw [h.cursor]
    exact h.graph.modify_declared hs (fun s => (hf s).2.2.1) (fun s => (hf' s).2.2.1) _

theorem tracks_addVariable {v v' : Variable} (h : v'.bare = v.bare) :
    Tracks π τ (fun _ _ => True) (onGraph fun c g => c.addVariable g v)
      (onGraph fun c g => c.addVariable g v') := by
  refine tracks_declare (fun s s' hs => ?_) (fun _ => ⟨rfl, rfl, rfl, rfl⟩)
    fun _ => ⟨rfl, rfl, rfl, rfl⟩
  refine ⟨hs.name, hs.animations, hs.commands, hs.functions, ?_, hs.parent⟩
  have hname : v'.bare.name = v.bare.name := congrArg Variable.name h
  change v'.name = v.name at hname
  simp only [Table.map_insert, hs.vars, h, hname]

theorem tracks_addFunction {f f' : Function} (h : f'.bare = f.bare) :
    Tracks π τ (fun _ _ => True) (onGraph fun c g => c.addFunction g f)
      (onGraph fun c g => c.addFunction g f') := by
  refine tracks_declare (fun s s' hs => ?_) (fun _ => ⟨rfl, rfl, rfl, rfl⟩)
    fun _ => ⟨rfl, rfl, rfl, rfl⟩
  refine ⟨hs.name, hs.animations, hs.commands, ?_, hs.vars, hs.parent⟩
  have hname : f'.bare.name = f.bare.name := congrArg Function.name h
  change f'.name = f.name at hname
  simp only [Table.map_insert, hs.functions, h, hname]

theorem tracks_enterScope {scope scope' : Scope} (h : Scope.Shifted π scope scope')
    (hscope : scope.children = [] ∧ scope.commands = .empty)
    (hscope' : scope'.children = [] ∧ scope'.commands = .empty) :
    Tracks π τ (fun _ _ => True) (enterScope scope) (enterScope scope') := by
  refine .modify fun s s' hs => { hs with here := ?_, there := ?_, graph := ?_, cursor := ?_ }
  · exact hs.here.enterNew hscope.1 hscope.2
  · exact hs.there.enterNew hscope'.1 hscope'.2
  · show (s.file.cursor.enterNew s.graph scope).2.Shifted π
      (s'.file.cursor.enterNew s'.graph scope').2
    rw [hs.cursor]
    exact hs.graph.enterNew h hscope.1 hscope'.1 _
  · show (s'.file.cursor.enterNew s'.graph scope').1 =
      (s.file.cursor.enterNew s.graph scope).1.past π.scopes
    rw [hs.cursor]
    exact hs.graph.cursor_enterNew _

theorem ending_leaveScope {s : CompileState} {c : Cursor} (h : s.file.cursor.leave = .ok c) :
    ending leaveScope s = (.ok (), { s with file := { s.file with cursor := c } }) := by
  show ending (get >>= _) s = _
  rw [Yields.ending_bind (yields_get.mpr ⟨rfl, rfl⟩), h]
  rfl

/-- Leaving the current scope; both sides are at the global scope, or neither is. -/
theorem tracks_leaveScope : Tracks π τ (fun _ _ => True) leaveScope leaveScope := by
  intro s s' hs
  cases henclosing : s.file.cursor.enclosing with
  | nil =>
    have hleave : s.file.cursor.leave = .error .outermost := by
      rw [Cursor.leave, henclosing]
    have hleave' : s'.file.cursor.leave = .error .outermost := by
      rw [hs.cursor, Cursor.leave, Cursor.past, henclosing]
      rfl
    have htell := tracks_tell .warning LeaveError.outermost.message
      LeaveError.outermost.message s s' hs
    show Meets π τ _ (ending (get >>= _) s) (ending (get >>= _) s')
    rw [Yields.ending_bind (yields_get.mpr ⟨rfl, rfl⟩), hleave,
      Yields.ending_bind (yields_get.mpr ⟨rfl, rfl⟩), hleave']
    exact htell
  | cons y ys =>
    have henclosing' : s'.file.cursor.enclosing =
        π.scopes.shift y :: ys.map π.scopes.shift := by
      rw [hs.cursor, Cursor.past, henclosing, List.map_cons]
    obtain ⟨hleave, hrooted⟩ := hs.here.rooted.leave henclosing
    obtain ⟨hleave', hrooted'⟩ := hs.there.rooted.leave henclosing'
    rw [ending_leaveScope hleave, ending_leaveScope hleave']
    refine ⟨trivial, { hs with here := ?_, there := ?_, cursor := ?_ }⟩
    · exact ⟨hs.here.ordered, hrooted, hs.here.serials⟩
    · exact ⟨hs.there.ordered, hrooted', hs.there.serials⟩
    · rw [hs.cursor]
      rfl

end CompileM

end EvScript
