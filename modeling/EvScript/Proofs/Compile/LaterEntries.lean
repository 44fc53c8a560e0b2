import EvScript.Proofs.Code.Families
import EvScript.Proofs.Compile.UnusedImport

/-!
# Later Entries

A script that goes on behind its last entry keeps the code it has. The first entries are read and
compiled as before, since an entry ends where it ends, whatever follows it. And no label made later
has the name of one that is there: names of children are made from those of their parents, so a name
that came up twice would lead back to functions of the same name.

## Main results

* `later_entries_keep_code` — what is written behind a program leaves its code as it was.
-/

namespace EvScript

open CompileM Assembly

/-! ### Reading on -/

section Rows

variable {finish : Token} {ts us us' : List Token} {trees trees' : List Tree} {n m : Nat}

/-- An entry ends where it ends, whatever follows. -/
theorem entry_unique (hfinish : finish.kind = .finish)
    (h : Derives finish (.call .entry) ts trees us)
    (h' : Derives finish (.call .entry) ts trees' us') : trees' = trees ∧ us' = us := by
  have hexact : Exact (fun _ => true) finish [.call .entry] [] ts
      (Rule.read finish (4 * ts.length + 4) .entry ts) :=
    Rule.exact_read hfinish (fun _ _ _ => rfl) (Nat.lt_succ_self _)
  have hstop : ∀ vs : List Token, Viable (fun _ => true) [] (vs ++ [finish]) := by
    rintro (_ | _) <;> exact viable_nil_cons_iff.mpr rfl
  generalize Rule.read finish (4 * ts.length + 4) .entry ts = r at hexact
  cases r with
  | error t =>
    obtain ⟨vs, ws, heq, -, hnot⟩ := hexact
    refine absurd ((h.viable (hstop us)).of_isPrefix ⟨ws, ?_⟩) hnot
    rw [heq, List.append_assoc]
    rfl
  | ok result =>
    obtain ⟨rfl, rfl⟩ := ReadsTo.unique hexact (derivesAll_singleton_iff.mpr h) (hstop us)
    exact ReadsTo.unique hexact (derivesAll_singleton_iff.mpr h') (hstop us')

/-- Where an entry was read, one can start. -/
theorem canStart_of_derives (h : Derives finish (.call .entry) ts trees us) :
    ∃ t ∈ ts.head?, CanStart finish (.call .entry) t := by
  have htokens := h.tokens_append
  obtain ⟨trees', h', -⟩ :
      ∃ trees', Derives finish _ (Tree.tokensOfAll trees ++ []) trees' [] ∧ _ :=
    h.relabel [] rfl
  cases hall : Tree.tokensOfAll trees with
  | nil =>
    rw [hall] at htokens
    have hnullable := h.nullable (Nat.le_of_eq (congrArg List.length htokens).symm)
    exact absurd hnullable (by decide)
  | cons t ws =>
    rw [hall, List.append_nil] at h'
    rw [hall] at htokens
    exact ⟨t, by rw [← htokens]; rfl, ws, trees', h'⟩

/-- **A row of entries goes on behind another one.** If both are read from the same tokens, and no
entry can begin behind the second, then it begins with the first. -/
theorem DerivesAll.entries_append (hfinish : finish.kind = .finish)
    (h : DerivesAll finish (List.replicate n (.call .entry)) ts trees us)
    (h' : DerivesAll finish (List.replicate m (.call .entry)) ts trees' us')
    (hends : ∀ t ∈ us'.head?, ¬ CanStart finish (.call .entry) t) :
    ∃ rest, trees' = trees ++ rest := by
  induction n generalizing m ts trees trees' with
  | zero =>
    cases h
    exact ⟨trees', rfl⟩
  | succ n ih =>
    cases h with
    | cons hfirst hmore =>
      cases m with
      | zero =>
        cases h'
        obtain ⟨t, ht, hstart⟩ := canStart_of_derives hfirst
        exact absurd hstart (hends t ht)
      | succ m =>
        cases h' with
        | cons hfirst' hmore' =>
          obtain ⟨rfl, rfl⟩ := entry_unique hfinish hfirst hfirst'
          obtain ⟨rest, rfl⟩ := ih hmore hmore'
          exact ⟨rest, (List.append_assoc _ _ _).symm⟩

theorem entries_of_derives {tree : Tree} (h : Derives finish (.call .program) ts [tree] us) :
    ∃ n trees, DerivesAll finish (List.replicate n (.call .entry)) ts trees us ∧
      bareEntries tree.entries = entriesOfTrees trees := by
  cases h with
  | call hbody =>
    cases hbody with
    | many1 hall =>
      refine ⟨_, _, hall, ?_⟩
      rw [← Tree.entries_bare]
      rfl

/-- **With more tokens behind it, a program goes on.** -/
theorem bareEntries_of_isPrefix {s s' : Script} {tree tree' : Tree}
    (hfinish : s'.finish.kind = .finish) (h : IsProgram s.finish s.tokens tree [])
    (h' : IsProgram s'.finish s'.tokens tree' us')
    (hrow : s.tokens.map Token.bare <+: s'.tokens.map Token.bare) :
    bareEntries tree.entries <+: bareEntries tree'.entries := by
  obtain ⟨n, trees, hd, hes⟩ := entries_of_derives h.derives
  obtain ⟨m, trees', hd', hes'⟩ := entries_of_derives h'.derives
  obtain ⟨back, hback⟩ := hrow
  obtain ⟨front, vs, hsplit, hfront, -⟩ := List.map_eq_append_iff.mp hback.symm
  have hspells : Spells s.tokens (entriesOfTrees trees) := ⟨_, n, trees, hd, rfl⟩
  obtain ⟨k, trees₀, hd₀, hes₀⟩ := hspells.derives hfront vs s'.finish
  rw [← hsplit] at hd₀
  obtain ⟨rest, rfl⟩ := hd₀.entries_append hfinish hd' h'.ends
  rw [hes, hes', entriesOfTrees_append, hes₀]
  exact List.prefix_append _ _

end Rows

/-! ### Names of labels made later -/

namespace Assembly

variable {known : Option Int → Prop} {a b : Assembly} {t : List Edit} {os os' : List Origin}

theorem le_of_child_mem_origins {p i : Nat} (ht : Lawful known a t)
    (h : .child p i ∈ origins a t) : (a.label p).children.length ≤ i := by
  induction t generalizing a with
  | nil => cases h
  | cons e t ih =>
    rcases List.mem_append.mp h with h | h
    · cases e with
      | child q =>
        obtain ⟨rfl, rfl⟩ : p = q ∧ i = (a.label q).children.length := by
          simpa [Edit.origin] using h
        exact Nat.le_refl _
      | _ => simp [Edit.origin] at h
    · have hle := ih ht.2 h
      rw [children_edit ht.1, List.length_append] at hle
      omega

/-- **Labels whose functions have different names have different names.** The later labels are no
children of the earlier ones. -/
theorem Family.text_ne (h : Family a (os ++ os')) (hchild : ∀ p i, .child p i ∈ os' → os.length ≤ p)
    (hapart : ∀ name ∈ os'.filterMap Origin.given, name ∉ os.filterMap Origin.given)
    (hroot : ∀ name ∈ (os ++ os').filterMap Origin.given, looksLikeChild name = false) :
    ∀ x y, x < os.length → os.length ≤ y → y < a.labels.size → a.text x ≠ a.text y := by
  have hlike : ∀ {name p : String} {i : Nat}, .root name ∈ os ++ os' → name ≠ childName p i := by
    intro name p i hmem heq
    have hno := hroot name (List.mem_filterMap.mpr ⟨_, hmem, rfl⟩)
    rw [heq, looksLikeChild_childName] at hno
    cases hno
  intro x
  -- parents come before their children
  induction x using Nat.strongRecOn with
  | ind x ih =>
    intro y hx hy hlt htext
    rw [← h.size] at hlt
    obtain ⟨ox, hox⟩ : ∃ o, os[x]? = some o := ⟨_, List.getElem?_eq_getElem hx⟩
    have hx' : (os ++ os')[x]? = some ox := by rw [List.getElem?_append_left hx, hox]
    obtain ⟨oy, hoy⟩ : ∃ o, (os ++ os')[y]? = some o := ⟨_, List.getElem?_eq_getElem hlt⟩
    have hmy : oy ∈ os' := by
      rw [List.getElem?_append_right hy] at hoy
      exact List.mem_of_getElem? hoy
    have hmx := List.mem_of_getElem? hox
    have hsx := h.stems x _ hx'
    have hsy := h.stems y _ hoy
    cases ox with
    | root name =>
      cases oy with
      | root name' =>
        obtain rfl : name = name' := hsx.symm.trans (htext.trans hsy)
        exact hapart name (List.mem_filterMap.mpr ⟨_, hmy, rfl⟩)
          (List.mem_filterMap.mpr ⟨_, hmx, rfl⟩)
      | child q j =>
        exact hlike (List.mem_append_left _ hmx) (hsx.symm.trans (htext.trans hsy.2.2))
    | child p i =>
      cases oy with
      | root name' =>
        exact hlike (List.mem_append_right _ hmy) (hsy.symm.trans (htext.symm.trans hsx.2.2))
      | child q j =>
        obtain ⟨hparent, -⟩ := childName_inj (hsx.2.2.symm.trans (htext.trans hsy.2.2))
        have hpx := hsx.1
        have hqy := hsy.1
        have hsize := h.size
        exact ih p hpx q (by omega) (hchild q j hmy) (by omega) hparent

/-- The entries of `b` are those of `a` and then others, which are for labels that `a` has not. -/
def Follow (a b : Assembly) : Prop :=
  ∃ rest, b.byName.entries = a.byName.entries ++ rest ∧ ∀ p ∈ rest, a.labels.size ≤ p.2

theorem insertIn_append_of_not_mem {κ α : Type} [DecidableEq κ] {l r : List (κ × α)} {key : κ}
    {value : α} (h : ∀ p ∈ l, p.1 ≠ key) :
    Table.insertIn key value (l ++ r) = l ++ Table.insertIn key value r := by
  induction l with
  | nil => rfl
  | cons q l ih =>
    rw [List.cons_append, Table.insertIn, if_neg (h q List.mem_cons_self),
      ih fun p hp => h p (List.mem_cons_of_mem _ hp), List.cons_append]

/-- A record goes on with the listing if the labels it makes have names that were not there. -/
theorem Follow.replay (h : Follow a b) (hsize : a.labels.size ≤ b.labels.size)
    (ht : Lawful known b t) (hnew : ∀ x, a.labels.size ≤ x → x < (b.replay t).labels.size →
      ∀ p ∈ a.byName.entries, p.1 ≠ ((b.replay t).label x).name) : Follow a (b.replay t) := by
  induction t generalizing b with
  | nil => exact h
  | cons e t ih =>
    have hext : (b.edit e).Extends ((b.edit e).replay t) := extends_replay ht.2
    have hle := (extends_edit ht.1).size
    refine ih ?_ (hsize.trans hle) ht.2 hnew
    obtain ⟨rest, hentries, hrest⟩ := h
    rcases byName_edit ht.1 with ⟨-, hby⟩ | ⟨hone, hby⟩
    · exact ⟨rest, by rw [hby, hentries], hrest⟩
    · have hlt : b.labels.size < (b.edit e).labels.size := by omega
      have hkey : ∀ p ∈ a.byName.entries, p.1 ≠ ((b.edit e).label b.labels.size).name := by
        rw [← hext.name _ hlt]
        exact hnew _ hsize (Nat.lt_of_lt_of_le hlt hext.size)
      refine ⟨(Table.mk rest |>.insert ((b.edit e).label b.labels.size).name b.labels.size).entries,
        ?_, fun p hp => ?_⟩
      · rw [hby, Table.insert, hentries]
        exact insertIn_append_of_not_mem hkey
      · rcases Table.mem_entries_insert hp with rfl | hp
        · exact hsize
        · exact hrest p hp

/-- The listing of `b` is that of `a`, and behind it stand the labels that `a` has not, all of them
and no others. -/
def ListsOn (a b : Assembly) : Prop :=
  ∃ rest, b.listing = a.listing ++ rest ∧
    (∀ q ∈ rest, ∃ x, a.labels.size ≤ x ∧ x < b.labels.size ∧ q = ((b.label x).name, b.label x)) ∧
    ∀ x, a.labels.size ≤ x → x < b.labels.size → ∃ q ∈ rest, q.1 = (b.label x).name

/-- **The listing goes on** where a record is replayed that touches no label of the code before and
makes no label with a name of its labels. -/
theorem listsOn_replay (ha : a.Consistent) (hfamily : Family a os) (ht : Lawful known a t)
    (hadds : Adds a (a.replay t))
    (hapart : ∀ name ∈ t.filterMap Edit.name, name ∉ os.filterMap Origin.given)
    (hroot : ∀ name ∈ os.filterMap Origin.given ++ t.filterMap Edit.name,
      looksLikeChild name = false) : a.ListsOn (a.replay t) := by
  have hall := hfamily.replay ha ht
  have hconsistent := ha.replay ht
  have hsize := hfamily.size
  rw [← filterMap_given_origins a] at hapart hroot
  rw [← List.filterMap_append] at hroot
  have hchild : ∀ p i, .child p i ∈ origins a t → os.length ≤ p := by
    intro p i h
    by_contra hlt
    have hnew := (hall.born p i).mp (List.mem_append_right _ h)
    rw [hadds.label p (by omega)] at hnew
    have hle := le_of_child_mem_origins ht h
    omega
  have hne := hall.text_ne hchild hapart hroot
  have hnew : ∀ x, a.labels.size ≤ x → x < (a.replay t).labels.size →
      ∀ p ∈ a.byName.entries, p.1 ≠ ((a.replay t).label x).name := by
    intro x hx hlt p hp heq
    obtain ⟨hplt, hname⟩ := ha.entry p hp
    refine hne p.2 x (by omega) (by omega) hlt ?_
    rw [hconsistent.text_eq_iff (Nat.lt_of_lt_of_le hplt hadds.size) hlt,
      hadds.label p.2 hplt, hname,
      heq]
  obtain ⟨rest, hentries, hrest⟩ : Follow a (a.replay t) :=
    Follow.replay ⟨[], (List.append_nil _).symm, fun _ h => nomatch h⟩ (Nat.le_refl _) ht hnew
  refine ⟨rest.map fun e => (e.1, (a.replay t).label e.2), ?_, fun q hq => ?_, fun x hx hlt => ?_⟩
  · rw [listing, listing, hentries, List.map_append]
    refine congrArg (· ++ _) (List.map_congr_left fun e he => ?_)
    rw [hadds.label e.2 (ha.entry e he).1]
  · obtain ⟨p, hp, rfl⟩ := List.mem_map.mp hq
    obtain ⟨hplt, hname⟩ := hconsistent.entry p (hentries ▸ List.mem_append_right _ hp)
    exact ⟨p.2, hrest p hp, hplt, by rw [hname]⟩
  · obtain ⟨j, hj, -, -⟩ := hconsistent.tied x hlt
    obtain ⟨p, hp, -⟩ := Option.map_eq_some_iff.mp hj
    have hkey : p.1 = ((a.replay t).label x).name := by simpa using List.find?_some hp
    have hin := List.mem_of_find?_eq_some hp
    rw [hentries] at hin
    rcases List.mem_append.mp hin with hin | hin
    · exact absurd hkey (hnew x hx hlt p hin)
    · exact ⟨_, List.mem_map_of_mem hin, hkey⟩

end Assembly

/-! ### Functions among entries -/

mutual

/-- The names of the labels of functions in an entry. -/
def entryLabels : Entry → List String
  | .function f => f.labelName.toList
  | .space _ entries => entriesLabels entries
  | _ => []

/-- The names of the labels of functions among entries. -/
def entriesLabels : List Entry → List String
  | [] => []
  | e :: es => entryLabels e ++ entriesLabels es

end

mutual

theorem entryLabels_bare : ∀ e : Entry, entryLabels e.bare = entryLabels e
  | .function _ => rfl
  | .space _ entries => entriesLabels_bare entries
  | .define _ | .command _ | .importAll _ _ | .importFrom _ _ _ | .inert _ => rfl

theorem entriesLabels_bare : ∀ es : List Entry, entriesLabels (bareEntries es) = entriesLabels es
  | [] => rfl
  | e :: es => by
    rw [bareEntries, entriesLabels, entriesLabels, entryLabels_bare e, entriesLabels_bare es]

end

variable {fs : Files} {importer : Importer}

mutual

theorem labelNamesOf_entryVisits : ∀ (e : Entry) (s : CompileState),
    labelNamesOf (entryVisits fs importer e s) = entryLabels e
  | .function f, _ => by
    rw [entryVisits, entryLabels, labelNamesOf, List.filterMap_cons]
    cases f.labelName <;> rfl
  | .space name entries, s => by
    rw [entryVisits, entryLabels]
    exact labelNamesOf_visits entries _
  | .define _, _ | .command _, _ | .importAll _ _, _ | .importFrom _ _ _, _ | .inert _, _ => by
    rw [entryVisits, entryLabels, labelNamesOf, List.filterMap_nil] <;> nofun

/-- The functions that a compilation comes to are those among the entries. -/
theorem labelNamesOf_visits : ∀ (es : List Entry) (s : CompileState),
    labelNamesOf (visits fs importer es s) = entriesLabels es
  | [], _ => rfl
  | e :: es, s => by
    rw [visits, labelNamesOf, List.filterMap_append, entriesLabels]
    exact congrArg₂ _ (labelNamesOf_entryVisits e s) (labelNamesOf_visits es _)

end

theorem entriesLabels_append (es ds : List Entry) :
    entriesLabels (es ++ ds) = entriesLabels es ++ entriesLabels ds := by
  induction es with
  | nil => rfl
  | cons e es ih => rw [List.cons_append, entriesLabels, entriesLabels, ih, List.append_assoc]

theorem entriesCommands_append (es ds : List Entry) :
    entriesCommands (es ++ ds) = entriesCommands es ++ entriesCommands ds := by
  induction es with
  | nil => rfl
  | cons e es ih => rw [List.cons_append, entriesCommands, entriesCommands, ih, List.append_assoc]

theorem compileEntries_append (es ds : List Entry) : compileEntries fs importer (es ++ ds) = (do
      compileEntries fs importer es
      compileEntries fs importer ds) := by
  induction es with
  | nil =>
    rw [List.nil_append, compileEntries]
    rfl
  | cons e es ih => rw [List.cons_append, compileEntries, compileEntries, ih, bind_assoc]

/-! ### Scripts -/

variable {mode : ReadMode} {path text text' : String} {n : Nat} {es ds : List Entry}
  {s t u : CompileState}

/-- Entries that are compiled behind others, from the beginning of a file. -/
theorem listsOn_of_yields (hcode : s.file.code = .empty) (hs : s.graph.Sound (fs.Declares mode))
    (hknown : ∀ d ∈ entriesCommands (es ++ ds), d.Known (fs.Declares mode))
    (hfirst : Yields (compileEntries fs (fileImporter fs mode n) es) s () t)
    (hsecond : Yields (compileEntries fs (fileImporter fs mode n) ds) t () u)
    (hapart : ∀ name ∈ entriesLabels ds, name ∉ entriesLabels es)
    (hroot : ∀ name ∈ entriesLabels (es ++ ds), looksLikeChild name = false) :
    t.file.code.ListsOn u.file.code := by
  have hk := recordsImports_fileImporter fs mode n
  rw [entriesCommands_append, List.forall_mem_append] at hknown
  obtain ⟨r, hlaw, hr, hsound, hpost⟩ := recorded_compileEntries hk es s hknown.1 hs
  rw [hfirst.ends] at hr hsound
  obtain ⟨r', hlaw', hr', -, hpost'⟩ := recorded_compileEntries hk ds t hknown.2 hsound
  rw [hsecond.ends] at hr'
  have hnames := (hpost () t hfirst).names
  have hnames' := (hpost' () u hsecond).names
  rw [labelNamesOf_visits] at hnames hnames'
  rw [entriesLabels_append] at hroot
  have hgiven : (origins .empty r).filterMap Origin.given = entriesLabels es := by
    rw [filterMap_given_origins, hnames]
  rw [← hgiven, ← hnames'] at hapart hroot
  have hadds := (visited_compileEntries (keepsFile_fileImporter fs mode n) ds hsecond).adds
  dsimp only at hr hr'
  rw [hcode] at hlaw hr
  rw [hr'] at hadds ⊢
  exact listsOn_replay (hr ▸ consistent_empty.replay hlaw) (hr ▸ family_replay hlaw)
    hlaw' hadds hapart
    hroot

/-- **A text that goes on behind a program** has its entries, up to places, and then others; if both
are compiled to the end, the first entries are compiled to the same code. -/
theorem exists_split_of_isPrefix
    (hfull : ∃ tree, IsProgram (Script.ofText text).finish (Script.ofText text).tokens tree [])
    (hrow : (Script.ofText text).tokens.map Token.bare <+:
      (Script.ofText text').tokens.map Token.bare)
    (hok : (compileScript (fs.put path text) .strict path).ended = .ok ())
    (hok' : (compileScript (fs.put path text') .strict path).ended = .ok ()) :
    ∃ es ds s t, s.file.code = .empty ∧ s.graph.Sound ((fs.put path text').Declares .strict) ∧
      (∀ d ∈ entriesCommands (es ++ ds), d.Known ((fs.put path text').Declares .strict)) ∧
      Yields (compileEntries (fs.put path text') (fileImporter (fs.put path text') .strict
        (fs.put path text').entries.length) es) s () t ∧
      Yields (compileEntries (fs.put path text') (fileImporter (fs.put path text') .strict
        (fs.put path text').entries.length) ds) t ()
        (compileScript (fs.put path text') .strict path).state ∧
      t.file.code = (compileScript (fs.put path text) .strict path).state.file.code ∧
      labelNamesOf (scriptVisits (fs.put path text) .strict path) = entriesLabels es ∧
      labelNamesOf (scriptVisits (fs.put path text') .strict path) = entriesLabels (es ++ ds) := by
  obtain ⟨tree, hprogram⟩ := hfull
  have hread : readProgram (.ofText text) = .ok ⟨tree, _⟩ :=
    (readProgram_ok_iff rfl).mpr ⟨[], hprogram, rfl⟩
  obtain ⟨⟨tree', next⟩, hread'⟩ : ∃ p, readProgram (.ofText text') = .ok p := by
    cases h : readProgram (.ofText text') with
    | ok p => exact ⟨p, rfl⟩
    | error t =>
      rw [compileScript_of_unreadable h] at hok'
      cases hok'
  obtain ⟨us, hprogram', -⟩ := (readProgram_ok_iff rfl).mp hread'
  obtain ⟨later, hlater⟩ := bareEntries_of_isPrefix rfl hprogram hprogram' hrow
  rw [bareEntries_eq_map tree'.entries, eq_comm, List.map_eq_append_iff] at hlater
  obtain ⟨es, ds, hsplit, hes, -⟩ := hlater
  rw [← bareEntries_eq_map] at hes
  have hy := compileScript_ended_iff.mp hok
  have hy' := compileScript_ended_iff.mp hok'
  have himport : ImportAlike .same (.any path) (entriesImports tree.entries) (fs.put path text)
      (fs.put path text')
      (fileImporter (fs.put path text) .strict (fs.put path text').entries.length)
      (fileImporter (fs.put path text') .strict (fs.put path text').entries.length) :=
    importAlike_put hread rfl hy
  rw [compileFile_succ] at hy hy'
  obtain ⟨_, _, hload, hentries⟩ := hy.bind
  obtain ⟨_, s, hload', hentries'⟩ := hy'.bind
  obtain ⟨errors, hload₀⟩ := yields_loadProgram_put fs path hread (.start path)
  obtain ⟨errors', hload₁⟩ := yields_loadProgram_put fs path hread' (.start path)
  obtain ⟨rfl, rfl⟩ := hload₀.unique hload
  obtain ⟨rfl, rfl⟩ := hload₁.unique hload'
  have hstart : (CompileState.start path).Matches .same (.any path) (.start path) :=
    .refl (standing_start path) rfl
  obtain ⟨_, t, hfirst, -, hmatch⟩ := (tracks_compileEntries_of_bare hes (fun _ _ => trivial)
    himport (importAlike_self ..)).yields (hstart.errors errors errors') hentries
  rw [hsplit, compileEntries_append] at hentries'
  obtain ⟨_, _, hfirst', hsecond⟩ := hentries'.bind
  obtain ⟨-, rfl⟩ := hfirst.unique hfirst'
  refine ⟨es, ds, _, t, rfl, ScopeGraph.sound_empty.start, hsplit ▸ known_of_loadProgram hload',
    hfirst, hsecond, hmatch.code, ?_, ?_⟩
  · rw [scriptVisits_eq, fileVisits, hload.onward, labelNamesOf_visits, ← entriesLabels_bare, ← hes,
      entriesLabels_bare]
  · rw [scriptVisits_eq, fileVisits, hload'.onward, labelNamesOf_visits, hsplit]

/-- **Later entries do not change code that is there.** Let a text be a program to its last token,
and let another text go on with more tokens behind it; let both be compiled to the end. Let no
function of the second text that is not in the first have a label with the name of one in the first,
and let no function have a label with a name that looks like that of a child. Then the strings of
the first are those at the beginning of the second; its labels are in the second as they were; and
the listing of the second is that of the first, with the labels made later behind it. Both are read
without repair: texts that are compiled to the end this way are programs as they stand. -/
theorem later_entries_keep_code (fs : Files) (path text text' : String)
    (hfull : ∃ tree, IsProgram (Script.ofText text).finish (Script.ofText text).tokens tree [])
    (hrow : (Script.ofText text).tokens.map Token.bare <+:
      (Script.ofText text').tokens.map Token.bare)
    (hok : (compileScript (fs.put path text) .strict path).ended = .ok ())
    (hok' : (compileScript (fs.put path text') .strict path).ended = .ok ())
    (hapart : ∀ name ∈ (labelNamesOf (scriptVisits (fs.put path text') .strict path)).drop
      (labelNamesOf (scriptVisits (fs.put path text) .strict path)).length,
      name ∉ labelNamesOf (scriptVisits (fs.put path text) .strict path))
    (hroot : ∀ name ∈ labelNamesOf (scriptVisits (fs.put path text') .strict path),
      looksLikeChild name = false) :
    let code := (compileScript (fs.put path text) .strict path).state.file.code
    let code' := (compileScript (fs.put path text') .strict path).state.file.code
    labelNamesOf (scriptVisits (fs.put path text) .strict path) <+:
        labelNamesOf (scriptVisits (fs.put path text') .strict path) ∧
      code.strings <+: code'.strings ∧
      (∀ x, x < code.labels.size → code'.label x = code.label x) ∧ code.ListsOn code' := by
  intro code code'
  obtain ⟨es, ds, s, t, hempty, hs, hknown, hfirst, hsecond, hcode, hnames, hnames'⟩ :=
    exists_split_of_isPrefix hfull hrow hok hok'
  have hadds := (visited_compileEntries
    (keepsFile_fileImporter (fs.put path text') .strict _) ds hsecond).adds
  rw [hnames, hnames', entriesLabels_append, List.drop_left] at hapart
  rw [hnames'] at hroot
  have hlists := listsOn_of_yields hempty hs hknown hfirst hsecond hapart hroot
  rw [hcode] at hadds hlists
  refine ⟨?_, hadds.strings, hadds.label, hlists⟩
  rw [hnames, hnames', entriesLabels_append]
  exact List.prefix_append _ _

/-- A function with a choice in it. -/
def firstText : String := "int v:9;function f()\x7bif(v==1)\x7bv=2;\x7d\x7d"

/-- The same, and behind it another function with a choice. -/
def longerText : String := firstText ++ "function g()\x7bif(v==3)\x7bv=4;\x7d\x7d"

/-- No other files. -/
def noFiles : Files := ⟨[]⟩

set_option maxRecDepth 100000 in
/-- The labels of `f` stay as they are, in front of those of `g`. -/
theorem longerText_keeps_code :
    (compileScript (noFiles.put "a.evc" longerText) .strict "a.evc").ended = .ok () ∧
    (compileScript (noFiles.put "a.evc" firstText) .strict "a.evc").state.file.code.ListsOn
      (compileScript (noFiles.put "a.evc" longerText) .strict "a.evc").state.file.code := by
  have hcheck : ((Rule.read (Script.ofText firstText).finish
        (readingBudget (Script.ofText firstText).tokens) .program
        (Script.ofText firstText).tokens).toOption.map (·.2) = some [] ∧
      (Script.ofText firstText).tokens.map Token.bare <+:
        (Script.ofText longerText).tokens.map Token.bare) ∧
      ((compileScript (noFiles.put "a.evc" firstText) .strict "a.evc").endsWith fun _ => true) =
        true ∧
      ((compileScript (noFiles.put "a.evc" longerText) .strict "a.evc").endsWith fun _ => true) =
        true ∧
      labelNamesOf (scriptVisits (noFiles.put "a.evc" firstText) .strict "a.evc") = ["_f"] ∧
      labelNamesOf (scriptVisits (noFiles.put "a.evc" longerText) .strict "a.evc") =
        ["_f", "_g"] := by
    decide +kernel
  obtain ⟨⟨hfull, hrow⟩, hfirst, hlonger, hnames, hnames'⟩ := hcheck
  obtain ⟨t, ht, -⟩ := Outcome.eq_of_endsWith hfirst
  obtain ⟨t', ht', -⟩ := Outcome.eq_of_endsWith hlonger
  have hok' : (compileScript (noFiles.put "a.evc" longerText) .strict "a.evc").ended = .ok () := by
    rw [ht']
  have hkeeps := later_entries_keep_code noFiles "a.evc" firstText longerText
    (Script.exists_isProgram rfl hfull) hrow (by rw [ht]) hok'
    (by rw [hnames, hnames']; decide) (by rw [hnames']; decide)
  exact ⟨hok', hkeeps.2.2.2⟩

end EvScript
