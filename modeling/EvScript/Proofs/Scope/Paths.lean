import Mathlib.Data.List.Basic
import EvScript.Proofs.Scope.Search

/-!
# Which Path a Qualified Name Takes

A qualified name stands for paths down the graph, and there can be several of them. For every part
but the last the search takes the **first** scope that has the part as its name, the nearer ones and
then those declared first, and it does not come back to the others. Only for the last part all
scopes with that name are asked. So a name with one qualifier means something whenever one of its
paths ends at a declaration; a name with more qualifiers need not.
-/

namespace EvScript

variable {k n : Nat}

namespace ScopeGraph

variable {α : Type} {g : ScopeGraph} {shelf : Shelf α} {first leaf p : String}
  {more ps : List String} {a x y : ScopeId} {level below : List ScopeId} {r : Option α}

/-! ### One level -/

/-- Whether a scope has a certain name. -/
def isNamed (g : ScopeGraph) (p : String) (x : ScopeId) : Bool := (g.scope x).name == some p

theorem isNamed_iff : g.isNamed p x = true ↔ (g.scope x).name = some p := beq_iff_eq

/-- What is in those of the scopes that have no name. -/
def inOpen (g : ScopeGraph) (level : List ScopeId) : List ScopeId :=
  (level.filter g.isOpen).flatMap fun x => (g.scope x).children

theorem mem_inOpen : y ∈ g.inOpen level ↔
    ∃ x ∈ level, (g.scope x).name = none ∧ y ∈ (g.scope x).children := by
  simp [inOpen, isOpen, and_assoc]

theorem inOpen_cons_of_none (h : (g.scope x).name = none) :
    g.inOpen (x :: level) = (g.scope x).children ++ g.inOpen level := by
  rw [inOpen, List.filter_cons_of_pos (isOpen_iff.mpr h), List.flatMap_cons, inOpen]

theorem inOpen_cons_of_some (h : (g.scope x).name = some p) :
    g.inOpen (x :: level) = g.inOpen level := by
  rw [inOpen, List.filter_cons_of_neg (by simp [isOpen, h]), inOpen]

theorem isNamed_of_none (h : (g.scope x).name = none) (p : String) : g.isNamed p x = false := by
  simp [isNamed, h]

/-- **The last part of a name**: of the scopes with that name the first that declares the leaf is
taken; if there is none, the search goes on inside the scopes without a name. -/
theorem searchLevel_last (below level : List ScopeId) :
    g.searchLevel shelf first [] leaf below level =
      ((level.filter (g.isNamed first)).findSome? (g.lookup shelf leaf)).elim
        (.down first [] (below ++ g.inOpen level)) .found := by
  induction level generalizing below with
  | nil => simp [searchLevel, inOpen]
  | cons x level ih =>
    rw [searchLevel]
    cases hname : (g.scope x).name with
    | none =>
      rw [List.filter_cons_of_neg (by simp [isNamed_of_none hname]),
        inOpen_cons_of_none hname, ← List.append_assoc]
      exact ih _
    | some n =>
      rw [inOpen_cons_of_some hname]
      by_cases hn : n = first
      · have hnamed : g.isNamed first x = true := isNamed_iff.mpr (hn ▸ hname)
        rw [List.filter_cons_of_pos hnamed, List.findSome?_cons]
        simp only [if_pos hn, lookup]
        cases (shelf (g.scope x)).find? leaf with
        | some d => rfl
        | none => exact ih _
      · have hnamed : ¬ g.isNamed first x = true := by
          rw [isNamed_iff, hname]
          exact fun h => hn (Option.some.inj h)
        rw [List.filter_cons_of_neg hnamed]
        simp only [if_neg hn]
        exact ih _

/-- **A part in front of the last one**: the first scope with that name is taken, and the search
goes on in it alone; if there is none, it goes on inside the scopes without a name. -/
theorem searchLevel_front (second : String) (below level : List ScopeId) :
    g.searchLevel shelf first (second :: more) leaf below level =
      (level.find? (g.isNamed first)).elim (.down first (second :: more) (below ++ g.inOpen level))
        fun x => .down second more (g.scope x).children := by
  induction level generalizing below with
  | nil => simp [searchLevel, inOpen]
  | cons x level ih =>
    rw [searchLevel]
    cases hname : (g.scope x).name with
    | none =>
      rw [List.find?_cons_of_neg (by simp [isNamed_of_none hname]),
        inOpen_cons_of_none hname, ← List.append_assoc]
      exact ih _
    | some n =>
      rw [inOpen_cons_of_some hname]
      by_cases hn : n = first
      · have hnamed : g.isNamed first x = true := isNamed_iff.mpr (hn ▸ hname)
        rw [List.find?_cons_of_pos hnamed]
        simp only [if_pos hn]
        rfl
      · have hnamed : ¬ g.isNamed first x = true := by
          rw [isNamed_iff, hname]
          exact fun h => hn (Option.some.inj h)
        rw [List.find?_cons_of_neg hnamed]
        simp only [if_neg hn]
        exact ih _

/-! ### All levels -/

/-- The scopes of up to `n` levels, of which the first is given. -/
def levels (g : ScopeGraph) : Nat → List ScopeId → List ScopeId
  | 0, _ => []
  | n + 1, level => level ++ g.levels n (g.inOpen level)

/-- The scopes below a scope, in the order of the search. -/
def allBelow (g : ScopeGraph) (a : ScopeId) : List ScopeId := g.levels g.size (g.scope a).children

theorem levels_nil (n : Nat) : g.levels n [] = [] := by
  induction n with
  | zero => rfl
  | succ n ih => exact ih

/-- The scopes of a level have numbers from `k` on, and the levels from there to the last scope are
counted. -/
structure Counted (g : ScopeGraph) (n k : Nat) (level : List ScopeId) : Prop where
  bounds : ∀ x ∈ level, k ≤ x ∧ x < g.size
  size_le : g.size ≤ k + n

theorem Counted.exists_succ (h : g.Counted n k level) (hne : level ≠ []) : ∃ m, n = m + 1 := by
  obtain ⟨x, level, rfl⟩ := List.exists_cons_of_ne_nil hne
  have hx := h.bounds x List.mem_cons_self
  have hlt : k < g.size := Nat.lt_of_le_of_lt hx.1 hx.2
  have hsize := h.size_le
  exact ⟨n - 1, by omega⟩

theorem Counted.inOpen (h : g.Counted (n + 1) k level) (hg : g.Ordered) :
    g.Counted n (k + 1) (g.inOpen level) := by
  refine ⟨fun y hy => ?_, ?_⟩
  · obtain ⟨x, hx, -, hy⟩ := mem_inOpen.mp hy
    have hchild := hg.child hy
    exact ⟨Nat.lt_of_le_of_lt (h.bounds x hx).1 hchild.1, hchild.2⟩
  · have hsize := h.size_le
    omega

theorem counted_children (hg : g.Ordered) (a : ScopeId) : g.Counted g.size 0 (g.scope a).children :=
  ⟨fun _ hx => ⟨Nat.zero_le _, (hg.child hx).2⟩, Nat.le_add_left _ _⟩

theorem below_of_mem_levels (hlevel : ∀ x ∈ level, g.Below a x)
    (h : x ∈ g.levels n level) : g.Below a x := by
  induction n generalizing level with
  | zero => exact absurd h List.not_mem_nil
  | succ n ih =>
    rcases List.mem_append.mp h with h | h
    · exact hlevel x h
    · refine ih (fun y hy => ?_) h
      obtain ⟨z, hz, hname, hy⟩ := mem_inOpen.mp hy
      exact .deeper (hlevel z hz) hname hy

/-- The levels are closed under going down through scopes without a name. -/
theorem Counted.mem_levels_of_child (hg : g.Ordered) (h : g.Counted n k level)
    (hx : x ∈ g.levels n level) (hname : (g.scope x).name = none)
    (hy : y ∈ (g.scope x).children) : y ∈ g.levels n level := by
  induction n generalizing k level with
  | zero => exact absurd hx List.not_mem_nil
  | succ n ih =>
    refine List.mem_append_right _ ?_
    rcases List.mem_append.mp hx with hx | hx
    · have hmem : y ∈ g.inOpen level := mem_inOpen.mpr ⟨x, hx, hname, hy⟩
      obtain ⟨m, rfl⟩ := (h.inOpen hg).exists_succ (List.ne_nil_of_mem hmem)
      exact List.mem_append_left _ hmem
    · exact ih (h.inOpen hg) hx

/-- **All scopes below a scope are listed**, and no others. -/
theorem mem_allBelow_iff (hg : g.Ordered) : x ∈ g.allBelow a ↔ g.Below a x := by
  constructor
  · exact below_of_mem_levels fun y hy => .child hy
  · intro h
    have hcounted := counted_children hg a
    induction h with
    | child hx =>
      obtain ⟨m, hm⟩ := hcounted.exists_succ (List.ne_nil_of_mem hx)
      rw [allBelow, hm]
      exact List.mem_append_left _ hx
    | deeper _ hname hy ih => exact hcounted.mem_levels_of_child hg ih hname hy

/-! ### Front parts and the last part -/

/-- The scope that the front parts of a name lead to: for each part the first scope below that has
it as its name. -/
def lead (g : ScopeGraph) : ScopeId → List String → Option ScopeId
  | a, [] => some a
  | a, p :: ps => ((g.allBelow a).find? (g.isNamed p)).bind fun x => g.lead x ps

/-- What the first scope below that has a certain name and declares the leaf declares. -/
def declaredBelow (g : ScopeGraph) (shelf : Shelf α) (p leaf : String) (a : ScopeId) : Option α :=
  ((g.allBelow a).filter (g.isNamed p)).findSome? (g.lookup shelf leaf)

/-- What a name means among scopes that are listed: its first part is looked for among them, the
others below. -/
def pick (g : ScopeGraph) (shelf : Shelf α) (leaf : String) :
    String → List String → List ScopeId → Option α
  | first, [], ids => (ids.filter (g.isNamed first)).findSome? (g.lookup shelf leaf)
  | first, second :: more, ids =>
    (ids.find? (g.isNamed first)).bind fun x => g.pick shelf leaf second more (g.allBelow x)

/-- **A search that comes to an end** has picked from the scopes of all its levels. -/
theorem Descends.eq_pick (h : Descends g shelf leaf first more level r)
    (hg : g.Ordered) (hc : g.Counted n k level) :
    r = g.pick shelf leaf first more (g.levels n level) := by
  induction h generalizing n k with
  | @empty first more =>
    rw [levels_nil]
    cases more <;> rfl
  | @found first more level d hne hs =>
    obtain ⟨m, rfl⟩ := hc.exists_succ hne
    cases more with
    | cons second more =>
      rw [searchLevel_front] at hs
      cases hfind : level.find? (g.isNamed first) with
      | none => simp [hfind] at hs
      | some x => simp [hfind] at hs
    | nil =>
      rw [searchLevel_last] at hs
      rw [pick, levels, List.filter_append, List.findSome?_append]
      cases hfind : (level.filter (g.isNamed first)).findSome? (g.lookup shelf leaf) with
      | none => simp [hfind] at hs
      | some d' =>
        simp only [hfind, Option.elim_some, Level.found.injEq] at hs
        rw [Option.some_or, hs]
  | @down first first' more more' level next r hne hs _ ih =>
    obtain ⟨m, rfl⟩ := hc.exists_succ hne
    cases more with
    | nil =>
      rw [searchLevel_last] at hs
      rw [pick, levels, List.filter_append, List.findSome?_append]
      cases hfind : (level.filter (g.isNamed first)).findSome? (g.lookup shelf leaf) with
      | some d => simp [hfind] at hs
      | none =>
        simp only [hfind, Option.elim_none, List.nil_append, Level.down.injEq] at hs
        obtain ⟨rfl, rfl, rfl⟩ := hs
        rw [Option.none_or]
        exact ih (hc.inOpen hg)
    | cons second more =>
      rw [searchLevel_front] at hs
      rw [pick, levels, List.find?_append]
      cases hfind : level.find? (g.isNamed first) with
      | none =>
        simp only [hfind, Option.elim_none, List.nil_append, Level.down.injEq] at hs
        obtain ⟨rfl, rfl, rfl⟩ := hs
        rw [Option.none_or]
        exact ih (hc.inOpen hg)
      | some x =>
        simp only [hfind, Option.elim_some, Level.down.injEq] at hs
        obtain ⟨rfl, rfl, rfl⟩ := hs
        rw [Option.some_or, Option.bind_some]
        exact ih (counted_children hg x)

theorem pick_allBelow (hparts : first :: more = ps ++ [p]) (a : ScopeId) :
    g.pick shelf leaf first more (g.allBelow a) =
      (g.lead a ps).bind (g.declaredBelow shelf p leaf) := by
  induction ps generalizing first more a with
  | nil =>
    obtain ⟨rfl, rfl⟩ := List.cons.inj hparts
    rfl
  | cons q ps ih =>
    obtain ⟨rfl, hmore⟩ := List.cons.inj hparts
    cases more with
    | nil => simp at hmore
    | cons second more =>
      rw [pick, lead, Option.bind_assoc]
      exact congrArg _ (funext fun x => ih hmore x)

/-! ### Paths -/

/-- The front parts lead along a path. -/
theorem path_of_lead (hg : g.Ordered) (h : g.lead a ps = some x) : g.Path a ps x := by
  induction ps generalizing a with
  | nil => exact Option.some.inj h
  | cons q ps ih =>
    obtain ⟨y, hy, hlead⟩ := Option.bind_eq_some_iff.mp h
    exact ⟨y, (mem_allBelow_iff hg).mp (List.mem_of_find?_eq_some hy),
      isNamed_iff.mp (List.find?_some hy), ih hlead⟩

/-- No two paths with a beginning of the given parts have different ends. -/
def OneWay (g : ScopeGraph) (a : ScopeId) (ps : List String) : Prop :=
  ∀ qs, qs <+: ps → ∀ x y, g.Path a qs x → g.Path a qs y → x = y

theorem oneWay_nil : g.OneWay a [] := by
  intro qs hqs x y hx hy
  obtain rfl := List.prefix_nil.mp hqs
  exact Eq.trans hx.symm hy

/-- **If there is only one path, the front parts lead along it.** -/
theorem lead_eq_some_of_path (hg : g.Ordered) (hone : g.OneWay a ps) (h : g.Path a ps x) :
    g.lead a ps = some x := by
  induction ps generalizing a with
  | nil => exact congrArg some h
  | cons q ps ih =>
    obtain ⟨y, hbelow, hname, hpath⟩ := h
    have hsome : ((g.allBelow a).find? (g.isNamed q)).isSome = true :=
      List.find?_isSome.mpr ⟨y, (mem_allBelow_iff hg).mpr hbelow, isNamed_iff.mpr hname⟩
    obtain ⟨z, hz⟩ := Option.isSome_iff_exists.mp hsome
    have hzpath : g.Path a [q] z := ⟨z, (mem_allBelow_iff hg).mp (List.mem_of_find?_eq_some hz),
      isNamed_iff.mp (List.find?_some hz), rfl⟩
    obtain rfl : z = y := hone [q] (List.prefix_append [q] ps) z y hzpath
      ⟨y, hbelow, hname, rfl⟩
    rw [lead, hz, Option.bind_some]
    refine ih (fun qs hqs u v hu hv => ?_) hpath
    exact hone (q :: qs) ((List.prefix_cons_inj q).mpr hqs) u v ⟨z, hbelow, hname, hu⟩
      ⟨z, hbelow, hname, hv⟩

/-- A path can be cut in front of its last part. -/
theorem path_concat_iff : g.Path a (ps ++ [p]) x ↔
    ∃ b, g.Path a ps b ∧ g.Below b x ∧ (g.scope x).name = some p := by
  induction ps generalizing a with
  | nil => simp [Path]
  | cons q ps ih =>
    constructor
    · rintro ⟨y, hbelow, hname, hpath⟩
      obtain ⟨b, hb, hx⟩ := ih.mp hpath
      exact ⟨b, ⟨y, hbelow, hname, hb⟩, hx⟩
    · rintro ⟨b, ⟨y, hbelow, hname, hb⟩, hx⟩
      exact ⟨y, hbelow, hname, ih.mpr ⟨b, hb, hx⟩⟩

/-- Something is declared below exactly if some scope with the name declares it. -/
theorem isSome_declaredBelow_iff (hg : g.Ordered) : (g.declaredBelow shelf p leaf a).isSome = true ↔
      ∃ x, g.Below a x ∧ (g.scope x).name = some p ∧ (g.lookup shelf leaf x).isSome = true := by
  simp only [declaredBelow, List.findSome?_isSome_iff, List.mem_filter, mem_allBelow_iff hg,
    isNamed_iff, and_assoc]

end ScopeGraph

open ScopeGraph

namespace Cursor

variable {α : Type} {c : Cursor} {g : ScopeGraph} {shelf : Shelf α} {name leaf p : String}
  {ps : List String}

/-- **What a qualified name means**: its front parts lead to a scope, and below that the scopes with
the last part as their name are asked. -/
theorem resolve_eq_lead (hg : g.Ordered) (hc : c.Rooted g)
    (h : nameParts name = (ps ++ [p], leaf)) :
    c.resolve g shelf name = (g.lead c.top ps).bind (g.declaredBelow shelf p leaf) := by
  obtain ⟨first, more, hparts⟩ : ∃ first more, ps ++ [p] = first :: more :=
    List.exists_cons_of_ne_nil (by simp)
  rw [hparts] at h
  have hcounted : g.Counted (g.size + 1) 0 [c.top] :=
    ⟨fun x hx => List.mem_singleton.mp hx ▸ ⟨Nat.zero_le _, hc.top_lt⟩, by omega⟩
  have hsearch := searches_resolve hg hc shelf name
  generalize c.resolve g shelf name = r at hsearch
  cases hsearch with
  | downwards hparts' hd =>
    rw [h] at hparts'
    obtain ⟨hcons, rfl⟩ := Prod.mk.inj hparts'
    obtain ⟨rfl, rfl⟩ := List.cons.inj hcons
    -- the global scope has no name, so the search begins with what is in it
    have hlevels : g.levels (g.size + 1) [c.top] = c.top :: g.allBelow c.top := by
      rw [levels, inOpen_cons_of_none hc.name, inOpen]
      simp [allBelow]
    have hskip : ¬ g.isNamed first c.top = true := by
      rw [isNamed_of_none hc.name]
      exact Bool.false_ne_true
    rw [hd.eq_pick hg hcounted, hlevels, ← pick_allBelow hparts.symm]
    cases more with
    | nil => rw [pick, List.filter_cons_of_neg hskip, pick]
    | cons second more => rw [pick, List.find?_cons_of_neg hskip, pick]
  | global hplain | here hplain | outermost hplain | upwards hplain =>
    exact absurd hplain (not_isPlain_of_nameParts h)

end Cursor

end EvScript
