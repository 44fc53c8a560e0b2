import EvScript.Proofs.Scope.Order

/-!
# What a Search Finds

A plain name is looked for in the global scope, in the current scope and then upwards; a qualified
name from the global scope downwards, level by level. The functions that search are given the number
of scopes as a bound. Here the searches are relations without a bound: in a graph with an order each
search has one end, and the functions come to the same end, so the bound is never met.

A plain name means a declaration of a scope that is **around** the current one, of that scope itself
or of the global one. A qualified name means one at the end of a **path**: from each scope on it the
next one is reached by going down through scopes without a name.
-/

namespace EvScript

variable {first first' leaf name : String} {more more' : List String} {next ys : List ScopeId}

/-! ### The parts of a name -/

/-- The name has no `::` in it. -/
def IsPlain (name : String) : Prop := ¬ [':', ':'] <:+: name.toList

theorem splitQualified_ne_nil (cs : List Char) : splitQualified cs ≠ [] := by
  fun_cases splitQualified cs <;> simp

theorem intercalate_splitQualified (cs : List Char) :
    [':', ':'].intercalate (splitQualified cs) = cs := by
  fun_induction splitQualified cs with
  | case1 => rfl
  | case2 cs ih =>
    obtain ⟨part, parts, hsplit⟩ := List.exists_cons_of_ne_nil (splitQualified_ne_nil cs)
    rw [hsplit] at ih ⊢
    rw [List.intercalate_cons_cons, ih]
    rfl
  | case3 c cs hne hsplit ih => exact absurd hsplit (splitQualified_ne_nil cs)
  | case4 c cs hne part parts hsplit ih =>
    rw [hsplit] at ih
    cases parts with
    | nil =>
      rw [List.intercalate_singleton] at ih ⊢
      rw [ih]
    | cons second parts =>
      rw [List.intercalate_cons_cons] at ih ⊢
      rw [← ih]
      rfl

theorem length_splitQualified_eq_one_iff (cs : List Char) :
    (splitQualified cs).length = 1 ↔ ¬ [':', ':'] <:+: cs := by
  fun_induction splitQualified cs with
  | case1 => simp
  | case2 cs ih =>
    have hpos := List.length_pos_iff.mpr (splitQualified_ne_nil cs)
    have hinfix : [':', ':'] <:+: ':' :: ':' :: cs := (List.prefix_append _ cs).isInfix
    constructor
    · intro h
      rw [List.length_cons] at h
      omega
    · exact fun h => absurd hinfix h
  | case3 c cs hne hsplit ih => exact absurd hsplit (splitQualified_ne_nil cs)
  | case4 c cs hne part parts hsplit ih =>
    rw [hsplit] at ih
    rw [List.length_cons] at ih ⊢
    rw [ih, List.infix_cons_iff]
    refine not_congr (or_iff_right fun hfront => ?_).symm
    obtain ⟨rest, hrest⟩ := hfront
    obtain ⟨rfl, rfl⟩ := List.cons.inj hrest
    exact hne rest rfl rfl

/-- No part of a text has `::` in it. -/
theorem not_infix_of_mem_splitQualified (cs : List Char) :
    ∀ part ∈ splitQualified cs, ¬ [':', ':'] <:+: part := by
  fun_induction splitQualified cs with
  | case1 => simp
  | case2 cs ih => exact List.forall_mem_cons.mpr ⟨by simp, ih⟩
  | case3 c cs hne hsplit ih => exact absurd hsplit (splitQualified_ne_nil cs)
  | case4 c cs hne part parts hsplit ih =>
    rw [hsplit, List.forall_mem_cons] at ih
    refine List.forall_mem_cons.mpr ⟨fun hinfix => ?_, ih.2⟩
    rcases List.infix_cons_iff.mp hinfix with ⟨rest, hrest⟩ | hinfix
    · -- the text would begin with `::`, as its first part does
      obtain ⟨rfl, rfl⟩ := List.cons.inj hrest
      have hjoin := intercalate_splitQualified cs
      rw [hsplit] at hjoin
      cases parts with
      | nil =>
        rw [List.intercalate_singleton] at hjoin
        exact hne rest rfl hjoin.symm
      | cons => exact hne _ rfl hjoin.symm
    · exact ih.1 hinfix

/-- The parts of a name are those of its text. -/
theorem nameParts_concat (name : String) : (nameParts name).1 ++ [(nameParts name).2] =
    (splitQualified name.toList).map String.ofList := by
  have hne : (splitQualified name.toList).map String.ofList ≠ [] := by
    simpa using splitQualified_ne_nil name.toList
  show List.dropLast _ ++ [Option.getD (List.getLast? _) ""] = _
  rw [List.getLast?_eq_some_getLast hne, Option.getD_some, List.dropLast_concat_getLast]

theorem nameParts_fst_eq_nil_iff : (nameParts name).1 = [] ↔ IsPlain name := by
  rw [IsPlain, ← length_splitQualified_eq_one_iff]
  have hlength := congrArg List.length (nameParts_concat name)
  rw [List.length_append, List.length_singleton, List.length_map] at hlength
  rw [← hlength, ← List.length_eq_zero_iff]
  omega

/-- **The parts of a name**, joined by `::`, are the name. -/
theorem intercalate_nameParts (name : String) :
    "::".intercalate ((nameParts name).1 ++ [(nameParts name).2]) = name := by
  have hsame : String.toList ∘ String.ofList = id := funext fun _ => String.toList_ofList
  rw [← String.toList_inj, String.toList_intercalate, nameParts_concat, List.map_map, hsame,
    List.map_id]
  exact intercalate_splitQualified _

theorem isPlain_of_mem_nameParts {part : String}
    (h : part ∈ (nameParts name).1 ++ [(nameParts name).2]) : IsPlain part := by
  rw [nameParts_concat] at h
  obtain ⟨cs, hcs, rfl⟩ := List.mem_map.mp h
  rw [IsPlain, String.toList_ofList]
  exact not_infix_of_mem_splitQualified _ cs hcs

/-! ### Searches that come to an end -/

namespace ScopeGraph

variable {α : Type} {g : ScopeGraph} {shelf : Shelf α} {name first leaf : String}
  {more : List String} {top x : ScopeId} {level below : List ScopeId} {r r' : Option α} {a : α}

/-- `Climbs g top shelf name x r`: looking `name` up in `x` and then upwards ends with `r`. A scope
with a name ends the search, and so does the global scope, which was looked at before. -/
inductive Climbs (g : ScopeGraph) (top : ScopeId) (shelf : Shelf α) (name : String) :
    ScopeId → Option α → Prop where
  | named {x : ScopeId} {n : String} : (g.scope x).name = some n → Climbs g top shelf name x none
  | found {x : ScopeId} {a : α} : (g.scope x).name = none →
      (shelf (g.scope x)).find? name = some a → Climbs g top shelf name x (some a)
  | ended {x : ScopeId} : (g.scope x).name = none → (shelf (g.scope x)).find? name = none →
      (∀ p, (g.scope x).parent = some p → p = top) → Climbs g top shelf name x none
  | up {x p : ScopeId} {r : Option α} : (g.scope x).name = none →
      (shelf (g.scope x)).find? name = none → (g.scope x).parent = some p → p ≠ top →
      Climbs g top shelf name p r → Climbs g top shelf name x r

/-- `Descends g shelf leaf first more level r`: looking `first::more…::leaf` up in a level and then
further down ends with `r`. -/
inductive Descends (g : ScopeGraph) (shelf : Shelf α) (leaf : String) :
    String → List String → List ScopeId → Option α → Prop where
  | empty {first : String} {more : List String} : Descends g shelf leaf first more [] none
  | found {first : String} {more : List String} {level : List ScopeId} {a : α} : level ≠ [] →
      g.searchLevel shelf first more leaf [] level = .found a →
      Descends g shelf leaf first more level (some a)
  | down {first first' : String} {more more' : List String} {level next : List ScopeId}
      {r : Option α} : level ≠ [] →
      g.searchLevel shelf first more leaf [] level = .down first' more' next →
      Descends g shelf leaf first' more' next r → Descends g shelf leaf first more level r

theorem Climbs.unique (h : Climbs g top shelf name x r) (h' : Climbs g top shelf name x r') :
    r = r' := by
  induction h with
  | named hn => cases h' <;> simp_all
  | found hn hf => cases h' <;> simp_all
  | ended hn hf hp =>
    cases h' with
    | up hn' hf' hp' hne _ => exact absurd (hp _ hp') hne
    | _ => simp_all
  | up hn hf hp hne _ ih =>
    cases h' with
    | ended hn' hf' hp' => exact absurd (hp' _ hp) hne
    | up hn' hf' hp' hne' hc' =>
      obtain rfl := Option.some.inj (hp.symm.trans hp')
      exact ih hc'
    | _ => simp_all

theorem Descends.unique (h : Descends g shelf leaf first more level r)
    (h' : Descends g shelf leaf first more level r') : r = r' := by
  induction h with
  | empty =>
    cases h' with
    | empty => rfl
    | found hne _ => exact absurd rfl hne
    | down hne _ _ => exact absurd rfl hne
  | found hne hs =>
    cases h' with
    | empty => exact absurd rfl hne
    | found _ hs' =>
      rw [hs] at hs'
      cases hs'
      rfl
    | down _ hs' _ =>
      rw [hs] at hs'
      cases hs'
  | down hne hs _ ih =>
    cases h' with
    | empty => exact absurd rfl hne
    | found _ hs' =>
      rw [hs] at hs'
      cases hs'
    | down _ hs' hd =>
      rw [hs] at hs'
      cases hs'
      exact ih hd

/-- Going up ends before the bound is met: each parent has a smaller number. -/
theorem climbs_climb (h : g.Ordered) (n : Nat) (x : Nat) (hx : x < n) :
    Climbs g top shelf name x (g.climb top shelf name n x) := by
  induction n generalizing x with
  | zero => exact absurd hx (Nat.not_lt_zero _)
  | succ n ih =>
    unfold climb
    dsimp only
    cases hname : (g.scope x).name with
    | some _ => exact .named hname
    | none =>
      rw [if_neg (by simp)]
      cases hfind : (shelf (g.scope x)).find? name with
      | some a => exact .found hname hfind
      | none =>
        cases hparent : (g.scope x).parent with
        | none => exact .ended hname hfind fun p hp => by simp [hparent] at hp
        | some p =>
          dsimp only
          by_cases hp : p = top
          · rw [if_pos hp]
            refine .ended hname hfind fun q hq => ?_
            rw [hparent] at hq
            exact (Option.some.inj hq).symm.trans hp
          · rw [if_neg hp]
            have hlt : p < x := h.parent hparent
            exact .up hname hfind hparent hp (ih p (Nat.lt_of_lt_of_le hlt
              (Nat.le_of_lt_succ hx)))

/-! ### One level -/

/-- **What is found in a level**: a declaration of a scope that has the last part as its name. -/
theorem searchLevel_found (h : g.searchLevel shelf first more leaf below level = .found a) :
    more = [] ∧ ∃ x ∈ level, (g.scope x).name = some first ∧
      (shelf (g.scope x)).find? leaf = some a := by
  fun_induction g.searchLevel shelf first more leaf below level with
  | case1 below => cases h
  | case2 below x level s hname ih =>
    obtain ⟨hmore, y, hy, hrest⟩ := ih h
    exact ⟨hmore, y, List.mem_cons_of_mem x hy, hrest⟩
  | case3 below x level s hmore b hfind hname =>
    cases h
    exact ⟨hmore, x, List.mem_cons_self, hname, hfind⟩
  | case4 below x level s hmore hfind hname ih =>
    rw [← hmore] at h
    obtain ⟨hmore, y, hy, hrest⟩ := ih h
    exact ⟨hmore, y, List.mem_cons_of_mem x hy, hrest⟩
  | case5 below x level s second rest hmore hname => cases h
  | case6 below x level s n hname hne ih =>
    obtain ⟨hmore, y, hy, hrest⟩ := ih h
    exact ⟨hmore, y, List.mem_cons_of_mem x hy, hrest⟩

/-- **Where the search goes on below a level**: in all that is in its scopes without a name, or, if
some scope has the first part as its name, in that scope with the other parts. -/
theorem searchLevel_down
    (h : g.searchLevel shelf first more leaf below level = .down first' more' next) :
    (first' = first ∧ more' = more ∧ ∀ y ∈ next, y ∈ below ∨
      ∃ x ∈ level, (g.scope x).name = none ∧ y ∈ (g.scope x).children) ∨
    (more = first' :: more' ∧ ∃ x ∈ level, (g.scope x).name = some first ∧
      next = (g.scope x).children) := by
  fun_induction g.searchLevel shelf first more leaf below level with
  | case1 below =>
    cases h
    exact .inl ⟨rfl, rfl, fun y hy => .inl hy⟩
  | case2 below x level s hname ih => grind
  | case3 below x level s hmore b hfind hname => cases h
  | case4 below x level s hmore hfind hname ih => grind
  | case5 below x level s second rest hmore hname =>
    cases h
    exact .inr ⟨hmore, x, List.mem_cons_self, hname, rfl⟩
  | case6 below x level s n hname hne ih => grind

theorem exists_child_of_searchLevel
    (h : g.searchLevel shelf first more leaf [] level = .down first' more' next) :
    ∀ y ∈ next, ∃ x ∈ level, y ∈ (g.scope x).children := by
  intro y hy
  rcases searchLevel_down h with ⟨-, -, hnext⟩ | ⟨-, x, hx, -, rfl⟩
  · rcases hnext y hy with hy | ⟨x, hx, -, hy⟩
    · exact absurd hy List.not_mem_nil
    · exact ⟨x, hx, hy⟩
  · exact ⟨x, hx, hy⟩

/-- Going down ends before the bound is met: each level has larger numbers than the one above. -/
theorem descends_descend (h : g.Ordered) (n k : Nat) (first : String) (more : List String)
    (level : List ScopeId) (hlevel : ∀ x ∈ level, k ≤ x ∧ x < g.size) (hk : g.size ≤ k + n) :
    Descends g shelf leaf first more level (g.descend shelf leaf n first more level) := by
  induction n generalizing k first more level with
  | zero =>
    cases level with
    | nil => exact .empty
    | cons x level =>
      obtain ⟨hle, hlt⟩ := hlevel x List.mem_cons_self
      exact absurd (Nat.lt_of_lt_of_le hlt (Nat.le_trans hk hle)) (Nat.lt_irrefl _)
  | succ n ih =>
    cases level with
    | nil => exact .empty
    | cons x level =>
      rw [descend]
      · cases hs : g.searchLevel shelf first more leaf [] (x :: level) with
        | found a => exact .found (List.cons_ne_nil _ _) hs
        | down first' more' next =>
          refine .down (List.cons_ne_nil _ _) hs (ih (k + 1) _ _ _ (fun y hy => ?_) ?_)
          · obtain ⟨z, hz, hy⟩ := exists_child_of_searchLevel hs y hy
            have hzy := h.child hy
            exact ⟨Nat.lt_of_le_of_lt (hlevel z hz).1 hzy.1, hzy.2⟩
          · omega
      · simp

/-! ### What is seen from a scope -/

/-- `Around g x a`: going up from `x`, one comes to `a` through scopes without a name only, and `a`
has none either. -/
inductive Around (g : ScopeGraph) : ScopeId → ScopeId → Prop where
  | parent {x a : ScopeId} : (g.scope x).parent = some a → (g.scope a).name = none → Around g x a
  | further {x y a : ScopeId} : (g.scope x).parent = some y → (g.scope y).name = none →
      Around g y a → Around g x a

/-- The scope has no name. -/
def isOpen (g : ScopeGraph) (x : ScopeId) : Bool := (g.scope x).name.isNone

theorem isOpen_iff : g.isOpen x = true ↔ (g.scope x).name = none := Option.isNone_iff_eq_none

/-- The scopes around the beginning of a trail are those up to the first one with a name. -/
theorem Trail.mem_takeWhile_iff (h : g.Trail top x ys)
    (htop : (g.scope top).parent = none) {b : ScopeId} :
    b ∈ ys.takeWhile g.isOpen ↔ g.Around x b := by
  induction ys generalizing x with
  | nil =>
    have hnone : (g.scope x).parent = none := by
      rw [show x = top from h]
      exact htop
    constructor
    · exact fun hb => absurd hb List.not_mem_nil
    · intro hb
      cases hb <;> simp_all
  | cons y ys ih =>
    obtain ⟨hparent, htrail⟩ := h
    rw [List.takeWhile_cons]
    constructor
    · intro hb
      split at hb
      · rename_i hy
        rcases List.mem_cons.mp hb with rfl | hb
        · exact .parent hparent (isOpen_iff.mp hy)
        · exact .further hparent (isOpen_iff.mp hy) ((ih htrail).mp hb)
      · exact absurd hb List.not_mem_nil
    · intro hb
      cases hb with
      | parent hp hn =>
        obtain rfl := Option.some.inj (hparent.symm.trans hp)
        rw [if_pos (isOpen_iff.mpr hn)]
        exact List.mem_cons_self
      | further hp hn hb =>
        obtain rfl := Option.some.inj (hparent.symm.trans hp)
        rw [if_pos (isOpen_iff.mpr hn)]
        exact List.mem_cons_of_mem _ ((ih htrail).mpr hb)

/-- What a scope declares under a name. -/
def lookup (g : ScopeGraph) (shelf : Shelf α) (name : String) (x : ScopeId) : Option α :=
  (shelf (g.scope x)).find? name

/-- **Going up gives the innermost declaration**, if the global scope has none. -/
theorem Climbs.eq_findSome? (h : Climbs g top shelf name x r)
    (htrail : g.Trail top x ys) (htop : (g.scope top).parent = none)
    (hnone : g.lookup shelf name top = none) :
    r = ((x :: ys).takeWhile g.isOpen).findSome? (g.lookup shelf name) := by
  induction h generalizing ys with
  | named hname => simp [isOpen, hname]
  | found hname hfind => simp [isOpen, hname, lookup, hfind]
  | @ended x hname hfind hp =>
    rw [List.takeWhile_cons_of_pos (isOpen_iff.mpr hname), List.findSome?_cons_of_isNone]
    · -- what is left of the trail is the global scope at most
      refine (List.findSome?_eq_none_iff.mpr fun b hb => ?_).symm
      cases ys with
      | nil => exact absurd hb List.not_mem_nil
      | cons y ys =>
        obtain rfl := hp y htrail.1
        cases ys with
        | nil =>
          obtain rfl := List.mem_singleton.mp ((List.takeWhile_sublist _).subset hb)
          exact hnone
        | cons z zs =>
          have hz := htrail.2.1
          rw [htop] at hz
          cases hz
    · exact Option.isNone_iff_eq_none.mpr hfind
  | @up x p r hname hfind hparent hne _ ih =>
    rw [List.takeWhile_cons_of_pos (isOpen_iff.mpr hname), List.findSome?_cons_of_isNone]
    · cases ys with
      | nil =>
        rw [show x = top from htrail, htop] at hparent
        cases hparent
      | cons y ys =>
        obtain rfl := Option.some.inj (hparent.symm.trans htrail.1)
        exact ih htrail.2
    · exact Option.isNone_iff_eq_none.mpr hfind

/-! ### Ways down -/

/-- `Below g a x`: going down from `a`, one comes to `x` through scopes without a name only. -/
inductive Below (g : ScopeGraph) (a : ScopeId) : ScopeId → Prop where
  | child {x : ScopeId} : x ∈ (g.scope a).children → Below g a x
  | deeper {x y : ScopeId} : Below g a x → (g.scope x).name = none → y ∈ (g.scope x).children →
      Below g a y

/-- `Path g a ps b`: there are scopes with the names `ps`, each of them below the one before and the
first one below `a`, of which `b` is the last. -/
def Path (g : ScopeGraph) : ScopeId → List String → ScopeId → Prop
  | a, [], b => a = b
  | a, p :: ps, b => ∃ x, g.Below a x ∧ (g.scope x).name = some p ∧ g.Path x ps b

/-- **Going down finds the end of a path.** The level has only scopes below `b`, or `b` itself if
that has no name. -/
theorem Descends.exists_path {b : ScopeId} (h : Descends g shelf leaf first more level (some a))
    (hlevel : ∀ x ∈ level, g.Below b x ∨ x = b ∧ (g.scope b).name = none) :
    ∃ x, g.Path b (first :: more) x ∧ g.lookup shelf leaf x = some a := by
  generalize hr : some a = r at h
  induction h generalizing b with
  | empty => cases hr
  | found hne hs =>
    cases hr
    obtain ⟨rfl, x, hx, hname, hfind⟩ := searchLevel_found hs
    refine ⟨x, ⟨x, ?_, hname, rfl⟩, hfind⟩
    rcases hlevel x hx with hbelow | ⟨rfl, hnone⟩
    · exact hbelow
    · rw [hname] at hnone
      cases hnone
  | down hne hs _ ih =>
    rcases searchLevel_down hs with ⟨rfl, rfl, hnext⟩ | ⟨rfl, x, hx, hname, rfl⟩
    · refine ih (fun y hy => ?_) hr
      rcases hnext y hy with hy | ⟨x, hx, hname, hy⟩
      · exact absurd hy List.not_mem_nil
      · rcases hlevel x hx with hbelow | ⟨rfl, -⟩
        · exact .inl (.deeper hbelow hname hy)
        · exact .inl (.child hy)
    · obtain ⟨z, hpath, hfind⟩ := ih (fun y hy => .inl (.child hy)) hr
      refine ⟨z, ⟨x, ?_, hname, hpath⟩, hfind⟩
      rcases hlevel x hx with hbelow | ⟨rfl, hnone⟩
      · exact hbelow
      · rw [hname] at hnone
        cases hnone

end ScopeGraph

open ScopeGraph

namespace Cursor

variable {α : Type} {c : Cursor} {g : ScopeGraph} {shelf : Shelf α} {name : String}
  {r r' : Option α} {a : α}

/-- `Searches c g shelf name r`: looking a name up from a place ends with `r`. -/
inductive Searches (c : Cursor) (g : ScopeGraph) (shelf : Shelf α) (name : String) :
    Option α → Prop where
  | global {a : α} : IsPlain name → (shelf (g.scope c.top)).find? name = some a →
      Searches c g shelf name (some a)
  | here {a : α} : IsPlain name → (shelf (g.scope c.top)).find? name = none →
      (shelf (g.scope c.here)).find? name = some a → Searches c g shelf name (some a)
  | outermost : IsPlain name → (shelf (g.scope c.top)).find? name = none →
      (shelf (g.scope c.here)).find? name = none → (g.scope c.here).parent = none →
      Searches c g shelf name none
  | upwards {p : ScopeId} {r : Option α} : IsPlain name →
      (shelf (g.scope c.top)).find? name = none → (shelf (g.scope c.here)).find? name = none →
      (g.scope c.here).parent = some p → Climbs g c.top shelf name p r → Searches c g shelf name r
  | downwards {first leaf : String} {more : List String} {r : Option α} :
      nameParts name = (first :: more, leaf) → Descends g shelf leaf first more [c.top] r →
      Searches c g shelf name r

theorem not_isPlain_of_nameParts (h : nameParts name = (first :: more, leaf)) : ¬ IsPlain name := by
  rw [← nameParts_fst_eq_nil_iff, h]
  exact List.cons_ne_nil _ _

theorem resolve_of_isPlain (h : IsPlain name) :
    c.resolve g shelf name = c.resolvePlain g shelf name := by
  have hparts : nameParts name = ([], (nameParts name).2) :=
    Prod.ext (nameParts_fst_eq_nil_iff.mpr h) rfl
  rw [resolve, hparts]

theorem resolve_of_nameParts (h : nameParts name = (first :: more, leaf)) :
    c.resolve g shelf name = g.descend shelf leaf (g.size + 1) first more [c.top] := by
  rw [resolve, h]

/-- **A search comes to an end**, and `resolve` gives it. -/
theorem searches_resolve (hg : g.Ordered) (hc : c.Rooted g) (shelf : Shelf α) (name : String) :
    c.Searches g shelf name (c.resolve g shelf name) := by
  cases hparts : (nameParts name).1 with
  | nil =>
    have hplain := nameParts_fst_eq_nil_iff.mp hparts
    rw [resolve_of_isPlain hplain, resolvePlain]
    cases htop : (shelf (g.scope c.top)).find? name with
    | some a => exact .global hplain htop
    | none =>
      cases hhere : (shelf (g.scope c.here)).find? name with
      | some a => exact .here hplain htop hhere
      | none =>
        cases hparent : (g.scope c.here).parent with
        | none => exact .outermost hplain htop hhere hparent
        | some p =>
          refine .upwards hplain htop hhere hparent (climbs_climb hg _ _ ?_)
          exact Nat.lt_trans (hg.parent hparent) hc.here_lt
  | cons first more =>
    have hname : nameParts name = (first :: more, (nameParts name).2) := Prod.ext hparts rfl
    rw [resolve_of_nameParts hname]
    refine .downwards hname (descends_descend hg _ 0 _ _ _ (fun x hx => ?_) (by omega))
    rw [List.mem_singleton.mp hx]
    exact ⟨Nat.zero_le _, hc.top_lt⟩

/-- A search has one end. -/
theorem Searches.unique (h : c.Searches g shelf name r) (h' : c.Searches g shelf name r') :
    r = r' := by
  cases h with
  | downwards hparts hd =>
    have hplain := not_isPlain_of_nameParts hparts
    cases h' with
    | downwards hparts' hd' =>
      rw [hparts] at hparts'
      cases hparts'
      exact hd.unique hd'
    | global h' | here h' | outermost h' | upwards h' => exact absurd h' hplain
  | upwards hplain htop hhere hparent hclimb =>
    cases h' with
    | upwards _ _ _ hparent' hclimb' =>
      obtain rfl := Option.some.inj (hparent.symm.trans hparent')
      exact hclimb.unique hclimb'
    | downwards hparts' _ => exact absurd hplain (not_isPlain_of_nameParts hparts')
    | _ => simp_all
  | global hplain | here hplain | outermost hplain =>
    cases h' with
    | downwards hparts' _ => exact absurd hplain (not_isPlain_of_nameParts hparts')
    | _ => simp_all

/-! ### What names mean -/

/-- The scope is seen from a place: it is the global one, the current one or around that. -/
def Sees (c : Cursor) (g : ScopeGraph) (x : ScopeId) : Prop :=
  x = c.top ∨ x = c.here ∨ g.Around c.here x

/-- The scopes that are seen from a place, innermost first: the current one, those around it up to
the first one with a name, and the global one. -/
def outward (c : Cursor) (g : ScopeGraph) : List ScopeId :=
  c.here :: c.enclosing.takeWhile g.isOpen ++ [c.top]

/-- The declaration of the innermost scope that has one. -/
def innermost (c : Cursor) (g : ScopeGraph) (shelf : Shelf α) (name : String) : Option α :=
  (c.outward g).findSome? (g.lookup shelf name)

theorem innermost_of_here (h : g.lookup shelf name c.here = some a) :
    c.innermost g shelf name = some a := by
  rw [innermost, outward, List.cons_append, List.findSome?_cons, h]

theorem mem_outward_iff (hc : c.Rooted g) {x : ScopeId} : x ∈ c.outward g ↔ c.Sees g x := by
  rw [Sees, outward, List.mem_append, List.mem_cons, hc.trail.mem_takeWhile_iff hc.parent,
    List.mem_singleton, or_comm]

/-- **A plain name means what the global scope declares**, and if that declares nothing, the
innermost declaration. -/
theorem resolve_eq_or (hg : g.Ordered) (hc : c.Rooted g) (shelf : Shelf α) (h : IsPlain name) :
    c.resolve g shelf name = (g.lookup shelf name c.top).or (c.innermost g shelf name) := by
  have hsearch := searches_resolve hg hc shelf name
  generalize c.resolve g shelf name = r at hsearch
  unfold innermost outward
  cases hsearch with
  | global _ htop => rw [show g.lookup shelf name c.top = _ from htop, Option.some_or]
  | here _ htop hhere =>
    rw [show g.lookup shelf name c.top = _ from htop, Option.none_or, List.cons_append,
      List.findSome?_cons, show g.lookup shelf name c.here = _ from hhere]
  | outermost _ htop hhere hparent =>
    have htrail := hc.trail
    cases henclosing : c.enclosing with
    | nil => simp [lookup, htop, hhere]
    | cons y ys =>
      rw [henclosing] at htrail
      rw [htrail.1] at hparent
      cases hparent
  | upwards _ htop hhere hparent hclimb =>
    have htrail := hc.trail
    cases henclosing : c.enclosing with
    | nil =>
      rw [henclosing] at htrail
      rw [show c.here = c.top from htrail, hc.parent] at hparent
      cases hparent
    | cons y ys =>
      rw [henclosing] at htrail
      obtain rfl := Option.some.inj (hparent.symm.trans htrail.1)
      rw [hclimb.eq_findSome? htrail.2 hc.parent htop]
      simp [lookup, htop, hhere]
  | downwards hparts _ => exact absurd h (not_isPlain_of_nameParts hparts)

theorem exists_sees_of_resolve (hg : g.Ordered) (hc : c.Rooted g) (h : IsPlain name)
    (hr : c.resolve g shelf name = some a) :
    ∃ x, c.Sees g x ∧ g.lookup shelf name x = some a := by
  rw [resolve_eq_or hg hc shelf h, Option.or_eq_some_iff] at hr
  rcases hr with htop | ⟨-, hinner⟩
  · exact ⟨c.top, .inl rfl, htop⟩
  · obtain ⟨x, hx, hfind⟩ := List.exists_of_findSome?_eq_some hinner
    exact ⟨x, (mem_outward_iff hc).mp hx, hfind⟩

/-- **A plain name means something exactly if some scope that is seen declares it.** -/
theorem isSome_resolve_iff (hg : g.Ordered) (hc : c.Rooted g) (h : IsPlain name) :
    (c.resolve g shelf name).isSome = true ↔
      ∃ x, c.Sees g x ∧ (g.lookup shelf name x).isSome = true := by
  constructor
  · intro hsome
    obtain ⟨d, hd⟩ := Option.isSome_iff_exists.mp hsome
    obtain ⟨x, hx, hfind⟩ := exists_sees_of_resolve hg hc h hd
    exact ⟨x, hx, Option.isSome_iff_exists.mpr ⟨d, hfind⟩⟩
  · rintro ⟨x, hx, hsome⟩
    rw [resolve_eq_or hg hc shelf h, Option.isSome_or, Bool.or_eq_true]
    refine .inr (List.findSome?_isSome_iff.mpr ⟨x, (mem_outward_iff hc).mpr hx, hsome⟩)

/-- **A qualified name means a declaration at the end of a path.** -/
theorem exists_path_of_resolve (hg : g.Ordered) (hc : c.Rooted g) (h : ¬ IsPlain name)
    (hr : c.resolve g shelf name = some a) :
    ∃ x, g.Path c.top (nameParts name).1 x ∧ g.lookup shelf (nameParts name).2 x = some a := by
  have hsearch := searches_resolve hg hc shelf name
  rw [hr] at hsearch
  cases hsearch with
  | global hplain | here hplain | upwards hplain => exact absurd hplain h
  | downwards hparts hd =>
    rw [hparts]
    refine hd.exists_path fun x hx => ?_
    rw [List.mem_singleton.mp hx]
    exact .inr ⟨rfl, hc.name⟩

end Cursor

end EvScript
