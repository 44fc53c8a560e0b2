import EvScript.Proofs.Code.Listings
import EvScript.Proofs.Code.Names

/-!
# Listings Can Be Read Back

Two listings with the same text show the same code, although a string can have brackets, commas,
line ends and what looks like further instructions in it. Strings have no apostrophe, names of
commands no bracket and names of labels no line end, so from left to right it is clear where
everything ends.

No reader is needed to say so. A way of printing **decodes** if two texts, each with something
behind it, can be the same only if what was printed corresponds and what stands behind is the same.
Ways of printing that decode are put together from such, up to whole listings.
-/

namespace EvScript

open Registry Number

variable {r r' t u v : List Char} {name text : String}

/-! ### Ways of printing -/

/-- The texts of two ways of printing, with something behind them, are the same only for
corresponding things, and with the same behind them. -/
def Decodes {α β : Type} (P : α → List Char → Prop) (P' : β → List Char → Prop)
    (R : α → β → Prop) (stop : List Char → Prop) : Prop :=
  ∀ ⦃x y t t' r r'⦄, P x t → P' y t' → stop r → stop r' → t ++ r = t' ++ r' → R x y ∧ r = r'

theorem append_inj_of_head {p : Char → Prop} (hu : ∀ c ∈ u, ¬ p c)
    (hv : ∀ c ∈ v, ¬ p c) (hr : ∀ c ∈ r.head?, p c) (hr' : ∀ c ∈ r'.head?, p c)
    (h : u ++ r = v ++ r') : u = v ∧ r = r' := by
  induction u generalizing v with
  | nil =>
    cases v with
    | nil => exact ⟨rfl, h⟩
    | cons d v =>
      have hd : r.head? = some d := by rw [show r = d :: v ++ r' from h]; rfl
      exact absurd (hr d hd) (hv d List.mem_cons_self)
  | cons c u ih =>
    cases v with
    | nil =>
      have hc : r'.head? = some c := by rw [← show c :: u ++ r = r' from h]; rfl
      exact absurd (hr' c hc) (hu c List.mem_cons_self)
    | cons d v =>
      obtain ⟨rfl, hrest⟩ := List.cons.inj h
      obtain ⟨rfl, rfl⟩ := ih (fun c hc => hu c (List.mem_cons_of_mem _ hc))
        (fun c hc => hv c (List.mem_cons_of_mem _ hc)) hrest
      exact ⟨rfl, rfl⟩

theorem append_cons_inj_of_not_mem {mark : Char} (hu : mark ∉ u)
    (hv : mark ∉ v) (h : u ++ mark :: r = v ++ mark :: r') : u = v ∧ r = r' := by
  have hends : ∀ q : List Char, ∀ c ∈ (mark :: q).head?, c = mark :=
    fun q c hc => (Option.some.inj hc).symm
  obtain ⟨huv, hrest⟩ := append_inj_of_head (p := (· = mark)) (fun c hc hp => hu (hp ▸ hc))
    (fun c hc hp => hv (hp ▸ hc)) (hends r) (hends r') h
  exact ⟨huv, (List.cons.inj hrest).2⟩

/-! ### Lists with separators -/

section Lists

variable {α β : Type} {sep : List Char} {P : α → List Char → Prop} {P' : β → List Char → Prop}
  {R : α → β → Prop} {stop fin : List Char → Prop}

/-- The elements of a list, with separators between them. -/
def PrintsList (sep : List Char) (P : α → List Char → Prop) (xs : List α) (t : List Char) : Prop :=
  ∃ ts, List.Forall₂ P xs ts ∧ t = sep.intercalate ts

/-- With the separators, elements end where they should, and a list does not end where a further
element stands. -/
structure Separates (sep : List Char) (P : α → List Char → Prop) (stop fin : List Char → Prop) :
    Prop where
  stop {x : α} {t : List Char} (r : List Char) : P x t → stop (sep ++ t ++ r)
  not_fin_sep {x : α} {t : List Char} (r : List Char) : P x t → ¬ fin (sep ++ t ++ r)
  not_fin {x : α} {t : List Char} (r : List Char) : P x t → ¬ fin (t ++ r)

/-- Further elements, each with a separator in front of it. -/
def further (sep : List Char) : List (List Char) → List Char
  | [] => []
  | t :: ts => sep ++ t ++ further sep ts

theorem intercalate_cons_eq (sep t : List Char) (ts : List (List Char)) :
    sep.intercalate (t :: ts) = t ++ further sep ts := by
  induction ts generalizing t with
  | nil => simp [further, List.intercalate]
  | cons u ts ih =>
    rw [List.intercalate_cons_cons, ih, further, List.append_assoc, List.append_assoc]

theorem Separates.stop_further (h : Separates sep P stop fin) (hstop : ∀ r, fin r → stop r)
    {xs : List α} {ts : List (List Char)} (hts : List.Forall₂ P xs ts)
    (hr : fin r) : stop (further sep ts ++ r) := by
  cases hts with
  | nil => exact hstop r hr
  | cons hx _ =>
    rw [further, List.append_assoc]
    exact h.stop _ hx

theorem Decodes.further (h : Decodes P P' R stop) (hs : Separates sep P stop fin)
    (hs' : Separates sep P' stop fin) (hstop : ∀ r, fin r → stop r) {xs : List α} {ys : List β}
    {ts ts' : List (List Char)} (hts : List.Forall₂ P xs ts) (hts' : List.Forall₂ P' ys ts')
    (hr : fin r) (hr' : fin r')
    (heq : further sep ts ++ r = further sep ts' ++ r') : List.Forall₂ R xs ys ∧ r = r' := by
  induction hts generalizing ys ts' with
  | nil =>
    cases hts' with
    | nil => exact ⟨.nil, heq⟩
    | cons hy _ =>
      rw [EvScript.further, EvScript.further, List.nil_append, List.append_assoc] at heq
      exact absurd (heq ▸ hr) (hs'.not_fin_sep _ hy)
  | cons hx hxs ih =>
    cases hts' with
    | nil =>
      rw [EvScript.further, EvScript.further, List.nil_append, List.append_assoc] at heq
      exact absurd (heq ▸ hr') (hs.not_fin_sep _ hx)
    | cons hy hys =>
      simp only [EvScript.further, List.append_assoc, List.append_cancel_left_eq] at heq
      obtain ⟨hxy, hrest⟩ := h hx hy (hs.stop_further hstop hxs hr)
        (hs'.stop_further hstop hys hr') heq
      obtain ⟨hall, rfl⟩ := ih hys hrest
      exact ⟨.cons hxy hall, rfl⟩

/-- **Lists with separators decode** if their elements do. -/
theorem Decodes.list (h : Decodes P P' R stop) (hs : Separates sep P stop fin)
    (hs' : Separates sep P' stop fin) (hstop : ∀ r, fin r → stop r) :
    Decodes (PrintsList sep P) (PrintsList sep P') (List.Forall₂ R) fin := by
  rintro _ _ _ _ r r' ⟨ts, hts, rfl⟩ ⟨ts', hts', rfl⟩ hr hr' heq
  cases hts with
  | nil =>
    cases hts' with
    | nil => exact ⟨.nil, heq⟩
    | cons hy _ =>
      rw [intercalate_cons_eq, List.append_assoc] at heq
      exact absurd (show r = _ from heq) fun he => hs'.not_fin _ hy (he ▸ hr)
  | cons hx hxs =>
    cases hts' with
    | nil =>
      rw [intercalate_cons_eq, List.append_assoc] at heq
      exact absurd (show _ = r' from heq) fun he => hs.not_fin _ hx (he ▸ hr')
    | cons hy hys =>
      rw [intercalate_cons_eq, intercalate_cons_eq, List.append_assoc, List.append_assoc] at heq
      obtain ⟨hxy, hrest⟩ := h hx hy (hs.stop_further hstop hxs hr)
        (hs'.stop_further hstop hys hr') heq
      obtain ⟨hall, rfl⟩ := h.further hs hs' hstop hxs hys hr hr' hrest
      exact ⟨.cons hxy hall, rfl⟩

end Lists

/-! ### Operands -/

variable {S S' : List String}

/-- The operand is shown as a text. -/
def Operand.Shows (S : List String) (o : Operand) (t : List Char) : Prop :=
  match o.kind with
  | .value => ∃ word text, o.data = some word ∧ printWord word = .ok text ∧ t = text.toList
  | .work => t = '@' :: (nameOrNumber Registry.work o.data).toList
  | .sysFlag => t = '$' :: (nameOrNumber Registry.sysFlag o.data).toList
  | .string => ∃ i text, o.data = some i ∧ entryAt S i = .ok text ∧
      t = '\'' :: (text.toList ++ ['\''])
  | .flag | .command | .macroString => False

/-- Two operands are of the same kind, with the same data for registers and system flags, the same
string for strings and the same printed number for values. -/
def Operand.Agrees (S S' : List String) (o o' : Operand) : Prop :=
  o.kind = o'.kind ∧ match o.kind with
    | .value => ∃ word word' text, o.data = some word ∧ o'.data = some word' ∧
        printWord word = .ok text ∧ printWord word' = .ok text
    | .work | .sysFlag => o.data = o'.data
    | .string => ∃ i i' text, o.data = some i ∧ o'.data = some i' ∧
        entryAt S i = .ok text ∧ entryAt S' i' = .ok text
    | .flag | .command | .macroString => False

theorem Operand.shows_of_print? {o : Operand}
    (h : o.print? S = .ok (some text)) : o.Shows S text.toList := by
  obtain ⟨kind, data⟩ := o
  cases kind with
  | value =>
    cases data with
    | none => cases h
    | some word =>
      simp only [Operand.print?] at h
      split at h
      · cases h
        exact ⟨word, text, rfl, ‹_›, rfl⟩
      · cases h
  | work =>
    cases h
    exact String.toList_append
  | sysFlag =>
    cases h
    exact String.toList_append
  | string =>
    cases data with
    | none => cases h
    | some i =>
      simp only [Operand.print?] at h
      cases hentry : entryAt S i with
      | error e =>
        rw [hentry] at h
        cases h
      | ok s =>
        rw [hentry] at h
        cases h
        exact ⟨i, s, rfl, hentry, by simp⟩
  | flag | command | macroString => cases h

/-- An operand ends at a comma or a bracket. -/
def EndsOperand (r : List Char) : Prop := ∀ c ∈ r.head?, c = ',' ∨ c = ')'

theorem not_isNumeric_of_ends {c : Char} (hc : c = ',' ∨ c = ')') : ¬ IsNumeric c := by
  rcases hc with rfl | rfl <;> simp [IsNumeric]

/-- The kind of an operand whose text begins with a character. -/
def kindOfMark : Char → OperandKind
  | '@' => .work
  | '$' => .sysFlag
  | '\'' => .string
  | _ => .value

theorem kindOfMark_of_isNumeric {c : Char} (h : IsNumeric c) : kindOfMark c = .value := by
  rw [kindOfMark.eq_def]
  split
  · exact absurd h (by simp [IsNumeric])
  · exact absurd h (by simp [IsNumeric])
  · exact absurd h (by simp [IsNumeric])
  · rfl

theorem Operand.Shows.kind {o : Operand} (h : o.Shows S t) :
    ∃ c rest, t = c :: rest ∧ kindOfMark c = o.kind ∧ c ≠ ')' := by
  obtain ⟨kind, data⟩ := o
  cases kind with
  | value =>
    obtain ⟨word, text, -, hword, rfl⟩ := h
    obtain ⟨hne, hall⟩ := isNumeric_of_printWord hword
    obtain ⟨c, rest, hcons⟩ := List.exists_cons_of_ne_nil hne
    have hc : IsNumeric c := hall c (hcons ▸ List.mem_cons_self)
    exact ⟨c, rest, hcons, kindOfMark_of_isNumeric hc, fun hp => not_isNumeric_of_ends (.inr hp) hc⟩
  | work => exact ⟨_, _, h, rfl, by decide⟩
  | sysFlag => exact ⟨_, _, h, rfl, by decide⟩
  | string =>
    obtain ⟨i, text, -, -, rfl⟩ := h
    exact ⟨_, _, rfl, rfl, by decide⟩
  | flag | command | macroString => exact h.elim

/-- No string has an apostrophe in it. -/
def Unquoted (S : List String) : Prop := ∀ s ∈ S, '\'' ∉ s.toList

theorem mem_of_entryAt {i : Int} (h : entryAt S i = .ok text) : text ∈ S := by
  rw [entryAt] at h
  generalize (if i < 0 then i + S.length else i) = j at h
  split at h
  · cases h
  · split at h
    · rename_i s hs
      cases h
      exact List.mem_of_getElem? hs
    · cases h

/-- **Operands decode.** -/
theorem decodes_operand (h : Unquoted S) (h' : Unquoted S') :
    Decodes (Operand.Shows S) (Operand.Shows S') (Operand.Agrees S S') EndsOperand := by
  rintro ⟨kind, data⟩ ⟨kind', data'⟩ t t' r r' ht ht' hr hr' heq
  obtain rfl : kind = kind' := by
    obtain ⟨c, rest, rfl, hc, -⟩ := ht.kind
    obtain ⟨c', rest', rfl, hc', -⟩ := ht'.kind
    exact hc.symm.trans ((List.cons.inj heq).1 ▸ hc')
  cases kind with
  | value =>
    obtain ⟨word, text, hdata, hword, rfl⟩ := ht
    obtain ⟨word', text', hdata', hword', rfl⟩ := ht'
    obtain ⟨htext, rfl⟩ := append_inj_of_head
      (fun c hc hp => not_isNumeric_of_ends hp ((isNumeric_of_printWord hword).2 c hc))
      (fun c hc hp => not_isNumeric_of_ends hp ((isNumeric_of_printWord hword').2 c hc)) hr hr' heq
    rw [← String.toList_inj.mp htext] at hword'
    exact ⟨⟨rfl, word, word', text, hdata, hdata', hword, hword'⟩, rfl⟩
  | work =>
    obtain rfl := ht
    obtain rfl := ht'
    obtain ⟨htext, rfl⟩ := append_inj_of_head
      (fun c hc hp => work_proper.not_mem_nameOrNumber data hp hc)
      (fun c hc hp => work_proper.not_mem_nameOrNumber data' hp hc) hr hr' (List.cons.inj heq).2
    exact ⟨⟨rfl, work_proper.nameOrNumber_inj (String.toList_inj.mp htext)⟩, rfl⟩
  | sysFlag =>
    obtain rfl := ht
    obtain rfl := ht'
    obtain ⟨htext, rfl⟩ := append_inj_of_head
      (fun c hc hp => sysFlag_proper.not_mem_nameOrNumber data hp hc)
      (fun c hc hp => sysFlag_proper.not_mem_nameOrNumber data' hp hc) hr hr' (List.cons.inj heq).2
    exact ⟨⟨rfl, sysFlag_proper.nameOrNumber_inj (String.toList_inj.mp htext)⟩, rfl⟩
  | string =>
    obtain ⟨i, text, hdata, hentry, rfl⟩ := ht
    obtain ⟨i', text', hdata', hentry', rfl⟩ := ht'
    rw [List.cons_append, List.cons_append, List.append_assoc, List.append_assoc] at heq
    -- a string goes on to the next apostrophe, whatever is in it
    obtain ⟨htext, rfl⟩ := append_cons_inj_of_not_mem (h text (mem_of_entryAt hentry))
      (h' text' (mem_of_entryAt hentry')) (List.cons.inj heq).2
    rw [← String.toList_inj.mp htext] at hentry'
    exact ⟨⟨rfl, i, i', text, hdata, hdata', hentry, hentry'⟩, rfl⟩
  | flag | command | macroString => exact ht.elim

/-! ### Instructions -/

/-- The instruction is shown as a text. -/
def Instr.Shows (S : List String) (i : Instr) (t : List Char) : Prop :=
  ∃ name operands, commandName i.command = .ok name ∧
    PrintsList [',', ' '] (Operand.Shows S) i.operands operands ∧
    t = name.toList ++ '(' :: (operands ++ [')'])

/-- Two instructions have the same command, and operands that agree. -/
def Instr.Agrees (S S' : List String) (i i' : Instr) : Prop :=
  i.command = i'.command ∧ List.Forall₂ (Operand.Agrees S S') i.operands i'.operands

theorem bracket_not_mem_commandName {n : Option Int}
    (h : commandName n = .ok name) : '(' ∉ name.toList := by
  cases n with
  | none =>
    cases h
    simp
  | some n =>
    rw [commandName] at h
    cases hname : command.name? n with
    | none =>
      rw [hname] at h
      cases h
    | some a =>
      rw [hname] at h
      cases h
      intro hmem
      have hle := command_proper.le_of_mem hname hmem
      revert hle
      decide

theorem commandName_inj {m n : Option Int} (hm : commandName m = .ok name)
    (hn : commandName n = .ok name) : m = n := by
  have hsome : ∀ {k : Int} {a : String}, commandName (some k) = .ok a →
      command.name? k = some a := by
    intro k a h
    rw [commandName] at h
    split at h
    · cases h
      assumption
    · cases h
  have hempty : ∀ k : Int, commandName (some k) ≠ .ok "" := by
    intro k h
    obtain ⟨b, hb, -⟩ := command_proper.wordy _ (mem_of_name? (hsome h))
    cases hb
  cases m with
  | none =>
    cases hm
    cases n with
    | none => rfl
    | some n => exact absurd hn (hempty n)
  | some m =>
    cases n with
    | none =>
      cases hn
      exact absurd hm (hempty m)
    | some n => exact congrArg some (command_proper.name?_inj (hsome hm) (hsome hn))

/-- Operands are separated by commas, and the bracket behind them is closed. -/
theorem separates_operands :
    Separates [',', ' '] (Operand.Shows S) EndsOperand fun r => r.head? = some ')' where
  stop _ _ _ hc := .inl (Option.some.inj hc).symm
  not_fin_sep _ _ h := by cases h
  not_fin r ht hhead := by
    obtain ⟨c, rest, rfl, -, hc⟩ := ht.kind
    exact hc (Option.some.inj hhead)

/-- **Instructions decode**, whatever stands behind them. -/
theorem decodes_instr (h : Unquoted S) (h' : Unquoted S') :
    Decodes (Instr.Shows S) (Instr.Shows S') (Instr.Agrees S S') fun _ => True := by
  rintro i i' _ _ r r' ⟨name, operands, hname, hoperands, rfl⟩
    ⟨name', operands', hname', hoperands', rfl⟩ - - heq
  rw [List.append_assoc, List.append_assoc, List.cons_append, List.cons_append, List.append_assoc,
    List.append_assoc] at heq
  obtain ⟨htext, hrest⟩ := append_cons_inj_of_not_mem (bracket_not_mem_commandName hname)
    (bracket_not_mem_commandName hname') heq
  rw [← String.toList_inj.mp htext] at hname'
  obtain ⟨hagree, hbehind⟩ := (decodes_operand h h').list separates_operands separates_operands
    (fun r hr c hc => .inr (Option.some.inj (hc.symm.trans hr))) hoperands hoperands' rfl rfl hrest
  exact ⟨⟨commandName_inj hname hname', hagree⟩, (List.cons.inj hbehind).2⟩

/-! ### Labels -/

/-- The line of an instruction: a tab, and the instruction. -/
def Instr.ShowsLine (S : List String) (i : Instr) (t : List Char) : Prop :=
  ∃ u, i.Shows S u ∧ t = '\t' :: u

/-- The name of a label stands on one line, and does not begin like the line of an instruction. -/
def LabelName (name : String) : Prop := '\n' ∉ name.toList ∧ name.toList.head? ≠ some '\t'

/-- The label is shown as a text, under the name with an index. -/
def ShowsLabel (S : List String) (l : Int × List Instr) (t : List Char) : Prop :=
  ∃ name lines, entryAt S l.1 = .ok name ∧ LabelName name ∧
    PrintsList ['\n'] (Instr.ShowsLine S) l.2 lines ∧ t = name.toList ++ ':' :: '\n' :: lines

/-- Two labels have the same name, and instructions that agree. -/
def LabelsAgree (S S' : List String) (l l' : Int × List Instr) : Prop :=
  (∃ name, entryAt S l.1 = .ok name ∧ entryAt S' l'.1 = .ok name) ∧
    List.Forall₂ (Instr.Agrees S S') l.2 l'.2

/-- A label ends with the text, or with a line end behind which no instruction comes. -/
def EndsLabel (r : List Char) : Prop :=
  r = [] ∨ ∃ rest, r = '\n' :: rest ∧ rest.head? ≠ some '\t'

theorem decodes_line (h : Unquoted S) (h' : Unquoted S') :
    Decodes (Instr.ShowsLine S) (Instr.ShowsLine S') (Instr.Agrees S S') fun _ => True := by
  rintro i i' _ _ r r' ⟨u, hu, rfl⟩ ⟨u', hu', rfl⟩ hr hr' heq
  exact decodes_instr h h' hu hu' hr hr' (List.cons.inj heq).2

theorem separates_lines : Separates ['\n'] (Instr.ShowsLine S) (fun _ => True) EndsLabel where
  stop _ _ := trivial
  not_fin_sep r ht hends := by
    obtain ⟨u, -, rfl⟩ := ht
    rcases hends with hnil | ⟨rest, hrest, hhead⟩
    · cases hnil
    · obtain rfl := (List.cons.inj hrest).2
      exact hhead rfl
  not_fin r ht hends := by
    obtain ⟨u, -, rfl⟩ := ht
    rcases hends with hnil | ⟨rest, hrest, -⟩
    · cases hnil
    · exact absurd (List.cons.inj hrest).1 (by decide)

/-- **Labels decode.** -/
theorem decodes_label (h : Unquoted S) (h' : Unquoted S') :
    Decodes (ShowsLabel S) (ShowsLabel S') (LabelsAgree S S') EndsLabel := by
  rintro l l' _ _ r r' ⟨name, lines, hentry, hname, hlines, rfl⟩
    ⟨name', lines', hentry', hname', hlines', rfl⟩ hr hr' heq
  have hline : ∀ {name : String}, LabelName name → '\n' ∉ name.toList ++ [':'] :=
    fun hname hmem => (List.mem_append.mp hmem).elim hname.1 (by simp)
  have hsplit : name.toList ++ [':'] ++ '\n' :: (lines ++ r) =
      name'.toList ++ [':'] ++ '\n' :: (lines' ++ r') := by
    simpa using heq
  obtain ⟨htext, hrest⟩ := append_cons_inj_of_not_mem (hline hname) (hline hname') hsplit
  rw [← String.toList_inj.mp (List.append_cancel_right htext)] at hentry'
  obtain ⟨hagree, rfl⟩ := (decodes_line h h').list separates_lines separates_lines
    (fun _ _ => trivial) hlines hlines' hr hr' hrest
  exact ⟨⟨⟨name, hentry, hentry'⟩, hagree⟩, rfl⟩

theorem ShowsLabel.head {l : Int × List Instr} (h : ShowsLabel S l t) :
    ∃ c rest, t = c :: rest ∧ c ≠ '\t' := by
  obtain ⟨name, lines, -, hname, -, rfl⟩ := h
  cases hlist : name.toList with
  | nil => exact ⟨_, _, rfl, by decide⟩
  | cons c rest => exact ⟨c, _, rfl, fun hc => hname.2 (by rw [hlist, hc]; rfl)⟩

theorem separates_labels : Separates ['\n'] (ShowsLabel S) EndsLabel (· = []) where
  stop r ht := by
    obtain ⟨c, rest, rfl, hc⟩ := ht.head
    exact .inr ⟨_, rfl, fun hhead => hc (Option.some.inj hhead)⟩
  not_fin_sep _ _ h := nomatch h
  not_fin r ht h := by
    obtain ⟨c, rest, rfl, -⟩ := ht.head
    cases h

/-! ### Listings -/

/-- All strings are without apostrophes, the names of labels stand on one line, and all operands are
of kinds that are shown. -/
structure Assembly.Legible (a : Assembly) : Prop where
  unquoted : Unquoted a.strings
  names : ∀ e ∈ a.listing, ∀ name, entryAt a.strings e.1 = .ok name → LabelName name
  kinds : ∀ e ∈ a.listing, ∀ i ∈ e.2.instrs, ∀ o ∈ i.operands,
    o.kind ≠ .command ∧ o.kind ≠ .macroString

/-- Two entries of listings have the same name, and instructions that agree. -/
def EntriesAgree (S S' : List String) (e e' : Nat × Label) : Prop :=
  LabelsAgree S S' (e.1, e.2.instrs) (e'.1, e'.2.instrs)

/-- What is true of the results of single elements is true along a list. -/
theorem forall₂_of_mapM {α β ε : Type} {f : α → Except ε β} {R : α → β → Prop} {l : List α}
    {ys : List β} (h : l.mapM f = .ok ys) (hf : ∀ x ∈ l, ∀ y, f x = .ok y → R x y) :
    List.Forall₂ R l ys := by
  replace h := mapM_eq_ok_iff.mp h
  induction h with
  | nil => exact .nil
  | cons hx _ ih =>
    obtain ⟨hfirst, hrest⟩ := List.forall_mem_cons.mp hf
    exact .cons (hfirst _ hx) (ih hrest)

theorem forall₂_shows_of_print? {os : List Operand} {shown : List (Option String)}
    (h : List.Forall₂ (fun o text => o.print? S = .ok text) os shown)
    (hkinds : ∀ o ∈ os, o.kind ≠ .command ∧ o.kind ≠ .macroString) :
    List.Forall₂ (Operand.Shows S) os ((shown.filterMap id).map String.toList) := by
  induction h with
  | nil => exact .nil
  | @cons o text os shown ho _ ih =>
    obtain ⟨hkind, hrest⟩ := List.forall_mem_cons.mp hkinds
    cases text with
    | some text => exact .cons (Operand.shows_of_print? ho) (ih hrest)
    | none =>
      obtain ⟨kind, data⟩ := o
      cases kind with
      | value =>
        cases data with
        | none => cases ho
        | some word =>
          simp only [Operand.print?] at ho
          split at ho <;> cases ho
      | string =>
        cases data with
        | none => cases ho
        | some i =>
          simp only [Operand.print?] at ho
          cases hentry : entryAt S i <;> rw [hentry] at ho <;> cases ho
      | work | sysFlag | flag => cases ho
      | command => exact absurd rfl hkind.1
      | macroString => exact absurd rfl hkind.2

theorem shows_of_instr_print {i : Instr} (h : i.print S = .ok text)
    (hkinds : ∀ o ∈ i.operands, o.kind ≠ .command ∧ o.kind ≠ .macroString) :
    i.Shows S text.toList := by
  rw [Instr.print] at h
  cases hoperands : i.operands.mapM (Operand.print? S) with
  | error e =>
    rw [hoperands] at h
    cases h
  | ok shown =>
    cases hname : commandName i.command with
    | error e =>
      rw [hoperands, hname] at h
      cases h
    | ok name =>
      rw [hoperands, hname] at h
      cases h
      refine ⟨name, _, hname, ⟨_, forall₂_shows_of_print? (mapM_eq_ok_iff.mp hoperands) hkinds,
        rfl⟩, ?_⟩
      simp [String.toList_intercalate]

theorem showsLabel_of_printLabel {index : Int} {is : List Instr}
    (h : printLabel S index is = .ok text)
    (hkinds : ∀ i ∈ is, ∀ o ∈ i.operands, o.kind ≠ .command ∧ o.kind ≠ .macroString)
    (hlabel : ∀ name, entryAt S index = .ok name → LabelName name) :
    ShowsLabel S (index, is) text.toList := by
  rw [printLabel] at h
  cases hlines : is.mapM (Instr.print S) with
  | error e =>
    rw [hlines] at h
    cases h
  | ok lines =>
    cases hname : entryAt S index with
    | error e =>
      rw [hlines, hname] at h
      cases h
    | ok name =>
      rw [hlines, hname] at h
      cases h
      have hshown : List.Forall₂ (Instr.ShowsLine S) is
          ((lines.map ("\t" ++ ·)).map String.toList) := by
        rw [List.map_map, List.forall₂_map_right_iff]
        refine forall₂_of_mapM hlines fun i hi line hline => ?_
        exact ⟨line.toList, shows_of_instr_print hline (hkinds i hi), by simp⟩
      refine ⟨name, _, hname, hlabel name hname, ⟨_, hshown, rfl⟩, ?_⟩
      simp [String.toList_intercalate]

theorem Assembly.Legible.printsList {a : Assembly} (h : a.Legible) (hprint : a.print = .ok text) :
    PrintsList ['\n'] (ShowsLabel a.strings) (a.listing.map fun e => ((e.1 : Int), e.2.instrs))
      text.toList := by
  rw [Assembly.print, printListing] at hprint
  cases htexts : (a.listing.map fun e => ((e.1 : Int), e.2.instrs)).mapM
      fun l => printLabel a.strings l.1 l.2 with
  | error e =>
    rw [htexts] at hprint
    cases hprint
  | ok texts =>
    rw [htexts] at hprint
    cases hprint
    refine ⟨texts.map String.toList, ?_, by simp [String.toList_intercalate]⟩
    rw [List.forall₂_map_right_iff]
    refine forall₂_of_mapM htexts fun l hl text htext => ?_
    obtain ⟨e, he, rfl⟩ := List.mem_map.mp hl
    exact showsLabel_of_printLabel htext (h.kinds e he) (h.names e he)

/-- **Legible code with the same listing is the same**, as far as listings show. -/
theorem Assembly.Legible.agree {a b : Assembly} (ha : a.Legible) (hb : b.Legible)
    (hprint : a.print = .ok text) (hprint' : b.print = .ok text) :
    List.Forall₂ (EntriesAgree a.strings b.strings) a.listing b.listing := by
  have hlist := (decodes_label ha.unquoted hb.unquoted).list separates_labels separates_labels
    (fun r hr => .inl hr) (ha.printsList hprint) (hb.printsList hprint') rfl rfl rfl
  have hagree := hlist.1
  rwa [List.forall₂_map_left_iff, List.forall₂_map_right_iff] at hagree

end EvScript
