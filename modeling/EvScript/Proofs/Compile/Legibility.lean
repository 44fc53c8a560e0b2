import EvScript.Proofs.Compile.Listable
import EvScript.Proofs.Compile.Strings

/-!
# Scripts with the Same Listing

If two scripts are compiled to the end and have listings with the same text, they have labels with
the same names in the same order, and under each label the same commands, with operands of the same
kinds that stand for the same things. That no text stands in the way of this follows from how
scripts are read and compiled (`EvScript.Proofs.Compile.Strings`).

## Main results

* `entriesAgree_of_print_eq` — the text of a listing determines the code.
-/

namespace EvScript

open CompileM Assembly Registry

variable {fs : Files} {mode : ReadMode} {path : String}

/-! ### Kinds of operands -/

/-- The operand is of a kind that listings leave out. -/
def Operand.Hidden (o : Operand) : Prop := o.kind = .command ∨ o.kind = .macroString

theorem Operand.Settled.not_hidden {o : Operand} (h : o.Settled) : ¬ o.Hidden := by
  rintro (hkind | hkind) <;> simp [Operand.Settled, hkind] at h

theorem Operand.Holds.not_hidden {o : Operand} {l : Number.Literal} (h : o.Holds l) :
    ¬ o.Hidden := by
  obtain ⟨word, rfl, -⟩ := h
  rintro (hkind | hkind) <;> cases hkind

/-- No statement leaves an operand of such a kind. -/
theorem tells_hidden {known : Option Int → Prop} :
    Tells known (fun i => ∃ o ∈ i.operands, o.Hidden) fun _ _ => False where
  leaves {x s is} _ hleaves := by
    refine iff_of_false (fun ⟨i, hi, o, ho, hhidden⟩ => ?_) not_false
    rcases (embeds_of_leaves hleaves).bears.operand o (List.mem_flatMap.mpr ⟨i, hi, ho⟩) with
      hsettled | ⟨l, -, hold⟩
    · exact hsettled.not_hidden hhidden
    · exact hold.not_hidden hhidden
  jump there := by
    simp [Instr.jumpTo, Operand.Hidden, Operand.ofString]
  case there _ _ := by
    simp [caseInstr, Operand.Hidden, Operand.ofString]

/-! ### Legible code -/

theorem Unbroken.labelName {name : String} (h : Unbroken name) : LabelName name := by
  refine ⟨fun hmem => (h _ hmem).1 rfl, fun hhead => ?_⟩
  exact (h _ (List.mem_of_mem_head? hhead)).2.1 rfl

/-- **The code of a script that is compiled to the end is legible.** -/
theorem legible_of_compileScript (hok : (compileScript fs mode path).ended = .ok ()) :
    (compileScript fs mode path).state.file.code.Legible := by
  obtain ⟨t, hlaw, hcode, -⟩ := exists_record fs mode path
  have hconsistent : (compileScript fs mode path).state.file.code.Consistent :=
    hcode ▸ consistent_empty.replay hlaw
  refine ⟨unquoted_of_compileScript hok, fun e he name hname => ?_, fun e he i hi o ho => ?_⟩
  · obtain ⟨⟨index, x⟩, hx, rfl⟩ := List.mem_map.mp he
    obtain ⟨hlt, hindex⟩ := hconsistent.entry _ hx
    have htext := unbroken_text_of_compileScript hok x hlt
    dsimp only at hlt hindex hname
    have hbelow := hconsistent.name_lt x hlt
    rw [← hindex, entryAt_of_lt hbelow] at hname
    rw [Assembly.text, List.getElem?_eq_getElem hbelow, Option.getD_some,
      Except.ok.inj hname] at htext
    exact htext.labelName
  · obtain ⟨⟨index, x⟩, -, rfl⟩ := List.mem_map.mp he
    have hnone := (marks_of_script tells_hidden hok x).not.mpr (by simp)
    have hshown : ¬ o.Hidden := fun hhidden => hnone ⟨i, hi, o, ho, hhidden⟩
    exact not_or.mp hshown

/-- **A listing says what the code is.** If two scripts are compiled to the end and have listings
with the same text, they have labels of the same names in the same order. Under each label there are
instructions with the same commands, and with equally many operands, which are of the same kinds:
the same registers and system flags, the same strings, and values that are printed as the same
number. -/
theorem entriesAgree_of_print_eq (fs fs' : Files) (mode mode' : ReadMode) (path path' : String)
    (code code' : Assembly) (text : String)
    (hok : (compileScript fs mode path).ended = .ok ())
    (hok' : (compileScript fs' mode' path').ended = .ok ())
    (hcode : code = (compileScript fs mode path).state.file.code)
    (hcode' : code' = (compileScript fs' mode' path').state.file.code)
    (hprint : code.print = .ok text) (hprint' : code'.print = .ok text) :
    List.Forall₂ (EntriesAgree code.strings code'.strings) code.listing code'.listing := by
  subst hcode hcode'
  exact (legible_of_compileScript hok).agree (legible_of_compileScript hok') hprint hprint'

/-- Two scripts that have the same listing. In the second a function is lost to a later one of the
same name, and its string has come into the table first. -/
def echoFiles : Files :=
  ⟨[("one.evc", "command c(str s):5;function f()\x7bc('a');c('b');\x7d".toUTF8),
    ("two.evc", ("command c(str s):5;namespace n\x7bfunction f()\x7bc('b');\x7d\x7d" ++
      "function f()\x7bc('a');c('b');\x7d").toUTF8)]⟩

/-- The listing of both. -/
def echoText : String := "_f:\n\t_LD_REG_VAL('a')\n\t_LD_REG_VAL('b')"

/-- The table and the listing are as given. -/
def Assembly.reads (a : Assembly) (strings : List String) (text : String) : Bool :=
  a.strings == strings && match a.print with
    | .ok shown => shown == text
    | .error _ => false

theorem Assembly.eq_of_reads {a : Assembly} {strings : List String} {text : String}
    (h : a.reads strings text = true) : a.strings = strings ∧ a.print = .ok text := by
  rw [Assembly.reads, Bool.and_eq_true, beq_iff_eq] at h
  obtain ⟨hstrings, h⟩ := h
  split at h
  · rename_i shown hprint
    exact ⟨hstrings, hprint.trans (congrArg Except.ok (beq_iff_eq.mp h))⟩
  · cases h

set_option maxRecDepth 100000 in
/-- The strings of the two scripts have different indices, and the listings are the same. -/
theorem echoes_agree : ∃ state state',
    compileScript echoFiles .strict "one.evc" = ⟨.ok (), state⟩ ∧
    compileScript echoFiles .strict "two.evc" = ⟨.ok (), state'⟩ ∧
    state.file.code.strings = ["_f", "a", "b"] ∧ state'.file.code.strings = ["_f", "b", "a"] ∧
    state.file.code.print = .ok echoText ∧
    List.Forall₂ (EntriesAgree state.file.code.strings state'.file.code.strings)
      state.file.code.listing state'.file.code.listing := by
  have hone : (compileScript echoFiles .strict "one.evc").endsWith (fun state =>
      state.file.code.reads ["_f", "a", "b"] echoText) = true := by
    decide +kernel
  have htwo : (compileScript echoFiles .strict "two.evc").endsWith (fun state =>
      state.file.code.reads ["_f", "b", "a"] echoText) = true := by
    decide +kernel
  obtain ⟨state, hscript, hreads⟩ := Outcome.eq_of_endsWith hone
  obtain ⟨state', hscript', hreads'⟩ := Outcome.eq_of_endsWith htwo
  obtain ⟨hstrings, hprint⟩ := Assembly.eq_of_reads hreads
  obtain ⟨hstrings', hprint'⟩ := Assembly.eq_of_reads hreads'
  exact ⟨state, state', hscript, hscript', hstrings, hstrings', hprint,
    entriesAgree_of_print_eq echoFiles echoFiles .strict .strict "one.evc" "two.evc" _ _ _
      (congrArg Outcome.ended hscript) (congrArg Outcome.ended hscript')
      (congrArg (·.state.file.code) hscript).symm (congrArg (·.state.file.code) hscript').symm
      hprint hprint'⟩

end EvScript
