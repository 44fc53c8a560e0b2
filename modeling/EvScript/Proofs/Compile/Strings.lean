import EvScript.Proofs.Code.Decoding
import EvScript.Proofs.Code.Families
import EvScript.Proofs.Compile.Uses
import EvScript.Proofs.Compile.Works

/-!
# Strings without Apostrophes

The table of strings is filled from the strings among the arguments of calls, the names of functions
with those made up for children, and the words for comparators. A string comes into the table
without its two apostrophes and has none inside, and neither have names and words. Labels have names
that are **unbroken**: there are no line ends, tabs or apostrophes in them.
-/

namespace EvScript

open CompileM Assembly Vocabulary

variable {name s text : String} {w : List Char} {a : Assembly}

/-! ### Characters of words -/

/-- There is neither a line end nor a tab nor an apostrophe in the text. -/
def Unbroken (s : String) : Prop := ∀ c ∈ s.toList, c ≠ '\n' ∧ c ≠ '\t' ∧ c ≠ '\''

theorem unbroken_of_all
    (h : s.toList.all (fun c => c != '\n' && c != '\t' && c != '\'') = true) : Unbroken s := by
  intro c hc
  simpa [and_assoc] using List.all_eq_true.mp h c hc

theorem Unbroken.append {t : String} (hs : Unbroken s) (ht : Unbroken t) : Unbroken (s ++ t) := by
  intro c hc
  rw [String.toList_append] at hc
  exact (List.mem_append.mp hc).elim (hs c) (ht c)

/-- Words of the classes of strings and names have the spellings of these. -/
theorem isWord_of_names {cls : LexClass} (h : Names vocabulary w cls) :
    (cls = .token .string → IsString w) ∧ (cls = .token .name → IsName w) := by
  obtain ⟨s, hs, hcls, hword⟩ := h.exists_spelling
  simp only [vocabulary, List.mem_append, List.mem_map, List.mem_cons, List.not_mem_nil,
    or_false] at hs
  rcases hs with ⟨m, -, rfl⟩ | ((rfl | rfl | rfl | rfl | rfl | rfl | rfl) | ⟨k, -, rfl⟩) | rfl |
    ⟨k, -, rfl⟩ | rfl | rfl
  all_goals constructor <;> intro hkind <;> first | exact hword | cases hcls.trans hkind

/-- **Strings come into the code without apostrophes.** -/
theorem not_mem_unquote_of_spelt {literal : String} (h : Spelt (.string, literal)) :
    '\'' ∉ (unquote literal).toList := by
  rcases h with h | h | h
  · rw [show literal = "<missing <INVALID>>" from h]
    decide
  · cases h
  · obtain ⟨body, hbody, hw⟩ := (isWord_of_names h).1 rfl
    rw [unquote, String.toList_ofList, show literal.toList = _ from hw]
    simpa using hbody

/-- **Names are unbroken.** -/
theorem unbroken_of_spelt (h : Spelt (.name, name)) : Unbroken name := by
  rcases h with h | h | h
  · rw [show name = "<missing Identifier>" from h]
    exact unbroken_of_all (by decide)
  · cases h
  · obtain ⟨c, cs, hw, hc, hcs⟩ := (isWord_of_names h).2 rfl
    intro d hd
    have hd : Lexicon.isNameStart d = true ∨ Lexicon.isDigit d = true := by
      rw [show name.toList = c :: cs from hw] at hd
      rcases List.mem_cons.mp hd with rfl | hd
      · exact .inl hc
      · exact hcs d hd
    -- the three characters begin no name and are no digits
    refine ⟨?_, ?_, ?_⟩
    all_goals
      rintro rfl
      exact absurd hd (by decide)

theorem unbroken_functionLabel {kind : Option FunctionKind} (h : Unbroken name) :
    Unbroken (functionLabel kind name) := by
  rw [functionLabel]
  split
  · exact h
  · exact (unbroken_of_all (by decide)).append h

theorem unbroken_toString (n : Nat) : Unbroken (toString n) := by
  intro c hc
  have hdigit := Number.isDigit_of_mem_repr (show c ∈ n.repr.toList from hc)
  refine ⟨?_, ?_, ?_⟩
  all_goals
    rintro rfl
    exact absurd hdigit (by decide)

theorem unbroken_childName {parent : String} (h : Unbroken parent) (i : Nat) :
    Unbroken (childName parent i) :=
  (((unbroken_of_all (by decide)).append h).append (unbroken_of_all (by decide))).append
    (unbroken_toString i)

/-! ### Steps that keep apostrophes out -/

/-- The strings of the file under way. -/
def CompileState.strings (s : CompileState) : List String := s.file.code.strings

instance : Overlooks CompileState.strings where
  log _ _ := rfl
  printed _ _ := rfl
  unseen _ _ := rfl
  errors _ _ _ := rfl

instance : OverlooksLocals CompileState.strings := ⟨fun _ _ => rfl⟩

variable {α β : Type} {s t : CompileState}
variable {m : CompileM α}

/-- If the step comes to an end, and there were no apostrophes in the table, there still are none.
-/
def KeepsUnquoted (m : CompileM α) : Prop :=
  ∀ s a t, Yields m s a t → Unquoted s.strings → Unquoted t.strings

namespace KeepsUnquoted

theorem of_keeps (h : Keeps CompileState.strings m) : KeepsUnquoted m :=
  fun _ _ _ hy hs => h.yields hy ▸ hs

theorem pure (a : α) : KeepsUnquoted (Pure.pure a : CompileM α) := .of_keeps (.pure a)

theorem throw (e : Fault) : KeepsUnquoted (throw e : CompileM α) := .of_keeps (.throw e)

/-- What comes next may rely on having a value that the first step can come to. -/
theorem bind {f : α → CompileM β} (hm : KeepsUnquoted m)
    (hf : ∀ a s t, Yields m s a t → KeepsUnquoted (f a)) : KeepsUnquoted (m >>= f) := by
  intro s b u h hs
  obtain ⟨a, t, ha, hb⟩ := h.bind
  exact hf a s t ha t b u hb (hm s a t ha hs)

end KeepsUnquoted

/-! ### Code -/

theorem unquoted_intern (h : Unquoted a.strings)
    (htext : '\'' ∉ text.toList) : Unquoted (a.intern text).2.strings := by
  rw [Assembly.intern]
  split
  · exact h
  · intro u hu
    rcases List.mem_append.mp hu with hu | hu
    · exact h u hu
    · rwa [List.mem_singleton.mp hu]

theorem keepsUnquoted_intern (htext : '\'' ∉ text.toList) : KeepsUnquoted (intern text) := by
  intro s i t h hs
  obtain ⟨-, rfl⟩ := h.onCode
  exact unquoted_intern hs htext

theorem Unbroken.not_mem (h : Unbroken text) : '\'' ∉ text.toList :=
  fun hmem => (h _ hmem).2.2 rfl

/-- The effects that bring no apostrophes into the table. -/
def Unquoting : Effect → Prop
  | .intern text => '\'' ∉ text.toList
  | _ => True

theorem CompileM.DoesOnly.keepsUnquoted (h : DoesOnly Unquoting m) : KeepsUnquoted m := by
  induction h with
  | pure a => exact .pure a
  | throw => exact .throw _
  | bind _ _ hm hf => exact hm.bind hf
  | place pos => exact .of_keeps (keeps_place pos)
  | resolve shelf name => exact .of_keeps (keeps_resolve shelf name)
  | tell message => exact .of_keeps (keeps_tell _ message)
  | stopWith message => exact .of_keeps (keeps_stopWith message)
  | printLine line => exact .of_keeps (keeps_printLine line)
  | errors => exact .of_keeps (.modify fun s => Overlooks.errors s _ _)
  | intern h => exact keepsUnquoted_intern h
  | returnIndex c => exact .of_keeps (keeps_returnIndex c)
  | allocateLocal type pos => exact .of_keeps (keeps_allocateLocal type pos)

theorem not_mem_childName (h : Unquoted a.strings) (p : LabelId) (i : Nat) :
    '\'' ∉ (childName (a.strings[(a.label p).name]?.getD "") i).toList := by
  have hparent : '\'' ∉ (a.strings[(a.label p).name]?.getD "").toList := by
    cases hname : a.strings[(a.label p).name]? with
    | none => decide
    | some name => exact h name (List.mem_of_getElem? hname)
  have hnumber := (unbroken_toString i).not_mem
  simp only [childName, String.toList_append, List.mem_append, not_or]
  exact ⟨⟨⟨by decide, hparent⟩, by decide⟩, hnumber⟩

theorem keepsUnquoted_newChild (l : LabelId) : KeepsUnquoted (newChild l) := by
  intro s x t h hs
  obtain ⟨-, rfl⟩ := h.onCode
  exact unquoted_intern hs (not_mem_childName hs l _)

theorem keepsUnquoted_leaveScope : KeepsUnquoted leaveScope := by
  intro s u t h hs
  rwa [CompileState.strings, yields_leaveScope_code h]

/-! ### Bodies -/

theorem not_mem_comparatorWord {word : String} (h : comparatorWord text = some word) :
    '\'' ∉ word.toList := by
  unfold comparatorWord at h
  split at h
  all_goals
    cases h
    try decide

theorem bodies_unquoting : Effect.Bodies Unquoting :=
  ⟨trivial, trivial, fun _ _ => not_mem_comparatorWord⟩

theorem permits_of_spelt {ws : List (Kind × String)} (h : ∀ w ∈ ws, Spelt w) :
    ∀ w ∈ ws, Permits Unquoting w := by
  rintro w hw literal rfl
  exact not_mem_unquote_of_spelt (h _ hw)

theorem Works.keepsUnquoted (h : Works Unquoting m) : KeepsUnquoted m := by
  induction h with
  | does h => exact h.keepsUnquoted
  | bind _ _ hm hf => exact hm.bind hf
  | newChild l => exact keepsUnquoted_newChild l
  | target l => exact .of_keeps (keeps_target l)
  | emit | jump | onGraph | enterScope => exact .of_keeps fun _ => rfl
  | leaveScope => exact keepsUnquoted_leaveScope

/-! ### Functions and files -/

theorem keepsUnquoted_compileFunction {f : FunctionDecl} (h : ∀ w ∈ f.words, Spelt w) :
    KeepsUnquoted (compileFunction f) := by
  rw [FunctionDecl.words, List.forall_mem_append] at h
  obtain ⟨hname, hbody⟩ := h
  rw [compileFunction_eq]
  refine KeepsUnquoted.bind (fun s head t hy hs => ?_) fun head _ _ _ =>
    (works_compileBlock bodies_unquoting _ _ f.body (permits_of_spelt hbody)).keepsUnquoted.bind
      fun _ _ _ _ => .pure _
  obtain ⟨name, _, _, hf, -, -, -, rfl⟩ := yields_beginFunction hy
  have hspelt : Spelt (.name, name) := hname _ (by simp [hf])
  exact unquoted_intern hs (unbroken_functionLabel (unbroken_of_spelt hspelt)).not_mem

variable {fs : Files} {importer : Importer} {mode : ReadMode} {path : String}

theorem keepsUnquoted_importByName (hk : KeepsFile importer) {name : Option String} {pos : Pos} :
    KeepsUnquoted (importByName fs importer name pos) := by
  intro s r t hy hs
  rwa [CompileState.strings, hk.importByName hy]

mutual

theorem keepsUnquoted_compileEntry (hk : KeepsFile importer) : ∀ e : Entry,
    (∀ w ∈ e.words, Spelt w) → KeepsUnquoted (compileEntry fs importer e)
  | .define d, h => by
    rw [Entry.words] at h
    rw [compileEntry]
    exact (works_define bodies_unquoting .top (fun _ => trivial)
      (permits_of_spelt h)).keepsUnquoted.bind fun _ _ _ _ => .pure _
  | .command d, _ => by
    rw [compileEntry]
    intro s _ t hy hs
    obtain ⟨_, _, _, rfl⟩ := yields_declareCommand hy
    exact hs
  | .function f, h => by
    rw [Entry.words] at h
    rw [compileEntry]
    exact keepsUnquoted_compileFunction h
  | .importAll name pos, _ => by
    rw [compileEntry]
    exact (keepsUnquoted_importByName hk).bind fun _ _ _ _ => .of_keeps fun _ => rfl
  | .importFrom name everything pos, _ => by
    rw [compileEntry]
    refine (keepsUnquoted_importByName hk).bind fun _ _ _ _ => ?_
    cases everything with
    | none => exact .of_keeps (keeps_stop _ _)
    | some all =>
      cases all with
      | false => exact .throw _
      | true => exact .of_keeps fun _ => rfl
  | .space name entries, h => by
    rw [Entry.words] at h
    rw [compileEntry]
    exact KeepsUnquoted.bind (.of_keeps (keeps_need _ _)) fun _ _ _ _ =>
      (Works.enterScope _).keepsUnquoted.bind fun _ _ _ _ =>
      (keepsUnquoted_compileEntries hk entries h).bind fun _ _ _ _ => keepsUnquoted_leaveScope
  | .inert _, _ => by
    rw [compileEntry]
    exact .pure _

theorem keepsUnquoted_compileEntries (hk : KeepsFile importer) : ∀ es : List Entry,
    (∀ w ∈ entriesWords es, Spelt w) → KeepsUnquoted (compileEntries fs importer es)
  | [], _ => by
    rw [compileEntries]
    exact .pure _
  | e :: es, h => by
    rw [entriesWords, List.forall_mem_append] at h
    rw [compileEntries]
    exact (keepsUnquoted_compileEntry hk e h.1).bind fun _ _ _ _ =>
      keepsUnquoted_compileEntries hk es h.2

end

theorem spelt_of_loadProgram {tree : Tree} (h : Yields (loadProgram fs mode path) s tree t) :
    ∀ w ∈ entriesWords tree.entries, Spelt w := by
  intro w hw
  replace hw := tree.entries_words hw
  obtain ⟨_, text, -, ⟨p, hp, rfl⟩ | rfl⟩ := exists_text_of_loadProgram h
  · exact spelt_of_readProgram hp w hw
  · exact spelt_of_mendRule _ _ w hw

/-- **There are no apostrophes in the table** of a script that is compiled to the end. -/
theorem unquoted_of_compileScript (hok : (compileScript fs mode path).ended = .ok ()) :
    Unquoted (compileScript fs mode path).state.file.code.strings := by
  have h := compileScript_ended_iff.mp hok
  rw [compileFile_succ] at h
  obtain ⟨tree, u, hload, h⟩ := h.bind
  have hu : Unquoted u.strings :=
    KeepsUnquoted.of_keeps (keeps_loadProgram fs mode path) _ _ _ hload nofun
  exact keepsUnquoted_compileEntries (keepsFile_fileImporter fs mode _) tree.entries
    (spelt_of_loadProgram hload) _ _ _ h hu

/-! ### Names of labels -/

mutual

theorem words_of_mem_entryVisits : ∀ (e : Entry) (s : CompileState),
    ∀ v ∈ entryVisits fs importer e s, v.1.words ⊆ e.words
  | .function f, s, v, hv => by
    rw [entryVisits] at hv
    rw [List.mem_singleton.mp hv, Entry.words]
    exact List.Subset.refl _
  | .space name entries, s, v, hv => by
    rw [entryVisits] at hv
    rw [Entry.words]
    exact words_of_mem_visits entries _ v hv
  | .define _, _, _, hv | .command _, _, _, hv | .importAll _ _, _, _, hv
  | .importFrom _ _ _, _, _, hv | .inert _, _, _, hv => by cases hv

/-- The functions that a compilation comes to have words of the entries only. -/
theorem words_of_mem_visits : ∀ (es : List Entry) (s : CompileState),
    ∀ v ∈ visits fs importer es s, v.1.words ⊆ entriesWords es
  | [], _, _, hv => by cases hv
  | e :: es, s, v, hv => by
    rw [visits] at hv
    rw [entriesWords]
    rcases List.mem_append.mp hv with hv | hv
    · exact List.subset_append_of_subset_left _ (words_of_mem_entryVisits e s v hv)
    · exact List.subset_append_of_subset_right _ (words_of_mem_visits es _ v hv)

end

theorem spelt_of_mem_scriptVisits {v : FunctionDecl × CompileState}
    (hv : v ∈ scriptVisits fs mode path) : ∀ w ∈ v.1.words, Spelt w := by
  rw [scriptVisits] at hv
  split at hv
  · rename_i tree u hload
    intro w hw
    exact spelt_of_loadProgram hload w (words_of_mem_visits _ _ v hv hw)
  · cases hv

/-- What is true of given names, and of the names of children if it is true of those of their
parents, is true of all names. -/
theorem Assembly.Family.forall_text {P : String → Prop} {os : List Origin}
    (h : Family a os) (hgiven : ∀ name ∈ os.filterMap Origin.given, P name)
    (hchild : ∀ parent i, P parent → P (childName parent i)) :
    ∀ x, x < a.labels.size → P (a.text x) := by
  intro x
  -- parents come before their children
  induction x using Nat.strongRecOn with
  | ind x ih =>
    intro hx
    obtain ⟨o, ho⟩ : ∃ o, os[x]? = some o := ⟨_, List.getElem?_eq_getElem (h.size.symm ▸ hx)⟩
    have hstems := h.stems x o ho
    have hmem := List.mem_of_getElem? ho
    cases o with
    | root name =>
      rw [show a.text x = name from hstems]
      exact hgiven name (List.mem_filterMap.mpr ⟨_, hmem, rfl⟩)
    | child p i =>
      obtain ⟨hp, -, htext⟩ := hstems
      rw [htext]
      exact hchild _ i (ih p hp (Nat.lt_trans hp hx))

/-- **The names of labels are unbroken.** -/
theorem unbroken_text_of_compileScript (hok : (compileScript fs mode path).ended = .ok ()) :
    ∀ x, x < (compileScript fs mode path).state.file.code.labels.size →
      Unbroken ((compileScript fs mode path).state.file.code.text x) := by
  obtain ⟨t, hlaw, hcode, hstretch⟩ := exists_record fs mode path
  have hfamily : Family (compileScript fs mode path).state.file.code (origins .empty t) :=
    hcode ▸ family_replay hlaw
  refine hfamily.forall_text (fun name hname => ?_) fun parent i hparent =>
    unbroken_childName hparent i
  rw [filterMap_given_origins, (hstretch hok).names] at hname
  obtain ⟨v, hv, hlabel⟩ := List.mem_filterMap.mp hname
  have hspelt := spelt_of_mem_scriptVisits hv
  rw [FunctionDecl.labelName] at hlabel
  obtain ⟨n, hn, rfl⟩ := Option.map_eq_some_iff.mp hlabel
  exact unbroken_functionLabel (unbroken_of_spelt (hspelt _ (by simp [FunctionDecl.words, hn])))

end EvScript
