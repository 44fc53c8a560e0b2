import EvScript.Proofs.Compile.Origins

/-!
# Which Registers Variables Get

A declaration may name the register of its variable. If it names none, a register is given out: the
parameters of type `int` get the registers for parameters, and the variables of a body those for
locals. Which of them are named elsewhere is not looked at. So a register that is given out is the
storage of another variable exactly if the declaration of that variable names it.

## Main results

* `storage_shared_iff` — when a register that is given out is the storage of another variable.
-/

namespace EvScript

open CompileM Registry

variable {r : Int} {source source' : Source} {p : Param} {i : Nat} {pos : Pos} {number : Option Int}
  {a : Arrival}

/-! ### Giving out registers in their order -/

section Dealt

variable {α : Type} {order : List Int} {wants : α → Bool} {l : List α} {i j : Nat} {r : Int}

/-- The registers of an order are given out to the elements of a list that want one, in turn. This
is what the element at a place gets. -/
def dealt (order : List Int) (wants : α → Bool) (l : List α) (i : Nat) : Option Int :=
  if (l[i]?).any wants then order[(l.take i).countP wants]? else none

theorem mem_of_dealt (h : dealt order wants l i = some r) : r ∈ order := by
  unfold dealt at h
  split at h
  · exact List.mem_of_getElem? h
  · cases h

theorem countP_take_lt (hi : (l[i]?).any wants = true) (hij : i < j) :
    (l.take i).countP wants < (l.take j).countP wants := by
  obtain ⟨a, ha, hwants⟩ := (Option.any_eq_true _ _).mp hi
  have hstep : (l.take (i + 1)).countP wants = (l.take i).countP wants + 1 := by
    rw [List.take_add_one, ha]
    simp [hwants]
  have hmono : (l.take (i + 1)).countP wants ≤ (l.take j).countP wants :=
    (List.take_sublist_take_left hij).countP_le
  omega

/-- **No register is given out twice.** -/
theorem dealt_inj (horder : order.Nodup) (h : dealt order wants l i = some r)
    (h' : dealt order wants l j = some r) : i = j := by
  unfold dealt at h h'
  split at h
  · rename_i hi
    split at h'
    · rename_i hj
      obtain ⟨hlt, -⟩ := List.getElem?_eq_some_iff.mp h
      have hcount := (List.getElem?_inj hlt horder).mp (h.trans h'.symm)
      rcases Nat.lt_trichotomy i j with hlt | heq | hgt
      · have := countP_take_lt hi hlt
        omega
      · exact heq
      · have := countP_take_lt hj hgt
        omega
    · cases h'
  · cases h

end Dealt

/-! ### Declarations that want a register -/

/-- The definition is not constant and names no number. -/
def Definition.automatic (d : Definition) : Bool := !d.isConst && d.number.isNone

/-- The statement defines a variable that wants a register. -/
def Arrival.automatic (a : Arrival) : Bool :=
  match a.statement with
  | .define d => d.automatic
  | _ => false

/-- The parameter is an `int` and names no number. -/
def Param.automatic (p : Param) : Bool :=
  p.read.toOption.any fun q => q.storage.isNone && q.type = .integer

/-- The register that is given out to a declaration. Outside of functions there are none. -/
def Source.register? (f : FunctionDecl) (V : List Arrival) : Source → Option Int
  | .parameter i => dealt parameterRegisters Param.automatic (f.params.getD []) i
  | .body i => dealt localRegisters Arrival.automatic V i
  | .outside _ => none

theorem mem_localRegisters : r ∈ localRegisters ↔ 0 ≤ r ∧ r < 32 := by
  simp only [localRegisters, List.mem_map, List.mem_range]
  constructor
  · rintro ⟨n, hn, rfl⟩
    simp only [Int.ofNat_eq_natCast]
    omega
  · rintro ⟨h0, h32⟩
    exact ⟨r.toNat, by omega, by simp [h0]⟩

theorem mem_parameterRegisters :
    r ∈ parameterRegisters ↔ r = 238 ∨ r = 239 ∨ r = 240 ∨ r = 241 := by
  simp [parameterRegisters]

/-- **No register is given out to two declarations.** -/
theorem Source.register?_inj {f : FunctionDecl} {V : List Arrival}
    (h : source.register? f V = some r) (h' : source'.register? f V = some r) :
    source = source' := by
  have hparameter : parameterRegisters.Nodup := by decide
  have hlocal : localRegisters.Nodup := by decide
  cases source with
  | parameter i =>
    cases source' with
    | parameter j => rw [dealt_inj hparameter h h']
    | body j =>
      have := mem_parameterRegisters.mp (mem_of_dealt h)
      have := mem_localRegisters.mp (mem_of_dealt h')
      omega
    | outside d => cases h'
  | body i =>
    cases source' with
    | parameter j =>
      have := mem_localRegisters.mp (mem_of_dealt h)
      have := mem_parameterRegisters.mp (mem_of_dealt h')
      omega
    | body j => rw [dealt_inj hlocal h h']
    | outside d => cases h'
  | outside d => cases h

theorem Source.register?_ne_answer (f : FunctionDecl) (V : List Arrival) (source : Source) :
    source.register? f V ≠ some answerRegister := by
  intro h
  cases source with
  | parameter i =>
    have := mem_parameterRegisters.mp (mem_of_dealt h)
    simp [answerRegister] at this
  | body i =>
    have := mem_localRegisters.mp (mem_of_dealt h)
    simp [answerRegister] at this
  | outside d => cases h

/-! ### Parameters -/

theorem Param.number_of_read {q : Parameter} (h : p.read = .ok q) : p.number = q.storage := by
  rw [Param.number, h]
  rfl

theorem Param.automatic_of_read {q : Parameter} (h : p.read = .ok q) :
    p.automatic = (q.storage.isNone && q.type = .integer) := by
  rw [Param.automatic, h]
  rfl

/-- What a parameter gets after some registers were given out, and what is given out then. -/
theorem toVariable_eq (q : Parameter) (given : List Int) :
    (q.toVariable given).1.storage = q.storage.or
      (if q.storage.isNone && q.type = .integer then parameterRegisters[given.length]? else none) ∧
    ((q.toVariable given).2.length = given.length +
        (if q.storage.isNone && q.type = .integer then 1 else 0) ∨
      parameterRegisters.length ≤ given.length ∧ (q.toVariable given).2 = given) := by
  unfold Parameter.toVariable
  cases hstorage : q.storage with
  | some n => simp
  | none =>
    unfold allocateParameter nextRegister
    by_cases htype : q.type = .integer
    · cases hnext : parameterRegisters[given.length]? with
      | some r => simp [htype]
      | none => simp [htype, List.getElem?_eq_none_iff.mp hnext]
    · simp [htype]

/-- **The storage of a parameter** is the number that it names, or the next register for parameters.
Once all of them are given out, none is left for the parameters behind. -/
theorem storage_of_parameterVariables {ps : List Param} {given : List Int} {vs : List Variable}
    (h : parameterVariables ps given = .ok vs) {v : Variable}
    (hp : ps[i]? = some p) (hv : vs[i]? = some v) :
    v.storage = p.number.or (if p.automatic then
      parameterRegisters[given.length + (ps.take i).countP Param.automatic]? else none) := by
  induction ps generalizing given vs i with
  | nil => cases hp
  | cons p₀ ps ih =>
    obtain ⟨q, ws, hq, hws, rfl⟩ := parameterVariables_cons h
    obtain ⟨hstorage, hgiven⟩ := toVariable_eq q given
    cases i with
    | zero =>
      obtain rfl := Option.some.inj hp
      obtain rfl := Option.some.inj hv
      simpa [Param.number_of_read hq, Param.automatic_of_read hq] using hstorage
    | succ i =>
      rw [ih hws (by simpa using hp) (by simpa using hv), List.take_succ_cons, List.countP_cons,
        Param.automatic_of_read hq]
      rcases hgiven with hlength | ⟨hfull, hsame⟩
      · rw [hlength]
        congr 3
        omega
      · rw [hsame, List.getElem?_eq_none (by omega), List.getElem?_eq_none (by omega)]

/-! ### Locals -/

variable {fs : Files} {mode : ReadMode} {path : String} {f : FunctionDecl} {V W : List Arrival}
  {s t u : CompileState} {d : Definition} {v : Variable} {is : List Instr}

/-- The registers for locals that have been given out in the current function. -/
def CompileState.locals (s : CompileState) : List Int := s.file.locals

instance : OverlooksCode CompileState.locals where
  log _ _ := rfl
  printed _ _ := rfl
  unseen _ _ := rfl
  errors _ _ _ := rfl
  code _ _ := rfl

theorem yields_allocateLocal {type : ValueType} (h : Yields (allocateLocal type pos) s r t) :
    type = .integer ∧ localRegisters[s.locals.length]? = some r ∧ t.locals = s.locals ++ [r] := by
  unfold allocateLocal at h
  dsimp only at h
  split at h
  · rw [stop_bind] at h
    exact h.stop.elim
  · rename_i htype
    replace h := h.get_bind
    split at h
    · rename_i r' hnext
      obtain ⟨_, _, hmodify, h⟩ := h.bind
      obtain rfl := hmodify.modify
      obtain ⟨rfl, rfl⟩ := h.pure
      exact ⟨not_not.mp htype, hnext, rfl⟩
    · exact h.stop.elim

/-- Outside of functions no storage is given out. -/
theorem Defines.storage_top (h : Defines .top d s v is t) : v.storage = d.number := by
  have hstorage : ∀ {type : ValueType} {storage : Option Int} {t : CompileState},
      Yields (storageFor .top type d.pos d.number) s storage t → storage = d.number := by
    intro type storage t h
    cases hnumber : d.number with
    | some n =>
      rw [hnumber] at h
      exact h.pure.1.symm
    | none =>
      rw [hnumber] at h
      obtain ⟨_, _, -, h⟩ := h.bind
      obtain ⟨_, _, -, h⟩ := h.bind
      exact h.pure.1.symm
  cases h with
  | constant _ _ _ => rfl
  | bare _ _ h => exact hstorage h
  | valued _ _ h _ => exact hstorage h

/-- A storage for a variable of a body is the number that is named, or the next register. -/
theorem yields_storageFor_body {type : ValueType} {storage : Option Int}
    (h : Yields (storageFor .body type pos number) s storage t) :
    (number.isSome = true ∧ storage = number ∧ t.locals = s.locals) ∨
      (number = none ∧ type = .integer ∧ storage.isSome = true ∧
        storage = localRegisters[s.locals.length]? ∧ t.locals.length = s.locals.length + 1) := by
  cases number with
  | some n =>
    obtain ⟨rfl, rfl⟩ := h.pure
    exact .inl ⟨rfl, rfl, rfl⟩
  | none =>
    obtain ⟨r, hr, rfl⟩ := h.bind_pure
    obtain ⟨htype, hnext, hlocals⟩ := yields_allocateLocal hr
    exact .inr ⟨rfl, htype, rfl, hnext.symm, by simp [hlocals]⟩

/-- What a definition in a body does to the registers for locals. -/
inductive Allots (d : Definition) (v : Variable) (s t : CompileState) : Prop where
  /-- The definition is constant or names a number, and takes no register. -/
  | kept : d.automatic = false → v.storage = d.number →
      (d.number = none → v.constant.isSome = true) → t.locals = s.locals → Allots d v s t
  /-- An `int` gets the next register. -/
  | next : d.automatic = true → v.constant = none → v.type = .integer → v.storage.isSome = true →
      v.storage = localRegisters[s.locals.length]? → t.locals.length = s.locals.length + 1 →
      Allots d v s t

/-- The storage of a variable that is not constant, whatever is done with it afterwards. -/
theorem allots_of_storageFor (hconst : d.isConst = false) (hv : v.constant = none)
    (h : Yields (storageFor .body v.type d.pos d.number) s v.storage u) (ht : t.locals = u.locals) :
    Allots d v s t := by
  rcases yields_storageFor_body h with
    ⟨hnumber, hstorage, hlocals⟩ | ⟨hnumber, htype, hsome, hstorage, hlocals⟩
  · refine .kept ?_ hstorage (fun hnone => ?_) (ht.trans hlocals)
    · simp [Definition.automatic, Option.isNone_eq_false_iff.mpr hnumber]
    · simp [hnone] at hnumber
  · exact .next (by simp [Definition.automatic, hconst, hnumber]) hv htype hsome hstorage
      (ht ▸ hlocals)

theorem Defines.allots (h : Defines .body d s v is t) : Allots d v s t := by
  cases h with
  | constant hconst _ hc =>
    exact .kept (by simp [Definition.automatic, hconst]) rfl (fun _ => rfl)
      ((keeps_constantOf _ _).yields hc)
  | bare hconst _ h => exact allots_of_storageFor hconst rfl h rfl
  | valued hconst _ h hi =>
    exact allots_of_storageFor hconst rfl h ((keeps_compileAssigned _ _ _).yields hi)

/-- From `s` to `t`, each of the arrivals that want a register has taken one. -/
def TakesLocals (V : List Arrival) (s t : CompileState) : Prop :=
  t.locals.length = s.locals.length + V.countP Arrival.automatic

namespace TakesLocals

theorem of_eq (hV : V.countP Arrival.automatic = 0) (h : t.locals = s.locals) :
    TakesLocals V s t := by
  rw [TakesLocals, h, hV, Nat.add_zero]

theorem append (h : TakesLocals V s t) (h' : TakesLocals W t u) : TakesLocals (V ++ W) s u := by
  unfold TakesLocals at *
  rw [List.countP_append]
  omega

end TakesLocals

theorem locals_of_enterScope {scope : Scope} (h : Yields (enterScope scope) s () t) :
    t.locals = s.locals := by
  rw [← h.modify]
  rfl

theorem locals_of_leaveScope (h : Yields leaveScope s () t) : t.locals = s.locals := by
  replace h := h.get_bind
  split at h
  · rw [← h.modify]
    rfl
  · exact (keeps_tell _ _).yields h

theorem takesLocals_leaf {l last : LabelId} {x : Statement} (hx : x.isLeaf = true)
    (h : Yields (compileStatement pos l x) s last t) : TakesLocals [⟨l, x, s⟩] s t := by
  cases x with
  | define d =>
    obtain ⟨v, is, u, hv, rfl⟩ := yields_compileStatement_define h
    cases (defines_of_yields hv).allots with
    | kept hauto _ _ hlocals => exact .of_eq (by simp [Arrival.automatic, hauto]) hlocals
    | next hauto _ _ _ _ hlocals =>
      rw [TakesLocals, List.countP_singleton, Arrival.automatic, if_pos hauto]
      exact hlocals
  | assign a => exact .of_eq rfl ((keeps_compileStatement_assign _ _ a).yields h)
  | call c => exact .of_eq rfl ((keeps_compileStatement_call _ _ c).yields h)
  | inert rule =>
    rw [compileStatement] at h
    obtain ⟨-, rfl⟩ := h.pure
    exact .of_eq rfl rfl
  | branch _ _ _ _ => cases hx
  | select _ _ _ => cases hx

/-- **In a body, the registers for locals are taken by the definitions that want one.** -/
theorem bodyInvariant_takesLocals : BodyInvariant TakesLocals TakesLocals where
  nil := .of_eq rfl rfl
  append := .append
  leaf hx _ hy := takesLocals_leaf hx hy
  branch _ hy := .of_eq rfl ((keeps_openBranch _ _).yields hy)
  select _ hy := .of_eq rfl ((keeps_openSelect _ _ _).yields hy)
  case _ hy := .of_eq rfl ((keeps_openCase _ _ _).yields hy)
  jump _ hy := .of_eq rfl ((keeps_onCode _).yields hy)
  block hy h hleave := by
    rw [TakesLocals, locals_of_leaveScope hleave, ← locals_of_enterScope hy]
    exact h
  here := .of_eq rfl rfl
  behind := .append
  enter hy h := by
    rw [TakesLocals, ← locals_of_enterScope hy]
    exact h

theorem eq_append_cons (ha : V[i]? = some a) : V = V.take i ++ a :: V.drop (i + 1) := by
  obtain ⟨hlt, hget⟩ := List.getElem?_eq_some_iff.mp ha
  rw [← hget, List.getElem_cons_drop, List.take_append_drop]

/-- Where the compilation comes to the statement at a place of a body, the definitions in front of
it have their registers. -/
theorem length_locals (ha : (bodyArrivals f t)[i]? = some a) :
    a.state.locals.length = ((bodyArrivals f t).take i).countP Arrival.automatic := by
  obtain ⟨name, parameters, result, s₁, henter, htaken, -⟩ :=
    bodyInvariant_takesLocals.arrival (eq_append_cons ha)
  rw [TakesLocals, locals_of_enterScope henter] at htaken
  simpa [CompileState.locals, CompileState.openFunction] using htaken

/-! ### Storages -/

/-- What a body defines: a variable that has the storage that its definition names or is constant,
or an `int` that gets a register. -/
theorem Declared.of_body (hv : Declared fs mode f (bodyArrivals f t) (.body i) number v) :
    ((Source.body i).register? f (bodyArrivals f t) = none ∧ v.storage = number ∧
        (number = none → v.constant.isSome = true)) ∨
      (number = none ∧ v.constant = none ∧ v.type = .integer ∧ v.storage.isSome = true ∧
        v.storage = (Source.body i).register? f (bodyArrivals f t)) := by
  cases hv with
  | @body i a d v ha hd hv =>
    obtain ⟨⟨_, is⟩, hresult, rfl⟩ := Option.map_eq_some_iff.mp hv
    obtain ⟨u, hyields⟩ := result?_eq_some_iff.mp hresult
    have hregister : (Source.body i).register? f (bodyArrivals f t) =
        if d.automatic then localRegisters[a.state.locals.length]? else none := by
      simp [Source.register?, dealt, ha, Arrival.automatic, hd, length_locals ha]
    rw [hregister]
    cases (defines_of_yields hyields).allots with
    | kept hauto hstorage hconstant _ => exact .inl ⟨by simp [hauto], hstorage, hconstant⟩
    | next hauto hconstant htype hsome hstorage _ =>
      refine .inr ⟨?_, hconstant, htype, hsome, by simpa [hauto] using hstorage⟩
      simpa using (Bool.and_eq_true_iff.mp hauto).2

/-- **The storage of a variable** is the number that its declaration names, or the register that is
given out to it. -/
theorem Declared.storage_eq (hv : Declared fs mode f (bodyArrivals f t) source number v) :
    v.storage = number.or (source.register? f (bodyArrivals f t)) := by
  cases source with
  | parameter i =>
    cases hv with
    | parameter hp hvs hv =>
      rw [storage_of_parameterVariables hvs hp hv]
      simp [Source.register?, dealt, hp]
  | body i =>
    rcases hv.of_body with ⟨hnone, hstorage, -⟩ | ⟨rfl, -, -, -, hstorage⟩
    · simp [hnone, hstorage]
    · simp [hstorage]
  | outside d =>
    cases hv with
    | outside hd hv => simpa [Source.register?] using hv.storage_top

/-- **Storages that are shared are named.** -/
theorem Declared.named_of_shared {number' : Option Int} {v' : Variable}
    (hne : source ≠ source') (hv : Declared fs mode f (bodyArrivals f t) source number v)
    (hv' : Declared fs mode f (bodyArrivals f t) source' number' v') (hr : v.storage = some r)
    (hr' : v'.storage = some r) : number = some r ∨ number' = some r := by
  rw [hv.storage_eq] at hr
  rw [hv'.storage_eq] at hr'
  cases number with
  | some n => exact .inl hr
  | none =>
    cases number' with
    | some n => exact .inr hr'
    | none => exact absurd (Source.register?_inj hr hr') hne

theorem mem_scriptArrivals (hf : (f, t) ∈ scriptVisits fs mode path)
    (ha : a ∈ bodyArrivals f t) : a ∈ scriptArrivals fs mode path :=
  List.mem_flatMap.mpr ⟨(f, t), hf, ha⟩

theorem operand_mem_registersAt (hok : (compileScript fs mode path).ended = .ok ())
    (ha : a ∈ scriptArrivals fs mode path) {w : Use} (hw : w ∈ a.uses) :
    w.operand ∈ (compileScript fs mode path).state.file.code.registersAt a.label := by
  rw [((registers_of_script hok).1 a.label).mem_iff]
  exact List.mem_map_of_mem (mem_usesAt.mpr ⟨a, ha, rfl, hw⟩)

/-- **A register that is given out belongs to another variable exactly if that one names it.** In a
function of a script that is compiled to the end, every variable that a name means is declared by a
parameter, by a statement of the body or outside of functions. A variable has the number that its
declaration names as its storage, and a local that names none and is not constant is an `int` and
has one of the 32 registers for locals. The storage of a variable that names none is the storage of
another one exactly if the declaration of the other one names it.

So what an assignment or a definition writes to is the register of another variable only if the
declaration of one of the two names it; that both do is not needed. -/
theorem storage_shared_iff (fs : Files) (mode : ReadMode) (path : String)
    (hok : (compileScript fs mode path).ended = .ok ()) (f : FunctionDecl) (t : CompileState)
    (hf : (f, t) ∈ scriptVisits fs mode path) :
    ∃ V, V = bodyArrivals f t ∧
    (∀ a ∈ V, ∀ name v, a.state.meaning? name = some v →
      ∃ source number, Declared fs mode f V source number v) ∧
    (∀ source n v, Declared fs mode f V source (some n) v → v.storage = some n) ∧
    (∀ i v, Declared fs mode f V (.body i) none v → v.constant = none →
      v.type = .integer ∧ ∃ r, v.storage = some r ∧ 0 ≤ r ∧ r < 32) ∧
    (∀ source source' number' v v' r, source ≠ source' → Declared fs mode f V source none v →
      Declared fs mode f V source' number' v' → v.storage = some r →
      (v'.storage = some r ↔ number' = some r)) ∧
    ∀ a ∈ V, ∀ w ∈ a.uses, ∀ v r, w = .given v ∨ w = .filled v → w.operand = ⟨.work, some r⟩ →
      w.operand ∈ (compileScript fs mode path).state.file.code.registersAt a.label ∧
      ∃ source number, Declared fs mode f V source number v ∧
        ∀ source' number' v', source ≠ source' → Declared fs mode f V source' number' v' →
          v'.storage = some r → number = some r ∨ number' = some r := by
  refine ⟨_, rfl, fun a ha name v => exists_declared_of_meaning hok hf ha, fun source n v hv => ?_,
    fun i v hv hconstant => ?_,
    fun source source' number' v v' r hne hv hv' hr => ⟨fun hr' => ?_, ?_⟩,
    fun a ha w hw v r hwritten hoperand => ?_⟩
  · simpa using hv.storage_eq
  · rcases hv.of_body with ⟨-, -, hconst⟩ | ⟨-, -, htype, hsome, hstorage⟩
    · simp [hconstant] at hconst
    · obtain ⟨r, hr⟩ := Option.isSome_iff_exists.mp hsome
      exact ⟨htype, r, hr, mem_localRegisters.mp (mem_of_dealt (hstorage ▸ hr))⟩
  · simpa using hv.named_of_shared hne hv' hr hr'
  · rintro rfl
    simpa using hv'.storage_eq
  · have hused : w.used? = some v := by rcases hwritten with rfl | rfl <;> rfl
    obtain ⟨source, number, hv⟩ := exists_declared_of_use hok hf ha hw hused
    refine ⟨operand_mem_registersAt hok (mem_scriptArrivals hf ha) hw, source, number, hv,
      fun source' number' v' hne hv' hr' => ?_⟩
    have hdata := congrArg Operand.data hoperand
    cases hstorage : v.storage with
    | some n =>
      obtain rfl : n = r := by
        rcases hwritten with rfl | rfl <;> simpa [Use.operand, hstorage] using hdata
      exact hv.named_of_shared hne hv' hstorage hr'
    | none =>
      -- then the answer register is written to, which is not given out
      obtain rfl : answerRegister = r := by
        rcases hwritten with rfl | rfl
        · simp [Use.operand, hstorage] at hdata
        · simpa [Use.operand, hstorage] using hdata
      rw [hv'.storage_eq] at hr'
      cases number' with
      | some n => exact .inr hr'
      | none => exact absurd hr' (Source.register?_ne_answer f _ source')

/-- A function with a local that names the first register, and one that names none. -/
def aliasFiles : Files :=
  ⟨[("alias.evc", "function f()\x7bint x:0;int y;x=1;y=2;\x7d".toUTF8)]⟩

/-- What a statement defines, and the number that it names. -/
def Arrival.declares? (a : Arrival) : Option (Variable × Option Int) :=
  match a.statement with
  | .define d => (a.state.defined? d).map (·, d.number)
  | _ => none

theorem declared_of_declares? (ha : V[i]? = some a)
    (hv : a.declares? = some (v, number)) : Declared fs mode f V (.body i) number v := by
  unfold Arrival.declares? at hv
  split at hv
  · rename_i d hd
    obtain ⟨w, hw, heq⟩ := Option.map_eq_some_iff.mp hv
    cases heq
    exact .body ha hd hw
  · cases hv

set_option maxRecDepth 100000 in
/-- The second local gets the register that the first one names. -/
theorem local_gets_named_register :
    ∃ f t x y, (f, t) ∈ scriptVisits aliasFiles .strict "alias.evc" ∧
      Declared aliasFiles .strict f (bodyArrivals f t) (.body 0) (some 0) x ∧
      Declared aliasFiles .strict f (bodyArrivals f t) (.body 1) none y ∧
      x.name = "x" ∧ y.name = "y" ∧ x.storage = some 0 ∧ y.storage = some 0 := by
  have hcheck : (compileScript aliasFiles .strict "alias.evc").endsWith (fun _ =>
      (scriptVisits aliasFiles .strict "alias.evc").any fun v =>
        ((bodyArrivals v.1 v.2)[0]?.bind Arrival.declares?).any (fun x =>
          x.1.name = "x" && x.2 = some 0) &&
        ((bodyArrivals v.1 v.2)[1]?.bind Arrival.declares?).any (fun y =>
          y.1.name = "y" && y.1.storage = some 0 && y.2 = none)) = true := by
    decide +kernel
  obtain ⟨state, hscript, hany⟩ := Outcome.eq_of_endsWith hcheck
  obtain ⟨⟨f, t⟩, hf, hlocals⟩ := List.any_eq_true.mp hany
  simp only [Bool.and_eq_true, Option.any_eq_true, Option.bind_eq_some_iff, decide_eq_true_eq]
    at hlocals
  obtain ⟨⟨⟨x, _⟩, ⟨a, ha, hx⟩, hxname, rfl⟩, ⟨y, _⟩, ⟨b, hb, hy⟩, ⟨hyname, hr⟩, rfl⟩ := hlocals
  obtain ⟨V, rfl, -, -, -, hshared, -⟩ := storage_shared_iff aliasFiles .strict "alias.evc"
    (congrArg Outcome.ended hscript) f t hf
  have hfirst : Declared aliasFiles .strict f (bodyArrivals f t) (.body 0) (some 0) x :=
    declared_of_declares? ha hx
  have hsecond : Declared aliasFiles .strict f (bodyArrivals f t) (.body 1) none y :=
    declared_of_declares? hb hy
  exact ⟨f, t, x, y, hf, hfirst, hsecond, hxname, hyname,
    (hshared _ _ _ y x 0 (by simp) hsecond hfirst hr).mpr rfl, hr⟩

end EvScript
