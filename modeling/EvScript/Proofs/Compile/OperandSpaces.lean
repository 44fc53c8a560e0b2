import EvScript.Proofs.Compile.Registers

/-!
# What Register Operands Stand for

Work registers, flags and system flags are three spaces of numbers. The compiler writes down the
storage of a variable without a look, so a variable without one leaves an operand without a number;
and it asks for the type in some places only, so another variable or a constant may be taken for a
work register. Both are described here exactly. Flags and system flags are never confused.

## Main results

* `operand_without_number_iff` — which register operands have no number.
* `operand_in_space_iff` — which of them are in the space they are listed in.
-/

namespace EvScript

open CompileM Registry

variable {fs : Files} {mode : ReadMode} {path : String} {f : FunctionDecl} {V : List Arrival}
  {s t : CompileState} {d : Definition} {v : Variable} {is : List Instr} {source : Source}
  {number : Option Int} {w : Use}

/-! ### Variables without a storage -/

theorem exists_toVariable {ps : List Param} {given : List Int} {vs : List Variable}
    (h : parameterVariables ps given = .ok vs) {i : Nat} {p : Param} (hp : ps[i]? = some p)
    (hv : vs[i]? = some v) : ∃ q before, p.read = .ok q ∧ v = (q.toVariable before).1 := by
  induction ps generalizing given vs i with
  | nil => cases hp
  | cons p₀ ps ih =>
    obtain ⟨q, ws, hq, hws, rfl⟩ := parameterVariables_cons h
    cases i with
    | zero =>
      obtain rfl := Option.some.inj hp
      exact ⟨q, given, hq, (Option.some.inj hv).symm⟩
    | succ i => exact ih hws (by simpa using hp) (by simpa using hv)

/-- A declaration that names no number leaves its variable without a storage: a parameter that is no
`int` or has four registers given out in front of it, a constant, and everything outside of
functions. -/
def Source.Bare (f : FunctionDecl) (v : Variable) : Source → Prop
  | .parameter i => v.type ≠ .integer ∨ 4 ≤ ((f.params.getD []).take i).countP Param.automatic
  | .body _ => v.constant.isSome = true
  | .outside _ => True

/-- **Which variables have no storage.** -/
theorem Declared.storage_eq_none_iff (hv : Declared fs mode f (bodyArrivals f t) source number v) :
    v.storage = none ↔ number = none ∧ source.Bare f v := by
  cases source with
  | parameter i =>
    rw [hv.storage_eq, Option.or_eq_none_iff, and_congr_right_iff]
    intro hnumber
    cases hv with
    | @parameter _ p _ _ hp hvs hv =>
      obtain ⟨q, before, hq, rfl⟩ := exists_toVariable hvs hp hv
      rw [Param.number_of_read hq] at hnumber
      have hfour : parameterRegisters.length = 4 := rfl
      by_cases htype : q.type = .integer
      · simp [Source.register?, dealt, hp, Param.automatic_of_read hq, hnumber, htype,
          Source.Bare, Parameter.toVariable, hfour]
      · simp [Source.register?, dealt, hp, Param.automatic_of_read hq, hnumber, htype,
          Source.Bare, Parameter.toVariable]
  | body i =>
    rcases hv.of_body with ⟨-, hstorage, hconstant⟩ | ⟨-, hconstant, -, hsome, -⟩
    · rw [hstorage]
      exact ⟨fun hnone => ⟨hnone, hconstant hnone⟩, And.left⟩
    · rw [Source.Bare, hconstant]
      simpa using Option.isSome_iff_ne_none.mp hsome
  | outside d =>
    rw [hv.storage_eq]
    simp [Source.register?, Source.Bare]

theorem Use.data_eq_none_iff :
    w.operand.data = none ↔ ∃ v, w.used? = some v ∧ w ≠ .filled v ∧ v.storage = none := by
  cases w <;> simp [Use.operand, Use.used?]

/-! ### Constants -/

theorem Defines.type_of_constant {level : Level} (h : Defines level d s v is t)
    (hc : v.constant.isSome = true) : v.type = .integer ∨ v.type = .boolean := by
  cases h with
  | constant _ _ hvalue => exact type_of_constantOf hvalue
  | bare _ _ _ => cases hc
  | valued _ _ _ _ => cases hc

/-- Constants are numbers or truth values. -/
theorem Declared.type_of_constant (hv : Declared fs mode f V source number v)
    (hc : v.constant.isSome = true) : v.type = .integer ∨ v.type = .boolean := by
  cases hv with
  | parameter hp hvs hv =>
    obtain ⟨q, before, -, rfl⟩ := exists_toVariable hvs hp hv
    cases hc
  | body _ _ hv =>
    obtain ⟨⟨_, is⟩, hresult, rfl⟩ := Option.map_eq_some_iff.mp hv
    obtain ⟨u, hyields⟩ := result?_eq_some_iff.mp hresult
    exact (defines_of_yields hyields).type_of_constant hc
  | outside _ hv => exact hv.type_of_constant hc

theorem exists_visit_of_mem {a : Arrival} (ha : a ∈ scriptArrivals fs mode path) :
    ∃ f t, (f, t) ∈ scriptVisits fs mode path ∧ a ∈ bodyArrivals f t := by
  obtain ⟨⟨f, t⟩, hf, ha⟩ := List.mem_flatMap.mp ha
  exact ⟨f, t, hf, ha⟩

theorem type_of_constant_of_use (hok : (compileScript fs mode path).ended = .ok ()) {a : Arrival}
    (ha : a ∈ scriptArrivals fs mode path) (hw : w ∈ a.uses) (hv : w.used? = some v)
    (hc : v.constant.isSome = true) : v.type = .integer ∨ v.type = .boolean := by
  obtain ⟨f, t, hf, ha⟩ := exists_visit_of_mem ha
  obtain ⟨source, number, hdeclared⟩ := exists_declared_of_use hok hf ha hw hv
  exact hdeclared.type_of_constant hc

/-- The uses of constants that are not refused. -/
theorem Use.Proper.form_of_constant (h : w.Proper) (hv : w.used? = some v)
    (hc : v.constant.isSome = true) (htype : v.type = .integer ∨ v.type = .boolean) :
    w = .given v ∨ w = .filled v ∨ w = .switched v := by
  cases w with
  | given u => exact .inl (congrArg Use.given (Option.some.inj hv))
  | filled u => exact .inr (.inl (congrArg Use.filled (Option.some.inj hv)))
  | switched u => exact .inr (.inr (congrArg Use.switched (Option.some.inj hv)))
  | passed u =>
    obtain rfl := Option.some.inj hv
    simp [h.1] at hc
  | compared u =>
    obtain rfl := Option.some.inj hv
    simp [h.1] at hc
  | asked u =>
    obtain rfl := Option.some.inj hv
    rcases h with h | h <;> simp [h] at htype
  | answer => cases hv

/-- **Where the code has operands without a number.** In a script that is compiled to the end, the
register operands under a label are those of the uses there. One of them has no number exactly if a
statement there uses, otherwise than to take a result, a variable whose declaration names no number
and leaves it bare: a constant, a variable outside of functions, or a parameter that is no `int` or
stands behind four others that got a register. Of constants, only giving them a value, filling them
with a result and switching on them gets so far. -/
theorem operand_without_number_iff (fs : Files) (mode : ReadMode) (path : String)
    (hok : (compileScript fs mode path).ended = .ok ()) :
    ∃ code, code = (compileScript fs mode path).state.file.code ∧
    (∀ x, (code.registersAt x).Perm ((usesAt (scriptArrivals fs mode path) x).map Use.operand)) ∧
    (∀ x, (∃ o ∈ code.registersAt x, o.data = none) ↔
      ∃ f t, (f, t) ∈ scriptVisits fs mode path ∧ ∃ a ∈ bodyArrivals f t, a.label = x ∧
        ∃ w ∈ a.uses, ∃ v, w.used? = some v ∧ w ≠ .filled v ∧
          ∃ source, Declared fs mode f (bodyArrivals f t) source none v ∧ source.Bare f v) ∧
    ∀ a ∈ scriptArrivals fs mode path, ∀ w ∈ a.uses, ∀ v, w.used? = some v →
      v.constant.isSome = true → w = .given v ∨ w = .filled v ∨ w = .switched v := by
  obtain ⟨hregisters, hproper⟩ := registers_of_script hok
  refine ⟨_, rfl, hregisters, fun x => ⟨?_, ?_⟩, fun a ha w hw v hv hc => ?_⟩
  · rintro ⟨o, ho, hdata⟩
    obtain ⟨w, hw, rfl⟩ := List.mem_map.mp ((hregisters x).mem_iff.mp ho)
    obtain ⟨a, ha, hlabel, hw⟩ := mem_usesAt.mp hw
    obtain ⟨f, t, hf, ha⟩ := exists_visit_of_mem ha
    obtain ⟨v, hv, hne, hstorage⟩ := Use.data_eq_none_iff.mp hdata
    obtain ⟨source, number, hdeclared⟩ := exists_declared_of_use hok hf ha hw hv
    obtain ⟨rfl, hbare⟩ := hdeclared.storage_eq_none_iff.mp hstorage
    exact ⟨f, t, hf, a, ha, hlabel, w, hw, v, hv, hne, source, hdeclared, hbare⟩
  · rintro ⟨f, t, hf, a, ha, rfl, w, hw, v, hv, hne, source, hdeclared, hbare⟩
    have hstorage := hdeclared.storage_eq_none_iff.mpr ⟨rfl, hbare⟩
    exact ⟨w.operand, operand_mem_registersAt hok (mem_scriptArrivals hf ha) hw,
      Use.data_eq_none_iff.mpr ⟨v, hv, hne, hstorage⟩⟩
  · exact (hproper a ha w hw).form_of_constant hv hc (type_of_constant_of_use hok ha hw hv hc)

/-- A function with five parameters of type `int`, of which the last one is given a value. -/
def fifthFiles : Files :=
  ⟨[("fifth.evc", "function f(int a,int b,int c,int d,int e)\x7be=1;\x7d".toUTF8)]⟩

set_option maxRecDepth 100000 in
/-- The value goes to a register without a number, for want of a fifth register for parameters. -/
theorem fifth_parameter_without_number :
    (∃ o ∈ (compileScript fifthFiles .strict "fifth.evc").state.file.code.registersAt 0,
      o.kind = .work ∧ o.data = none) ∧
    ∃ f t, (f, t) ∈ scriptVisits fifthFiles .strict "fifth.evc" ∧ ∃ a ∈ bodyArrivals f t,
      ∃ v, .given v ∈ a.uses ∧ v.name = "e" ∧ v.type = .integer ∧
        ∃ source, Declared fifthFiles .strict f (bodyArrivals f t) source none v ∧
          source.Bare f v := by
  have hcheck : (compileScript fifthFiles .strict "fifth.evc").endsWith (fun state =>
      (state.file.code.registersAt 0).any (fun o => o.kind = .work && o.data = none) &&
      (scriptArrivals fifthFiles .strict "fifth.evc").all fun a => a.uses.all fun w =>
        w.used?.any fun v => w = .given v && v.name = "e" && v.type = .integer) = true := by
    decide +kernel
  obtain ⟨state, hscript, hstate⟩ := Outcome.eq_of_endsWith hcheck
  obtain ⟨code, hcode, -, hiff, -⟩ := operand_without_number_iff fifthFiles .strict "fifth.evc"
    (congrArg Outcome.ended hscript)
  rw [← hcode]
  rw [hscript] at hcode
  subst hcode
  simp only [Bool.and_eq_true, List.any_eq_true, List.all_eq_true, Option.any_eq_true,
    decide_eq_true_eq] at hstate
  obtain ⟨⟨o, ho, hkind, hdata⟩, huses⟩ := hstate
  obtain ⟨f, t, hf, a, ha, -, w, hw, v, hv, -, source, hdeclared, hbare⟩ :=
    (hiff 0).mp ⟨o, ho, hdata⟩
  obtain ⟨u, hu, ⟨rfl, hname⟩, htype⟩ := huses a (mem_scriptArrivals hf ha) w hw
  obtain rfl := Option.some.inj (hu.symm.trans hv)
  exact ⟨⟨o, ho, hkind, hdata⟩, f, t, hf, a, ha, u, hw, hname, htype, source, hdeclared, hbare⟩

/-! ### Spaces -/

/-- The kind of operand that the values of a variable are kept in. -/
def Variable.LivesIn (v : Variable) : OperandKind → Prop
  | .work => v.type.inRegister = true
  | .flag => v.type = .flag
  | .sysFlag => v.type = .sysFlag
  | _ => False

/-- The operand of the use is the answer register, or the storage of the variable that is used,
which is not constant and lives there. -/
def Use.InSpace (w : Use) : Prop :=
  w.operand = ⟨.work, some answerRegister⟩ ∨
    ∃ v, w.used? = some v ∧ v.constant = none ∧ v.LivesIn w.operand.kind ∧
      w.operand.data = v.storage

/-- What has to be asked of a variable for its use to be in the space of its type, apart from what
the compiler asks. -/
def Use.Sound : Use → Prop
  | .given v => v.constant = none ∨ v.storage = some answerRegister
  | .filled v => v.storage = none ∨ v.storage = some answerRegister ∨
      v.constant = none ∧ v.type.inRegister = true
  | .switched v => v.storage = some answerRegister ∨ v.constant = none ∧ v.type.inRegister = true
  | .passed _ | .compared _ | .asked _ | .answer => True

theorem Variable.livesIn_space (h : v.type.inRegister = true ∨ v.type = .flag ∨ v.type = .sysFlag) :
    v.LivesIn v.type.space := by
  cases htype : v.type <;> simp_all [Variable.LivesIn, ValueType.space, ValueType.inRegister]

/-- **When a use is in the space of its type.** -/
theorem Use.Proper.inSpace_iff (h : w.Proper)
    (hconst : ∀ v, w.used? = some v → v.constant.isSome = true →
      v.type = .integer ∨ v.type = .boolean) : w.InSpace ↔ w.Sound := by
  cases w with
  | given v =>
    have hlives : v.LivesIn v.type.space := v.livesIn_space (h.imp_left fun h => by rw [h]; rfl)
    constructor
    · rintro (heq | ⟨_, hv, hc, -, -⟩)
      · exact .inr (congrArg Operand.data heq)
      · obtain rfl := Option.some.inj hv
        exact .inl hc
    · intro hsound
      cases hc : v.constant with
      | none => exact .inr ⟨v, rfl, hc, hlives, rfl⟩
      | some c =>
        -- a constant that is given a value is a number, and its operand a work register
        have htype : v.type = .integer := by
          have hnumber := hconst v rfl (by rw [hc]; rfl)
          rcases h with h | h | h <;> simp_all
        left
        simpa [Use.Sound, Use.operand, ValueType.space, htype, hc] using hsound
  | filled v =>
    cases hstorage : v.storage with
    | none => simp [Use.InSpace, Use.Sound, Use.operand, hstorage]
    | some n => simp [Use.InSpace, Use.Sound, Use.operand, Use.used?, Variable.LivesIn, hstorage]
  | switched v => simp [Use.InSpace, Use.Sound, Use.operand, Use.used?, Variable.LivesIn]
  | passed v => exact iff_of_true (.inr ⟨v, rfl, h.1, v.livesIn_space h.2, rfl⟩) trivial
  | compared v => exact iff_of_true (.inr ⟨v, rfl, h.1, h.2, rfl⟩) trivial
  | asked v =>
    have hc : v.constant = none := by
      by_contra hne
      have hnumber := hconst v rfl (Option.isSome_iff_ne_none.mpr hne)
      rcases h with h | h <;> simp [h] at hnumber
    exact iff_of_true (.inr ⟨v, rfl, hc, v.livesIn_space (.inr h), rfl⟩) trivial
  | answer => exact iff_of_true (.inl rfl) trivial

theorem Use.Proper.sound_of_kind (h : w.Proper)
    (hconst : ∀ v, w.used? = some v → v.constant.isSome = true →
      v.type = .integer ∨ v.type = .boolean) (hkind : w.operand.kind ≠ .work) : w.Sound := by
  cases w with
  | given v =>
    left
    by_contra hne
    have hnumber := hconst v rfl (Option.isSome_iff_ne_none.mpr hne)
    rcases hnumber with hnumber | hnumber <;>
      simp [Use.operand, ValueType.space, hnumber] at hkind
  | filled v => exact absurd rfl hkind
  | switched v => exact absurd rfl hkind
  | passed v | compared v | asked v | answer => trivial

/-- **Which operands are what they seem to be.** In a script that is compiled to the end, the
register operands under a label are those of the uses there. Every operand of the flags and of the
system flags is the storage of a variable of that type which is not constant. An operand of the work
registers is the answer register or the storage of an `int` or a `float` that is not constant in all
calls, comparisons and conditions. Where a variable is given a value, takes a result or is switched
on, the compiler asks less, and it is so exactly if the use is sound. -/
theorem operand_in_space_iff (fs : Files) (mode : ReadMode) (path : String)
    (hok : (compileScript fs mode path).ended = .ok ()) :
    ∃ code, code = (compileScript fs mode path).state.file.code ∧
    (∀ x, (code.registersAt x).Perm ((usesAt (scriptArrivals fs mode path) x).map Use.operand)) ∧
    ∀ a ∈ scriptArrivals fs mode path, ∀ w ∈ a.uses,
      (w.InSpace ↔ w.Sound) ∧ (w.operand.kind ≠ .work → w.InSpace) := by
  obtain ⟨hregisters, hproper⟩ := registers_of_script hok
  refine ⟨_, rfl, hregisters, fun a ha w hw => ?_⟩
  have hconst : ∀ v, w.used? = some v → v.constant.isSome = true →
      v.type = .integer ∨ v.type = .boolean := fun v => type_of_constant_of_use hok ha hw
  have hiff := (hproper a ha w hw).inSpace_iff hconst
  exact ⟨hiff, fun hkind => hiff.mpr ((hproper a ha w hw).sound_of_kind hconst hkind)⟩

/-- A function that switches on a flag. -/
def switchedFiles : Files :=
  ⟨[("switched.evc", ("command c(int x):5;flag v:9;function f()\x7bswitch(v)\x7bcase 1:c(1);" ++
    "\x7d\x7d").toUTF8)]⟩

set_option maxRecDepth 100000 in
/-- The number of the flag is taken for that of a work register. -/
theorem switched_flag_not_in_space :
    ∃ a ∈ scriptArrivals switchedFiles .strict "switched.evc", ∃ v, .switched v ∈ a.uses ∧
      v.type = .flag ∧ v.storage = some 9 ∧ (Use.switched v).operand = ⟨.work, some 9⟩ ∧
      ¬ (Use.switched v).InSpace := by
  have hcheck : (compileScript switchedFiles .strict "switched.evc").endsWith (fun _ =>
      (scriptArrivals switchedFiles .strict "switched.evc").any fun a => a.uses.any fun w =>
        w.used?.any fun v => w = .switched v && v.type = .flag && v.storage = some 9) = true := by
    decide +kernel
  obtain ⟨state, hscript, hany⟩ := Outcome.eq_of_endsWith hcheck
  obtain ⟨code, -, -, hspace⟩ := operand_in_space_iff switchedFiles .strict "switched.evc"
    (congrArg Outcome.ended hscript)
  simp only [Bool.and_eq_true, List.any_eq_true, Option.any_eq_true, decide_eq_true_eq] at hany
  obtain ⟨a, ha, w, hw, v, -, ⟨rfl, htype⟩, hstorage⟩ := hany
  refine ⟨a, ha, v, hw, htype, hstorage, by rw [Use.operand, hstorage], fun hin => ?_⟩
  have hsound := (hspace a ha _ hw).1.mp hin
  simp [Use.Sound, htype, hstorage, ValueType.inRegister, answerRegister] at hsound

end EvScript
