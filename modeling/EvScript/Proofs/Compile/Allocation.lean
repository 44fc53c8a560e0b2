import EvScript.Proofs.Compile.Registers

/-!
# The Order in which Registers are Given Out

What registers a function has given out is kept with the state, not with the blocks. So the
definitions that want a register get the registers for locals in the order in which the compilation
comes to them, whatever blocks they are in, and also if the compilation fails in the end.

## Main results

* `locals_given_in_order` — the definitions of a body get the registers for locals in order.
-/

namespace EvScript

open CompileM Registry

variable {f : FunctionDecl} {s t : CompileState} {d : Definition} {type : ValueType} {pos : Pos}
  {a : Arrival} {i : Nat}

/-- The definition can be read: it is of the type, not constant, and names no storage. -/
def Definition.Wants (d : Definition) (type : ValueType) : Prop :=
  d.isConst = false ∧ d.name.isSome = true ∧ optionalInt d.storage = .ok none ∧
    ∃ word, typeOf d.type = .ok (word, type)

/-- The first thing that is done for the definition is to ask for a register. -/
theorem Definition.Wants.compileDefinition_eq (h : d.Wants type) :
    ∃ k, compileDefinition .body true d = allocateLocal type d.pos >>= k := by
  obtain ⟨hconst, hname, hstorage, word, htype⟩ := h
  obtain ⟨name, hname⟩ := Option.isSome_iff_exists.mp hname
  simp only [compileDefinition, htype, hname, hstorage, hconst, lift, need, allocate, pure_bind,
    bind_assoc, Bool.false_eq_true, if_false]
  exact ⟨_, rfl⟩

theorem wants_of_automatic {v : Variable} {is : List Instr} (hauto : d.automatic = true)
    (h : Yields (compileDefinition .body true d) s (v, is) t) : d.Wants .integer := by
  obtain ⟨hconst, hnumber⟩ := Bool.and_eq_true_iff.mp hauto
  have hparts := h
  unfold compileDefinition at hparts
  obtain ⟨⟨word, type⟩, _, hlift, hparts⟩ := hparts.bind
  obtain ⟨htype, rfl⟩ := hlift.lift
  obtain ⟨name, hname, hparts⟩ := hparts.need_bind
  obtain ⟨number, hstorage, -⟩ := hparts.lift_bind
  obtain rfl : number = none := by
    simpa [Definition.number, hstorage, Except.toOption] using hnumber
  have hwants : d.Wants type := ⟨by simpa using hconst, by simp [hname], hstorage, word, htype⟩
  obtain ⟨k, hk⟩ := hwants.compileDefinition_eq
  rw [hk] at h
  obtain ⟨r, _, hr, -⟩ := h.bind
  exact (yields_allocateLocal hr).1 ▸ hwants

/-! ### Registers in their order -/

theorem number_of_automatic {p : Param} (h : p.automatic = true) : p.number = none := by
  cases hq : p.read with
  | error e => simp [Param.automatic, hq, Except.toOption] at h
  | ok q =>
    rw [Param.automatic_of_read hq, Bool.and_eq_true] at h
    rw [Param.number_of_read hq, Option.isNone_iff_eq_none.mp h.1]

theorem getElem?_parameterRegisters (k : Nat) :
    parameterRegisters[k]? = if k < 4 then some (238 + k : Int) else none := by
  match k with
  | 0 | 1 | 2 | 3 => rfl
  | k + 4 => simp [parameterRegisters]

theorem nextRegister_localRegisters (given : List Int) : nextRegister localRegisters given =
    if given.length < 32 then some (given.length : Int) else none := by
  rw [nextRegister, localRegisters, List.getElem?_map]
  split
  · rename_i h
    rw [List.getElem?_range h]
    rfl
  · rename_i h
    rw [List.getElem?_eq_none (by simpa using h)]
    rfl

theorem yields_allocateLocal_next (h : s.locals.length < 32) :
    ∃ u, Yields (allocateLocal .integer pos) s s.locals.length u := by
  have hnext : nextRegister localRegisters s.file.locals = _ :=
    (nextRegister_localRegisters _).trans (if_pos h)
  refine ⟨{ s with file := { s.file with locals := s.file.locals ++ [↑s.locals.length] } }, ?_⟩
  unfold allocateLocal
  dsimp only
  rw [if_neg (by simp)]
  refine yields_bind.mpr ⟨s, s, yields_get.mpr ⟨rfl, rfl⟩, ?_⟩
  rw [hnext]
  exact yields_bind_pure.mpr ⟨(), yields_modify.mpr rfl, rfl⟩

/-- Where no register can be given out, an error is told and the compilation ends. -/
theorem ending_allocateLocal (pos : Pos) (h : type ≠ .integer ∨ 32 ≤ s.locals.length) :
    ∃ message, ending (allocateLocal type pos) s =
      (.error .stopped, { s with log := s.log ++ [⟨.error, message⟩] }) := by
  unfold allocateLocal
  dsimp only
  split
  · exact ⟨_, rfl⟩
  · rename_i htype
    have hnext : nextRegister localRegisters s.file.locals = _ :=
      (nextRegister_localRegisters _).trans (if_neg (Nat.not_lt.mpr (h.resolve_left htype)))
    have hget : Yields (get : CompileM CompileState) s s s := yields_get.mpr ⟨rfl, rfl⟩
    rw [hget.ending_bind, hnext]
    exact ⟨_, rfl⟩

/-! ### In a body -/

/-- **A definition that can get no register ends the compilation of its function.** -/
theorem ending_of_full (ha : (bodyArrivals f s)[i]? = some a) (hd : a.statement = .define d)
    (hwants : d.Wants type)
    (hfull : type ≠ .integer ∨ 32 ≤ ((bodyArrivals f s).take i).countP Arrival.automatic) :
    (bodyArrivals f s).length = i + 1 ∧ ∃ message, ending (compileFunction f) s =
      (.error .stopped, { a.state with log := a.state.log ++ [⟨.error, message⟩] }) := by
  have hsplit := eq_append_cons ha
  obtain ⟨-, -, -, -, -, -, hends⟩ := bodyInvariant_takesLocals.arrival hsplit
  obtain ⟨pos, hends⟩ := hends (by rw [hd]; rfl)
  rw [← length_locals ha] at hfull
  obtain ⟨message, hend⟩ := ending_allocateLocal d.pos hfull
  obtain ⟨k, hk⟩ := hwants.compileDefinition_eq
  obtain ⟨hfun, hrest⟩ := hends .stopped _ (by
    rw [hd, compileStatement, define, hk, bind_assoc, bind_assoc, ending_bind, hend])
  refine ⟨?_, message, hfun⟩
  have hlt := (List.getElem?_eq_some_iff.mp ha).1
  have hle := List.drop_eq_nil_iff.mp hrest
  omega

theorem exists_yields_of_lt (ha : (bodyArrivals f s)[i]? = some a) (hd : a.statement = .define d)
    (hlt : i + 1 < (bodyArrivals f s).length) :
    ∃ v is t, Yields (compileDefinition .body true d) a.state (v, is) t := by
  obtain ⟨-, -, -, -, -, -, hends⟩ := bodyInvariant_takesLocals.arrival (eq_append_cons ha)
  obtain ⟨pos, hends⟩ := hends (by rw [hd]; rfl)
  rcases hend : ending (compileStatement pos a.label a.statement) a.state with ⟨e | last, t⟩
  · have hle := List.drop_eq_nil_iff.mp (hends e t hend).2
    omega
  · rw [hd] at hend
    obtain ⟨v, is, u, hv, -⟩ := yields_compileStatement_define hend
    exact ⟨v, is, u, hv⟩

/-- The statement at a place of a body defines a variable that is not constant, and names no storage
for it. -/
def DefinesLocal (V : List Arrival) (i : Nat) (v : Variable) : Prop :=
  ∃ a d, V[i]? = some a ∧ a.statement = .define d ∧ d.automatic = true ∧
    a.state.defined? d = some v

/-- Such a variable has the register of the number of those in front of it. -/
theorem DefinesLocal.storage_eq {v : Variable} (h : DefinesLocal (bodyArrivals f s) i v) :
    v.storage = some (((bodyArrivals f s).take i).countP Arrival.automatic : Int) ∧
      ((bodyArrivals f s).take i).countP Arrival.automatic < 32 := by
  obtain ⟨a, d, ha, -, hauto, hv⟩ := h
  obtain ⟨⟨_, is⟩, hresult, rfl⟩ := Option.map_eq_some_iff.mp hv
  obtain ⟨u, hyields⟩ := result?_eq_some_iff.mp hresult
  cases (defines_of_yields hyields).allots with
  | kept hkept _ _ _ => simp [hauto] at hkept
  | next _ _ _ hsome hstorage _ =>
    have hnext := hstorage.trans (nextRegister_localRegisters a.state.locals)
    rw [← length_locals ha]
    split at hnext
    · rename_i hlt
      exact ⟨hnext, hlt⟩
    · simp [hnext] at hsome

theorem DefinesLocal.eq_of_storage {v w : Variable} {j : Nat}
    (hv : DefinesLocal (bodyArrivals f s) i v) (hw : DefinesLocal (bodyArrivals f s) j w)
    (h : v.storage = w.storage) : i = j := by
  rw [hv.storage_eq.1, hw.storage_eq.1, Option.some_inj, Nat.cast_inj] at h
  have hwants : ∀ {i v}, DefinesLocal (bodyArrivals f s) i v →
      ((bodyArrivals f s)[i]?).any Arrival.automatic = true := by
    rintro i v ⟨a, d, ha, hd, hauto, -⟩
    simp [ha, Arrival.automatic, hd, hauto]
  rcases Nat.lt_trichotomy i j with hlt | heq | hgt
  · have := countP_take_lt (hwants hv) hlt
    omega
  · exact heq
  · have := countP_take_lt (hwants hw) hgt
    omega

/-- **Which registers are given out**, in any function and in any state, whether its compilation
fails or not. The definitions in its body that are not constant and name no storage are counted in
the order in which the compilation comes to them; all but perhaps the last statement come to are
of type `int`. An `int` with fewer than 32 of them in front gets the register of that number, and no
two get the same. Any other type, and an `int` with 32 in front, ends the compilation with an error,
and nothing behind is come to. The first four parameters that are `int` and name no storage get the
registers 238 to 241, and those behind none. So a register of a local is none of a parameter and not
the register for answers. -/
theorem locals_given_in_order (f : FunctionDecl) (s : CompileState) :
    ∃ V, V = bodyArrivals f s ∧
    (∀ i a d, V[i]? = some a → a.statement = .define d → d.automatic = true → i + 1 < V.length →
      d.Wants .integer) ∧
    (∀ i a d type, V[i]? = some a → a.statement = .define d → d.Wants type →
      ∃ k, k = (V.take i).countP Arrival.automatic ∧
        (type = .integer → k < 32 → ∃ u, Yields (allocateLocal type d.pos) a.state k u) ∧
        (type ≠ .integer ∨ 32 ≤ k → V.length = i + 1 ∧ ∃ message, ending (compileFunction f) s =
          (.error .stopped, { a.state with log := a.state.log ++ [⟨.error, message⟩] }))) ∧
    (∀ i v, DefinesLocal V i v → ∃ k, k = (V.take i).countP Arrival.automatic ∧ k < 32 ∧
      v.storage = some (k : Int) ∧ (k : Int) ∉ parameterRegisters ∧ (k : Int) ≠ answerRegister) ∧
    (∀ i j v w, DefinesLocal V i v → DefinesLocal V j w → v.storage = w.storage → i = j) ∧
    ∀ head t, Yields (beginFunction f) s head t → ∃ vs, head.1 = parameterScope vs ∧
      vs.length = (f.params.getD []).length ∧
      ∀ i p v, (f.params.getD [])[i]? = some p → vs[i]? = some v → p.automatic = true →
        ∃ k, k = ((f.params.getD []).take i).countP Param.automatic ∧
          v.storage = if k < 4 then some (238 + k : Int) else none := by
  refine ⟨_, rfl, fun i a d ha hd hauto hlt => ?_, fun i a d type ha hd hwants => ⟨_, rfl, ?_, ?_⟩,
    fun i v hv => ⟨_, rfl, hv.storage_eq.2, hv.storage_eq.1, ?_, ?_⟩,
    fun i j v w hv hw => hv.eq_of_storage hw, fun head t hhead => ?_⟩
  · obtain ⟨v, is, t, hv⟩ := exists_yields_of_lt ha hd hlt
    exact wants_of_automatic hauto hv
  · rintro rfl hlt
    rw [← length_locals ha] at hlt ⊢
    exact yields_allocateLocal_next hlt
  · exact ending_of_full ha hd hwants
  · have hlt := hv.storage_eq.2
    rw [mem_parameterRegisters]
    omega
  · have hlt := hv.storage_eq.2
    rw [answerRegister]
    omega
  · obtain ⟨name, vs, result, -, hvs, -, rfl, -⟩ := yields_beginFunction hhead
    refine ⟨vs, rfl, length_parameterVariables hvs, fun i p v hp hv hauto => ⟨_, rfl, ?_⟩⟩
    rw [storage_of_parameterVariables hvs hp hv, if_pos hauto, number_of_automatic hauto,
      Option.none_or, List.length_nil, Nat.zero_add, getElem?_parameterRegisters]

end EvScript
