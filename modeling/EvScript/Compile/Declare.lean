import EvScript.Compile.State
import EvScript.Registry.Work

/-!
# Numbers, Types and Registers

How the small parts of a program are understood: numbers, type words, parameters, and the
registers that variables get when the script names none.

Local integer variables get the local registers in order, integer parameters the parameter
registers. A variable of another type has to name its storage; a parameter without storage
of its own is left without a register if there is none for it.
-/

namespace EvScript

open CompileM

/-! ### Numbers -/

/-- The integer that a text stands for. -/
def intOfText (text : String) : Except Fault Int :=
  match (Number.Literal.ofText? text).bind (·.toInt?) with
  | none => .error (.notInteger text)
  | some n =>
    let digits := text.toList.countP Char.isDigit
    if maxDigits < digits then .error (.tooManyDigits digits) else .ok n

/-- The 64-bit number that a text stands for. -/
def realOfText (text : String) : Except Fault (Number.Binary .double) :=
  match Number.Literal.ofText? text with
  | some l => .ok l.toDouble
  | none => .error (.notNumber text)

/-- The literal in the place of a number. -/
def Numeral.word (n : Numeral) : Except Fault String :=
  match n.literal with
  | some text => .ok text
  | none => .error (.absent .word)

/-- The integer in the place of a number. -/
def Numeral.toInt (n : Numeral) : Except Fault Int := n.word >>= intOfText

/-- The 64-bit number in the place of a number. -/
def Numeral.toReal (n : Numeral) : Except Fault (Number.Binary .double) := n.word >>= realOfText

/-- The integer in a place that may be empty. -/
def optionalInt : Option Numeral → Except Fault (Option Int)
  | none => .ok none
  | some n => n.toInt.map some

/-- The stored word of a value. -/
def encode (q : Number.Quantity) : Except Fault Int := q.encode.mapError .overflow

/-! ### Types -/

/-- The type that a word stands for. -/
def TypeWord.toType (t : TypeWord) : Except Fault ValueType :=
  match ValueType.ofWord? t.text with
  | some type => .ok type
  | none => .error (.unknownName t.text)

/-- The type word and the type in a place that must not be empty. -/
def typeOf : Option TypeWord → Except Fault (TypeWord × ValueType)
  | none => .error (.absent .word)
  | some t => t.toType.map fun type => (t, type)

/-- The type of a result, if one is declared. -/
def resultOf : Option TypeWord → Except Fault (Option ResultType)
  | none => .ok none
  | some t => t.toType.map fun type => some ⟨type, t.text, t.pos.line⟩

/-! ### Parameters -/

/-- The storage that marks a parameter as the place of the result. -/
def resultStorage : Int := -1

/-- A parameter as it is declared. -/
structure Parameter where
  type : ValueType
  word : String
  name : String
  storage : Option Int
  pos : Pos
  deriving DecidableEq, Repr

/-- The storage of a parameter, if it names one. -/
def ParamStorage.read : ParamStorage → Except Fault (Option Int)
  | .result => .ok (some resultStorage)
  | .register n => optionalInt n

/-- What a parameter declares: its name is looked at first, then its storage, then its
type. -/
def Param.read (p : Param) : Except Fault Parameter := do
  match p.name with
  | none => .error (.absent .word)
  | some name =>
    let storage ← match p.storage with
      | none => .ok none
      | some s => s.read
    let (t, type) ← typeOf p.type
    return ⟨type, t.text, name, storage, p.pos⟩

/-! ### Registers -/

/-- The next register in an order of which some have been given out. -/
def nextRegister (order given : List Int) : Option Int := order[given.length]?

/-- A register for a parameter, if its type has registers and one is left. -/
def allocateParameter (type : ValueType) (given : List Int) : Option Int × List Int :=
  if type = .integer then
    match nextRegister Registry.parameterRegisters given with
    | some r => (some r, given ++ [r])
    | none => (none, given)
  else (none, given)

/-- A parameter as a variable of its function. -/
def Parameter.toVariable (p : Parameter) (given : List Int) : Variable × List Int :=
  let (storage, given) := match p.storage with
    | some n => (some n, given)
    | none => allocateParameter p.type given
  (⟨p.type, p.word, p.name, storage, none, p.pos⟩, given)

/-- The parameters of a function as variables. -/
def parameterVariables : List Param → List Int → Except Fault (List Variable)
  | [], _ => .ok []
  | p :: ps, given => do
    let (v, given) := (← p.read).toVariable given
    let vs ← parameterVariables ps given
    return v :: vs

/-- A register for a local variable that is defined at a place. -/
def allocateLocal (type : ValueType) (pos : Pos) : CompileM Int := do
  if type ≠ .integer then stop "Cannot automatically allocate storage for non-int: " pos
  let s ← get
  match nextRegister Registry.localRegisters s.file.locals with
  | some r =>
    modify fun s => { s with file := { s.file with locals := s.file.locals ++ [r] } }
    return r
  | none => stop ("Out of LOCALWORK values to allocate. Specify storage if you really need " ++
      "> 32 ints: ") pos

end EvScript
