/-!
# Type codes

The second byte of every instruction is a type code.  A single code names the type of one value,
a paired code names the two operands of a binary instruction.  The codes `action`, `vector` and
`aggregate` never occur in bytecode; they describe values inside the analysis.
-/

namespace NwScript

/-- A type code of the instruction set. -/
inductive TypeCode where
  /-- No value. -/
  | void
  /-- A 32-bit signed integer. -/
  | int
  /-- A 32-bit float. -/
  | float
  /-- A string reference. -/
  | string
  /-- An object identifier. -/
  | object
  /-- An engine effect. -/
  | effect
  /-- An engine event. -/
  | event
  /-- An engine location. -/
  | location
  /-- An engine talent. -/
  | talent
  /-- Operands `int, int`. -/
  | intInt
  /-- Operands `float, float`. -/
  | floatFloat
  /-- Operands `object, object`. -/
  | objectObject
  /-- Operands `string, string`. -/
  | stringString
  /-- Two aggregates whose size is given by the instruction. -/
  | structStruct
  /-- Operands `int, float`. -/
  | intFloat
  /-- Operands `float, int`. -/
  | floatInt
  /-- Operands `effect, effect`. -/
  | effectEffect
  /-- Operands `event, event`. -/
  | eventEvent
  /-- Operands `location, location`. -/
  | locationLocation
  /-- Operands `talent, talent`. -/
  | talentTalent
  /-- Operands `vector, vector`. -/
  | vectorVector
  /-- Operands `vector, float`. -/
  | vectorFloat
  /-- Operands `float, vector`. -/
  | floatVector
  /-- A deferred action argument. -/
  | action
  /-- Three floats. -/
  | vector
  /-- An aggregate of stack slots. -/
  | aggregate
  /-- A type that is not determined. -/
  | invalid
  deriving DecidableEq, Repr, Inhabited

namespace TypeCode

/-- Every type code, in the order of its byte. -/
def all : List TypeCode :=
  [void, int, float, string, object, effect, event, location, talent, intInt, floatFloat,
    objectObject, stringString, structStruct, intFloat, floatInt, effectEffect, eventEvent,
    locationLocation, talentTalent, vectorVector, vectorFloat, floatVector, action, vector,
    aggregate, invalid]

/-- The byte that encodes a type code. -/
def byte : TypeCode → UInt8
  | void => 0x00
  | int => 0x03
  | float => 0x04
  | string => 0x05
  | object => 0x06
  | effect => 0x10
  | event => 0x11
  | location => 0x12
  | talent => 0x13
  | intInt => 0x20
  | floatFloat => 0x21
  | objectObject => 0x22
  | stringString => 0x23
  | structStruct => 0x24
  | intFloat => 0x25
  | floatInt => 0x26
  | effectEffect => 0x30
  | eventEvent => 0x31
  | locationLocation => 0x32
  | talentTalent => 0x33
  | vectorVector => 0x3A
  | vectorFloat => 0x3B
  | floatVector => 0x3C
  | action => 0xE0
  | vector => 0xF0
  | aggregate => 0xF1
  | invalid => 0xFF

/-- The source name of a type, or the mnemonic suffix of a pair. -/
def name : TypeCode → String
  | void => "void"
  | int => "int"
  | float => "float"
  | string => "string"
  | object => "object"
  | effect => "effect"
  | event => "event"
  | location => "location"
  | talent => "talent"
  | intInt => "II"
  | floatFloat => "FF"
  | objectObject => "OO"
  | stringString => "SS"
  | structStruct => "TT"
  | intFloat => "IF"
  | floatInt => "FI"
  | effectEffect => "EffEff"
  | eventEvent => "EvtEvt"
  | locationLocation => "LocLoc"
  | talentTalent => "TalTal"
  | vectorVector => "VV"
  | vectorFloat => "VF"
  | floatVector => "FV"
  | action => "action"
  | vector => "vector"
  | aggregate => "struct"
  | invalid => "__invalid"

/-- The type code encoded by a byte, when there is one. -/
def ofByte? (byte : UInt8) : Option TypeCode :=
  all.find? fun code => code.byte = byte

/-- The type code with a given name, when there is one. -/
def ofName? (name : String) : Option TypeCode :=
  all.find? fun code => code.name = name

theorem mem_all (code : TypeCode) : code ∈ all := by
  cases code <;> decide

theorem ofByte?_byte (code : TypeCode) : ofByte? code.byte = some code := by
  cases code <;> decide

/-- Number of four-byte stack slots of a value; codes that are no value by themselves have none. -/
def slots : TypeCode → Nat
  | int | float | string | object | effect | event | location | talent => 1
  | vector => 3
  | _ => 0

/-- A code that names an operand pair. -/
def isPair : TypeCode → Bool
  | intInt | floatFloat | objectObject | stringString | structStruct | intFloat | floatInt
  | effectEffect | eventEvent | locationLocation | talentTalent | vectorVector | vectorFloat
  | floatVector => true
  | _ => false

/-- Left and right operand types of a pair; a pair of aggregates is sized by its instruction. -/
def operands : TypeCode → Option (TypeCode × TypeCode)
  | intInt => some (int, int)
  | floatFloat => some (float, float)
  | objectObject => some (object, object)
  | stringString => some (string, string)
  | intFloat => some (int, float)
  | floatInt => some (float, int)
  | effectEffect => some (effect, effect)
  | eventEvent => some (event, event)
  | locationLocation => some (location, location)
  | talentTalent => some (talent, talent)
  | vectorVector => some (vector, vector)
  | vectorFloat => some (vector, float)
  | floatVector => some (float, vector)
  | _ => none

/-- Result type of arithmetic on a pair: mixed numbers give a float, any vector gives a vector. -/
def arithmeticResult : TypeCode → TypeCode
  | intInt => int
  | floatFloat | intFloat | floatInt => float
  | stringString => string
  | vectorVector | vectorFloat | floatVector => vector
  | other => other

end TypeCode
end NwScript
