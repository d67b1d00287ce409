/-!
# Decimal text of 32-bit floats

A finite float is `mantissa * 2 ^ exponent`.  Its shortest text lies on the coarsest decimal grid
that has a point rounding back to the float; of two such points the nearer one is taken, and of two
equally near ones the larger.  All arithmetic is exact, and the text is always positional.
-/

namespace NwScript

/-- The bits of a 32-bit float. -/
abbrev Binary32 := UInt32

namespace Binary32

/-- The sign bit. -/
def isNegative (bits : Binary32) : Bool :=
  bits.toNat >>> 31 = 1

/-- The biased exponent. -/
def biasedExponent (bits : Binary32) : Nat :=
  (bits.toNat >>> 23) % 0x100

/-- The stored fraction bits. -/
def fraction (bits : Binary32) : Nat :=
  bits.toNat % 0x800000

/-- A float that is neither an infinity nor a NaN. -/
def isFinite (bits : Binary32) : Bool :=
  bits.biasedExponent < 255

/-- A float that stands for no number. -/
def isNaN (bits : Binary32) : Bool :=
  bits.biasedExponent = 255 && bits.fraction ≠ 0

/-- The integer mantissa, with the hidden bit of normal floats. -/
def mantissa (bits : Binary32) : Nat :=
  if bits.biasedExponent = 0 then bits.fraction else bits.fraction + 0x800000

/-- The binary exponent of the integer mantissa. -/
def exponent (bits : Binary32) : Int :=
  if bits.biasedExponent = 0 then -149 else bits.biasedExponent - 150

/-- A positive interval of fractions over one denominator, with the value it rounds to. -/
structure Rounding where
  /-- Numerator of the lower end. -/
  low : Nat
  /-- Numerator of the float itself. -/
  value : Nat
  /-- Numerator of the upper end. -/
  high : Nat
  /-- The common denominator. -/
  denominator : Nat
  /-- The ends themselves round to the value. -/
  closed : Bool

/-- The numbers that round to a float; below a power of two the gap is half as wide. -/
def rounding (bits : Binary32) : Rounding :=
  let quarters := 4 * bits.mantissa
  let below := if bits.fraction = 0 ∧ 1 < bits.biasedExponent then 1 else 2
  let scale := 1 <<< (bits.exponent - 2).toNat
  { low := (quarters - below) * scale
    value := quarters * scale
    high := (quarters + 2) * scale
    denominator := 1 <<< (2 - bits.exponent).toNat
    closed := bits.mantissa % 2 = 0 }

/-- The multiple of `10 ^ place` nearest to the value, among those that round to it. -/
def Rounding.onGrid? (rounding : Rounding) (place : Int) : Option Nat :=
  let up := Nat.pow 10 place.toNat
  let down := Nat.pow 10 (-place).toNat
  let unit := rounding.denominator * up
  let value := rounding.value * down
  let inside (count : Nat) : Bool :=
    if rounding.closed then
      rounding.low * down ≤ count * unit && count * unit ≤ rounding.high * down
    else
      rounding.low * down < count * unit && count * unit < rounding.high * down
  let below := value / unit
  match inside below, inside (below + 1) with
  | true, true => some (if 2 * (value - below * unit) < unit then below else below + 1)
  | true, false => some below
  | false, true => some (below + 1)
  | false, false => none

/-- The fewest digits that read back as the value, and the place of the last one. -/
def Rounding.shortest (rounding : Rounding) : Nat × Int :=
  let places := (List.range 90).map fun (step : Nat) => (40 : Int) - step
  (places.findSome? fun place => (rounding.onGrid? place).map (·, place)).getD (0, 0)

/-- Positional text of `digits * 10 ^ place`. -/
def positional (digits : Nat) (place : Int) : String :=
  let text := toString digits
  if 0 ≤ place then
    text ++ "".pushn '0' place.toNat
  else
    let places := (-place).toNat
    let padded := "".pushn '0' (places + 1 - text.length) ++ text
    let whole := padded.length - places
    String.ofList (padded.toList.take whole) ++ "." ++ String.ofList (padded.toList.drop whole)

/-- The sign of a number as text. -/
def sign (bits : Binary32) : String :=
  if bits.isNegative then "-" else ""

/-- The shortest positional text that reads back as the float. -/
def text (bits : Binary32) : String :=
  if bits.isNaN then "NaN"
  else if !bits.isFinite then bits.sign ++ "inf"
  else if bits.mantissa = 0 then bits.sign ++ "0"
  else
    let (digits, place) := bits.rounding.shortest
    bits.sign ++ positional digits place

/-- The magnitude of a finite float without a fractional part. -/
def integral? (bits : Binary32) : Option Nat :=
  if !bits.isFinite then none
  else
    let numerator := bits.mantissa <<< bits.exponent.toNat
    let denominator := 1 <<< (-bits.exponent).toNat
    if numerator % denominator = 0 then some (numerator / denominator) else none

/-- Source spelling: an integral float below a thousand million keeps one decimal. -/
def sourceText (bits : Binary32) : String :=
  match bits.integral? with
  | some magnitude =>
      if magnitude < 1000000000 then bits.sign ++ toString magnitude ++ ".0" else bits.text
  | none => bits.text

end Binary32
end NwScript
