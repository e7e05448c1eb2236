import Ods.Rounding
import Ods.IntegerRoundTrip

/-! `%f` in `utl_printf.c`: `sprint_floating_point` down to `get_components` and
`sprint_broken_up_decimal`. A `double` is given by its bits, and what it is worth as a multiple of
the least one, `2 ^ -1074`; operations round to the nearest `double`. The characters of
`sprint_exponential_number` are a parameter. -/
namespace Ods
open Rounding

section Model

@[irreducible] def pointBits : Nat := 1074

def doubleOne : Nat := 2 ^ pointBits

def doubleHalf : Nat := doubleOne / 2

def getSign (x : BitVec 64) : Bool := x.msb

def exponentBits (x : BitVec 64) : Nat := x.toNat / 2 ^ 52 % 2 ^ 11

def mantissaBits (x : BitVec 64) : Nat := x.toNat % 2 ^ 52

def isNan (x : BitVec 64) : Bool := exponentBits x = 2047 && mantissaBits x ≠ 0

def isInf (x : BitVec 64) : Bool := exponentBits x = 2047 && mantissaBits x = 0

def absUnits (x : BitVec 64) : Nat :=
  if exponentBits x = 0 then mantissaBits x
  else (2 ^ 52 + mantissaBits x) * 2 ^ (exponentBits x - 1)

def rounded (v : Int) : Int := v.sign * (roundTo 53 v.natAbs : Nat)

/-- The conversion from `double` to `int_fast64_t`, of a number that is not negative. From `2 ^ 63`
on the C code has none. -/
def toInt64 (v : Int) : Nat := (v / doubleOne).toNat

def ofInt64 (i : Nat) : Int := rounded (i * doubleOne)

structure DoubleComponents where
  integral : Nat
  fractional : Nat
  isNegative : Bool
  deriving DecidableEq, Repr

def carryFraction (precision integral fractional : Nat) (remainder : Int) : Nat × Nat :=
  if remainder > doubleHalf then
    let fractional := fractional + 1
    if ofInt64 fractional ≥ 10 ^ precision * doubleOne then (integral + 1,0)
    else (integral,fractional)
  else if remainder = doubleHalf then
    if fractional = 0 ∨ fractional % 2 = 1 then (integral,fractional + 1)
    else (integral,fractional)
  else (integral,fractional)

def carryIntegral (absNumber : Int) (integral : Nat) : Nat :=
  let remainder := rounded (absNumber - ofInt64 integral)
  if (¬ remainder < doubleHalf ∨ remainder > doubleHalf) ∧ integral % 2 = 1 then integral + 1
  else integral

/-- `get_components` of a number below `2 ^ 63`. `powers_of_10[precision]` is a whole number, and
there are 18 of them. -/
def getComponents (number : BitVec 64) (precision : Nat) : DoubleComponents :=
  let absNumber : Int := absUnits number
  let integral := toInt64 absNumber
  let remainder := rounded (rounded (absNumber - ofInt64 integral) * 10 ^ precision)
  let fractional := toInt64 remainder
  let remainder := rounded (remainder - ofInt64 fractional)
  let parts := carryFraction precision integral fractional remainder
  ⟨if precision = 0 then carryIntegral absNumber parts.1 else parts.1,parts.2,getSign number⟩

/-- The loops that write the digits of a part; the one of the integral part keeps no `count`. -/
def ftoaLoop : Nat → BitVec 32 → Nat → NtoaBuf → NtoaBuf × BitVec 32
  | 0, count, _, buf => (buf,count)
  | room + 1, count, part, buf =>
    let count := count - 1
    let buf := buf.put (ntoaDigit (part % 10) false)
    let part := part / 10
    if part ≠ 0 then ftoaLoop room count part buf else (buf,count)

def dropZeros : Nat → BitVec 32 → Nat → BitVec 32 × Nat
  | 0, count, fractional => (count,fractional)
  | fuel + 1, count, fractional =>
    if fractional % 10 ≠ 0 then (count,fractional)
    else dropZeros fuel (count - 1) (fractional / 10)

/-- The fractional part and the point. Each pass of `dropZeros` lowers the part, which is fuel
enough; `count-- > 0U` stops after `count` zeros. -/
def brokenUpFraction (number : DoubleComponents) (precision : BitVec 32) (flags : Flags)
    (buf : NtoaBuf) : NtoaBuf :=
  if precision ≠ 0 then
    let (count,fractional) :=
      if flags.adaptExp && !flags.hash && 0 < number.fractional then
        dropZeros number.fractional precision number.fractional
      else (precision,number.fractional)
    if 0 < fractional || !flags.adaptExp || flags.hash then
      let (buf,count) := ftoaLoop (printfNtoaBufferSize - buf.len) count fractional buf
      (buf.pad (buf.len + count.toNat)).put '.'
    else buf
  else if flags.hash then buf.put '.' else buf

def brokenUpBuf (number : DoubleComponents) (precision width : BitVec 32) (flags : Flags)
    (buf : NtoaBuf) : NtoaBuf :=
  let buf := brokenUpFraction number precision flags buf
  let buf := (ftoaLoop (printfNtoaBufferSize - buf.len) 0 number.integral buf).1
  let buf := if !flags.left && flags.zeropad then
    buf.pad (ntoaWidth number.isNegative width flags).toNat else buf
  ntoaSign buf number.isNegative flags

def sprintBrokenUpDecimal (number : DoubleComponents) (precision width : BitVec 32) (flags : Flags)
    (buf : NtoaBuf) : List Char :=
  outRevText (brokenUpBuf number precision width flags buf).chars
    (ntoaWidth number.isNegative width flags) flags

def sprintDecimalNumber (number : BitVec 64) (precision width : BitVec 32) (flags : Flags)
    (buf : NtoaBuf) : Option (List Char) :=
  if precision < 18 then
    some (sprintBrokenUpDecimal (getComponents number precision.toNat) precision width flags buf)
  else none

def limitPrecision : Nat → BitVec 32 → NtoaBuf → BitVec 32 × NtoaBuf
  | 0, precision, buf => (precision,buf)
  | room + 1, precision, buf =>
    if precision > 17 then limitPrecision room (precision - 1) (buf.put '0') else (precision,buf)

def sprintFloatingPoint
    (exponential : BitVec 64 → BitVec 32 → BitVec 32 → Flags → NtoaBuf → Option (List Char))
    (value : BitVec 64) (precision width : BitVec 32) (flags : Flags) (preferExponential : Bool) :
    Option (List Char) :=
  if isNan value then some (outRevText "nan".toList.reverse width flags)
  else if isInf value then
    let text := if getSign value then "fni-" else if flags.plus then "fni+" else "fni"
    some (outRevText text.toList.reverse width flags)
  else if !preferExponential ∧ absUnits value > 10 ^ 9 * doubleOne then
    exponential value precision width flags .empty
  else
    let precision := if !flags.precision then 6 else precision
    let (precision,buf) := limitPrecision printfNtoaBufferSize precision .empty
    if preferExponential then exponential value precision width flags buf
    else sprintDecimalNumber value precision width flags buf

end Model

end Ods
