import WasmBinary.Power

/-! Binary floating-point formats: what a bit pattern denotes, and which reals round to it. -/
namespace WasmBinary.Ieee

structure Format where
  fractionBits : Nat
  exponentBits : Nat
  deriving DecidableEq, Repr

def binary32 : Format := ⟨23, 8⟩

def binary64 : Format := ⟨52, 11⟩

/-- What a bit pattern denotes. A finite number is `mantissa * 2 ^ exponent` with a sign. -/
inductive Datum where
  | nan
  | infinite (negative : Bool)
  | finite (negative : Bool) (mantissa : Nat) (exponent : Int)
  deriving DecidableEq, Repr

namespace Format

/-- The exponent of the subnormal numbers and of the least normal ones. -/
def minExponent (F : Format) : Int :=
  2 - 2 ^ (F.exponentBits - 1) - F.fractionBits

def datum (F : Format) (bits : Nat) : Datum :=
  let fraction := bits % 2 ^ F.fractionBits
  let exponent := bits / 2 ^ F.fractionBits % 2 ^ F.exponentBits
  let negative := bits / 2 ^ (F.fractionBits + F.exponentBits) % 2 = 1
  if exponent = 2 ^ F.exponentBits - 1 then
    if fraction = 0 then .infinite negative else .nan
  else if exponent = 0 then .finite negative fraction F.minExponent
  else .finite negative (2 ^ F.fractionBits + fraction) (F.minExponent + (exponent - 1))

end Format

/-- A number between two others, all over one denominator. -/
structure Interval where
  low : Nat
  value : Nat
  high : Nat
  den : Nat
  /-- Whether the ends belong to the interval. -/
  closed : Bool
  deriving DecidableEq, Repr

/-- The reals that round to `mantissa * 2 ^ exponent`, in quarters of the last place. The
neighbour below a power of two is half as far away, except at the least exponent. Ties go to the
even mantissa, so the ends belong to it. -/
def Format.interval (F : Format) (mantissa : Nat) (exponent : Int) : Interval :=
  let below := if mantissa = 2 ^ F.fractionBits ∧ F.minExponent < exponent then 1 else 2
  let scale := 2 ^ (exponent - 2).toNat
  { low := (4 * mantissa - below) * scale
    value := 4 * mantissa * scale
    high := (4 * mantissa + 2) * scale
    den := 2 ^ (2 - exponent).toNat
    closed := mantissa % 2 = 0 }

end WasmBinary.Ieee
