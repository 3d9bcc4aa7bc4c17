import WasmBinary.Decimal
import WasmBinary.Ieee.Basic

/-! The shortest decimal that reads back as a given floating-point number. -/
namespace WasmBinary.Ieee

/-- Whether `a` lies before `b`, or at `b` where the ends count. -/
def Interval.before (I : Interval) (a b : Nat) : Bool :=
  if I.closed then a ≤ b else a < b

/-- The multiple of `10 ^ e` in the interval that is nearest to its number, as a factor of
`10 ^ e`. Only the two neighbours of the number can be it; the larger one wins a tie. -/
def Interval.nearest? (I : Interval) (e : Int) : Option Nat :=
  let down := 10 ^ (-e).toNat
  let unit := I.den * 10 ^ e.toNat
  let value := I.value * down
  let d := value / unit
  let lower := I.before (I.low * down) (d * unit)
  let upper := I.before ((d + 1) * unit) (I.high * down)
  if lower && (!upper || 2 * (value - d * unit) < unit) then some d
  else if upper then some (d + 1)
  else none

/-- The exponent `k` for which the number lies between `10 ^ (k - 1)` and `10 ^ k`, found from the
digits of a multiple that is at least one. -/
def Interval.magnitude (I : Interval) : Int :=
  let places := (Nat.toDigits 10 I.den).length
  (Nat.toDigits 10 (I.value * 10 ^ places / I.den)).length - places

/-- The first hit on the grids of `digits`, `digits + 1`, ... significant digits. -/
def Interval.shortestFrom (I : Interval) (k : Int) : (grids digits : Nat) → Decimal
  | 0, _ => ⟨0, 0⟩
  | grids + 1, digits =>
    match I.nearest? (k - digits) with
    | some d => Decimal.strip d (k - digits)
    | none => I.shortestFrom k grids (digits + 1)

/-- A decimal of the fewest digits among those that round to `mantissa * 2 ^ exponent`, and the
nearest of them. A grid finer than the last binary place is sure to meet the interval. -/
def Format.shortest (F : Format) (mantissa : Nat) (exponent : Int) : Decimal :=
  let I := F.interval mantissa exponent
  I.shortestFrom I.magnitude (F.fractionBits + 2) 1

def Format.text (F : Format) (bits : Nat) : String :=
  match F.datum bits with
  | .nan => "NaN"
  | .infinite negative => if negative then "-inf" else "inf"
  | .finite negative mantissa exponent =>
    (if negative then "-" else "") ++
      (if mantissa = 0 then "0" else (F.shortest mantissa exponent).text)

end WasmBinary.Ieee
