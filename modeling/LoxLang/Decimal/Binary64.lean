/-!
Doubles taken apart. A finite double is `± significand * 2 ^ exponent`; `Binary64.ofFloat` reads
these parts off its bits, `Binary64.toFloat` puts them together again, and `remainder` is the
exact remainder of a division, computed on the parts.
-/
namespace LoxLang.Decimal

def twoTo (n : Nat) : Nat := Nat.pow 2 n

def tenTo (n : Nat) : Nat := Nat.pow 10 n

/-- A double: no number, an infinity, or `± significand * 2 ^ exponent`. -/
inductive Binary64 where
  | nan
  | infinite (negative : Bool)
  | finite (negative : Bool) (significand : Nat) (exponent : Int)
  deriving DecidableEq, Repr

namespace Binary64

/-- The least exponent, that of the subnormal doubles. -/
def minExponent : Int := -1074

/-- The leading bit of the significand of a normal double, which its bits leave out. -/
def leadingBit : Nat := twoTo 52

def signBit : Nat := twoTo 63

/-- The parts of a double. The significand of a normal double has 53 bits. -/
def ofFloat (x : Float) : Binary64 :=
  let bits := x.toBits.toNat
  let negative : Bool := signBit ≤ bits
  let biased : Nat := bits / leadingBit % twoTo 11
  let fraction : Nat := bits % leadingBit
  if biased = 2047 then
    if fraction = 0 then .infinite negative else .nan
  else if biased = 0 then .finite negative fraction minExponent
  else .finite negative (leadingBit + fraction) ((biased : Int) - 1075)

/-- The bits of `significand * 2 ^ exponent`, with the sign left out. Meant for numbers that are
doubles: below `2 ^ 53` in significand, not below `minExponent` in exponent. -/
def magnitudeBits (significand : Nat) (exponent : Int) : Nat :=
  if significand = 0 then 0
  else
    let room := min (52 - significand.log2) (exponent - minExponent).toNat
    let scaled := significand * twoTo room
    if scaled < leadingBit then scaled
    else (exponent - room + 1075).toNat * leadingBit + (scaled - leadingBit)

def toFloat : Binary64 → Float
  | .nan => 0.0 / 0.0
  | .infinite negative => if negative then -1.0 / 0.0 else 1.0 / 0.0
  | .finite negative significand exponent =>
    let bits := magnitudeBits significand exponent + if negative then signBit else 0
    Float.ofBits (UInt64.ofNat bits)

/-- The number without its sign as an integer, for a double that is whole. -/
def whole? : Binary64 → Option Nat
  | .finite _ significand (.ofNat e) => some (significand * twoTo e)
  | .finite _ significand (.negSucc e) =>
    if significand % twoTo (e + 1) = 0 then some (significand / twoTo (e + 1)) else none
  | _ => none

end Binary64

/-- The remainder of `x / y` with the quotient cut toward zero. It is exact and has the sign
of `x`; dividing by zero, or dividing an infinity, leaves no number. -/
def remainder (x y : Float) : Float :=
  match Binary64.ofFloat x, Binary64.ofFloat y with
  | .finite negative m e, .finite _ n f =>
    if n = 0 then Binary64.nan.toFloat
    else
      let low := min e f
      let rest := m * twoTo (e - low).toNat % (n * twoTo (f - low).toNat)
      (Binary64.finite negative rest low).toFloat
  | .finite .., .infinite _ => x
  | _, _ => Binary64.nan.toFloat

end LoxLang.Decimal
