import LoxLang.Decimal.Binary64
/-!
The fewest decimal digits that still name one double. The reals that round to
`significand * 2 ^ exponent` form an interval around it; on the grid of the numbers with `n`
significant digits only the two neighbours of the double can be the nearest ones, so the first
grid with a neighbour inside the interval gives the digits.
-/
namespace LoxLang.Decimal

/-- Which of two equally near decimals is taken. -/
inductive Tie where
  | up
  | toEven
  deriving DecidableEq, Repr

/-- The number `digits * 10 ^ exponent`. -/
structure Scaled where
  digits : Nat
  exponent : Int
  deriving DecidableEq, Repr

/-- The exponent `k` with `10 ^ (k - 1) ≤ m * 2 ^ e < 10 ^ k`, for `m` not zero. -/
def magnitude (m : Nat) (e : Int) : Int :=
  let low := ((m.log2 + e) * 30103).fdiv 100000 + 1
  if tenTo low.toNat * twoTo (-e).toNat ≤ m * twoTo e.toNat * tenTo (-low).toNat then low + 1
  else low

/-- The neighbour of `m * 2 ^ e` among the multiples of `10 ^ j` that rounds to it, if one does;
the nearer one if both do. The ends of the interval are counted in quarters of the distance to
the next double; the one below is half as far if `m` is the least significand of its exponent. -/
def neighbour? (tie : Tie) (m : Nat) (e j : Int) : Option Nat :=
  let scale := twoTo e.toNat * tenTo (-j).toNat
  let unit := twoTo (-e).toNat * tenTo j.toNat
  let gap := if m = Binary64.leadingBit ∧ e ≠ Binary64.minExponent then 1 else 2
  let low := (4 * m - gap) * scale
  let high := (4 * m + 2) * scale
  let rounds (c : Nat) : Bool :=
    if m % 2 = 0 then low ≤ 4 * c * unit && 4 * c * unit ≤ high
    else low < 4 * c * unit && 4 * c * unit < high
  let c := m * scale / unit
  match rounds c, rounds (c + 1) with
  | true, true =>
    let below := m * scale - c * unit
    let above := (c + 1) * unit - m * scale
    if below < above then some c
    else if above < below then some (c + 1)
    else match tie with
      | .up => some (c + 1)
      | .toEven => if c % 2 = 0 then some c else some (c + 1)
  | true, false => some c
  | false, true => some (c + 1)
  | false, false => none

/-- The digits found on the first of the grids with `n`, `n + 1`, … digits that has a neighbour
rounding to `m * 2 ^ e`; `grids` of them are tried before the number is cut off. -/
def shortestFrom (tie : Tie) (m : Nat) (e k : Int) : (grids n : Nat) → Scaled
  | 0, n =>
    ⟨m * twoTo e.toNat * tenTo (n - k).toNat / (twoTo (-e).toNat * tenTo (k - n).toNat), k - n⟩
  | grids + 1, n =>
    match neighbour? tie m e (k - n) with
    | some d => if d = tenTo n then ⟨1, k⟩ else ⟨d, k - n⟩
    | none => shortestFrom tie m e k grids (n + 1)

/-- The fewest digits that read back as `m * 2 ^ e`, and of those the nearest to it. Seventeen
digits always suffice. -/
def shortest (tie : Tie) (m : Nat) (e : Int) : Scaled :=
  if m = 0 then ⟨0, 0⟩ else shortestFrom tie m e (magnitude m e) 17 1

end LoxLang.Decimal
