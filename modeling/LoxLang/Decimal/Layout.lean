import LoxLang.Decimal.Shortest
/-!
How a double is written down. `Layout` is the record of the choices of one way of writing, and
`Layout.render` writes a double that way. The ways themselves stand in the modules whose output
they belong to.
-/
namespace LoxLang.Decimal

/-- The choices of one way of writing doubles. -/
structure Layout where
  /-- The text of what is no number. -/
  nan : String
  infinity : String
  negativeInfinity : String
  /-- Zero with a minus sign keeps it. -/
  signedZero : Bool
  /-- Whole numbers have all their digits, not just the fewest that read back. -/
  exactWhole : Bool
  /-- What follows a whole number written without exponent. -/
  wholeSuffix : String
  /-- Which of two equally near decimals is taken. -/
  tie : Tie
  /-- The powers of ten of the first digit that are written without exponent; `none` for all. -/
  positional : Option (Int × Int)
  deriving Repr

def digits (n : Nat) : List Char := Nat.toDigits 10 n

/-- `d` without an exponent; `suffix` follows if it has no digits behind the point. -/
def positional (suffix : String) (d : Scaled) : List Char :=
  match d.exponent with
  | .ofNat e => digits d.digits ++ List.replicate e '0' ++ suffix.toList
  | .negSucc e =>
    let ds := digits d.digits
    let places := e + 1
    if places < ds.length then
      ds.take (ds.length - places) ++ '.' :: ds.drop (ds.length - places)
    else '0' :: '.' :: (List.replicate (places - ds.length) '0' ++ ds)

/-- `d` with one digit in front of the point and a signed exponent. -/
def scientific (d : Scaled) : List Char :=
  let ds := digits d.digits
  let e := d.exponent + (ds.length - 1 : Nat)
  let fraction := if ds.length ≤ 1 then [] else '.' :: ds.drop 1
  ds.take 1 ++ fraction ++ 'e' :: (if e < 0 then '-' else '+') :: digits e.natAbs

namespace Layout

def isPositional (l : Layout) (d : Scaled) : Bool :=
  match l.positional with
  | none => true
  | some (low, high) =>
    let e := d.exponent + ((digits d.digits).length - 1 : Nat)
    low ≤ e && e ≤ high

/-- The number `m * 2 ^ e`. -/
def magnitude (l : Layout) (m : Nat) (e : Int) : List Char :=
  match l.exactWhole, (Binary64.finite false m e).whole? with
  | true, some n => digits n ++ l.wholeSuffix.toList
  | _, _ =>
    let d := shortest l.tie m e
    if l.isPositional d then LoxLang.Decimal.positional l.wholeSuffix d else scientific d

def render (l : Layout) (x : Float) : String :=
  match Binary64.ofFloat x with
  | .nan => l.nan
  | .infinite negative => if negative then l.negativeInfinity else l.infinity
  | .finite negative m e =>
    let sign := if negative && (l.signedZero || m != 0) then ['-'] else []
    String.ofList (sign ++ l.magnitude m e)

end Layout

/-- Whole numbers without a point and the fewest digits, never an exponent. -/
def plain : Layout :=
  ⟨"NaN", "inf", "-inf", true, false, "", .up, none⟩

end LoxLang.Decimal
