/-!
Reading decimal numerals as doubles, correctly rounded. `ofDigits` reads the numerals of
programs (digits and an optional fraction); `ofText?` reads in addition signs, exponents and the
names of the values that have no digits.
-/
namespace LoxLang.Decimal

/-- The number that a list of decimal digits stands for. -/
def value (ds : List Char) : Nat :=
  ds.foldl (fun n c => 10 * n + (c.toNat - '0'.toNat)) 0

/-- The double nearest to `m * 10 ^ e`. Exponents far outside the doubles' range are settled
without computing the power. -/
def nearest (m : Nat) (e : Int) : Float :=
  let size := m.log2 / 3 + 1
  if m = 0 then 0.0
  else if e < -400 - (size : Int) then 0.0
  else if 400 < e then 1.0 / 0.0
  else if e < 0 then Float.ofScientific m true e.natAbs
  else Float.ofScientific m false e.natAbs

/-- The double nearest to `whole.fraction`. -/
def ofDigits (whole fraction : List Char) : Float :=
  nearest (value (whole ++ fraction)) (-(fraction.length : Int))

/-- The digits and the sign of an exponent: `7`, `+7`, `-7`. -/
def exponent? (cs : List Char) : Option Int :=
  let (negative, ds) := match cs with
    | '-' :: r => (true, r)
    | '+' :: r => (false, r)
    | r => (false, r)
  if ds.isEmpty || !ds.all Char.isDigit then none
  else some (if negative then -(value ds : Int) else value ds)

/-- A numeral without sign: digits with an optional point among or around them, and an optional
exponent. -/
def unsigned? (cs : List Char) : Option Float :=
  let (whole, r) := cs.span Char.isDigit
  let (fraction, r) := match r with
    | '.' :: r => r.span Char.isDigit
    | r => ([], r)
  if whole.isEmpty && fraction.isEmpty then none
  else
    let scale : Option Int := match r with
      | [] => some 0
      | c :: r => if c = 'e' ∨ c = 'E' then exponent? r else none
    scale.map fun e => nearest (value (whole ++ fraction)) (e - fraction.length)

/-- The double that a text names: a numeral with an optional sign, or one of the words `inf`,
`infinity` and `nan` in letters of any case. -/
def ofText? (s : String) : Option Float :=
  let (negative, cs) := match s.toList with
    | '-' :: r => (true, r)
    | '+' :: r => (false, r)
    | r => (false, r)
  let word := String.ofList (cs.map Char.toLower)
  let size :=
    if word = "inf" ∨ word = "infinity" then some (1.0 / 0.0)
    else if word = "nan" then some (0.0 / 0.0)
    else unsigned? cs
  size.map fun x => if negative then -x else x

end LoxLang.Decimal
