import LoxLang.Proofs.Printing.Packing
import LoxLang.Proofs.Printing.Rounding
/-!
Numbers read back. What the text of a finite double stands for rounds to the double, and reading rounds: digits
and powers of ten that are doubles themselves are divided or multiplied as doubles, longer ones as whole
numbers, and what is far too small for any double is not reckoned with at all.

What is proved:
1. the digits that are few enough and the powers of ten in the table are doubles (`toFloat_eq`, `power_eq`);
2. digits and a power of ten are read as the double that they round to (`nearest_eq`), and so is a numeral
   (`ofText?_numeral`);
3. the text of a finite double is read as the double (`Literal.ofText?_render`), so that finite doubles with
   the same text are the same (`Literal.render_injective`).
-/
namespace LoxLang

namespace Decimal

open Float.Model Float.Model.UnpackedFloat
open Binary64 (minExponent leadingBit)
open Lexical (Digits Numeral)

variable {m N k : Nat} {e : Int} {q : Rat} {negative : Bool}

def doubleOf (negative : Bool) (m : Nat) (e : Int) (some : 0 < m) : Float :=
  .ofModel (pack (.finite (sign negative) m e some))

theorem unpack_doubleOf (canonical : Canonical m e) (some : 0 < m) :
    (doubleOf negative m e some).toModel.unpack = .finite (sign negative) m e some := by
  rw [unpack_eq, doubleOf, ofFloat_pack canonical some]
  exact dif_neg some.ne'

theorem eq_doubleOf {x : Float} (finite : x.isFinite = true) (parts : Binary64.ofFloat x = .finite negative m e)
    (canonical : Canonical m e) (some : 0 < m) : x = doubleOf negative m e some := by
  refine Binary64.eq_of_ofFloat finite ?_ (parts.trans (ofFloat_pack canonical some).symm)
  show (doubleOf negative m e some).toModel.unpack.isFinite = true
  rw [unpack_doubleOf canonical some]
  rfl

theorem neg_doubleOf (canonical : Canonical m e) (some : 0 < m) :
    -doubleOf false m e some = doubleOf true m e some := by
  show Float.ofModel (pack (doubleOf false m e some).toModel.unpack.neg) = _
  rw [unpack_doubleOf canonical some]
  rfl

/-! Doubles that are whole numbers -/

/-- A whole number of no more bits than a double has is one. -/
theorem toFloat_eq (given : 0 < N) (small : N < 2 * leadingBit) :
    ∃ m e some, Canonical m e ∧ leadingBit ≤ m ∧ (m : Rat) * 2 ^ e = N ∧
      N.toUInt64.toFloat = doubleOf false m e some := by
  have bits : N.log2 < 53 := (Nat.log2_lt given.ne').mpr small
  -- Shifted left by `n`, the number has as many bits as the significand of a double.
  obtain ⟨n, shift⟩ : ∃ n, n = 52 - N.log2 := ⟨_, rfl⟩
  have full : leadingBit ≤ N * 2 ^ n := by
    calc leadingBit = 2 ^ N.log2 * 2 ^ n := by rw [← pow_add, show N.log2 + n = 52 by omega]; rfl
      _ ≤ N * 2 ^ n := Nat.mul_le_mul_right _ (Nat.log2_self_le given.ne')
  have fits : N * 2 ^ n < 2 * leadingBit := by
    calc N * 2 ^ n < 2 ^ (N.log2 + 1) * 2 ^ n := Nat.mul_lt_mul_of_pos_right Nat.lt_log2_self (by positivity)
      _ = 2 * leadingBit := by rw [← pow_add, show N.log2 + 1 + n = 53 by omega]; rfl
  have canonical : Canonical (N * 2 ^ n) (-n) :=
    ⟨fits, by rw [minExponent]; omega, by omega, fun _ => full⟩
  have some : 0 < N * 2 ^ n := by positivity
  have value : ((N * 2 ^ n : Nat) : Rat) * 2 ^ (-n : Int) = N := by
    rw [zpow_neg, zpow_natCast]
    push_cast
    field_simp
  have rounds : Rounds (N * 2 ^ n) (-n) (N * 2 ^ (0 : Int)) := by
    rw [zpow_zero, mul_one, ← value]
    exact .self _ _
  refine ⟨_, _, some, canonical, full, value, ?_⟩
  have small64 : N.toUInt64.toNat = N := by
    rw [leadingBit_eq] at small
    exact Nat.mod_eq_of_lt (by omega)
  have converted : UnpackedFloat.ofNat Format.binary64 N = round Format.binary64 .positive N 0 := by
    cases N with
    | zero => cases given
    | succ _ => rfl
  show Float.ofModel (pack (UnpackedFloat.ofNat Format.binary64 N.toUInt64.toNat)) = _
  rw [small64, converted, round_eq given canonical.regular some rounds]
  rfl

def isPower (k : Nat) (x : Float) : Bool :=
  match Binary64.ofFloat x with
  | .finite false m e => leadingBit ≤ m && 1 * unit e k == m * scale e k
  | _ => false

theorem of_isPower {x : Float} (is : isPower k x = true) :
    ∃ m e, Binary64.ofFloat x = .finite false m e ∧ leadingBit ≤ m ∧ (m : Rat) * 2 ^ e = 10 ^ k := by
  unfold isPower at is
  split at is
  · rename_i m e parts
    obtain ⟨full, same⟩ := Bool.and_eq_true_iff.mp is
    have same := eq_of_beq same
    have below := le_unit_iff.mp same.ge
    have above := le_scale_iff.mp same.le
    rw [Nat.cast_one, one_mul, zpow_natCast] at below above
    exact ⟨m, e, parts, of_decide_eq_true full, le_antisymm below above⟩
  · cases is

theorem all_isPower : ∀ k : Fin Float.exactlyRepresentablePowersOfTen.size,
    isPower k Float.exactlyRepresentablePowersOfTen[k] = true := by
  decide +kernel

/-- The powers of ten that are doubles are in the table. -/
theorem power_eq (small : k < Float.exactlyRepresentablePowersOfTen.size) :
    ∃ m e some, leadingBit ≤ m ∧ (m : Rat) * 2 ^ e = 10 ^ k ∧
      Float.exactlyRepresentablePowersOfTen[k].toModel.unpack = .finite .positive m e some := by
  obtain ⟨m, e, parts, full, value⟩ := of_isPower (all_isPower ⟨k, small⟩)
  have parts : Binary64.ofFloat Float.exactlyRepresentablePowersOfTen[k] = .finite false m e := parts
  have some : 0 < m := Nat.lt_of_lt_of_le (by decide) full
  refine ⟨m, e, some, full, value, ?_⟩
  rw [unpack_eq, parts]
  exact dif_neg some.ne'

/-! Reading -/

/-- Digits and a power of ten that a quotient is rounded from. -/
theorem ofScientific_div (canonical : Canonical m e) (some : 0 < m) (given : 0 < N) (divides : 0 < k)
    (bounded : k ≤ 2048 + N.log2) (rounds : Rounds m e (N / 10 ^ k)) :
    Float.ofScientific N true k = doubleOf false m e some := by
  unfold Float.ofScientific
  split
  -- Few digits are divided by a power of ten that is in the table, both exactly doubles.
  · rename_i few
    have small : k < Float.exactlyRepresentablePowersOfTen.size := Nat.lt_succ_of_le few.2
    obtain ⟨a, b, someA, canonicalA, fullA, valueA, whole⟩ := toFloat_eq given few.1
    obtain ⟨c, d, someC, fullC, valueC, power⟩ := power_eq small
    have value : (N : Rat) / 10 ^ k = a * 2 ^ b / (c * 2 ^ d) := by rw [valueA, valueC]
    rw [value] at rounds
    show Float.ofModel (pack (div Format.binary64 N.toUInt64.toFloat.toModel.unpack
      Float.exactlyRepresentablePowersOfTen[k].toModel.unpack)) = _
    rw [whole, unpack_doubleOf canonicalA someA, power, div_eq someA someC canonical.regular some rounds]
    rfl
  -- Many digits are divided as whole numbers, and the quotient is rounded.
  · have value : (N : Rat) / 10 ^ k =
        N * 2 ^ (0 : Int) / ((10 ^ (- -(k : Int)).toNat : Nat) * 2 ^ (0 : Int)) := by
      rw [neg_neg, Int.toNat_natCast]
      simp
    have exponent : Int.negOfNat k = -(k : Int) := Int.negOfNat_eq
    have range : (2 : Int) ^ Format.binary64.exponentBits = 2048 := rfl
    rw [value] at rounds
    show Float.ofModel (pack (UnpackedFloat.ofScientific Format.binary64 N (Int.negOfNat k))) = _
    delta UnpackedFloat.ofScientific
    rw [exponent, range, dif_neg given.ne', if_neg (by omega), if_neg (by omega), if_neg (by omega)]
    exact congrArg (Float.ofModel ∘ pack) (div_eq given _ canonical.regular some rounds)

theorem ofScientific_whole (canonical : Canonical m e) (some : 0 < m) (given : 0 < N) (rounds : Rounds m e N) :
    Float.ofScientific N false 0 = doubleOf false m e some := by
  unfold Float.ofScientific
  split
  · rename_i few
    obtain ⟨a, b, someA, canonicalA, fullA, valueA, whole⟩ := toFloat_eq given few.1
    obtain ⟨c, d, someC, fullC, valueC, power⟩ := power_eq (show 0 < _ by decide)
    have value : (N : Rat) = a * 2 ^ b * (c * 2 ^ d) := by rw [valueA, valueC, pow_zero, mul_one]
    rw [value] at rounds
    have full : leadingBit ≤ a * c := fullA.trans (Nat.le_mul_of_pos_right a someC)
    show Float.ofModel (pack (mul Format.binary64 N.toUInt64.toFloat.toModel.unpack
      Float.exactlyRepresentablePowersOfTen[0].toModel.unpack)) = _
    rw [whole, unpack_doubleOf canonicalA someA, power, mul_eq someA someC full canonical.regular some rounds]
    rfl
  · have value : (N : Rat) = (N <<< 53 : Nat) * 2 ^ (-53 : Int) * ((10 ^ 0 : Nat) * 2 ^ (0 : Int)) := by
      rw [Nat.shiftLeft_eq, zpow_neg]
      push_cast
      field_simp
    rw [value] at rounds
    have full : leadingBit ≤ N <<< 53 * 10 ^ 0 := by
      rw [Nat.shiftLeft_eq, pow_zero, leadingBit_eq]
      omega
    have inRange : ¬ Int.ofNat 0 < -((2 : Int) ^ Format.binary64.exponentBits + N.log2) := by
      rw [show (2 : Int) ^ Format.binary64.exponentBits = 2048 from rfl]
      exact Int.not_lt.mpr (by rw [Int.ofNat_eq_natCast]; omega)
    show Float.ofModel (pack (UnpackedFloat.ofScientific Format.binary64 N (Int.ofNat 0))) = _
    delta UnpackedFloat.ofScientific
    rw [dif_neg given.ne', if_neg (by decide), if_neg inRange, if_pos (by decide)]
    exact congrArg (Float.ofModel ∘ pack) (mul_eq _ _ full canonical.regular some rounds)

theorem two_le_sub_gap (some : 0 < m) : gap m e + 2 ≤ 4 * m := by
  rcases gap_cases m e with ⟨one, -⟩ | two <;> omega

/-- What rounds to a double that is not zero is not less than half of the least one. -/
theorem Rounds.least_le (rounds : Rounds m e q) (regular : Regular m e) (some : 0 < m) :
    (2 : Rat) ^ (-1075 : Int) ≤ q := by
  have least : (2 : Rat) ^ (-1074 : Int) ≤ 2 ^ e := zpow_le_zpow_right₀ (by norm_num) regular.least
  have two : (2 : Rat) ≤ 4 * m - gap m e := by
    have : ((gap m e + 2 : Nat) : Rat) ≤ (4 * m : Nat) := by exact_mod_cast two_le_sub_gap some
    push_cast at this
    linarith
  have half : (2 : Rat) ^ (-1074 : Int) = 2 * 2 ^ (-1075 : Int) := by
    rw [mul_comm, ← zpow_add_one₀ two_ne_zero]
    norm_num
  have positive : (0 : Rat) < 2 ^ e := by positivity
  have low := rounds.low
  have scaled := mul_le_mul_of_nonneg_right two positive.le
  linarith

theorem two_pow_le_ten_pow (n : Nat) : 2 ^ (3 * n) ≤ 10 ^ n := by
  rw [pow_mul]
  exact Nat.pow_le_pow_left (by decide) n

/-- What is far below the least double rounds to none but zero. -/
theorem bounded_of_rounds (rounds : Rounds m e (N / 10 ^ k)) (regular : Regular m e) (some : 0 < m) :
    0 < N ∧ k ≤ 400 + (N.log2 / 3 + 1) := by
  obtain ⟨b, bits⟩ : ∃ b, b = 1075 := ⟨_, rfl⟩
  have least : (2 : Rat) ^ (-b : Int) ≤ N / 10 ^ k := by
    rw [bits]
    exact rounds.least_le regular some
  have reached : 10 ^ k ≤ 2 ^ b * N := by
    rw [le_div_iff₀ (by positivity), zpow_neg, inv_mul_le_iff₀ (by positivity)] at least
    exact_mod_cast least
  have given : 0 < N := by
    refine Nat.pos_of_ne_zero fun none => ?_
    rw [none, Nat.mul_zero] at reached
    exact absurd reached (Nat.not_le_of_lt (by positivity))
  refine ⟨given, ?_⟩
  by_contra many
  have short : N < 10 ^ (N.log2 / 3 + 1) := by
    calc N < 2 ^ (N.log2 + 1) := Nat.lt_log2_self
      _ ≤ 2 ^ (3 * (N.log2 / 3 + 1)) := Nat.pow_le_pow_right (by decide) (by omega)
      _ ≤ 10 ^ (N.log2 / 3 + 1) := two_pow_le_ten_pow _
  have small : 2 ^ b * N < 10 ^ k := by
    calc 2 ^ b * N < 2 ^ b * 10 ^ (N.log2 / 3 + 1) := Nat.mul_lt_mul_of_pos_left short (by positivity)
      _ ≤ 2 ^ (3 * (k - (N.log2 / 3 + 1))) * 10 ^ (N.log2 / 3 + 1) :=
        Nat.mul_le_mul_right _ (Nat.pow_le_pow_right (by decide) (by omega))
      _ ≤ 10 ^ (k - (N.log2 / 3 + 1)) * 10 ^ (N.log2 / 3 + 1) := Nat.mul_le_mul_right _ (two_pow_le_ten_pow _)
      _ = 10 ^ k := by rw [← pow_add, Nat.sub_add_cancel (by omega)]
  exact absurd reached (Nat.not_le_of_lt small)

/-- What rounds to a double is read as that double. -/
theorem nearest_eq (canonical : Canonical m e) (some : 0 < m) (rounds : Rounds m e (N / 10 ^ k)) :
    nearest N (-k) = doubleOf false m e some := by
  obtain ⟨given, bounded⟩ := bounded_of_rounds rounds canonical.regular some
  unfold nearest
  dsimp only
  rw [if_neg given.ne', if_neg (by omega), if_neg (by omega)]
  rcases Nat.eq_zero_or_pos k with rfl | divides
  · rw [pow_zero, div_one] at rounds
    exact ofScientific_whole canonical some given rounds
  · rw [if_pos (by omega), Int.natAbs_neg, Int.natAbs_natCast]
    exact ofScientific_div canonical some given divides (by omega) rounds

/-- A numeral is read as the double that what it stands for rounds to. -/
theorem ofText?_numeral {cs : List Char} (numeral : Numeral cs) (canonical : Canonical m e) (some : 0 < m)
    (rounds : Rounds m e (textValue cs)) : ofText? (String.ofList cs) = .some (doubleOf false m e some) := by
  rw [ofText?_eq numeral]
  rcases numeral with given | ⟨whole, fraction, given, given', rfl⟩
  · rw [textValue_digits given] at rounds
    have rounds : Rounds m e ((value cs : Nat) / 10 ^ 0) := by rwa [pow_zero, div_one]
    rw [unsigned?_digits given, ofDigits, List.append_nil]
    exact congrArg _ (nearest_eq canonical some rounds)
  · rw [textValue_point given] at rounds
    rw [unsigned?_point given given', ofDigits]
    exact congrArg _ (nearest_eq canonical some rounds)

theorem magnitude_zero (e : Int) : Literal.numberLayout.magnitude 0 e = ['0'] := by
  rcases magnitude_cases 0 e with ⟨n, whole, text⟩ | ⟨some, -⟩
  · have none : n = 0 := by
      rw [Nat.cast_zero, zero_mul] at whole
      exact_mod_cast whole
    rw [text, none]
    rfl
  · cases some

end Decimal

namespace Literal

open Decimal

/-- A finite number is read back from its text. -/
theorem ofText?_render {x : Float} (finite : x.isFinite = true) :
    Decimal.ofText? (numberLayout.render x) = some x := by
  obtain ⟨negative, m, e, parts, canonical, text⟩ := render_eq finite
  have text : numberLayout.render x =
      String.ofList ((if negative then ['-'] else []) ++ numberLayout.magnitude m e) := by
    rw [← text, String.ofList_toList]
  rcases Nat.eq_zero_or_pos m with rfl | more
  · have least : e = Binary64.minExponent := by
      by_contra other
      exact absurd (canonical.normal other) (by decide)
    have zero : ∃ y, Decimal.ofText? (numberLayout.render x) = some y ∧ y.isFinite = true ∧
        Binary64.ofFloat y = .finite negative 0 Binary64.minExponent := by
      rw [text, magnitude_zero]
      cases negative
      · exact ⟨_, rfl, by decide +kernel, by decide +kernel⟩
      · exact ⟨_, rfl, by decide +kernel, by decide +kernel⟩
    obtain ⟨y, reads, finite', parts'⟩ := zero
    rw [reads, Binary64.eq_of_ofFloat finite' finite (by rw [parts, parts', least])]
  · obtain ⟨numeral, rounds⟩ := magnitude_rounds canonical
    have reads := ofText?_numeral numeral canonical more rounds
    rw [text, eq_doubleOf finite parts canonical more]
    cases negative with
    | false => exact reads
    | true =>
      show Decimal.ofText? (String.ofList ('-' :: numberLayout.magnitude m e)) = _
      rw [ofText?_minus numeral, ← ofText?_eq numeral, reads, Option.map_some, neg_doubleOf canonical more]

/-- Different doubles have different texts. -/
theorem render_injective {x y : Float} (finite : x.isFinite = true) (finite' : y.isFinite = true)
    (same : numberLayout.render x = numberLayout.render y) : x = y := by
  have reads := ofText?_render finite
  rw [same, ofText?_render finite'] at reads
  exact (Option.some.inj reads).symm

end Literal

end LoxLang
