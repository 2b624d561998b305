import Mathlib.Data.List.TakeWhile
import Mathlib.Data.Nat.Cast.Field
import LoxLang.Proofs.Printing.Shortest
import LoxLang.Proofs.Scanning.Longest
import LoxLang.Syntax.Forms
/-!
How numbers are written in the forms of expressions. A finite double is written as a numeral, with a minus
sign in front if it has one; what the numeral stands for rounds to the double, so that the text tells the
double.

What is proved:
1. a finite double is given by its parts (`Binary64.finite_of_isFinite`, `Binary64.eq_of_ofFloat`);
2. the text of decimal digits stands for the number that they were made of (`textValue_positional`);
3. the text of a finite double is a numeral, maybe with a sign in front (`Literal.render_eq`), and what the
   numeral stands for rounds to the double (`magnitude_rounds`).
-/
namespace LoxLang

open Lexical (Digits Numeral)

namespace Decimal

namespace Binary64

open Float.Model

theorem biased_of_isFinite {x : Float} (finite : x.isFinite = true) :
    x.toBits.toNat / leadingBit % twoTo 11 ≠ 2047 := by
  intro biased
  have exponent : @UnpackedFloat.unpackExponent Format.binary64 x.toBits.toBitVec = -1#11 := by
    apply BitVec.eq_of_toNat_eq
    show (BitVec.extractLsb 62 52 x.toBits.toBitVec).toNat = 2047
    rw [BitVec.extractLsb_toNat, Nat.shiftRight_eq_div_pow]
    exact biased
  have unpacked : (UnpackedFloat.unpack Format.binary64 x.toBits.toBitVec).isFinite = true := finite
  delta UnpackedFloat.unpack at unpacked
  dsimp only at unpacked
  rw [if_pos exponent] at unpacked
  split at unpacked <;> cases unpacked

theorem finite_of_isFinite {x : Float} (finite : x.isFinite = true) :
    ∃ negative m e, ofFloat x = .finite negative m e ∧ Canonical m e := by
  have biased := biased_of_isFinite finite
  have bits := x.toBits.toNat_lt
  unfold ofFloat
  dsimp only
  rw [if_neg biased]
  split
  · refine ⟨_, _, _, rfl, ?_, le_refl _, by decide, fun other => absurd rfl other⟩
    have := Nat.mod_lt x.toBits.toNat (show 0 < leadingBit by decide)
    omega
  · rename_i normal
    have fraction := Nat.mod_lt x.toBits.toNat (show 0 < leadingBit by decide)
    have exponent := Nat.mod_lt (x.toBits.toNat / leadingBit) (show 0 < twoTo 11 by decide)
    rw [twoTo_eq] at *
    refine ⟨_, _, _, rfl, by omega, ?_, by omega, fun _ => Nat.le_add_right _ _⟩
    show (-1074 : Int) ≤ _
    omega

theorem eq_of_toBits {x y : Float} (same : x.toBits = y.toBits) : x = y := by
  obtain ⟨⟨bits, valid⟩⟩ := x
  obtain ⟨⟨bits', valid'⟩⟩ := y
  have same : bits = bits' := same
  subst same
  rfl

theorem eq_of_ofFloat {x y : Float} (finite : x.isFinite = true) (finite' : y.isFinite = true)
    (same : ofFloat x = ofFloat y) : x = y := by
  have biased := biased_of_isFinite finite
  have biased' := biased_of_isFinite finite'
  have bits := x.toBits.toNat_lt
  have bits' := y.toBits.toNat_lt
  unfold ofFloat at same
  dsimp only at same
  rw [if_neg biased, if_neg biased'] at same
  have equal : x.toBits.toNat = y.toBits.toNat := by
    simp only [signBit, leadingBit, minExponent, twoTo_eq] at same biased biased'
    generalize x.toBits.toNat = a at *
    generalize y.toBits.toNat = b at *
    by_cases low : a / 2 ^ 52 % 2 ^ 11 = 0 <;> by_cases low' : b / 2 ^ 52 % 2 ^ 11 = 0 <;>
      simp only [low, low', if_true, if_false, Binary64.finite.injEq] at same <;>
      (have sign := decide_eq_decide.mp same.1; omega)
  exact eq_of_toBits (UInt64.toNat_inj.mp equal)

/-- A double that is whole is the number that it is said to be. -/
theorem whole?_eq {negative : Bool} {m n : Nat} {e : Int} (whole : (finite negative m e).whole? = some n) :
    (n : Rat) = m * 2 ^ e := by
  cases e with
  | ofNat k =>
    cases whole
    rw [twoTo_eq, Int.ofNat_eq_natCast, zpow_natCast]
    push_cast
    rfl
  | negSucc k =>
    unfold whole? at whole
    dsimp only at whole
    split at whole
    · rename_i divides
      cases whole
      rw [twoTo_eq] at *
      rw [Nat.cast_div (Nat.dvd_of_mod_eq_zero divides) (by positivity), zpow_negSucc]
      push_cast
      rw [div_eq_mul_inv]
    · cases whole

theorem ne_zero_of_whole? {negative : Bool} {m : Nat} {e : Int}
    (none : (finite negative m e).whole? = none) : m ≠ 0 := by
  rintro rfl
  cases e with
  | ofNat k => cases none
  | negSucc k =>
    unfold whole? at none
    dsimp only at none
    rw [Nat.zero_mod, if_pos rfl] at none
    cases none

end Binary64

/-! Texts of digits -/

theorem digits_digits (n : Nat) : Digits (digits n) :=
  ⟨Nat.toDigits_ne_nil, fun _ mem => Nat.isDigit_of_mem_toDigits (by decide) (by decide) mem⟩

theorem value_digits (n : Nat) : value (digits n) = n :=
  Nat.ofDigitChars_toDigits (by decide) (by decide)

theorem value_append (a b : List Char) : value (a ++ b) = 10 ^ b.length * value a + value b := by
  have whole : value (a ++ b) = Nat.ofDigitChars 10 b (value a) := Nat.ofDigitChars_append 0
  rw [whole, Nat.ofDigitChars_eq_ofDigitChars_zero]
  rfl

theorem value_replicate (n : Nat) : value (List.replicate n '0') = 0 := by
  have zeros : value (List.replicate n '0') = 10 ^ n * 0 := Nat.ofDigitChars_replicate_zero
  rw [zeros, Nat.mul_zero]

/-- The number that a text stands for, which has digits and maybe a point among them. -/
def textValue (cs : List Char) : Rat :=
  let fraction := (cs.dropWhile Char.isDigit).drop 1
  value (cs.takeWhile Char.isDigit ++ fraction) / 10 ^ fraction.length

theorem textValue_digits {whole : List Char} (h : Digits whole) : textValue whole = value whole := by
  have front := List.takeWhile_eq_self_iff.mpr h.2
  have rest := List.dropWhile_eq_nil_iff.mpr h.2
  simp [textValue, front, rest]

theorem textValue_point {whole : List Char} (h : Digits whole) (fraction : List Char) :
    textValue (whole ++ '.' :: fraction) = value (whole ++ fraction) / 10 ^ fraction.length := by
  have front : (whole ++ '.' :: fraction).takeWhile Char.isDigit = whole := by
    rw [List.takeWhile_append_of_pos h.2]
    simp
  have rest : (whole ++ '.' :: fraction).dropWhile Char.isDigit = '.' :: fraction := by
    rw [List.dropWhile_append_of_pos h.2]
    rfl
  simp [textValue, front, rest]

/-- Digits that are taken apart or have zeros put to them are digits, as long as any are left. -/
theorem digits_of_mem {cs ds : List Char} (h : Digits cs) (some : 0 < ds.length)
    (among : ∀ c ∈ ds, c = '0' ∨ c ∈ cs) : Digits ds := by
  refine ⟨List.ne_nil_of_length_pos some, fun c mem => ?_⟩
  rcases among c mem with rfl | given
  · rfl
  · exact h.2 c given

/-- A decimal that is written without an exponent is a numeral, and stands for what the decimal does. -/
theorem textValue_positional (d : Scaled) :
    Numeral (positional "" d) ∧ textValue (positional "" d) = d.value := by
  have given := digits_digits d.digits
  have known := value_digits d.digits
  obtain ⟨n, exponent⟩ := d
  unfold positional Scaled.value
  dsimp only at given known ⊢
  generalize digits n = ds at given known
  have some := List.length_pos_iff.mpr given.1
  cases exponent with
  | ofNat e =>
    have all : Digits (ds ++ List.replicate e '0' ++ "".toList) := by
      refine digits_of_mem given (by simp [some]) fun c mem => ?_
      rw [String.toList_empty, List.append_nil, List.mem_append, or_comm] at mem
      exact mem.imp_left List.eq_of_mem_replicate
    refine ⟨.inl all, ?_⟩
    rw [textValue_digits all]
    simp [value_append, value_replicate, known, mul_comm]
  | negSucc e =>
    have power : (10 : Rat) ^ (Int.negSucc e) = (10 ^ (e + 1))⁻¹ := zpow_negSucc 10 e
    dsimp only
    split
    · rename_i inside
      -- The point stands among the digits.
      have front : Digits (ds.take (ds.length - (e + 1))) :=
        digits_of_mem given (by rw [List.length_take]; omega) fun _ mem => .inr (List.mem_of_mem_take mem)
      have back : Digits (ds.drop (ds.length - (e + 1))) :=
        digits_of_mem given (by rw [List.length_drop]; omega) fun _ mem => .inr (List.mem_of_mem_drop mem)
      refine ⟨.inr ⟨_, _, front, back, rfl⟩, ?_⟩
      rw [textValue_point front, List.take_append_drop, known, List.length_drop,
        show ds.length - (ds.length - (e + 1)) = e + 1 by omega, power, div_eq_mul_inv]
    · rename_i outside
      have zero : Digits ['0'] := ⟨List.cons_ne_nil _ _, List.forall_mem_singleton.mpr rfl⟩
      have back : Digits (List.replicate (e + 1 - ds.length) '0' ++ ds) :=
        digits_of_mem given (by rw [List.length_append]; omega) fun _ mem =>
          (List.mem_append.mp mem).imp_left List.eq_of_mem_replicate
      refine ⟨.inr ⟨['0'], _, zero, back, rfl⟩, ?_⟩
      have text := textValue_point zero (List.replicate (e + 1 - ds.length) '0' ++ ds)
      rw [List.singleton_append] at text
      rw [text, List.length_append, List.length_replicate,
        show e + 1 - ds.length + ds.length = e + 1 by omega, power, div_eq_mul_inv]
      congr 2
      rw [value_append, value_append, known, value_replicate]
      simp [value]

/-! Texts of doubles -/

section

variable {m : Nat} {e : Int}

/-- A whole double has all its digits, another one the fewest. -/
theorem magnitude_cases (m : Nat) (e : Int) :
    (∃ n : Nat, (n : Rat) = m * 2 ^ e ∧ Literal.numberLayout.magnitude m e = digits n) ∨
      0 < m ∧ Literal.numberLayout.magnitude m e = positional "" (shortest .up m e) := by
  unfold Layout.magnitude
  cases whole : (Binary64.finite false m e).whole? with
  | some n => exact .inl ⟨n, Binary64.whole?_eq whole, List.append_nil _⟩
  | none => exact .inr ⟨Nat.pos_of_ne_zero (Binary64.ne_zero_of_whole? whole), rfl⟩

/-- The text of a double is a numeral and stands for a number that rounds to the double. -/
theorem magnitude_rounds (canonical : Canonical m e) :
    Numeral (Literal.numberLayout.magnitude m e) ∧
      Rounds m e (textValue (Literal.numberLayout.magnitude m e)) := by
  rcases magnitude_cases m e with ⟨n, whole, text⟩ | ⟨some, text⟩
  · have given := digits_digits n
    rw [text, textValue_digits given, value_digits, whole]
    exact ⟨.inl given, .self m e⟩
  · obtain ⟨numeral, stands⟩ := textValue_positional (shortest .up m e)
    rw [text, stands]
    exact ⟨numeral, shortest_rounds .up canonical some⟩

end

end Decimal

namespace Literal

open Decimal

/-- The text of a finite double: a sign, if it has one, and a numeral. -/
theorem render_eq {x : Float} (finite : x.isFinite = true) :
    ∃ negative m e, Binary64.ofFloat x = .finite negative m e ∧ Canonical m e ∧
      (numberLayout.render x).toList =
        (if negative then ['-'] else []) ++ numberLayout.magnitude m e := by
  obtain ⟨negative, m, e, parts, canonical⟩ := Binary64.finite_of_isFinite finite
  refine ⟨negative, m, e, parts, canonical, ?_⟩
  unfold Layout.render
  rw [parts]
  cases negative <;> simp [numberLayout]

end Literal

end LoxLang
