import LoxLang.Proofs.Printing.Numerals
/-!
Doubles in their bits. The runtime takes a double apart as `Binary64.ofFloat` does, but for zero, which it
keeps apart from the other finite doubles, and puts its bits together of the parts.

What is proved: nothing is lost either way (`ofFloat_pack`, `unpack_eq`).
-/
namespace LoxLang.Decimal

open Float.Model Float.Model.UnpackedFloat
open Binary64 (minExponent leadingBit)

variable {m : Nat} {e : Int}


def sign (negative : Bool) : Sign := if negative then .negative else .positive

/-- A double as the runtime takes it apart. -/
def unpacked : Binary64 → UnpackedFloat
  | .nan => .notANumber
  | .infinite negative => .infinity (sign negative)
  | .finite negative m e =>
    if none : m = 0 then .zero (sign negative) else .finite (sign negative) m e (Nat.pos_of_ne_zero none)

theorem toNat_packComponents (negative : Bool) (biased : BitVec 11) (fraction : BitVec 52) :
    (packComponents Format.binary64 (sign negative) biased fraction).toNat =
      (if negative then Binary64.signBit else 0) + biased.toNat * leadingBit + fraction.toNat := by
  have exponent : biased.toNat < 2 ^ 11 := biased.isLt
  have significand : fraction.toNat < 2 ^ 52 := fraction.isLt
  have bit : (sign negative).toBitVec.toNat = if negative then 1 else 0 := by cases negative <;> rfl
  have all : (packComponents Format.binary64 (sign negative) biased fraction).toNat =
      ((sign negative).toBitVec.toNat <<< 11 ||| biased.toNat) <<< 52 ||| fraction.toNat := by
    rw [packComponents, BitVec.toNat_append, BitVec.toNat_append]
  rw [all, ← Nat.shiftLeft_add_eq_or_of_lt significand, ← Nat.shiftLeft_add_eq_or_of_lt exponent, bit,
    Nat.shiftLeft_eq, Nat.shiftLeft_eq, leadingBit_eq, Binary64.signBit, twoTo_eq]
  cases negative
  · simp only [Bool.false_eq_true, if_false]
    omega
  · simp only [if_true]
    omega

/-- The significand of a double has the leading bit if it has as many bits as that. -/
theorem log2_eq_iff (some : 0 < m) (small : m < 2 * leadingBit) : m.log2 + 1 = 53 ↔ leadingBit ≤ m := by
  have above : m.log2 < 53 := (Nat.log2_lt some.ne').mpr small
  have full : 52 ≤ m.log2 ↔ leadingBit ≤ m := Nat.le_log2 some.ne'
  omega

/-- The bits of a double: its sign, its exponent and its significand without the leading bit. -/
theorem toBits_pack (negative : Bool) (canonical : Canonical m e) (some : 0 < m) :
    (Float.ofModel (pack (.finite (sign negative) m e some))).toBits.toNat =
      (if negative then Binary64.signBit else 0) +
        (if leadingBit ≤ m then (e + 1075).toNat else 0) * leadingBit + m % leadingBit := by
  have least : -1074 ≤ e := canonical.least
  have most := canonical.most
  have exponent : (e + (1023 : Nat) + (52 : Nat)).toNat = (e + 1075).toNat := by omega
  have inRange : ¬ 2 ^ 11 ≤ (e + 1075).toNat + 1 := by omega
  show (if 2 ^ 11 ≤ (e + (1023 : Nat) + (52 : Nat)).toNat + 1 then _
    else if m.log2 + 1 = 53 then packComponents Format.binary64 (sign negative)
      (.ofNat 11 (e + (1023 : Nat) + (52 : Nat)).toNat) (.ofNat 52 m)
    else packComponents Format.binary64 (sign negative) 0#11 (.ofNat 52 m)).toNat = _
  rw [exponent, if_neg inRange]
  by_cases full : leadingBit ≤ m
  · rw [if_pos ((log2_eq_iff some canonical.small).mpr full), if_pos full, toNat_packComponents,
      BitVec.toNat_ofNat, BitVec.toNat_ofNat, Nat.mod_eq_of_lt (by omega)]
    rfl
  · rw [if_neg (mt (log2_eq_iff some canonical.small).mp full), if_neg full, toNat_packComponents,
      BitVec.toNat_ofNat]
    rfl

theorem fields_apart (negative : Bool) {field fraction : Nat} (exponent : field < twoTo 11)
    (significand : fraction < leadingBit) :
    let bits := (if negative then Binary64.signBit else 0) + field * leadingBit + fraction
    bits / leadingBit % twoTo 11 = field ∧ bits % leadingBit = fraction ∧
      decide (Binary64.signBit ≤ bits) = negative := by
  rw [twoTo_eq] at exponent
  rw [leadingBit_eq] at significand
  simp only [leadingBit_eq, Binary64.signBit, twoTo_eq]
  cases negative
  · simp only [Bool.false_eq_true, if_false, decide_eq_false_iff_not]
    omega
  · simp only [if_true, decide_eq_true_eq]
    omega

/-- What the runtime packs is taken apart into the same parts. -/
theorem ofFloat_pack {negative : Bool} (canonical : Canonical m e) (some : 0 < m) :
    Binary64.ofFloat (.ofModel (pack (.finite (sign negative) m e some))) = .finite negative m e := by
  have bits := toBits_pack negative canonical some
  obtain ⟨small, least, most, normal⟩ := canonical
  have low : -1074 ≤ e := least
  have fraction := Nat.mod_lt m (show leadingBit > 0 by decide)
  by_cases full : leadingBit ≤ m
  · have exponent : (e + 1075).toNat < twoTo 11 := by rw [twoTo_eq]; omega
    obtain ⟨fields, fractions, signs⟩ := fields_apart negative exponent fraction
    rw [if_pos full] at bits
    rw [Binary64.ofFloat, bits]
    rw [fields, fractions, signs, if_neg (by omega), if_neg (by omega), Binary64.finite.injEq]
    rw [leadingBit_eq] at *
    exact ⟨rfl, by omega, by omega⟩
  · have lowest : e = minExponent := by
      by_contra other
      exact full (normal other)
    obtain ⟨fields, fractions, signs⟩ := fields_apart negative (show 0 < twoTo 11 by decide) fraction
    rw [if_neg full] at bits
    rw [Binary64.ofFloat, bits]
    rw [fields, fractions, signs, if_neg (by decide), if_pos rfl, Nat.mod_eq_of_lt (Nat.lt_of_not_le full),
      lowest]

/-! The fields of the bits -/

section

variable (bits : UInt64)

theorem toNat_unpackExponent :
    (@unpackExponent Format.binary64 bits.toBitVec).toNat = bits.toNat / leadingBit % twoTo 11 := by
  show (BitVec.extractLsb 62 52 bits.toBitVec).toNat = _
  rw [BitVec.extractLsb_toNat, Nat.shiftRight_eq_div_pow]
  rfl

theorem toNat_unpackMantissa :
    (@unpackMantissa Format.binary64 bits.toBitVec).toNat = bits.toNat % leadingBit := by
  show (BitVec.extractLsb 51 0 bits.toBitVec).toNat = _
  rw [BitVec.extractLsb_toNat, Nat.shiftRight_eq_div_pow, pow_zero, Nat.div_one]
  rfl

theorem ofBitVec_unpackSign : Sign.ofBitVec (@unpackSign Format.binary64 bits.toBitVec) =
    sign (decide (Binary64.signBit ≤ bits.toNat)) := by
  have whole := bits.toNat_lt
  have bit : (@unpackSign Format.binary64 bits.toBitVec).toNat = bits.toNat / 2 ^ 63 % 2 := by
    show (BitVec.extractLsb 63 63 bits.toBitVec).toNat = _
    rw [BitVec.extractLsb_toNat, Nat.shiftRight_eq_div_pow]
    rfl
  have clear : @unpackSign Format.binary64 bits.toBitVec = 0#1 ↔ ¬ Binary64.signBit ≤ bits.toNat := by
    rw [← BitVec.toNat_inj, bit, Binary64.signBit, twoTo_eq]
    show _ = 0 ↔ _
    omega
  rw [Sign.ofBitVec, sign]
  by_cases negative : Binary64.signBit ≤ bits.toNat
  · rw [if_neg fun zero => clear.mp zero negative, decide_eq_true negative, if_pos rfl]
  · rw [if_pos (clear.mpr negative), decide_eq_false negative, if_neg Bool.false_ne_true]

end

/-- The runtime takes a double apart into the same parts. -/
theorem unpack_eq (x : Float) : x.toModel.unpack = unpacked (Binary64.ofFloat x) := by
  obtain ⟨⟨bits, valid⟩⟩ := x
  have exponent := toNat_unpackExponent bits
  have fraction := toNat_unpackMantissa bits
  -- The three cases of the exponent are told apart by the same numbers on both sides.
  have special : @unpackExponent Format.binary64 bits.toBitVec = -1#11 ↔
      bits.toNat / leadingBit % twoTo 11 = 2047 := by
    rw [← BitVec.toNat_inj, exponent]
    exact Iff.rfl
  have subnormal : @unpackExponent Format.binary64 bits.toBitVec = 0#11 ↔
      bits.toNat / leadingBit % twoTo 11 = 0 := by
    rw [← BitVec.toNat_inj, exponent]
    exact Iff.rfl
  have none : @unpackMantissa Format.binary64 bits.toBitVec = 0#52 ↔ bits.toNat % leadingBit = 0 := by
    rw [← BitVec.toNat_inj, fraction]
    exact Iff.rfl
  have given : Float.toBits ⟨⟨bits, valid⟩⟩ = bits := rfl
  show UnpackedFloat.unpack Format.binary64 bits.toBitVec = unpacked (Binary64.ofFloat ⟨⟨bits, valid⟩⟩)
  rw [Binary64.ofFloat, given]
  delta UnpackedFloat.unpack
  dsimp only
  rw [ofBitVec_unpackSign]
  by_cases special' : bits.toNat / leadingBit % twoTo 11 = 2047
  · rw [if_pos (special.mpr special'), if_pos special']
    by_cases none' : bits.toNat % leadingBit = 0
    · rw [if_pos (none.mpr none'), if_pos none']
      rfl
    · rw [if_neg (mt none.mp none'), if_neg none']
      rfl
  rw [if_neg (mt special.mp special'), if_neg special']
  by_cases subnormal' : bits.toNat / leadingBit % twoTo 11 = 0
  · rw [if_pos (subnormal.mpr subnormal'), if_pos subnormal']
    by_cases none' : bits.toNat % leadingBit = 0
    · rw [dif_pos (none.mpr none'), unpacked, dif_pos none']
    · rw [dif_neg (mt none.mp none'), unpacked, dif_neg none', UnpackedFloat.finite.injEq]
      refine ⟨rfl, fraction, ?_⟩
      rw [exponent, subnormal']
      rfl
  · rw [if_neg (mt subnormal.mp subnormal'), if_neg subnormal', unpacked,
      dif_neg (by rw [leadingBit_eq]; omega), UnpackedFloat.finite.injEq]
    refine ⟨rfl, ?_, ?_⟩
    · have fits : bits.toNat % leadingBit < 2 ^ 52 := Nat.mod_lt _ (by decide)
      rw [BitVec.toNat_append, fraction, ← Nat.shiftLeft_add_eq_or_of_lt fits]
      rfl
    · rw [exponent]
      rfl

end LoxLang.Decimal
