import LoxLang.Proofs.Printing.Numerals
/-!
How the runtime rounds. It reckons with significands of more bits than a double has, and keeps two bits more
that tell on which side of the middle the exact number lies behind the last bit. Shifting the significand keeps
what these bits tell (`Stands`), so the significand that is rounded at the end is that of the double that the
exact number rounds to, and no bit is needed of all that was shifted away.

What is proved:
1. what the two bits tell is kept by shifts (`Stands.shiftRight`), and rounding by them goes to the nearest
   significand (`Stands.near`);
2. a number that rounds to a double is rounded to that double (`roundWithAccuracy_eq`);
3. so whole numbers, products and quotients that round to a double come out as it (`round_eq`, `mul_eq`,
   `div_eq`).
-/
namespace LoxLang.Decimal

open Float.Model Float.Model.UnpackedFloat
open Binary64 (minExponent leadingBit)

/-! The round bit and the sticky bit -/

/-- The significand with the bit behind it. -/
def halves (em : ExtendedMantissa) : Nat := 2 * em.mantissa + em.roundBit.toNat

/-- The number is what a significand stands for: with the bit behind it exactly, or with more that comes
behind that bit. -/
def Stands (em : ExtendedMantissa) (e : Int) (q : Rat) : Prop :=
  if em.stickyBit then halves em * 2 ^ e < 2 * q ∧ 2 * q < (halves em + 1) * 2 ^ e
  else 2 * q = halves em * 2 ^ e

variable {em : ExtendedMantissa} {m : Nat} {e : Int} {q : Rat}

theorem halves_shiftRightOne (em : ExtendedMantissa) : halves em.shiftRightOne = em.mantissa := by
  have bit : (em.mantissa % 2 != 0).toNat = em.mantissa % 2 := by
    rcases Nat.mod_two_eq_zero_or_one em.mantissa with even | odd
    · rw [even]
      rfl
    · rw [odd]
      rfl
  rw [halves, ExtendedMantissa.shiftRightOne, bit]
  exact Nat.div_add_mod em.mantissa 2

/-- A shift keeps what the significand stands for: its last bit comes behind it, and the bit that was there joins
those that come behind that bit. -/
theorem Stands.shiftRightOne (h : Stands em e q) : Stands em.shiftRightOne (e + 1) q := by
  have positive : (0 : Rat) < 2 ^ e := by positivity
  have twice : (2 : Rat) ^ (e + 1) = 2 * 2 ^ e := by
    rw [zpow_add_one₀ two_ne_zero, mul_comm]
  obtain ⟨m, round, sticky⟩ := em
  unfold Stands at h ⊢
  rw [halves_shiftRightOne, twice]
  have moved : (ExtendedMantissa.shiftRightOne ⟨m, round, sticky⟩).stickyBit = (round || sticky) := rfl
  rw [moved]
  cases round <;> cases sticky <;>
    simp only [halves, Bool.toNat_false, Bool.toNat_true, Bool.or_false, Bool.or_true, if_true,
      Bool.false_eq_true, if_false] at h ⊢ <;> push_cast at h ⊢
  · linarith
  · constructor <;> linarith [h.1, h.2]
  · constructor <;> linarith
  · constructor <;> linarith [h.1, h.2]

theorem shiftRight_succ (em : ExtendedMantissa) (n : Nat) : em >>> (n + 1) = (em >>> n).shiftRightOne := rfl

/-- Shifts keep what the significand stands for. -/
theorem Stands.shiftRight (h : Stands em e q) (n : Nat) : Stands (em >>> n) (e + n) q := by
  induction n with
  | zero =>
    rw [Nat.cast_zero, add_zero]
    exact h
  | succ n ih =>
    rw [shiftRight_succ, Nat.cast_succ, ← add_assoc]
    exact ih.shiftRightOne

theorem mantissa_shiftRight (em : ExtendedMantissa) (n : Nat) :
    (em >>> n).mantissa = em.mantissa / 2 ^ n := by
  induction n with
  | zero => exact (Nat.div_one _).symm
  | succ n ih =>
    rw [shiftRight_succ, pow_succ, ← Nat.div_div_eq_div_mul, ← ih]
    rfl

/-! The nearest significand -/

/-- The number is at most half a unit of the last place away, and less if the significand is odd. -/
structure Near (m : Nat) (e : Int) (q : Rat) : Prop where
  low : (4 * m - 2) * 2 ^ e ≤ 4 * q
  high : 4 * q ≤ (4 * m + 2) * 2 ^ e
  inside : m % 2 = 1 → (4 * m - 2) * 2 ^ e < 4 * q ∧ 4 * q < (4 * m + 2) * 2 ^ e

theorem Near.of_lt (low : (4 * m - 2) * 2 ^ e < 4 * q) (high : 4 * q < (4 * m + 2) * 2 ^ e) : Near m e q :=
  ⟨low.le, high.le, fun _ => ⟨low, high⟩⟩

theorem Near.of_even (even : m % 2 = 0) (low : (4 * m - 2) * 2 ^ e ≤ 4 * q)
    (high : 4 * q ≤ (4 * m + 2) * 2 ^ e) : Near m e q :=
  ⟨low, high, fun odd => by omega⟩

/-- Rounding by the two bits goes up by one or not at all, to the nearest significand. -/
theorem Stands.near (h : Stands em e q) :
    Near em.roundedMantissa e q ∧ em.mantissa ≤ em.roundedMantissa ∧
      em.roundedMantissa ≤ em.mantissa + 1 ∧ em.mantissa * 2 ^ e ≤ q := by
  have positive : (0 : Rat) < 2 ^ e := by positivity
  obtain ⟨m, round, sticky⟩ := em
  cases round <;> cases sticky <;>
    simp only [Stands, halves, Bool.toNat_false, Bool.toNat_true, if_true, Bool.false_eq_true, if_false] at h <;>
    push_cast at h
  · show Near m e q ∧ m ≤ m ∧ m ≤ m + 1 ∧ m * 2 ^ e ≤ q
    exact ⟨.of_lt (by linarith) (by linarith), le_refl _, Nat.le_succ _, by linarith⟩
  · show Near m e q ∧ m ≤ m ∧ m ≤ m + 1 ∧ m * 2 ^ e ≤ q
    obtain ⟨above, below⟩ := h
    exact ⟨.of_lt (by linarith) (by linarith), le_refl _, Nat.le_succ _, by linarith⟩
  · -- In the middle the even one of the two is taken.
    show Near (m + m % 2) e q ∧ m ≤ m + m % 2 ∧ m + m % 2 ≤ m + 1 ∧ m * 2 ^ e ≤ q
    have nearest : Near (m + m % 2) e q := by
      rcases Nat.mod_two_eq_zero_or_one m with even | odd
      · rw [even]
        refine .of_even even ?_ ?_ <;> (push_cast; linarith)
      · rw [odd]
        refine .of_even (by omega) ?_ ?_ <;> (push_cast; linarith)
    exact ⟨nearest, by omega, by omega, by linarith⟩
  · show Near (m + 1) e q ∧ m ≤ m + 1 ∧ m + 1 ≤ m + 1 ∧ m * 2 ^ e ≤ q
    obtain ⟨above, below⟩ := h
    refine ⟨.of_lt ?_ ?_, Nat.le_succ _, le_refl _, by linarith⟩ <;> (push_cast; linarith)

/-- The nearest significand is that of the double, if the double below is not nearer by the half of a unit. -/
theorem Near.rounds (h : Near m e q) (above : m = leadingBit → e ≠ minExponent → m * 2 ^ e ≤ q) :
    Rounds m e q := by
  have positive : (0 : Rat) < 2 ^ e := by positivity
  by_cases least : m = leadingBit ∧ e ≠ minExponent
  · have reached := above least.1 least.2
    have one : gap m e = 1 := if_pos least
    refine ⟨?_, h.high, fun odd => ?_⟩
    · rw [one]
      push_cast
      linarith
    · rw [least.1, leadingBit_eq] at odd
      cases odd
  · have two : gap m e = 2 := if_neg least
    refine ⟨?_, h.high, fun odd => ?_⟩
    · rw [two]
      exact_mod_cast h.low
    · rw [two]
      exact_mod_cast h.inside odd

/-- A significand that is rounded up to one bit more is the least one of the next exponent. -/
theorem Near.carry (h : Near (2 * leadingBit) e q) (least : minExponent ≤ e) :
    Rounds leadingBit (e + 1) q := by
  have positive : (0 : Rat) < 2 ^ e := by positivity
  have twice : (2 : Rat) ^ (e + 1) = 2 * 2 ^ e := by
    rw [zpow_add_one₀ two_ne_zero, mul_comm]
  have one : gap leadingBit (e + 1) = 1 := if_pos ⟨rfl, by omega⟩
  have low := h.low
  have high := h.high
  rw [leadingBit_eq] at *
  refine ⟨?_, ?_, fun odd => ?_⟩
  · rw [one, twice]
    push_cast at low ⊢
    linarith
  · rw [twice]
    push_cast at high ⊢
    linarith
  · cases odd

/-! Rounding to a double -/

/-- The exponent at which a number has as many bits as a double, or the least one. -/
def target (m : Nat) (e : Int) : Int := max ((m.log2 : Int) + 1 + e - 53) minExponent

theorem minExponent_le_target (m : Nat) (e : Int) : minExponent ≤ target m e := le_max_right _ _

/-- A significand of as many bits as a double has, or one more, is left as it is, or loses the last one. -/
theorem shiftToTargetExponent_exact (few : m ≤ 2 * leadingBit) (least : minExponent ≤ e) :
    (shiftToTargetExponent Format.binary64 m e .exact).1.mantissa =
        (if m = 2 * leadingBit then leadingBit else m) ∧
      (shiftToTargetExponent Format.binary64 m e .exact).2 = (if m = 2 * leadingBit then e + 1 else e) := by
  have shifts : shiftToTargetExponent Format.binary64 m e .exact =
      (ExtendedMantissa.ofMantissaAndAccuracy m .exact >>> (target m e - e).toNat,
        e + (target m e - e).toNat) := rfl
  rw [shifts]
  dsimp only
  rw [mantissa_shiftRight]
  rw [leadingBit_eq] at *
  split
  · rename_i more
    have bits : m.log2 = 53 := by
      rw [more]
      exact Nat.log2_two_pow (n := 53)
    have one : (target m e - e).toNat = 1 := by
      rw [target, bits]
      omega
    rw [one, more]
    exact ⟨rfl, rfl⟩
  · rename_i enough
    have bits : m.log2 < 53 := by
      rcases Nat.eq_zero_or_pos m with rfl | some
      · decide
      · exact (Nat.log2_lt (by omega)).mpr (by omega)
    have none : (target m e - e).toNat = 0 := by
      rw [target]
      omega
    rw [none, pow_zero, Nat.div_one, Nat.cast_zero, add_zero]
    exact ⟨rfl, rfl⟩

/-- Shifted to the exponent it is to have, a significand has no more bits than a double, and as many unless the
exponent is the least one. -/
theorem shifted_bounds {m : Nat} {e : Int} (low : e ≤ target m e) :
    m / 2 ^ (target m e - e).toNat < 2 * leadingBit ∧
      (target m e ≠ minExponent → leadingBit ≤ m / 2 ^ (target m e - e).toNat) := by
  have reached : (m.log2 : Int) + 1 + e - 53 ≤ target m e := le_max_left _ _
  constructor
  · refine Nat.div_lt_of_lt_mul ?_
    calc m < 2 ^ (m.log2 + 1) := Nat.lt_log2_self
      _ ≤ 2 ^ ((target m e - e).toNat + 53) := Nat.pow_le_pow_right (by decide) (by omega)
      _ = 2 ^ (target m e - e).toNat * (2 * leadingBit) := by rw [pow_add]; rfl
  · intro other
    have exact : target m e = (m.log2 : Int) + 1 + e - 53 := (max_choice _ _).resolve_right other
    have bits : m.log2 = 52 + (target m e - e).toNat := by omega
    have some : m ≠ 0 := by
      rintro rfl
      rw [Nat.log2_zero] at bits
      omega
    rw [Nat.le_div_iff_mul_le (by positivity)]
    calc leadingBit * 2 ^ (target m e - e).toNat = 2 ^ m.log2 := by rw [bits, pow_add]; rfl
      _ ≤ m := Nat.log2_self_le some

theorem mantissa_ofMantissaAndAccuracy (m : Nat) (accuracy : Accuracy) :
    (ExtendedMantissa.ofMantissaAndAccuracy m accuracy).mantissa = m := by
  cases accuracy with
  | exact => rfl
  | inexact order => cases order <;> rfl

section

variable {M : Nat} {E : Int} {accuracy : Accuracy} {s : Sign}

/-- The rounded significand is that of the double, or twice that of one with no more than the leading bit. -/
theorem rounded_cases (regular : Regular m e) (rounds : Rounds m e q)
    (stands : Stands (.ofMantissaAndAccuracy M accuracy) E q) (low : E ≤ target M E) :
    let shifted := ExtendedMantissa.ofMantissaAndAccuracy M accuracy >>> (target M E - E).toNat
    (shifted.roundedMantissa = 2 * leadingBit ∧ m = leadingBit ∧ e = target M E + 1) ∨
      (shifted.roundedMantissa < 2 * leadingBit ∧ shifted.roundedMantissa = m ∧ target M E = e) := by
  intro shifted
  have given : shifted.mantissa = M / 2 ^ (target M E - E).toNat := by
    rw [mantissa_shiftRight, mantissa_ofMantissaAndAccuracy]
  have here : E + (target M E - E).toNat = target M E := by omega
  have same : Stands shifted (target M E) q := here ▸ stands.shiftRight _
  obtain ⟨near, atLeast, upTo, floor⟩ := same.near
  obtain ⟨small, normal⟩ := shifted_bounds low
  rw [← given] at small normal
  have least := minExponent_le_target M E
  -- The number rounds to what comes out, whether it was carried or not, and it rounds to one double only.
  rcases Nat.lt_or_ge shifted.roundedMantissa (2 * leadingBit) with fits | carried
  · have rounds' : Rounds shifted.roundedMantissa (target M E) q := by
      refine near.rounds fun lowest other => ?_
      -- Rounded down to the leading bit, since there is no less.
      have equal : shifted.roundedMantissa = shifted.mantissa := by
        have := normal other
        omega
      rw [equal]
      exact floor
    have regular' : Regular shifted.roundedMantissa (target M E) :=
      ⟨fits, least, fun other => (normal other).trans atLeast⟩
    exact .inr ⟨fits, rounds'.unique regular' regular rounds⟩
  · have full : shifted.roundedMantissa = 2 * leadingBit := by omega
    rw [full] at near
    have regular' : Regular leadingBit (target M E + 1) := ⟨by decide, by omega, fun _ => le_refl _⟩
    obtain ⟨mantissas, exponents⟩ := rounds.unique regular regular' (near.carry least)
    exact .inl ⟨full, mantissas, exponents⟩

/-- A number that rounds to a double is rounded to it. -/
theorem roundWithAccuracy_eq (regular : Regular m e) (some : 0 < m) (rounds : Rounds m e q)
    (stands : Stands (.ofMantissaAndAccuracy M accuracy) E q) (low : E ≤ target M E) :
    roundWithAccuracy Format.binary64 s M E accuracy = .finite s m e some := by
  let shifted := ExtendedMantissa.ofMantissaAndAccuracy M accuracy >>> (target M E - E).toNat
  let rounded := shiftToTargetExponent Format.binary64 shifted.roundedMantissa
    (E + (target M E - E).toNat) .exact
  have all : roundWithAccuracy Format.binary64 s M E accuracy =
      if h : rounded.1.mantissa = 0 then .zero s
      else .finite s rounded.1.mantissa rounded.2 (Nat.pos_of_ne_zero h) := rfl
  have parts : rounded.1.mantissa = m ∧ rounded.2 = e := by
    have least := minExponent_le_target M E
    have here : E + (target M E - E).toNat = target M E := by omega
    have known : rounded = shiftToTargetExponent Format.binary64 shifted.roundedMantissa (target M E) .exact :=
      congrArg (shiftToTargetExponent Format.binary64 shifted.roundedMantissa · .exact) here
    rw [known]
    rcases rounded_cases regular rounds stands low with
      ⟨full, mantissas, exponents⟩ | ⟨fits, mantissas, exponents⟩
    · obtain ⟨mantissa, exponent⟩ := shiftToTargetExponent_exact full.le least
      rw [if_pos full] at mantissa exponent
      exact ⟨mantissa.trans mantissas.symm, exponent.trans exponents.symm⟩
    · obtain ⟨mantissa, exponent⟩ := shiftToTargetExponent_exact fits.le least
      rw [if_neg fits.ne] at mantissa exponent
      exact ⟨mantissa.trans mantissas, exponent.trans exponents⟩
  rw [all]
  obtain ⟨rfl, rfl⟩ := parts
  exact dif_neg some.ne'

end

/-! Operations -/

theorem stands_exact (m : Nat) (e : Int) : Stands (.ofMantissaAndAccuracy m .exact) e (m * 2 ^ e) := by
  show 2 * ((m : Rat) * 2 ^ e) = ((2 * m + 0 : Nat) : Rat) * 2 ^ e
  push_cast
  ring

/-- What a significand and a part of its last place stand for: the part is compared with the half. -/
theorem stands_inexact {f : Rat} (n : Nat) (e : Int) (more : 0 < f) (less : f < 1) :
    (2 * f < 1 → Stands (.ofMantissaAndAccuracy n (.inexact .lt)) e ((n + f) * 2 ^ e)) ∧
      (2 * f = 1 → Stands (.ofMantissaAndAccuracy n (.inexact .eq)) e ((n + f) * 2 ^ e)) ∧
      (1 < 2 * f → Stands (.ofMantissaAndAccuracy n (.inexact .gt)) e ((n + f) * 2 ^ e)) := by
  have positive : (0 : Rat) < 2 ^ e := by positivity
  have part := mul_pos more positive
  have place := mul_lt_mul_of_pos_right less positive
  simp only [Stands, ExtendedMantissa.ofMantissaAndAccuracy, halves, if_true, Bool.false_eq_true, if_false,
    Bool.toNat_false, Bool.toNat_true]
  push_cast
  refine ⟨fun few => ?_, fun half => ?_, fun many => ?_⟩
  · have scaled := mul_lt_mul_of_pos_right few positive
    constructor <;> linarith
  · have scaled : 2 * f * 2 ^ e = 1 * 2 ^ e := by rw [half]
    linarith
  · have scaled := mul_lt_mul_of_pos_right many positive
    constructor <;> linarith

theorem stands_fraction (num : Nat) {den : Nat} (some : 0 < den) (e : Int) :
    Stands (.ofMantissaAndAccuracy (num / den) (accuracyOfFraction (num % den) den)) e (num / den * 2 ^ e) := by
  have below : (0 : Rat) < den := by exact_mod_cast some
  -- The quotient and a fraction `f`, twice of which is to 1 as twice the remainder is to `den`.
  obtain ⟨f, given⟩ : ∃ f : Rat, f = ((num % den : Nat) : Rat) / den := ⟨_, rfl⟩
  have parts : (num : Rat) / den = (num / den : Nat) + f := by
    have whole : ((den * (num / den) + num % den : Nat) : Rat) = num := by rw [Nat.div_add_mod]
    rw [given, ← whole]
    push_cast
    field_simp
  rw [parts, accuracyOfFraction]
  split
  · rename_i none
    rw [given, none, Nat.cast_zero, zero_div, add_zero]
    exact stands_exact _ _
  · rename_i rest
    have more : 0 < f := by
      have := Nat.pos_of_ne_zero rest
      rw [given]
      positivity
    have less : f < 1 := by
      rw [given, div_lt_one below]
      exact_mod_cast Nat.mod_lt num some
    have twice : 2 * f = (2 * (num % den) : Nat) / den := by
      rw [given]
      push_cast
      ring
    obtain ⟨few, half, many⟩ := stands_inexact (num / den) e more less
    rw [twice, div_lt_one below, Nat.cast_lt] at few
    rw [twice, div_eq_one_iff_eq below.ne', Nat.cast_inj] at half
    rw [twice, one_lt_div below, Nat.cast_lt] at many
    cases order : compare (2 * (num % den)) den with
    | lt => exact few (Nat.compare_eq_lt.mp order)
    | eq => exact half (Nat.compare_eq_eq.mp order)
    | gt => exact many (Nat.compare_eq_gt.mp order)

theorem log2_mul_two_pow {m : Nat} (some : 0 < m) (n : Nat) : (m * 2 ^ n).log2 = m.log2 + n := by
  induction n with
  | zero => rw [pow_zero, Nat.mul_one, Nat.add_zero]
  | succ n ih =>
    have double : m * 2 ^ (n + 1) = 2 * (m * 2 ^ n) := by ring
    rw [double, Nat.log2_two_mul (by positivity), ih, Nat.add_assoc]

/-- More low bits of zero do not change the exponent to which a number is shifted. -/
theorem target_mul_two_pow {m : Nat} (some : 0 < m) (e : Int) (n : Nat) :
    target (m * 2 ^ n) (e - n) = target m e := by
  rw [target, target, log2_mul_two_pow some]
  push_cast
  congr 1
  ring

section

variable {M M' : Nat} {E E' : Int} {s s' : Sign}

theorem round_eq (given : 0 < M) (regular : Regular m e) (some : 0 < m) (rounds : Rounds m e (M * 2 ^ E)) :
    round Format.binary64 s M E = .finite s m e some := by
  obtain ⟨n, shift⟩ : ∃ n, n = (E - target M E).toNat := ⟨_, rfl⟩
  have stands := stands_exact (M * 2 ^ n) (E - n)
  have same : ((M * 2 ^ n : Nat) : Rat) * 2 ^ (E - n) = M * 2 ^ E := by
    rw [zpow_sub₀ two_ne_zero, zpow_natCast]
    push_cast
    field_simp
  rw [same] at stands
  have low : E - n ≤ target (M * 2 ^ n) (E - n) := by
    rw [target_mul_two_pow given]
    omega
  have rounded := roundWithAccuracy_eq (s := s) regular some rounds stands low
  rw [← Nat.shiftLeft_eq, shift] at rounded
  exact rounded

theorem mul_eq (given : 0 < M) (given' : 0 < M') (full : leadingBit ≤ M * M') (regular : Regular m e)
    (some : 0 < m) (rounds : Rounds m e (M * 2 ^ E * (M' * 2 ^ E'))) :
    mul Format.binary64 (.finite s M E given) (.finite s' M' E' given') = .finite (s * s') m e some := by
  have stands := stands_exact (M * M') (E + E')
  have same : ((M * M' : Nat) : Rat) * 2 ^ (E + E') = M * 2 ^ E * (M' * 2 ^ E') := by
    rw [zpow_add₀ two_ne_zero]
    push_cast
    ring
  rw [same] at stands
  have bits : 52 ≤ (M * M').log2 := (Nat.le_log2 (by positivity)).mpr full
  have low : E + E' ≤ target (M * M') (E + E') := by
    have reached : ((M * M').log2 : Int) + 1 + (E + E') - 53 ≤ target (M * M') (E + E') := le_max_left _ _
    omega
  exact roundWithAccuracy_eq regular some rounds stands low

/-- A quotient is taken with as many bits as a double has. -/
theorem leadingBit_le_quotient (given : 0 < M) (given' : 0 < M') {n : Nat}
    (wide : M'.log2 + 53 ≤ M.log2 + n) : leadingBit ≤ M * 2 ^ n / M' := by
  rw [Nat.le_div_iff_mul_le given']
  calc leadingBit * M' ≤ 2 ^ 52 * 2 ^ (M'.log2 + 1) := Nat.mul_le_mul_left _ Nat.lt_log2_self.le
    _ = 2 ^ (M'.log2 + 53) := by rw [← pow_add]; congr 1; omega
    _ ≤ 2 ^ (M.log2 + n) := Nat.pow_le_pow_right (by decide) wide
    _ = 2 ^ M.log2 * 2 ^ n := pow_add _ _ _
    _ ≤ M * 2 ^ n := Nat.mul_le_mul_right _ (Nat.log2_self_le given.ne')

theorem div_eq (given : 0 < M) (given' : 0 < M') (regular : Regular m e) (some : 0 < m)
    (rounds : Rounds m e (M * 2 ^ E / (M' * 2 ^ E'))) :
    div Format.binary64 (.finite s M E given) (.finite s' M' E' given') = .finite (s / s') m e some := by
  obtain ⟨low, is⟩ : ∃ low, low =
      min (E - E') (max ((M.log2 + 1 + E) - (M'.log2 + 1 + E') - 53) minExponent) := ⟨_, rfl⟩
  obtain ⟨n, shift⟩ : ∃ n, n = (E - E' - low).toNat := ⟨_, rfl⟩
  have all : div Format.binary64 (.finite s M E given) (.finite s' M' E' given') =
      roundWithAccuracy Format.binary64 (s / s') (M * 2 ^ n / M') low
        (accuracyOfFraction (M * 2 ^ n % M') M') := by
    rw [← Nat.shiftLeft_eq, shift, is]
    rfl
  have stands := stands_fraction (M * 2 ^ n) given' low
  have same : ((M * 2 ^ n : Nat) : Rat) / M' * 2 ^ low = M * 2 ^ E / (M' * 2 ^ E') := by
    have exponent : low + n + E' = E := by omega
    rw [← exponent, zpow_add₀ two_ne_zero, zpow_add₀ two_ne_zero, zpow_natCast]
    push_cast
    field_simp
  rw [same] at stands
  rw [all]
  refine roundWithAccuracy_eq regular some rounds stands ?_
  -- The least exponent is low enough; above it the quotient has all the bits.
  rcases le_or_gt low minExponent with least | higher
  · exact least.trans (minExponent_le_target _ _)
  · have full := leadingBit_le_quotient given given' (n := n) (by omega)
    have bits : 52 ≤ (M * 2 ^ n / M').log2 := by
      rw [Nat.le_log2 (by rw [leadingBit_eq] at full; omega)]
      exact full
    have reached : ((M * 2 ^ n / M').log2 : Int) + 1 + low - 53 ≤ target (M * 2 ^ n / M') low :=
      le_max_left _ _
    omega

end

end LoxLang.Decimal
