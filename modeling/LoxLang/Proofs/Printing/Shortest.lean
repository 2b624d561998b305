import Mathlib.Algebra.Order.Field.Power
import Mathlib.Data.Rat.Cast.Order
import Mathlib.Tactic.FieldSimp
import Mathlib.Tactic.Linarith
import Mathlib.Tactic.Positivity
import Mathlib.Tactic.Ring
import LoxLang.Decimal.Shortest
/-!
The fewest decimal digits that name a double. The reals that round to a double form an interval around it
(`Rounds`); the intervals of different doubles do not meet, and where two of them touch only one has the point
between them.

What is proved:
1. no real rounds to two doubles (`Rounds.unique`);
2. the decimal that `shortest` finds rounds to the double it was found for (`shortest_rounds`), since with
   seventeen digits one of the two neighbours always does (`roundsAt_of_fine`).
-/
namespace LoxLang.Decimal

open Binary64 (minExponent leadingBit)

theorem twoTo_eq (n : Nat) : twoTo n = 2 ^ n := rfl

theorem tenTo_eq (n : Nat) : tenTo n = 10 ^ n := rfl

theorem leadingBit_eq : leadingBit = 4503599627370496 := rfl

/-! Intervals -/

/-- The significand and the exponent are those of a double. -/
structure Canonical (m : Nat) (e : Int) : Prop where
  small : m < 2 * leadingBit
  least : minExponent ≤ e
  most : e ≤ 971
  normal : e ≠ minExponent → leadingBit ≤ m

/-- The significand and the exponent are those of a double, or of one that is too large. -/
structure Regular (m : Nat) (e : Int) : Prop where
  small : m < 2 * leadingBit
  least : minExponent ≤ e
  normal : e ≠ minExponent → leadingBit ≤ m

theorem Canonical.regular {m : Nat} {e : Int} (c : Canonical m e) : Regular m e :=
  ⟨c.small, c.least, c.normal⟩

/-- How far the interval of a double reaches down, in quarters of the distance to the next double. -/
def gap (m : Nat) (e : Int) : Nat := if m = leadingBit ∧ e ≠ minExponent then 1 else 2

theorem gap_cases (m : Nat) (e : Int) : gap m e = 1 ∧ m = leadingBit ∨ gap m e = 2 := by
  unfold gap
  split
  · rename_i least
    exact .inl ⟨rfl, least.1⟩
  · exact .inr rfl

/-- The number rounds to `m * 2 ^ e`. The ends of the interval belong to it if the significand is even. -/
structure Rounds (m : Nat) (e : Int) (q : Rat) : Prop where
  low : (4 * m - gap m e) * 2 ^ e ≤ 4 * q
  high : 4 * q ≤ (4 * m + 2) * 2 ^ e
  inside : m % 2 = 1 → (4 * m - gap m e) * 2 ^ e < 4 * q ∧ 4 * q < (4 * m + 2) * 2 ^ e

variable {m m' : Nat} {e e' : Int} {q : Rat}

theorem Rounds.self (m : Nat) (e : Int) : Rounds m e (m * 2 ^ e) := by
  have positive : (0 : Rat) < 2 ^ e := by positivity
  have some : (0 : Rat) < gap m e := by
    rcases gap_cases m e with ⟨one, -⟩ | two
    · simp [one]
    · simp [two]
  have below : (4 * m - gap m e : Rat) * 2 ^ e < 4 * (m * 2 ^ e) := by nlinarith
  have above : 4 * ((m : Rat) * 2 ^ e) < (4 * m + 2) * 2 ^ e := by nlinarith
  exact ⟨below.le, above.le, fun _ => ⟨below, above⟩⟩

theorem two_zpow_add (e : Int) (k : Nat) : (2 : Rat) ^ (e + k) = (2 ^ k : Nat) * 2 ^ e := by
  rw [zpow_add₀ two_ne_zero, zpow_natCast]
  push_cast
  ring

/-- What rounds to two doubles lies between them, and the upper one is not far away. -/
theorem Rounds.between {k : Nat} (h : Rounds m e q) (h' : Rounds m' (e + k) q) :
    (4 * m' - gap m' (e + k)) * 2 ^ k ≤ (4 * m + 2 : Int) ∧
      (m % 2 = 1 ∨ m' % 2 = 1 → (4 * m' - gap m' (e + k)) * 2 ^ k < (4 * m + 2 : Int)) := by
  have positive : (0 : Rat) < 2 ^ e := by positivity
  have low := h'.low
  have inside := h'.inside
  rw [two_zpow_add, ← mul_assoc] at low inside
  constructor
  · have le := le_of_mul_le_mul_right (low.trans h.high) positive
    exact_mod_cast le
  · intro odd
    have lt : ((4 * m' - gap m' (e + k)) * (2 ^ k : Nat) : Rat) * 2 ^ e < (4 * m + 2) * 2 ^ e := by
      rcases odd with odd | odd
      · exact low.trans_lt (h.inside odd).2
      · exact (inside odd).1.trans_le h.high
    exact_mod_cast lt_of_mul_lt_mul_right lt positive.le

theorem Rounds.apart_of_lt (h : Rounds m e q) (h' : Rounds m' e q) : ¬ m < m' := by
  intro less
  have h' : Rounds m' (e + (0 : Nat)) q := by simpa using h'
  obtain ⟨le, strict⟩ := h.between h'
  rcases gap_cases m' (e + (0 : Nat)) with ⟨one, -⟩ | two
  · simp only [one, pow_zero] at le
    omega
  · simp only [two, pow_zero] at le strict
    omega

theorem Rounds.apart_of_exponent_lt (c : Regular m e) (c' : Regular m' e') (h : Rounds m e q)
    (h' : Rounds m' e' q) : ¬ e < e' := by
  intro less
  obtain ⟨k, rfl⟩ := Int.le.dest (show e + 1 ≤ e' by omega)
  have above : e + 1 + k ≠ minExponent := by have := c.least; omega
  have normal := c'.normal above
  have small := c.small
  have split : e + 1 + (k : Int) = e + (k + 1 : Nat) := by push_cast; ring
  rw [split] at h' above
  obtain ⟨le, strict⟩ := h.between h'
  rw [leadingBit_eq] at normal small
  -- In the distance of the lower double, the upper interval begins where that of the last double below ends.
  have far : (8 * 4503599627370496 - 2 : Int) ≤ (4 * m' - gap m' (e + (k + 1 : Nat))) * 2 := by
    rw [gap, leadingBit_eq]
    split <;> omega
  have twice : (2 : Int) ≤ 2 ^ (k + 1) := by
    have : (1 : Int) ≤ 2 ^ k := one_le_pow₀ (by norm_num)
    rw [pow_succ]
    omega
  generalize (2 : Int) ^ (k + 1) = d at le strict twice
  generalize (4 * m' - gap m' (e + (k + 1 : Nat)) : Int) = lower at le strict far
  have scaled := mul_le_mul_of_nonneg_left twice (show 0 ≤ lower by omega)
  have odd : m % 2 = 1 := by omega
  have := strict (.inl odd)
  omega

/-- No number rounds to two doubles. -/
theorem Rounds.unique (c : Regular m e) (c' : Regular m' e') (h : Rounds m e q)
    (h' : Rounds m' e' q) : m = m' ∧ e = e' := by
  rcases lt_trichotomy e e' with less | rfl | greater
  · exact absurd less (h.apart_of_exponent_lt c c' h')
  · have := h.apart_of_lt h'
    have := h'.apart_of_lt h
    omega
  · exact absurd greater (h'.apart_of_exponent_lt c' c h)

/-! Neighbours on a grid -/

theorem pow_toNat {a : Rat} (nonzero : a ≠ 0) (z : Int) : a ^ z.toNat = a ^ z * a ^ (-z).toNat := by
  obtain ⟨n, rfl | rfl⟩ := z.eq_nat_or_neg
  · simp
  · simp [nonzero]

/-- The whole number that stands for `2 ^ e` where `unit` stands for `10 ^ j`. -/
def scale (e j : Int) : Nat := twoTo e.toNat * tenTo (-j).toNat

/-- The whole number that stands for `10 ^ j` where `scale` stands for `2 ^ e`. -/
def unit (e j : Int) : Nat := twoTo (-e).toNat * tenTo j.toNat

theorem unit_pos (e j : Int) : 0 < unit e j := by
  rw [unit, twoTo_eq, tenTo_eq]
  positivity

theorem scale_pos (e j : Int) : 0 < scale e j := by
  rw [scale, twoTo_eq, tenTo_eq]
  positivity

theorem scale_mul (e j : Int) : (scale e j : Rat) * 10 ^ j = 2 ^ e * unit e j := by
  have two := pow_toNat (two_ne_zero : (2 : Rat) ≠ 0) e
  have ten := pow_toNat (show (10 : Rat) ≠ 0 by norm_num) j
  simp only [scale, unit, twoTo_eq, tenTo_eq]
  push_cast
  rw [two, ten]
  ring

/-- Whether `c * 10 ^ j` rounds to `m * 2 ^ e`. -/
def roundsAt (m : Nat) (e j : Int) (c : Nat) : Bool :=
  if m % 2 = 0 then
    (4 * m - gap m e) * scale e j ≤ 4 * c * unit e j && 4 * c * unit e j ≤ (4 * m + 2) * scale e j
  else (4 * m - gap m e) * scale e j < 4 * c * unit e j && 4 * c * unit e j < (4 * m + 2) * scale e j

variable {j : Int} {c : Nat}

/-- The neighbour that is found rounds to the double; if none is found, neither of the two does. -/
theorem neighbour?_cases (tie : Tie) (m : Nat) (e j : Int) :
    (∃ d, neighbour? tie m e j = some d ∧ roundsAt m e j d = true) ∨
      neighbour? tie m e j = none ∧ roundsAt m e j (m * scale e j / unit e j) = false ∧
        roundsAt m e j (m * scale e j / unit e j + 1) = false := by
  unfold neighbour?
  dsimp only
  split
  · rename_i below above
    refine .inl ?_
    split
    · exact ⟨_, rfl, below⟩
    split
    · exact ⟨_, rfl, above⟩
    cases tie with
    | up => exact ⟨_, rfl, above⟩
    | toEven =>
      dsimp only
      split
      · exact ⟨_, rfl, below⟩
      · exact ⟨_, rfl, above⟩
  · rename_i below above
    exact .inl ⟨_, rfl, below⟩
  · rename_i below above
    exact .inl ⟨_, rfl, above⟩
  · rename_i below above
    exact .inr ⟨rfl, below, above⟩

theorem gap_le (some : 0 < m) : gap m e ≤ 4 * m := by
  rcases gap_cases m e with ⟨one, -⟩ | two <;> omega

def weight (e j : Int) : Rat := unit e j / 10 ^ j

theorem weight_pos (e j : Int) : 0 < weight e j := by
  have := unit_pos e j
  rw [weight]
  positivity

theorem cast_scale (a : Nat) (e j : Int) : ((a * scale e j : Nat) : Rat) = a * 2 ^ e * weight e j := by
  have whole := scale_mul e j
  rw [weight]
  push_cast
  field_simp
  rw [mul_assoc, whole]
  ring

theorem cast_unit (b : Nat) (e j : Int) : ((b * unit e j : Nat) : Rat) = b * 10 ^ j * weight e j := by
  rw [weight]
  push_cast
  field_simp

theorem le_unit_iff {a b : Nat} :
    a * scale e j ≤ b * unit e j ↔ (a : Rat) * 2 ^ e ≤ b * 10 ^ j := by
  rw [← Nat.cast_le (α := Rat), cast_scale, cast_unit, mul_le_mul_iff_left₀ (weight_pos e j)]

theorem le_scale_iff {a b : Nat} :
    b * unit e j ≤ a * scale e j ↔ (b : Rat) * 10 ^ j ≤ a * 2 ^ e := by
  rw [← Nat.cast_le (α := Rat), cast_scale, cast_unit, mul_le_mul_iff_left₀ (weight_pos e j)]

theorem lt_unit_iff {a b : Nat} :
    a * scale e j < b * unit e j ↔ (a : Rat) * 2 ^ e < b * 10 ^ j :=
  lt_iff_lt_of_le_iff_le le_scale_iff

theorem lt_scale_iff {a b : Nat} :
    b * unit e j < a * scale e j ↔ (b : Rat) * 10 ^ j < a * 2 ^ e :=
  lt_iff_lt_of_le_iff_le le_unit_iff

/-- What the test finds rounds to the double. -/
theorem rounds_of_roundsAt (some : 0 < m) (h : roundsAt m e j c = true) : Rounds m e (c * 10 ^ j) := by
  have cast : ((4 * m - gap m e : Nat) : Rat) = 4 * m - gap m e := by
    rw [Nat.cast_sub (gap_le some)]
    push_cast
    rfl
  unfold roundsAt at h
  split at h
  · rename_i even
    rw [Bool.and_eq_true, decide_eq_true_eq, decide_eq_true_eq, le_unit_iff, le_scale_iff, cast] at h
    push_cast at h
    refine ⟨by linarith [h.1], by linarith [h.2], fun odd => by omega⟩
  · rw [Bool.and_eq_true, decide_eq_true_eq, decide_eq_true_eq, lt_unit_iff, lt_scale_iff, cast] at h
    push_cast at h
    exact ⟨by linarith [h.1], by linarith [h.2], fun _ => ⟨by linarith [h.1], by linarith [h.2]⟩⟩

/-- If neither of the two neighbours rounds to the double, the interval lies between them. -/
theorem gap_le_of_not_roundsAt (some : 0 < m) (below : roundsAt m e j c = false)
    (above : roundsAt m e j (c + 1) = false) (low : c * unit e j ≤ m * scale e j)
    (high : m * scale e j < (c + 1) * unit e j) : (2 + gap m e) * scale e j ≤ 4 * unit e j := by
  have least := Nat.mul_le_mul_right (scale e j) (gap_le (e := e) some)
  have apart := scale_pos e j
  -- All terms are linear in the two sides, in the gap and in the distances.
  simp only [roundsAt, Nat.sub_mul, add_mul, mul_assoc, one_mul, mul_add] at below above high least ⊢
  generalize m * scale e j = x at *
  generalize c * unit e j = y at *
  generalize gap m e * scale e j = g at *
  split at below
  · rename_i even
    simp only [even, if_true, Bool.and_eq_false_iff, decide_eq_false_iff_not, not_le] at below above
    omega
  · rename_i odd
    simp only [odd, if_false, Bool.and_eq_false_iff, decide_eq_false_iff_not, not_lt] at below above
    omega

/-- On a fine grid one of the two neighbours rounds to the double. -/
theorem roundsAt_of_fine (canonical : Canonical m e) (some : 0 < m)
    (fine : (10 : Rat) ^ j * 10 ^ 16 ≤ m * 2 ^ e)
    (below : roundsAt m e j (m * scale e j / unit e j) = false) :
    roundsAt m e j (m * scale e j / unit e j + 1) = true := by
  by_contra other
  have above := Bool.eq_false_iff.mpr other
  have low : m * scale e j / unit e j * unit e j ≤ m * scale e j := Nat.div_mul_le_self _ _
  have high : m * scale e j < (m * scale e j / unit e j + 1) * unit e j :=
    (Nat.lt_mul_div_succ _ (unit_pos e j)).trans_eq (mul_comm _ _)
  have wide := le_unit_iff.mp (gap_le_of_not_roundsAt some below above low high)
  have positive : (0 : Rat) < 2 ^ e := by positivity
  have coarse : ((2 + gap m e : Nat) : Rat) * 10 ^ 16 * 2 ^ e ≤ ((4 * m : Nat) : Rat) * 2 ^ e := by
    calc ((2 + gap m e : Nat) : Rat) * 10 ^ 16 * 2 ^ e
        = ((2 + gap m e : Nat) : Rat) * 2 ^ e * 10 ^ 16 := by ring
      _ ≤ ((4 : Nat) : Rat) * 10 ^ j * 10 ^ 16 := mul_le_mul_of_nonneg_right wide (by positivity)
      _ = 4 * (10 ^ j * 10 ^ 16) := by push_cast; ring
      _ ≤ 4 * (m * 2 ^ e) := by linarith
      _ = ((4 * m : Nat) : Rat) * 2 ^ e := by push_cast; ring
  have many : (2 + gap m e) * 10 ^ 16 ≤ 4 * m := by
    exact_mod_cast le_of_mul_le_mul_right coarse positive
  have small := canonical.small
  rw [leadingBit_eq] at small
  rcases gap_cases m e with ⟨one, least⟩ | two
  · rw [leadingBit_eq] at least
    omega
  · omega

/-! Magnitudes -/

/-- The decimal exponent below which `2 ^ l` does not lie, by an estimate of the logarithm. -/
def decimalExponent (l : Int) : Int := (l * 30103).fdiv 100000

/-- Whether the estimate is not above `2 ^ l`. -/
def isBelow (l : Int) : Bool := unit l (decimalExponent l) ≤ scale l (decimalExponent l)

/-- The estimate is good enough for all doubles. -/
theorem all_isBelow : ((List.range 2098).all fun i => isBelow ((i : Int) - 1074)) = true := by
  decide +kernel

theorem pow_decimalExponent_le {l : Int} (least : -1074 ≤ l) (most : l < 1024) :
    (10 : Rat) ^ decimalExponent l ≤ 2 ^ l := by
  have among : (l + 1074).toNat ∈ List.range 2098 := List.mem_range.mpr (by omega)
  have below := List.all_eq_true.mp all_isBelow _ among
  rw [show (((l + 1074).toNat : Int) - 1074) = l by omega, isBelow, decide_eq_true_eq] at below
  have below := le_scale_iff.mp (by simpa using below : 1 * unit l (decimalExponent l) ≤ 1 * scale l _)
  simpa using below

/-- The double is at least as large as the power of ten of its first digit. -/
theorem pow_magnitude_le (canonical : Canonical m e) (some : 0 < m) :
    (10 : Rat) ^ (magnitude m e - 1) ≤ m * 2 ^ e := by
  have least : -1074 ≤ e := canonical.least
  have most := canonical.most
  have small := canonical.small
  rw [leadingBit_eq] at small
  have log : m.log2 < 53 := (Nat.log2_lt (by omega)).mpr (by omega)
  have power : (2 : Rat) ^ m.log2 ≤ m := by exact_mod_cast Nat.log2_self_le (by omega)
  unfold magnitude
  dsimp only
  split
  · rename_i reached
    rw [add_sub_cancel_right]
    have reached : 1 * unit e (decimalExponent (m.log2 + e) + 1) ≤
        m * scale e (decimalExponent (m.log2 + e) + 1) := by
      rw [unit, scale, one_mul, mul_comm, ← mul_assoc]
      exact reached
    have below := le_scale_iff.mp reached
    rwa [Nat.cast_one, one_mul] at below
  · rw [add_sub_cancel_right]
    calc (10 : Rat) ^ decimalExponent (m.log2 + e)
        ≤ 2 ^ ((m.log2 : Int) + e) := pow_decimalExponent_le (by omega) (by omega)
      _ = 2 ^ m.log2 * 2 ^ e := by rw [zpow_add₀ two_ne_zero, zpow_natCast]
      _ ≤ m * 2 ^ e := mul_le_mul_of_nonneg_right power (by positivity)

/-! The fewest digits -/

def Scaled.value (d : Scaled) : Rat := d.digits * 10 ^ d.exponent

/-- From the grid with `n` digits on a decimal is found that rounds to the double. -/
theorem shortestFrom_rounds (tie : Tie) (canonical : Canonical m e) (some : 0 < m) {k : Int}
    (fine : (10 : Rat) ^ (k - 1) ≤ m * 2 ^ e) : ∀ grids n : Nat, 0 < grids → n + grids = 18 →
      Rounds m e (shortestFrom tie m e k grids n).value
  | grids + 1, n, _, last => by
    unfold shortestFrom
    rcases neighbour?_cases tie m e (k - n) with ⟨d, found, rounds⟩ | ⟨found, below, above⟩
    · have rounds := rounds_of_roundsAt some rounds
      rw [found]
      dsimp only
      split
      · rename_i full
        rw [full, tenTo_eq] at rounds
        have same : ((10 ^ n : Nat) : Rat) * 10 ^ (k - n) = (1 : Nat) * 10 ^ k := by
          rw [zpow_sub₀ (by norm_num), zpow_natCast]
          push_cast
          field_simp
        rwa [same] at rounds
      · exact rounds
    · have more : 0 < grids := by
        rcases Nat.eq_zero_or_pos grids with rfl | more
        · -- A grid with 17 digits is fine enough for all doubles.
          have seventeen : n = 17 := by omega
          subst seventeen
          have same : (10 : Rat) ^ (k - (17 : Nat)) * 10 ^ 16 = 10 ^ (k - 1) := by
            rw [← zpow_natCast (10 : Rat) 16, ← zpow_add₀ (by norm_num)]
            congr 1
            push_cast
            ring
          rw [roundsAt_of_fine canonical some (same.trans_le fine) below] at above
          cases above
        · exact more
      rw [found]
      exact shortestFrom_rounds tie canonical some fine grids (n + 1) more (by omega)

/-- The fewest digits stand for a number that rounds to the double. -/
theorem shortest_rounds (tie : Tie) (canonical : Canonical m e) (some : 0 < m) :
    Rounds m e (shortest tie m e).value := by
  rw [shortest, if_neg (by omega)]
  exact shortestFrom_rounds tie canonical some (pow_magnitude_le canonical some) 17 1
    (by decide) rfl

end LoxLang.Decimal
