/-
The basins of the doubles do not overlap.

The bits of a double but for the sign are a number, and the doubles are in the order of
these numbers.  Where the basin of one ends, that of the next one starts, and the end
belongs to that of the two whose number is even.

* `Dyadic.low`, `Dyadic.high` — where the basin starts and ends;
* `Basin.Mem`, `Dyadic.mem_basin_iff` — the fraction lies in the basin;
* `Dyadic.high_eq_low` — where one basin ends, the next one starts;
* `Dyadic.pattern_unique` — a fraction lies in one basin at most.
-/
import Mathlib.Algebra.Order.Field.Rat
import Mathlib.Data.Nat.Cast.Order.Field
import Mathlib.Tactic.Ring
import Lox.Decimal.Shortest

namespace Lox.Decimal

/-- The fraction lies in the basin. -/
def Basin.Mem (b : Basin) (q : ℚ) : Prop :=
  if b.closed then (b.low : ℚ) ≤ q * b.denominator ∧ q * b.denominator ≤ b.high
  else (b.low : ℚ) < q * b.denominator ∧ q * b.denominator < b.high

namespace Dyadic

variable {d : Dyadic} {q : ℚ}

/-! ### The ends of a basin -/

/-- The half of the way to the number before, in quarters of a unit in the last place. -/
def lower (d : Dyadic) : Nat :=
  if d.significand = 2 ^ 52 ∧ d.exponent ≠ -1074 then 1 else 2

/-- The least end of the basin. -/
def low (d : Dyadic) : ℚ :=
  ((4 * d.significand - d.lower : Nat) : ℚ) * 2 ^ (d.exponent - 2)

/-- The greatest end of the basin. -/
def high (d : Dyadic) : ℚ :=
  ((4 * d.significand + 2 : Nat) : ℚ) * 2 ^ (d.exponent - 2)

theorem basin_low (d : Dyadic) :
    d.basin.low = (4 * d.significand - d.lower) * 2 ^ (d.exponent - 2).toNat :=
  rfl

theorem basin_value (d : Dyadic) :
    d.basin.value = 4 * d.significand * 2 ^ (d.exponent - 2).toNat :=
  rfl

theorem basin_high (d : Dyadic) :
    d.basin.high = (4 * d.significand + 2) * 2 ^ (d.exponent - 2).toNat :=
  rfl

theorem basin_denominator (d : Dyadic) : d.basin.denominator = 2 ^ (2 - d.exponent).toNat :=
  rfl

theorem basin_closed (d : Dyadic) : d.basin.closed = decide (d.significand % 2 = 0) :=
  rfl

/-- A power with an integer exponent as a fraction. -/
theorem zpow_mul_pow_toNat (base : ℚ) (hbase : base ≠ 0) (e : ℤ) :
    base ^ e * base ^ (-e).toNat = base ^ e.toNat := by
  rw [← zpow_natCast, ← zpow_natCast, ← zpow_add₀ hbase]
  congr 1
  omega

/-- Scaled by the denominator, a multiple of a quarter of a unit is whole. -/
theorem scaled (d : Dyadic) (quarters : Nat) :
    (quarters : ℚ) * 2 ^ (d.exponent - 2) * d.basin.denominator =
      (quarters * 2 ^ (d.exponent - 2).toNat : Nat) := by
  have hneg : (2 - d.exponent).toNat = (-(d.exponent - 2)).toNat := by omega
  rw [basin_denominator, hneg, Nat.cast_pow, Nat.cast_ofNat, mul_assoc,
    zpow_mul_pow_toNat 2 (by decide)]
  push_cast
  rfl

theorem denominator_pos (d : Dyadic) : 0 < d.basin.denominator :=
  Nat.pow_pos (by decide)

/-- The basin of a number with an even significand has its ends. -/
theorem mem_basin_iff :
    d.basin.Mem q ↔
      if d.significand % 2 = 0 then d.low ≤ q ∧ q ≤ d.high else d.low < q ∧ q < d.high := by
  have hdenominator : (0 : ℚ) < d.basin.denominator := Nat.cast_pos.mpr d.denominator_pos
  have hlow : (d.basin.low : ℚ) = d.low * d.basin.denominator := by
    rw [low, scaled, basin_low]
  have hhigh : (d.basin.high : ℚ) = d.high * d.basin.denominator := by
    rw [high, scaled, basin_high]
  simp only [Basin.Mem, basin_closed, decide_eq_true_eq, hlow, hhigh,
    mul_le_mul_iff_of_pos_right hdenominator, mul_lt_mul_iff_of_pos_right hdenominator]

theorem low_lt_high (d : Dyadic) : d.low < d.high := by
  have hpower : (0 : ℚ) < 2 ^ (d.exponent - 2) := zpow_pos (by decide) _
  refine mul_lt_mul_of_pos_right (Nat.cast_lt.mpr ?_) hpower
  omega

/-! ### Doubles in order -/

/-- The number with these bits, the sign left out. -/
def ofPattern (n : Nat) : Dyadic :=
  if n / 2 ^ 52 = 0 then ⟨n % 2 ^ 52, -1074⟩ else ⟨2 ^ 52 + n % 2 ^ 52, (n / 2 ^ 52 : Nat) - 1075⟩

theorem ofBits_eq (bits : UInt64) : ofBits bits = ofPattern (bits.toNat % 2 ^ 63) := by
  have hfield : bits.toNat % 2 ^ 63 / 2 ^ 52 = bits.toNat / 2 ^ 52 % 2 ^ 11 := by omega
  have hfraction : bits.toNat % 2 ^ 63 % 2 ^ 52 = bits.toNat % 2 ^ 52 := by omega
  rw [ofPattern, hfield, hfraction]
  rfl

theorem ofPattern_significand_mod (n : Nat) : (ofPattern n).significand % 2 = n % 2 := by
  unfold ofPattern
  split
  · show n % 2 ^ 52 % 2 = n % 2
    omega
  · show (2 ^ 52 + n % 2 ^ 52) % 2 = n % 2
    omega

theorem ofPattern_subnormal {n : Nat} (h : n / 2 ^ 52 = 0) : ofPattern n = ⟨n % 2 ^ 52, -1074⟩ :=
  if_pos h

theorem ofPattern_normal {n : Nat} (h : n / 2 ^ 52 ≠ 0) :
    ofPattern n = ⟨2 ^ 52 + n % 2 ^ 52, (n / 2 ^ 52 : Nat) - 1075⟩ :=
  if_neg h

/-- With another fraction to come, the next double has the next significand. -/
theorem ofPattern_succ {n : Nat} (h : n % 2 ^ 52 + 1 < 2 ^ 52) :
    ofPattern (n + 1) = ⟨(ofPattern n).significand + 1, (ofPattern n).exponent⟩ ∧
      (ofPattern (n + 1)).lower = 2 := by
  have hfield : (n + 1) / 2 ^ 52 = n / 2 ^ 52 := by omega
  have hfraction : (n + 1) % 2 ^ 52 = n % 2 ^ 52 + 1 := by omega
  by_cases hn : n / 2 ^ 52 = 0
  · rw [ofPattern_subnormal hn, ofPattern_subnormal (hfield.trans hn), hfraction, lower]
    exact ⟨rfl, if_neg fun hpower => hpower.2 rfl⟩
  · rw [ofPattern_normal hn, ofPattern_normal (hfield ▸ hn), hfraction, hfield, lower]
    refine ⟨rfl, if_neg fun hpower => ?_⟩
    have hsignificand : 2 ^ 52 + (n % 2 ^ 52 + 1) = 2 ^ 52 := hpower.1
    omega

/-- After the last fraction comes a power of two. -/
theorem ofPattern_succ_of_last {n : Nat} (h : n % 2 ^ 52 + 1 = 2 ^ 52) :
    ofPattern (n + 1) = ⟨2 ^ 52, (n / 2 ^ 52 + 1 : Nat) - 1075⟩ := by
  have hfield : (n + 1) / 2 ^ 52 = n / 2 ^ 52 + 1 := by omega
  have hfraction : (n + 1) % 2 ^ 52 = 0 := by omega
  rw [ofPattern_normal (by omega), hfraction, hfield, Nat.add_zero]

/-- Where a basin ends, the one of the next double starts. -/
theorem high_eq_low (n : Nat) : (ofPattern n).high = (ofPattern (n + 1)).low := by
  have hfraction : n % 2 ^ 52 < 2 ^ 52 := Nat.mod_lt _ (Nat.pow_pos (by decide))
  rcases Nat.lt_or_eq_of_le (Nat.succ_le_of_lt hfraction) with hmore | hlast
  · obtain ⟨hsucc, hlower⟩ := ofPattern_succ hmore
    rw [high, low, hlower, hsucc]
    rfl
  · rw [ofPattern_succ_of_last hlast]
    by_cases hn : n / 2 ^ 52 = 0
    · -- the least normal number has the same unit as those before it
      rw [ofPattern_subnormal hn, hn, high, low]
      have hsignificand : n % 2 ^ 52 = 2 ^ 52 - 1 := by omega
      rw [hsignificand]
      rfl
    · have hlower : lower ⟨2 ^ 52, (n / 2 ^ 52 + 1 : Nat) - 1075⟩ = 1 :=
        if_pos ⟨rfl, by show ((n / 2 ^ 52 + 1 : Nat) : ℤ) - 1075 ≠ -1074; omega⟩
      have hsignificand : n % 2 ^ 52 = 2 ^ 52 - 1 := by omega
      have hexponent : ((n / 2 ^ 52 + 1 : Nat) : ℤ) - 1075 - 2 =
          (n / 2 ^ 52 : Nat) - 1075 - 2 + 1 := by omega
      rw [ofPattern_normal hn, high, low, hlower, hsignificand, hexponent,
        zpow_add_one₀ (by decide)]
      norm_num
      ring

/-- Basins are in the order of the doubles, and there is more than one point between two of
them that are not neighbours. -/
theorem high_le_low {m n : Nat} (h : m < n) :
    (ofPattern m).high ≤ (ofPattern n).low ∧
      (m + 1 ≠ n → (ofPattern m).high < (ofPattern n).low) := by
  induction n, h using Nat.le_induction with
  | base => exact ⟨le_of_eq (high_eq_low m), fun hne => absurd rfl hne⟩
  | succ n _ ih =>
    -- Between the two there is the whole basin of the number before.
    have hlt : (ofPattern m).high < (ofPattern (n + 1)).low :=
      calc (ofPattern m).high ≤ (ofPattern n).low := ih.1
        _ < (ofPattern n).high := low_lt_high _
        _ = (ofPattern (n + 1)).low := high_eq_low n
    exact ⟨le_of_lt hlt, fun _ => hlt⟩

/-- A fraction does not lie in the basins of two doubles. -/
theorem not_mem_basin_of_lt {m n : Nat} (h : m < n) (hm : (ofPattern m).basin.Mem q) :
    ¬ (ofPattern n).basin.Mem q := by
  intro hn
  rw [mem_basin_iff, ofPattern_significand_mod] at hm hn
  obtain ⟨hle, hlt⟩ := high_le_low h
  -- an end belongs to even numbers only, and neighbours are not both even
  split at hm
  · split at hn
    · exact absurd (hn.1.trans hm.2) (not_le.mpr (hlt (by omega)))
    · exact absurd (hn.1.trans_le hm.2) (not_lt.mpr hle)
  · split at hn
    · exact absurd (hn.1.trans_lt hm.2) (not_lt.mpr hle)
    · exact absurd (hn.1.trans hm.2) (not_lt.mpr hle)

/-- A fraction lies in the basin of one double at most. -/
theorem pattern_unique {m n : Nat} (hm : (ofPattern m).basin.Mem q)
    (hn : (ofPattern n).basin.Mem q) : m = n := by
  rcases Nat.lt_trichotomy m n with h | h | h
  · exact absurd hn (not_mem_basin_of_lt h hm)
  · exact h
  · exact absurd hm (not_mem_basin_of_lt h hn)

end Dyadic

end Lox.Decimal
