/-
Doubles as text: different finite doubles have different texts.

What is printed is a decimal in the basin of the double, since the search looks for no
other one and always finds one: seventeen digits are so fine that the multiple right after
the value is still in the basin.

* `Basin.holds_grid` — the steps between the limits of a grid are those in the basin;
* `Dyadic.mem_basin_shortest` — the shortest decimal is in the basin;
* `denotes_magnitudeText` — the text of a double without its sign stands for a fraction in
  its basin;
* `text_inj` — finite doubles with the same text are the same.
-/
import Lox.Proofs.Printing.Basins
import Lox.Proofs.Printing.Decimals

namespace Lox.Decimal

/-! ### Grids -/

section Grids

variable {b : Basin} {places : ℤ} {steps : Nat}

theorem ceilDiv_le_iff {n d k : Nat} (hd : 0 < d) : ceilDiv n d ≤ k ↔ n ≤ k * d := by
  rw [ceilDiv, ← Nat.lt_succ_iff, Nat.div_lt_iff_lt_mul hd, Nat.succ_mul]
  omega

theorem grid_unit_pos (places : ℤ) (hden : 0 < b.denominator) : 0 < (b.grid places).unit :=
  Nat.mul_pos hden (Nat.pow_pos (by decide))

/-- So many steps, scaled like the basin, against a whole number. -/
theorem value_scaled (b : Basin) (places : ℤ) (steps : Nat) :
    Numeral.value ⟨steps, places⟩ * b.denominator * (10 ^ places.toNat : Nat) =
      (steps * (b.grid places).unit : Nat) := by
  have hpower := Dyadic.zpow_mul_pow_toNat 10 (by decide) places
  have hne : (10 : ℚ) ^ places ≠ 0 := zpow_ne_zero _ (by decide)
  show (steps : ℚ) / 10 ^ places * b.denominator * (10 ^ places.toNat : Nat) =
    (steps * (b.denominator * 10 ^ (-places).toNat) : Nat)
  push_cast
  rw [← hpower, ← mul_assoc, mul_right_comm _ (b.denominator : ℚ), div_mul_cancel₀ _ hne, mul_assoc]

theorem le_value_iff (n : Nat) :
    (n : ℚ) ≤ Numeral.value ⟨steps, places⟩ * b.denominator ↔
      n * 10 ^ places.toNat ≤ steps * (b.grid places).unit := by
  have hpower : (0 : ℚ) < (10 ^ places.toNat : Nat) := Nat.cast_pos.mpr (Nat.pow_pos (by decide))
  rw [← mul_le_mul_iff_of_pos_right hpower, value_scaled, ← Nat.cast_mul, Nat.cast_le]

theorem value_le_iff (n : Nat) :
    Numeral.value ⟨steps, places⟩ * b.denominator ≤ (n : ℚ) ↔
      steps * (b.grid places).unit ≤ n * 10 ^ places.toNat := by
  have hpower : (0 : ℚ) < (10 ^ places.toNat : Nat) := Nat.cast_pos.mpr (Nat.pow_pos (by decide))
  rw [← mul_le_mul_iff_of_pos_right hpower, value_scaled, ← Nat.cast_mul, Nat.cast_le]

/-- The steps between the limits of a grid are those in the basin. -/
theorem Basin.holds_grid (hden : 0 < b.denominator) (hhigh : 0 < b.high) :
    (b.grid places).holds steps = true ↔ b.Mem (Numeral.value ⟨steps, places⟩) := by
  have hunit : 0 < b.denominator * 10 ^ (-places).toNat := grid_unit_pos places hden
  have hraised : 0 < b.high * 10 ^ places.toNat := Nat.mul_pos hhigh (Nat.pow_pos (by decide))
  have hceil : 0 < ceilDiv (b.high * 10 ^ places.toNat) (b.denominator * 10 ^ (-places).toNat) := by
    rw [Nat.pos_iff_ne_zero, ne_eq, ← Nat.le_zero, ceilDiv_le_iff hunit]
    omega
  -- Strict bounds as negations, so that the same two facts about whole numbers serve for
  -- open and closed basins.
  rw [Mem, ← not_le, ← not_le]
  simp only [le_value_iff, value_le_iff]
  simp only [Grid.holds, grid, Nat.pow_eq, Bool.and_eq_true, decide_eq_true_eq]
  split
  · rw [ceilDiv_le_iff hunit, Nat.le_div_iff_mul_le hunit]
  · have hgreatest : steps ≤
        ceilDiv (b.high * 10 ^ places.toNat) (b.denominator * 10 ^ (-places).toNat) - 1 ↔
          ¬ b.high * 10 ^ places.toNat ≤ steps * (b.denominator * 10 ^ (-places).toNat) := by
      rw [Nat.le_sub_one_iff_lt hceil, ← not_le, ceilDiv_le_iff hunit]
    rw [Nat.succ_le_iff, Nat.div_lt_iff_lt_mul hunit, hgreatest, not_le,
      not_le]

end Grids

/-! ### The search -/

namespace Grid

variable {g : Grid} {n stride : Nat}

theorem holds_of_candidate? (h : g.candidate? stride = some n) : g.holds n = true := by
  unfold candidate? at h
  simp only at h
  split at h
  · rename_i hbelow habove
    cases h
    split
    · exact hbelow
    · exact habove
  · rename_i hbelow _
    cases h
    exact hbelow
  · rename_i _ habove
    cases h
    exact habove
  · cases h

/-- The step after the value is a candidate. -/
theorem candidate?_isSome (h : g.holds (g.value / g.unit + 1) = true) :
    (g.candidate? 1).isSome = true := by
  unfold candidate?
  simp only [Nat.div_one, Nat.mul_one, h]
  split <;> first | rfl | contradiction

/-- If the step after the value is in the basin, then so is what the search ends with. -/
theorem holds_shortest (h : g.holds (g.value / g.unit + 1) = true) :
    ∃ steps, g.shortest = ⟨steps, g.places⟩ ∧ g.holds steps = true := by
  obtain ⟨last, hlast⟩ := Option.isSome_iff_exists.mp (candidate?_isSome h)
  cases hfind : strides.findSome? fun n => g.candidate? (Nat.pow 10 n) with
  | none =>
    -- The stride of one step comes last, and for this one there is a candidate.
    have hnone := List.findSome?_eq_none_iff.mp hfind 0 (by decide)
    rw [Nat.pow_eq, Nat.pow_zero, hlast] at hnone
    cases hnone
  | some steps =>
    obtain ⟨n, -, hn⟩ := List.exists_of_findSome?_eq_some hfind
    exact ⟨steps, by rw [shortest, hfind]; rfl, holds_of_candidate? hn⟩

end Grid

/-! ### Seventeen digits -/

namespace Dyadic

variable {d : Dyadic}

/-- The numbers that the bits of a finite double stand for, but for zero. -/
structure Finite (d : Dyadic) : Prop where
  pos : 0 < d.significand
  significand : d.significand < 2 ^ 53
  least : -1074 ≤ d.exponent
  greatest : d.exponent ≤ 971

/-- Seventeen digits are finer than the significand: ten decimal digits stand for more than
thirty-three binary ones, over the whole range of the exponents. -/
theorem fine_powers : ∀ l : Nat, l < 2098 →
    2 ^ 1127 * 10 ^ (((l : ℤ) - 1074) * 30103 / 100000 + 400).toNat < 10 ^ 417 * 2 ^ l := by
  decide +kernel

/-- The binary digits before the point, as the search estimates them. -/
theorem log2_basin (h : d.Finite) :
    d.exponent ≤ (d.basin.value.log2 : ℤ) - d.basin.denominator.log2 ∧
      (d.basin.value.log2 : ℤ) - d.basin.denominator.log2 ≤ d.exponent + 52 := by
  have hpos := h.pos
  have hsignificand := h.significand
  have hden : d.basin.denominator.log2 = (2 - d.exponent).toNat := Nat.log2_two_pow
  have hne : d.basin.value ≠ 0 := by
    rw [basin_value]
    have hpower : 0 < 2 ^ (d.exponent - 2).toNat := Nat.pow_pos (by decide)
    exact Nat.mul_ne_zero (by omega) (by omega)
  have hlower : (d.exponent - 2).toNat + 2 ≤ d.basin.value.log2 := by
    rw [Nat.le_log2 hne, basin_value, Nat.pow_add, Nat.mul_comm]
    exact Nat.mul_le_mul_right _ (by omega)
  have hupper : d.basin.value.log2 < (d.exponent - 2).toNat + 55 := by
    rw [Nat.log2_lt hne, basin_value, Nat.pow_add, Nat.mul_comm (2 ^ _)]
    exact Nat.mul_lt_mul_of_pos_right (by omega) (Nat.pow_pos (by decide))
  omega

/-- A step of the grid is less than half a unit in the last place. -/
theorem step_lt (h : d.Finite) : 1 / (10 : ℚ) ^ d.basin.finePlaces < 2 * 2 ^ (d.exponent - 2) := by
  obtain ⟨hleast, hgreatest⟩ := log2_basin h
  have hrange := h.least
  have hrange' := h.greatest
  unfold Basin.finePlaces
  generalize (d.basin.value.log2 : ℤ) - d.basin.denominator.log2 = digits at *
  -- The estimate is moved up by its least value, to count with natural numbers.
  obtain ⟨l, hl⟩ := Int.eq_ofNat_of_zero_le (show 0 ≤ digits + 1074 by omega)
  obtain rfl : digits = (l : ℤ) - 1074 := by omega
  have hfine := fine_powers l (by omega)
  generalize hk : (((l : ℤ) - 1074) * 30103 / 100000 + 400).toNat = k at hfine
  have hplaces : 17 - ((l : ℤ) - 1074) * 30103 / 100000 = (417 : Nat) - (k : ℤ) := by omega
  have hcast : (2 : ℚ) ^ 1127 * 10 ^ k < 10 ^ 417 * 2 ^ l := by exact_mod_cast hfine
  calc 1 / (10 : ℚ) ^ (17 - ((l : ℤ) - 1074) * 30103 / 100000)
    _ = 10 ^ k / 10 ^ 417 := by
      rw [hplaces, zpow_sub₀ (by decide), zpow_natCast, zpow_natCast, one_div_div]
    _ < 2 ^ l / 2 ^ 1127 := by
      rw [div_lt_div_iff₀ (pow_pos (by decide) _) (pow_pos (by decide) _), mul_comm,
        mul_comm (2 ^ l)]
      exact hcast
    _ = 2 ^ ((l : ℤ) - (1127 : Nat)) := by
      rw [zpow_sub₀ (by decide), zpow_natCast, zpow_natCast]
    _ ≤ 2 ^ (1 + (d.exponent - 2)) := zpow_le_zpow_right₀ (by decide) (by omega)
    _ = 2 * 2 ^ (d.exponent - 2) := zpow_one_add₀ (by decide) _

/-- The value itself, in quarters of a unit. -/
theorem value_eq (d : Dyadic) : (d.basin.value : ℚ) =
    (4 * d.significand : Nat) * 2 ^ (d.exponent - 2) * d.basin.denominator := by
  rw [scaled, basin_value]

/-- The step after the value is in the basin. -/
theorem mem_basin_next (h : d.Finite) (steps : Nat)
    (hsteps : steps * (d.basin.grid d.basin.finePlaces).unit ≤
      (d.basin.grid d.basin.finePlaces).value)
    (hnext : (d.basin.grid d.basin.finePlaces).value <
      (steps + 1) * (d.basin.grid d.basin.finePlaces).unit) :
    d.basin.Mem (Numeral.value ⟨steps + 1, d.basin.finePlaces⟩) := by
  have hdenominator : (0 : ℚ) < d.basin.denominator := Nat.cast_pos.mpr d.denominator_pos
  have hpower : (0 : ℚ) < 2 ^ (d.exponent - 2) := zpow_pos (by decide) _
  have hbefore : Numeral.value ⟨steps, d.basin.finePlaces⟩ ≤
      (4 * d.significand : Nat) * 2 ^ (d.exponent - 2) := by
    rw [← mul_le_mul_iff_of_pos_right hdenominator, ← value_eq, value_le_iff]
    exact hsteps
  have hafter : (4 * d.significand : Nat) * 2 ^ (d.exponent - 2) <
      Numeral.value ⟨steps + 1, d.basin.finePlaces⟩ := by
    rw [← mul_lt_mul_iff_of_pos_right hdenominator, ← value_eq, ← not_le, value_le_iff, not_le]
    exact hnext
  have hstep : Numeral.value ⟨steps + 1, d.basin.finePlaces⟩ =
      Numeral.value ⟨steps, d.basin.finePlaces⟩ + 1 / 10 ^ d.basin.finePlaces := by
    rw [Numeral.value, Numeral.value, Nat.cast_succ, add_div]
  have hlow : d.low < (4 * d.significand : Nat) * 2 ^ (d.exponent - 2) := by
    have hpos := h.pos
    have hlower : 1 ≤ d.lower := by
      unfold lower
      split <;> decide
    exact mul_lt_mul_of_pos_right (Nat.cast_lt.mpr (by omega)) hpower
  have hhigh : d.high = (4 * d.significand : Nat) * 2 ^ (d.exponent - 2) +
      2 * 2 ^ (d.exponent - 2) := by
    rw [high, ← add_mul, Nat.cast_add, Nat.cast_two]
  -- From a step that is not beyond the value, one more does not reach the end of the basin.
  have hless : Numeral.value ⟨steps + 1, d.basin.finePlaces⟩ < d.high := by
    rw [hstep, hhigh]
    exact add_lt_add_of_le_of_lt hbefore (step_lt h)
  have hmore := hlow.trans hafter
  rw [mem_basin_iff]
  split
  · exact ⟨hmore.le, hless.le⟩
  · exact ⟨hmore, hless⟩

/-- The shortest decimal is in the basin. -/
theorem mem_basin_shortest (h : d.Finite) : d.basin.Mem d.shortest.value := by
  have hhigh : 0 < d.basin.high := by
    rw [basin_high]
    exact Nat.mul_pos (by omega) (Nat.pow_pos (by decide))
  have hunit : 0 < (d.basin.grid d.basin.finePlaces).unit := grid_unit_pos _ d.denominator_pos
  have hnext := mem_basin_next h _ (Nat.div_mul_le_self _ _)
    (Nat.lt_mul_of_div_lt (Nat.lt_succ_self _) hunit)
  obtain ⟨steps, hsteps, hholds⟩ :=
    Grid.holds_shortest ((Basin.holds_grid d.denominator_pos hhigh).mpr hnext)
  rw [show d.shortest = ⟨steps, d.basin.finePlaces⟩ from hsteps]
  exact (Basin.holds_grid d.denominator_pos hhigh).mp hholds

end Dyadic

/-! ### Texts of doubles -/

/-- The exponent field of a finite double is not the greatest. -/
theorem field_of_isFinite {x : Float} (h : x.isFinite = true) :
    x.toBits.toNat / 2 ^ 52 % 2 ^ 11 ≠ 2 ^ 11 - 1 := by
  intro hfield
  have hbits : x.toModel.toBits.toNat / 2 ^ 52 % 2 ^ 11 = 2 ^ 11 - 1 := hfield
  -- The greatest exponent field is all ones, which stands for infinities and NaNs.
  have hexponent : @Float.Model.UnpackedFloat.unpackExponent .binary64
      x.toModel.toBits.toBitVec = -1#11 := by
    refine BitVec.eq_of_toNat_eq ?_
    simpa [Float.Model.UnpackedFloat.unpackExponent, Nat.shiftRight_eq_div_pow] using hbits
  have hunpack : (Float.Model.UnpackedFloat.unpack .binary64
      x.toModel.toBits.toBitVec).isFinite = true := h
  rw [show Float.Model.UnpackedFloat.unpack .binary64 x.toModel.toBits.toBitVec = _ from
    if_pos hexponent] at hunpack
  split at hunpack <;> cases hunpack

theorem Dyadic.finite_ofPattern {n : Nat} (h : n / 2 ^ 52 < 2047)
    (hpos : 0 < (ofPattern n).significand) : (ofPattern n).Finite := by
  by_cases hn : n / 2 ^ 52 = 0
  · rw [ofPattern_subnormal hn] at hpos ⊢
    refine ⟨hpos, ?_, le_refl (-1074 : ℤ), (by decide : (-1074 : ℤ) ≤ 971)⟩
    show n % 2 ^ 52 < 2 ^ 53
    omega
  · rw [ofPattern_normal hn] at hpos ⊢
    refine ⟨hpos, ?_, ?_, ?_⟩
    · show 2 ^ 52 + n % 2 ^ 52 < 2 ^ 53
      omega
    · show -1074 ≤ ((n / 2 ^ 52 : Nat) : ℤ) - 1075
      omega
    · show ((n / 2 ^ 52 : Nat) : ℤ) - 1075 ≤ 971
      omega

/-- The text without a sign stands for a fraction in the basin of the double. -/
theorem denotes_magnitudeText {bits : UInt64} (h : bits.toNat / 2 ^ 52 % 2 ^ 11 ≠ 2 ^ 11 - 1) :
    ∃ q, Denotes (magnitudeText bits).toList q ∧
      (Dyadic.ofPattern (bits.toNat % 2 ^ 63)).basin.Mem q := by
  have hfield : bits.toNat % 2 ^ 63 / 2 ^ 52 < 2047 := by omega
  unfold magnitudeText
  rw [Dyadic.ofBits_eq]
  simp only
  split
  · rename_i hzero
    refine ⟨0, @Denotes.integer ['0'] ⟨List.cons_ne_nil _ _, List.forall_mem_singleton.mpr rfl⟩, ?_⟩
    have hends : (Dyadic.ofPattern (bits.toNat % 2 ^ 63)).low = 0 ∧
        0 < (Dyadic.ofPattern (bits.toNat % 2 ^ 63)).high := by
      rw [Dyadic.low, Dyadic.high, hzero, Nat.mul_zero, Nat.zero_sub, Nat.cast_zero, zero_mul]
      exact ⟨rfl, mul_pos (by decide) (zpow_pos (by decide) _)⟩
    rw [Dyadic.mem_basin_iff, hzero, if_pos rfl, hends.1]
    exact ⟨le_refl _, hends.2.le⟩
  · rename_i hpos
    exact ⟨_, Numeral.denotes_text _,
      Dyadic.mem_basin_shortest (Dyadic.finite_ofPattern hfield (Nat.pos_of_ne_zero hpos))⟩

/-- The text of a finite double is that of its magnitude after its sign. -/
theorem text_eq {x : Float} (h : x.isFinite = true) (infinity : String) :
    text infinity x =
      (if x.toBits.toNat < 2 ^ 63 then "" else "-") ++ magnitudeText x.toBits := by
  unfold text
  exact if_neg (field_of_isFinite h)

/-- The text of a finite double starts with a digit or a sign, and has only digits and a
point after it. -/
theorem text_chars {x : Float} (h : x.isFinite = true) (infinity : String) :
    ∃ c cs, (text infinity x).toList = c :: cs ∧ (isDigit c = true ∨ c = '-') ∧
      ∀ d ∈ cs, isDigit d = true ∨ d = '.' := by
  obtain ⟨q, hdenotes, -⟩ := denotes_magnitudeText (field_of_isFinite h)
  obtain ⟨⟨c, cs, hfirst, hc⟩, hchars⟩ := hdenotes.chars
  rw [text_eq h, String.toList_append, hfirst]
  split
  · exact ⟨c, cs, rfl, .inl hc, fun d hd => hchars d (hfirst ▸ List.mem_cons_of_mem c hd)⟩
  · exact ⟨'-', c :: cs, rfl, .inr rfl, hfirst ▸ hchars⟩

/-- The magnitudes of finite doubles have different texts. -/
theorem magnitudeText_inj {bits bits' : UInt64} (h : bits.toNat / 2 ^ 52 % 2 ^ 11 ≠ 2 ^ 11 - 1)
    (h' : bits'.toNat / 2 ^ 52 % 2 ^ 11 ≠ 2 ^ 11 - 1)
    (heq : (magnitudeText bits).toList = (magnitudeText bits').toList) :
    bits.toNat % 2 ^ 63 = bits'.toNat % 2 ^ 63 := by
  obtain ⟨q, hdenotes, hmem⟩ := denotes_magnitudeText h
  obtain ⟨q', hdenotes', hmem'⟩ := denotes_magnitudeText h'
  rw [heq] at hdenotes
  obtain rfl := hdenotes.unique hdenotes'
  exact Dyadic.pattern_unique hmem hmem'

theorem magnitudeText_ne_minus {bits : UInt64} (h : bits.toNat / 2 ^ 52 % 2 ^ 11 ≠ 2 ^ 11 - 1)
    {cs : List Char} : (magnitudeText bits).toList ≠ '-' :: cs := by
  obtain ⟨q, hdenotes, -⟩ := denotes_magnitudeText h
  obtain ⟨⟨c, cs, hfirst, hc⟩, -⟩ := hdenotes.chars
  rw [hfirst]
  rintro heq
  rw [List.head_eq_of_cons_eq heq] at hc
  exact absurd hc (by decide)

theorem toBits_inj {x y : Float} (h : x.toBits.toNat = y.toBits.toNat) : x = y := by
  obtain ⟨⟨bits, _⟩⟩ := x
  obtain ⟨⟨bits', _⟩⟩ := y
  obtain rfl : bits = bits' := UInt64.toNat_inj.mp h
  rfl

/-- Finite doubles with the same text are the same. -/
theorem text_inj {x y : Float} (hx : x.isFinite = true) (hy : y.isFinite = true)
    {infinity : String} (h : text infinity x = text infinity y) : x = y := by
  have hfield := field_of_isFinite hx
  have hfield' := field_of_isFinite hy
  have hlists := congrArg String.toList h
  rw [text_eq hx, text_eq hy, String.toList_append, String.toList_append] at hlists
  have hsmall := x.toBits.toNat_lt
  have hsmall' := y.toBits.toNat_lt
  refine toBits_inj ?_
  -- The sign is either in both texts or in none: no magnitude starts with one.
  split at hlists <;> split at hlists
  · have hmagnitude := magnitudeText_inj hfield hfield' hlists
    omega
  · exact absurd hlists (magnitudeText_ne_minus hfield)
  · exact absurd hlists.symm (magnitudeText_ne_minus hfield')
  · have hmagnitude := magnitudeText_inj hfield hfield' (List.tail_eq_of_cons_eq hlists)
    omega

end Lox.Decimal
