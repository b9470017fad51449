import NativeBridge.Proofs.Binary.Nearest

/-! # Rounding

Rounding a ratio gives the nearest pattern, whatever the ratio: what is rounded in the end is a whole
number of steps, and a remainder that is compared with half of one.
-/
namespace NativeBridge.Binary

/-- What a quotient is rounded to: on a tie the even one of the whole numbers beside it. -/
theorem nearestEven_cases (num den : Nat) :
    (nearestEven num den = num / den ∧ 2 * num ≤ (2 * (num / den) + 1) * den ∧
      (2 * num = (2 * (num / den) + 1) * den → num / den % 2 = 0)) ∨
    (nearestEven num den = num / den + 1 ∧ (2 * (num / den) + 1) * den ≤ 2 * num ∧
      (2 * num = (2 * (num / den) + 1) * den → (num / den + 1) % 2 = 0)) := by
  have hd : num = num / den * den + num % den := (Nat.div_add_mod' num den).symm
  unfold nearestEven
  generalize num / den = q at hd ⊢
  generalize num % den = r at hd ⊢
  have hm : (2 * q + 1) * den = 2 * (q * den) + den := by ring
  dsimp only
  rw [hm]
  split
  · exact .inl ⟨rfl, by omega, by omega⟩
  split
  · exact .inr ⟨rfl, by omega, by omega⟩
  · rcases Nat.mod_two_eq_zero_or_one q with h | h
    · exact .inl ⟨by omega, by omega, fun _ => h⟩
    · exact .inr ⟨by omega, by omega, by omega⟩

namespace Format

variable {f : Format} {a num den p u : Nat}

/-- The value of a ratio of units. -/
def ratio (f : Format) (num den : Nat) : ℚ := num / den / f.one

theorem ratio_eq (num den : Nat) : f.ratio num den = (2 * num : Nat) / (2 * den * f.one) := by
  rw [ratio, Nat.cast_mul, Nat.cast_ofNat, div_div, mul_assoc, mul_div_mul_left _ _ two_ne_zero]

theorem Proper.middle_eq (h : f.Proper) (a : Nat) :
    f.middle a = (f.units a + f.units (a + 1) : Nat) / (2 * f.one) := by
  rw [middle, h.value_eq, h.value_eq, Nat.cast_add]
  field_simp

/-- A middle over the same denominator as a ratio. -/
theorem Proper.middle_eq_of_pos (h : f.Proper) (hd : 0 < den) (a : Nat) :
    f.middle a = ((f.units a + f.units (a + 1)) * den : Nat) / (2 * den * f.one) := by
  have hd' : (den : ℚ) ≠ 0 := Nat.cast_ne_zero.2 hd.ne'
  rw [h.middle_eq, Nat.cast_mul, mul_right_comm, mul_div_mul_right _ _ hd']

/-- A cell, told by units. -/
theorem Proper.cell_ratio_iff (h : f.Proper) (hd : 0 < den) :
    f.Cell (f.ratio num den) p ↔ p ≤ f.infinity ∧
      (∀ a, a + 1 = p → (f.units a + f.units p) * den ≤ 2 * num ∧
        ((f.units a + f.units p) * den = 2 * num → p % 2 = 0)) ∧
      (p < f.infinity → 2 * num ≤ (f.units p + f.units (p + 1)) * den ∧
        ((f.units p + f.units (p + 1)) * den = 2 * num → p % 2 = 0)) := by
  have hpos : (0 : ℚ) < 2 * den * f.one := by
    have ho : (0 : ℚ) < f.one := Nat.cast_pos.2 one_pos
    have hd' : (0 : ℚ) < den := Nat.cast_pos.2 hd
    positivity
  have hle : ∀ a, f.middle a ≤ f.ratio num den ↔
      (f.units a + f.units (a + 1)) * den ≤ 2 * num := fun a => by
    rw [h.middle_eq_of_pos hd, ratio_eq, div_le_div_iff_of_pos_right hpos, Nat.cast_le]
  have hge : ∀ a, f.ratio num den ≤ f.middle a ↔
      2 * num ≤ (f.units a + f.units (a + 1)) * den := fun a => by
    rw [h.middle_eq_of_pos hd, ratio_eq, div_le_div_iff_of_pos_right hpos, Nat.cast_le]
  have heq : ∀ a, f.middle a = f.ratio num den ↔
      (f.units a + f.units (a + 1)) * den = 2 * num := fun a => by
    rw [h.middle_eq_of_pos hd, ratio_eq, div_left_inj' hpos.ne', Nat.cast_inj]
  constructor
  · intro hc
    refine ⟨hc.le_infinity, ?_, fun hp => ?_⟩
    · rintro a rfl
      have hl := hc.lower a rfl
      rwa [heq, hle] at hl
    · have hu := hc.upper hp
      rwa [heq, hge] at hu
  · rintro ⟨hi, hl, hu⟩
    refine ⟨hi, ?_, fun hp => ?_⟩
    · rintro a rfl
      rw [heq, hle]
      exact hl a rfl
    · rw [heq, hge]
      exact hu hp

theorem Proper.even_shift (h : f.Proper) (shift m : Nat) :
    (shift * f.fractions + m) % 2 = m % 2 := by
  rw [Nat.add_mod, Nat.mul_mod, h.even_fractions, Nat.mul_zero, Nat.zero_mod, Nat.zero_add,
    Nat.mod_mod]

/-- With the steps of `shift` the quotient has as many digits as a fraction with the one before it. -/
theorem quotient_digits (f : Format) (num : Nat) {shift : Nat}
    (hs : shift = (num / den).log2 - f.fractionBits) :
    num / (den * 2 ^ shift) < 2 * f.fractions ∧
      (shift = 0 ∨ f.fractions ≤ num / (den * 2 ^ shift)) := by
  have hf : f.fractions = 2 ^ f.fractionBits := rfl
  rw [← Nat.div_div_eq_div_mul]
  generalize num / den = n at hs ⊢
  refine ⟨?_, ?_⟩
  · rw [Nat.div_lt_iff_lt_mul (Nat.two_pow_pos shift), hf, ← pow_succ', ← pow_add]
    refine lt_of_lt_of_le Nat.lt_log2_self (Nat.pow_le_pow_right (by decide) ?_)
    omega
  · rcases Nat.eq_zero_or_pos shift with h0 | h0
    · exact .inl h0
    · right
      rw [Nat.le_div_iff_mul_le (Nat.two_pow_pos shift), hf, ← pow_add]
      have hne : n ≠ 0 := by
        rintro rfl
        simp at hs
        omega
      refine le_trans (Nat.pow_le_pow_right (by decide) ?_) (Nat.log2_self_le hne)
      omega

/-- The nearest pattern of a ratio that is not below its value; behind infinity there is no other. -/
theorem Proper.nearest_of_le (h : f.Proper) (hd : 0 < den) (hp : p ≤ f.infinity)
    (lower : f.units p * den ≤ num)
    (upper : p < f.infinity → 2 * num ≤ (f.units p + f.units (p + 1)) * den ∧
      ((f.units p + f.units (p + 1)) * den = 2 * num → p % 2 = 0)) :
    f.Nearest (f.ratio num den) p := by
  rw [nearest_iff_cell h, h.cell_ratio_iff hd]
  refine ⟨hp, ?_, upper⟩
  rintro a rfl
  have hlt : f.units a * den < f.units (a + 1) * den :=
    Nat.mul_lt_mul_of_pos_right (units_lt_succ f a) hd
  rw [Nat.add_mul]
  exact ⟨by omega, by omega⟩

/-- The nearest pattern of a ratio that is below its value. -/
theorem Proper.nearest_of_lt (h : f.Proper) (hd : 0 < den) (hp : p < f.infinity)
    (lower : (f.units p + f.units (p + 1)) * den ≤ 2 * num)
    (even : (f.units p + f.units (p + 1)) * den = 2 * num → (p + 1) % 2 = 0)
    (upper : num < f.units (p + 1) * den) : f.Nearest (f.ratio num den) (p + 1) := by
  rw [nearest_iff_cell h, h.cell_ratio_iff hd]
  refine ⟨hp, ?_, fun _ => ?_⟩
  · intro a ha
    obtain rfl : a = p := by omega
    exact ⟨lower, even⟩
  · have hlt : f.units (p + 1) * den < f.units (p + 1 + 1) * den :=
      Nat.mul_lt_mul_of_pos_right (units_lt_succ f (p + 1)) hd
    rw [Nat.add_mul]
    exact ⟨by omega, by omega⟩

/-- Rounding a ratio gives the pattern nearest to it. -/
theorem Proper.nearest_roundRatio (h : f.Proper) (num : Nat) (hd : 0 < den) :
    f.Nearest (f.ratio num den) (roundRatio f num den) := by
  obtain ⟨shift, hs⟩ : ∃ shift, shift = (num / den).log2 - f.fractionBits := ⟨_, rfl⟩
  obtain ⟨hq, hsq⟩ := quotient_digits f num hs
  have hround : roundRatio f num den =
      min (shift * f.fractions + nearestEven num (den * 2 ^ shift)) f.infinity := by rw [hs]; rfl
  have hlow := Nat.div_mul_le_self num (den * 2 ^ shift)
  have hhigh := Nat.lt_mul_of_div_lt (Nat.lt_succ_self (num / (den * 2 ^ shift)))
    (Nat.mul_pos hd (Nat.two_pow_pos shift))
  have hcases := nearestEven_cases num (den * 2 ^ shift)
  rw [hround]
  generalize num / (den * 2 ^ shift) = q at hq hsq hlow hhigh hcases
  -- the quotient counts the steps to the pattern below, and one more those to the next
  have hbelow : f.units (shift * f.fractions + q) * den = q * (den * 2 ^ shift) := by
    rw [units_shift hsq (by omega)]
    ring
  have habove : f.units (shift * f.fractions + q + 1) * den = (q + 1) * (den * 2 ^ shift) := by
    rw [Nat.add_assoc, units_shift (by omega) (by omega)]
    ring
  have hmiddle : (f.units (shift * f.fractions + q) + f.units (shift * f.fractions + q + 1)) * den =
      (2 * q + 1) * (den * 2 ^ shift) := by
    rw [Nat.add_mul, hbelow, habove]
    ring
  rcases Nat.lt_or_ge (shift * f.fractions + q) f.infinity with hi | hi
  · rcases hcases with ⟨hn, hle, he⟩ | ⟨hn, hle, he⟩
    · rw [hn, Nat.min_eq_left hi.le]
      refine h.nearest_of_le hd hi.le (hbelow ▸ hlow) fun _ => ?_
      rw [hmiddle, h.even_shift]
      exact ⟨hle, fun heq => he heq.symm⟩
    · rw [hn, ← Nat.add_assoc, Nat.min_eq_left hi]
      refine h.nearest_of_lt hd hi (hmiddle ▸ hle) ?_ (habove ▸ hhigh)
      rw [hmiddle, Nat.add_assoc, h.even_shift]
      exact fun heq => he heq.symm
  · have hmono : f.units f.infinity ≤ f.units (shift * f.fractions + q) :=
      (strictMono_nat_of_lt_succ (units_lt_succ f)).monotone hi
    rw [Nat.min_eq_right (by omega)]
    refine h.nearest_of_le hd le_rfl ?_ fun hlt => absurd hlt (Nat.lt_irrefl _)
    exact (Nat.mul_le_mul_right den hmono).trans (hbelow ▸ hlow)

end Format

end NativeBridge.Binary
