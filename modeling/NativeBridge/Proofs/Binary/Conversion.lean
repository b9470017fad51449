import NativeBridge.Proofs.Binary.Rounding

/-! # Conversions of formats and of whole numbers

A conversion rounds a number once, and so does the conversion of a whole number; the whole part of a
number is the one toward zero. Whatever is a number has one rounding, and bits that are a number are
their own.
-/
namespace NativeBridge.Binary

namespace Number

def ofInt (z : Int) : Number := .finite (z < 0) |(z : ℚ)|

/-- The bits of a number, rounded once to the nearest value; what is no number stays none. -/
def Rounds (f : Format) : Number → Nat → Prop
  | finite negative x, bits => ∃ p, f.Nearest x p ∧ bits = f.withSign negative p
  | infinite negative, bits => bits = f.withSign negative f.infinity
  | nan, bits => f.number bits = nan

/-- The whole number toward zero, kept within bounds; zero where there is no number. -/
def saturated (low high : Int) : Number → Int
  | finite negative x => max low (min high (if negative then -⌊x⌋ else ⌊x⌋))
  | infinite negative => if negative then low else high
  | nan => 0

/-- Bounds within others may be kept afterwards. -/
theorem saturated_saturated {low high least most : Int} (hl : low ≤ 0) (hh : 0 ≤ high)
    (hleast : least ≤ low) (hmost : high ≤ most) (n : Number) :
    n.saturated low high = max low (min high (n.saturated least most)) := by
  cases n with
  | finite negative x =>
    simp only [saturated]
    omega
  | infinite negative =>
    cases negative <;> simp only [saturated, if_true, if_false, Bool.false_eq_true] <;> omega
  | nan =>
    simp only [saturated]
    omega

end Number

namespace Format

variable {f g : Format} {p q r bits : Nat} {negative : Bool} {x : ℚ}

theorem withSign_mod (hp : p < f.signBit) : f.withSign negative p % f.signBit = p := by
  cases negative with
  | false => exact Nat.mod_eq_of_lt hp
  | true => exact (Nat.add_mod_left f.signBit p).trans (Nat.mod_eq_of_lt hp)

theorem isNegative_withSign (hp : p < f.signBit) : f.isNegative (f.withSign negative p) = negative := by
  cases negative with
  | false => exact decide_eq_false (Nat.not_le.2 hp)
  | true => exact decide_eq_true (Nat.le_add_right f.signBit p)

theorem withSign_lt (hp : p < f.signBit) : f.withSign negative p < 2 * f.signBit := by
  cases negative with
  | false => exact Nat.lt_of_lt_of_le hp (by omega)
  | true =>
    change f.signBit + p < 2 * f.signBit
    omega

theorem withSign_inj (hp : p < f.signBit) (hq : q < f.signBit)
    (h : f.withSign negative p = f.withSign negative q) : p = q := by
  rw [← withSign_mod hp, h, withSign_mod hq]

theorem Proper.withSign_mod_two (h : f.Proper) (negative : Bool) (p : Nat) :
    f.withSign negative p % 2 = p % 2 := by
  have hs := infinity_add_fractions (f := f)
  have hi := h.even_infinity
  have hf := h.even_fractions
  cases negative with
  | false => rfl
  | true =>
    change (f.signBit + p) % 2 = p % 2
    omega

theorem eq_withSign (hb : bits < 2 * f.signBit) :
    bits = f.withSign (f.isNegative bits) (bits % f.signBit) := by
  unfold isNegative withSign
  by_cases h : f.signBit ≤ bits
  · rw [Nat.mod_eq_sub_mod h, Nat.mod_eq_of_lt (by omega), decide_eq_true h, if_pos rfl]
    omega
  · rw [Nat.mod_eq_of_lt (by omega), decide_eq_false h]
    rfl

theorem Proper.number_withSign (h : f.Proper) (negative : Bool) (hp : p ≤ f.infinity) :
    f.number (f.withSign negative p) =
      if p = f.infinity then .infinite negative else .finite negative (f.value p) := by
  have hs : p < f.signBit := Nat.lt_of_le_of_lt hp infinity_lt_signBit
  rw [h.number_eq (withSign_lt hs), datum, isNegative_withSign hs, withSign_mod hs,
    if_neg (Nat.not_lt.2 hp), h.value_eq]
  split <;> rfl

theorem Proper.number_of_infinity_lt (h : f.Proper) (hb : bits < 2 * f.signBit)
    (hp : f.infinity < bits % f.signBit) : f.number bits = .nan := by
  rw [h.number_eq hb, datum, if_pos hp]
  rfl

theorem quietNan_lt : f.quietNan < f.signBit := by
  have hs := infinity_add_fractions (f := f)
  have hf := fractions_pos (f := f)
  unfold quietNan
  omega

theorem Proper.number_quietNan (h : f.Proper) : f.number f.quietNan = .nan := by
  have hf := fractions_pos (f := f)
  have he := h.even_fractions
  have hi : f.infinity < f.quietNan := by
    unfold quietNan
    omega
  have hlt := quietNan_lt (f := f)
  exact h.number_of_infinity_lt (by omega) ((Nat.mod_eq_of_lt hlt).symm ▸ hi)

end Format

variable {f g : Format} {bits : Nat} {z : Int}

/-- A number has one rounding. -/
theorem Number.Rounds.unique (h : f.Proper) {n : Number} (hn : n ≠ .nan) {b c : Nat}
    (hb : n.Rounds f b) (hc : n.Rounds f c) : b = c := by
  cases n with
  | finite negative x =>
    obtain ⟨p, hp, rfl⟩ := hb
    obtain ⟨q, hq, rfl⟩ := hc
    rw [hp.unique h hq]
  | infinite negative => exact Eq.trans hb hc.symm
  | nan => exact absurd rfl hn

theorem rounds_self (h : f.Proper) (hb : bits < 2 * f.signBit) : (f.number bits).Rounds f bits := by
  have he := Format.eq_withSign hb
  generalize f.isNegative bits = negative at he
  by_cases hp : bits % f.signBit ≤ f.infinity
  · generalize bits % f.signBit = p at he hp
    subst he
    rw [h.number_withSign negative hp]
    split
    · rename_i hi
      exact hi ▸ rfl
    · exact ⟨p, h.nearest_value hp, rfl⟩
  · have hn := h.number_of_infinity_lt hb (Nat.not_le.1 hp)
    rw [hn]
    exact hn

/-- A conversion rounds once. -/
theorem rounds_convert (hf : f.Proper) (hg : g.Proper) (hb : bits < 2 * f.signBit) :
    (f.number bits).Rounds g (convert f g bits) := by
  unfold convert
  split
  · rename_i h
    subst h
    exact rounds_self hf hb
  · rw [hf.number_eq hb]
    cases f.datum bits with
    | nan => exact hg.number_quietNan
    | infinite negative => rfl
    | finite negative units =>
      refine ⟨_, ?_, rfl⟩
      have hr : g.ratio (units * g.one) f.one = units / f.one := by
        have ho : (g.one : ℚ) ≠ 0 := Nat.cast_ne_zero.2 Format.one_pos.ne'
        rw [Format.ratio, Nat.cast_mul]
        field_simp
      exact hr ▸ hg.nearest_roundRatio _ Format.one_pos

theorem convert_lt (hb : bits < 2 * f.signBit) : convert f g bits < 2 * g.signBit := by
  have hq := Format.quietNan_lt (f := g)
  unfold convert
  split
  · rename_i h
    exact h ▸ hb
  · cases f.datum bits with
    | nan => exact Nat.lt_of_lt_of_le hq (by omega)
    | infinite negative => exact Format.withSign_lt Format.infinity_lt_signBit
    | finite negative units =>
      exact Format.withSign_lt (Nat.lt_of_le_of_lt (Nat.min_le_right _ _) Format.infinity_lt_signBit)

theorem nearest_natAbs (hf : f.Proper) (z : Int) :
    f.Nearest |(z : ℚ)| (roundRatio f (z.natAbs * f.one) 1) := by
  have ho : (f.one : ℚ) ≠ 0 := Nat.cast_ne_zero.2 Format.one_pos.ne'
  have hr : f.ratio (z.natAbs * f.one) 1 = |(z : ℚ)| := by
    rw [Format.ratio, Nat.cast_mul, Nat.cast_one, div_one, mul_div_cancel_right₀ _ ho, Nat.cast_natAbs,
      Int.cast_abs]
  exact hr ▸ hf.nearest_roundRatio _ Nat.one_pos

/-- A whole number is rounded once. -/
theorem rounds_ofInt (hf : f.Proper) (z : Int) : (Number.ofInt z).Rounds f (ofInt f z) :=
  ⟨_, nearest_natAbs hf z, rfl⟩

theorem ofInt_lt (z : Int) : ofInt f z < 2 * f.signBit :=
  Format.withSign_lt (Nat.lt_of_le_of_lt (Nat.min_le_right _ _) Format.infinity_lt_signBit)

/-- The whole part of a number is the one toward zero. -/
theorem truncate_eq (hf : f.Proper) (hb : bits < 2 * f.signBit) :
    truncate f bits = (f.number bits).saturated wideMin wideMax := by
  rw [hf.number_eq hb]
  unfold truncate
  cases f.datum bits with
  | nan => rfl
  | infinite negative => rfl
  | finite negative units =>
    have hfl : ⌊(units : ℚ) / f.one⌋ = (units / f.one : Nat) := Rat.floor_natCast_div_natCast units f.one
    change _ = max wideMin (min wideMax _)
    rw [hfl]

end NativeBridge.Binary
