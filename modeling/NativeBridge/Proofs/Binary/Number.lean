import Mathlib.Data.Rat.Floor
import Mathlib.Tactic.FieldSimp
import Mathlib.Tactic.Linarith
import Mathlib.Tactic.Positivity
import Mathlib.Tactic.Ring
import NativeBridge.Binary.Format

/-! # Bits as rational numbers

The bits of a format are a sign, an exponent and a fraction, and stand for a rational number, for an
infinity or for no number. This is the reading of the standard, with its bias and its powers of two of
either sign; counting in units is the same reading over the unit.
-/
namespace NativeBridge.Binary

/-- What bits stand for; a zero has a sign, too. -/
inductive Number
  | finite (negative : Bool) (magnitude : ℚ)
  | infinite (negative : Bool)
  | nan

namespace Format

/-- There are fractions to be even or odd, and exponents for more than zero and infinity. -/
structure Proper (f : Format) : Prop where
  fraction : 1 ≤ f.fractionBits
  exponent : 2 ≤ f.exponentBits

theorem proper_single : single.Proper := ⟨by decide, by decide⟩

theorem proper_double : double.Proper := ⟨by decide, by decide⟩

variable (f : Format)

def bias : Int := 2 ^ (f.exponentBits - 1) - 1

/-- The value of an exponent with the fraction behind it. The exponent zero stands for that of one, with
no one before the fraction. -/
def value (pattern : Nat) : ℚ :=
  let exponent := pattern / 2 ^ f.fractionBits
  let fraction : ℚ := (pattern % 2 ^ f.fractionBits : Nat) / 2 ^ f.fractionBits
  if exponent = 0 then fraction * 2 ^ (1 - f.bias) else (1 + fraction) * 2 ^ (exponent - f.bias)

/-- The number of a sign, an exponent and a fraction; the greatest exponent is that of infinity. -/
def number (bits : Nat) : Number :=
  let negative : Bool := bits / 2 ^ (f.exponentBits + f.fractionBits) % 2 = 1
  let pattern := bits % 2 ^ (f.exponentBits + f.fractionBits)
  if pattern / 2 ^ f.fractionBits = 2 ^ f.exponentBits - 1 then
    if pattern % 2 ^ f.fractionBits = 0 then .infinite negative else .nan
  else .finite negative (f.value pattern)

variable {f : Format} {p q bits : Nat}

theorem fractions_eq : f.fractions = 2 ^ f.fractionBits := rfl

theorem fractions_pos : 0 < f.fractions := Nat.two_pow_pos _

theorem one_pos : 0 < f.one := Nat.two_pow_pos _

theorem signBit_eq : f.signBit = 2 ^ (f.exponentBits + f.fractionBits) := by
  rw [Nat.add_comm]
  rfl

theorem infinity_add_fractions : f.infinity + f.fractions = f.signBit := by
  have he : 1 ≤ 2 ^ f.exponentBits := Nat.one_le_two_pow
  have hs : f.signBit = 2 ^ f.exponentBits * f.fractions := by rw [signBit_eq, pow_add, fractions_eq]
  have hi : f.infinity = (2 ^ f.exponentBits - 1) * f.fractions := rfl
  rw [hs, hi, ← Nat.succ_mul, Nat.succ_eq_add_one, Nat.sub_add_cancel he]

theorem infinity_lt_signBit : f.infinity < f.signBit := by
  have hs := infinity_add_fractions (f := f)
  have hp := fractions_pos (f := f)
  omega

theorem Proper.even_fractions (h : f.Proper) : f.fractions % 2 = 0 := by
  obtain ⟨n, hn⟩ : ∃ n, f.fractionBits = n + 1 := ⟨f.fractionBits - 1, by have := h.fraction; omega⟩
  rw [fractions_eq, hn, pow_succ]
  exact Nat.mul_mod_left _ 2

theorem Proper.even_infinity (h : f.Proper) : f.infinity % 2 = 0 := by
  have hi : f.infinity = (2 ^ f.exponentBits - 1) * f.fractions := rfl
  rw [hi, Nat.mul_mod, h.even_fractions, Nat.mul_zero, Nat.zero_mod]

/-- One is reached from the unit in the steps of the fraction and of the exponents below its own. -/
theorem Proper.scale_eq (h : f.Proper) : (f.scale : Int) = f.fractionBits + f.bias - 1 := by
  have hp : 2 ^ 1 ≤ 2 ^ (f.exponentBits - 1) := Nat.pow_le_pow_right (by decide) (by
    have := h.exponent
    omega)
  have hs : f.scale = f.fractionBits + 2 ^ (f.exponentBits - 1) - 2 := rfl
  have hb : f.bias = ((2 ^ (f.exponentBits - 1) : Nat) : Int) - 1 := by
    rw [bias, Nat.cast_pow, Nat.cast_ofNat]
  rw [hs, hb]
  omega

theorem one_eq : (f.one : ℚ) = 2 ^ f.scale := Nat.cast_pow 2 f.scale

theorem Proper.two_zpow (h : f.Proper) (n : Nat) :
    (2 : ℚ) ^ ((n : Int) + 1 - f.bias) = f.fractions * 2 ^ n / f.one := by
  have he : (n : Int) + 1 - f.bias = (f.fractionBits + n : Nat) - f.scale := by
    rw [h.scale_eq, Nat.cast_add]
    ring
  have hf : (f.fractions : ℚ) = 2 ^ f.fractionBits := by rw [fractions_eq, Nat.cast_pow, Nat.cast_ofNat]
  rw [he, zpow_sub₀ two_ne_zero, zpow_natCast, zpow_natCast, pow_add, hf, one_eq]

/-- A value is its units over those of one. -/
theorem Proper.value_eq (h : f.Proper) (p : Nat) : f.value p = f.units p / f.one := by
  have hf : (f.fractions : ℚ) ≠ 0 := Nat.cast_ne_zero.2 fractions_pos.ne'
  have hp : (2 : ℚ) ^ f.fractionBits = f.fractions := by
    rw [fractions_eq, Nat.cast_pow, Nat.cast_ofNat]
  unfold value units
  rw [← fractions_eq, hp]
  dsimp only
  split
  · have hz := h.two_zpow 0
    rw [Nat.cast_zero, zero_add, pow_zero, mul_one] at hz
    rw [hz, div_mul_div_cancel₀ hf]
  · rename_i he
    obtain ⟨n, hn⟩ := Nat.exists_eq_succ_of_ne_zero he
    rw [hn, Nat.succ_eq_add_one, Nat.cast_add, Nat.cast_one, h.two_zpow n, Nat.add_sub_cancel]
    have ht : ((Nat.pow 2 n : Nat) : ℚ) = 2 ^ n := Nat.cast_pow 2 n
    rw [Nat.cast_mul, Nat.cast_add, ht]
    field_simp

theorem isNegative_eq (hb : bits < 2 * f.signBit) :
    f.isNegative bits = decide (bits / f.signBit % 2 = 1) := by
  have hs : 0 < f.signBit := Nat.two_pow_pos _
  unfold isNegative
  by_cases h : f.signBit ≤ bits
  · have hd : bits / f.signBit = 1 := Nat.div_eq_of_lt_le (by omega) (by omega)
    simp [h, hd]
  · have hd : bits / f.signBit = 0 := Nat.div_eq_of_lt (by omega)
    simp [h, hd]

/-- Where the exponent is the greatest, the pattern is that of infinity or behind it. -/
theorem div_fractions_eq_iff (hp : p < f.signBit) :
    p / f.fractions = 2 ^ f.exponentBits - 1 ↔ f.infinity ≤ p := by
  have hf := fractions_pos (f := f)
  have hs := infinity_add_fractions (f := f)
  have hi : f.infinity = (2 ^ f.exponentBits - 1) * f.fractions := rfl
  constructor
  · intro h
    rw [hi, ← h]
    exact Nat.div_mul_le_self p f.fractions
  · intro h
    refine Nat.div_eq_of_lt_le (hi ▸ h) ?_
    rw [Nat.succ_mul, ← hi]
    omega

theorem mod_fractions_eq_zero_iff (hi : f.infinity ≤ p) (hp : p < f.signBit) :
    p % f.fractions = 0 ↔ p = f.infinity := by
  have hs := infinity_add_fractions (f := f)
  have hm : f.infinity % f.fractions = 0 := Nat.mul_mod_left _ _
  obtain ⟨r, rfl⟩ := Nat.exists_eq_add_of_le hi
  rw [Nat.add_mod, hm, Nat.zero_add, Nat.mod_mod, Nat.mod_eq_of_lt (by omega)]
  omega

end Format

/-- The number of a datum, its units counted over those of one. -/
def Datum.number (f : Format) : Datum → Number
  | finite negative units => .finite negative (units / f.one)
  | infinite negative => .infinite negative
  | nan => .nan

theorem Format.Proper.number_eq {f : Format} (h : f.Proper) {bits : Nat} (hb : bits < 2 * f.signBit) :
    f.number bits = (f.datum bits).number f := by
  have hp : bits % f.signBit < f.signBit := Nat.mod_lt _ (Nat.two_pow_pos _)
  unfold number datum
  rw [← signBit_eq, ← fractions_eq, ← isNegative_eq hb]
  generalize bits % f.signBit = p at hp
  dsimp only
  by_cases hi : f.infinity ≤ p
  · rw [if_pos ((div_fractions_eq_iff hp).2 hi)]
    by_cases he : p = f.infinity
    · rw [if_pos ((mod_fractions_eq_zero_iff hi hp).2 he), if_neg (by omega), if_pos he]
      rfl
    · rw [if_neg fun hz => he ((mod_fractions_eq_zero_iff hi hp).1 hz), if_pos (by omega)]
      rfl
  · rw [if_neg fun hz => hi ((div_fractions_eq_iff hp).1 hz), if_neg (by omega), if_neg (by omega),
      h.value_eq]
    rfl

end NativeBridge.Binary
