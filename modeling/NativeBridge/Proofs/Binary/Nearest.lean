import NativeBridge.Proofs.Binary.Number

/-! # Nearest values

Patterns without sign are in the order of their values. The values around a pattern are a power of two
of units apart, so where a number lies is found by one division, and the nearest pattern is one of the
two around it. A pattern is the nearest to just the numbers between the middles on its sides, and to
the middles themselves where it is even.
-/
namespace NativeBridge.Binary.Format

variable {f : Format} {a p q m shift : Nat} {x : ℚ}

/-! The order of patterns. -/

theorem units_shift (hs : shift = 0 ∨ f.fractions ≤ m) (hm : m ≤ 2 * f.fractions) :
    f.units (shift * f.fractions + m) = m * 2 ^ shift := by
  have hf := fractions_pos (f := f)
  unfold units
  dsimp only
  rw [Nat.mul_comm shift, Nat.mul_add_div hf, Nat.mul_add_mod]
  rcases Nat.lt_or_ge m f.fractions with hlt | hge
  · obtain rfl : shift = 0 := by omega
    rw [Nat.div_eq_of_lt hlt, Nat.mod_eq_of_lt hlt, if_pos rfl, pow_zero, Nat.mul_one]
  · obtain ⟨r, rfl⟩ := Nat.exists_eq_add_of_le hge
    rw [Nat.add_div_left r hf, Nat.add_mod_left]
    rcases Nat.lt_or_ge r f.fractions with hr | hr
    · rw [Nat.div_eq_of_lt hr, Nat.mod_eq_of_lt hr, if_neg (by omega)]
      rfl
    · -- a carry out of the fraction has moved the exponent
      obtain rfl : r = f.fractions := by omega
      have hp : Nat.pow 2 (shift + 2 - 1) = 2 ^ shift * 2 := pow_succ 2 shift
      rw [Nat.div_self hf, Nat.mod_self, Nat.add_zero, if_neg (by omega), hp]
      ring

theorem exists_shift (f : Format) (p : Nat) : ∃ shift m, p = shift * f.fractions + m ∧
    (shift = 0 ∨ f.fractions ≤ m) ∧ m < 2 * f.fractions := by
  have hf := fractions_pos (f := f)
  have hp := Nat.div_add_mod p f.fractions
  have hlt := Nat.mod_lt p hf
  generalize p % f.fractions = r at hp hlt
  rw [Nat.mul_comm] at hp
  cases hs : p / f.fractions with
  | zero => exact ⟨0, r, by rw [← hp, hs], .inl rfl, by omega⟩
  | succ shift =>
    refine ⟨shift, f.fractions + r, ?_, .inr (by omega), by omega⟩
    rw [← hp, hs, Nat.succ_mul, Nat.add_assoc]

theorem units_lt_succ (f : Format) (p : Nat) : f.units p < f.units (p + 1) := by
  obtain ⟨shift, m, rfl, hs, hm⟩ := exists_shift f p
  rw [Nat.add_assoc, units_shift hs (by omega), units_shift (by omega) (by omega), Nat.succ_mul]
  exact Nat.lt_add_of_pos_right (Nat.two_pow_pos shift)

theorem Proper.value_strictMono (h : f.Proper) : StrictMono f.value := by
  refine strictMono_nat_of_lt_succ fun p => ?_
  rw [h.value_eq, h.value_eq]
  exact div_lt_div_of_pos_right (Nat.cast_lt.2 (units_lt_succ f p)) (Nat.cast_pos.2 one_pos)

/-- A number of units with no more digits than a fraction has a pattern, as far as the exponents go. -/
theorem exists_units (f : Format) (hm : m ≤ 2 * f.fractions) (shift : Nat) :
    ∃ p, f.units p = m * 2 ^ shift := by
  induction shift generalizing m with
  | zero => exact ⟨m, by simpa using units_shift (f := f) (.inl rfl) hm⟩
  | succ shift ih =>
    rcases Nat.lt_or_ge m f.fractions with hlt | hge
    · obtain ⟨p, hp⟩ := ih (m := 2 * m) (by omega)
      exact ⟨p, by rw [hp, pow_succ]; ring⟩
    · exact ⟨_, units_shift (.inr hge) hm⟩

/-! The nearest pattern. -/

/-- The value of `p` is nearest to `x`, where infinity counts as the value that would follow the
greatest. If another is as near, `p` is the even one of the two. -/
structure Nearest (f : Format) (x : ℚ) (p : Nat) : Prop where
  le_infinity : p ≤ f.infinity
  le (q : Nat) (hq : q ≤ f.infinity) : |f.value p - x| ≤ |f.value q - x|
  even (q : Nat) (hq : q ≤ f.infinity) (ne : q ≠ p) (eq : |f.value q - x| = |f.value p - x|) :
    p % 2 = 0

/-- Between a value and the next. -/
def middle (f : Format) (a : Nat) : ℚ := (f.value a + f.value (a + 1)) / 2

theorem abs_sub_le_iff_of_lt {y z : ℚ} (h : y < z) : |z - x| ≤ |y - x| ↔ (y + z) / 2 ≤ x := by
  rcases abs_cases (z - x) with ⟨hz, _⟩ | ⟨hz, _⟩ <;> rcases abs_cases (y - x) with ⟨hy, _⟩ | ⟨hy, _⟩ <;>
    rw [hz, hy] <;> constructor <;> intro _ <;> linarith

theorem abs_sub_le_iff_of_gt {y z : ℚ} (h : y < z) : |y - x| ≤ |z - x| ↔ x ≤ (y + z) / 2 := by
  rcases abs_cases (z - x) with ⟨hz, _⟩ | ⟨hz, _⟩ <;> rcases abs_cases (y - x) with ⟨hy, _⟩ | ⟨hy, _⟩ <;>
    rw [hz, hy] <;> constructor <;> intro _ <;> linarith

/-- Within the middles around a pattern, and on one only where the pattern is even. -/
structure Cell (f : Format) (x : ℚ) (p : Nat) : Prop where
  le_infinity : p ≤ f.infinity
  lower (a : Nat) (ha : a + 1 = p) : f.middle a ≤ x ∧ (f.middle a = x → p % 2 = 0)
  upper (hp : p < f.infinity) : x ≤ f.middle p ∧ (f.middle p = x → p % 2 = 0)

theorem Proper.middle_lt (h : f.Proper) (a : Nat) : f.middle a < f.value (a + 1) := by
  have hlt := h.value_strictMono (Nat.lt_succ_self a)
  rw [Nat.succ_eq_add_one] at hlt
  unfold middle
  linarith

theorem Proper.lt_middle (h : f.Proper) (a : Nat) : f.value a < f.middle a := by
  have hlt := h.value_strictMono (Nat.lt_succ_self a)
  rw [Nat.succ_eq_add_one] at hlt
  unfold middle
  linarith

theorem Nearest.cell (h : f.Proper) (hn : f.Nearest x p) : f.Cell x p where
  le_infinity := hn.le_infinity
  lower a ha := by
    subst ha
    have hlt := h.value_strictMono (Nat.lt_succ_self a)
    have hi := hn.le_infinity
    refine ⟨(abs_sub_le_iff_of_lt hlt).1 (hn.le a (by omega)), fun he => ?_⟩
    refine hn.even a (by omega) (by omega) (le_antisymm ?_ (hn.le a (by omega)))
    exact (abs_sub_le_iff_of_gt hlt).2 he.ge
  upper hp := by
    have hlt := h.value_strictMono (Nat.lt_succ_self p)
    refine ⟨(abs_sub_le_iff_of_gt hlt).1 (hn.le (p + 1) hp), fun he => ?_⟩
    refine hn.even (p + 1) hp (by omega) (le_antisymm ?_ (hn.le (p + 1) hp))
    exact (abs_sub_le_iff_of_lt hlt).2 he.le

theorem Cell.nearest (h : f.Proper) (hc : f.Cell x p) : f.Nearest x p := by
  -- patterns further off have their middles with `p` further off as well
  have below : ∀ q < p, (f.value q + f.value p) / 2 ≤ x ∧
      ((f.value q + f.value p) / 2 = x → p % 2 = 0) := by
    intro q hq
    obtain ⟨a, rfl⟩ : ∃ a, p = a + 1 := ⟨p - 1, by omega⟩
    have hqa : f.value q ≤ f.value a := h.value_strictMono.monotone (by omega)
    obtain ⟨hl, he⟩ := hc.lower a rfl
    unfold middle at hl he
    exact ⟨by linarith, fun heq => he (by linarith)⟩
  have above : ∀ q, p < q → q ≤ f.infinity → x ≤ (f.value p + f.value q) / 2 ∧
      ((f.value p + f.value q) / 2 = x → p % 2 = 0) := by
    intro q hq hi
    have hpq : f.value (p + 1) ≤ f.value q := h.value_strictMono.monotone (by omega)
    obtain ⟨hu, he⟩ := hc.upper (by omega)
    unfold middle at hu he
    exact ⟨by linarith, fun heq => he (by linarith)⟩
  refine ⟨hc.le_infinity, fun q hq => ?_, fun q hq ne eq => ?_⟩
  · rcases Nat.lt_trichotomy q p with hlt | rfl | hgt
    · exact (abs_sub_le_iff_of_lt (h.value_strictMono hlt)).2 (below q hlt).1
    · exact le_rfl
    · exact (abs_sub_le_iff_of_gt (h.value_strictMono hgt)).2 (above q hgt hq).1
  · rcases Nat.lt_or_gt_of_ne ne with hlt | hgt
    · refine (below q hlt).2 (le_antisymm (below q hlt).1 ?_)
      exact (abs_sub_le_iff_of_gt (h.value_strictMono hlt)).1 eq.le
    · refine (above q hgt hq).2 (le_antisymm ?_ (above q hgt hq).1)
      exact (abs_sub_le_iff_of_lt (h.value_strictMono hgt)).1 eq.le

theorem nearest_iff_cell (h : f.Proper) : f.Nearest x p ↔ f.Cell x p :=
  ⟨fun hn => hn.cell h, fun hc => hc.nearest h⟩

theorem Cell.not_lt (h : f.Proper) (hp : f.Cell x p) (hq : f.Cell x q) : ¬p < q := by
  intro hlt
  obtain ⟨a, rfl⟩ : ∃ a, q = a + 1 := ⟨q - 1, by omega⟩
  have hqi := hq.le_infinity
  obtain ⟨hu, hue⟩ := hp.upper (by omega)
  obtain ⟨hl, hle⟩ := hq.lower a rfl
  rcases Nat.lt_or_ge p a with hpa | hpa
  · have hv := h.value_strictMono.monotone (Nat.succ_le_of_lt hpa)
    have h1 := h.middle_lt p
    have h2 := h.lt_middle a
    rw [Nat.succ_eq_add_one] at hv
    linarith
  · -- both sides of one middle, of which only one is even
    obtain rfl : p = a := by omega
    have he : f.middle p = x := le_antisymm hl hu
    have := hue he
    have := hle he
    omega

/-- There is only one nearest pattern. -/
theorem Nearest.unique (h : f.Proper) (hp : f.Nearest x p) (hq : f.Nearest x q) : p = q :=
  le_antisymm (Nat.not_lt.1 ((hq.cell h).not_lt h (hp.cell h)))
    (Nat.not_lt.1 ((hp.cell h).not_lt h (hq.cell h)))

/-- A value is nearest to itself. -/
theorem Proper.nearest_value (h : f.Proper) (hp : p ≤ f.infinity) : f.Nearest (f.value p) p := by
  refine Cell.nearest h ⟨hp, fun a ha => ?_, fun _ => ?_⟩
  · subst ha
    have hlt := h.middle_lt a
    exact ⟨hlt.le, fun he => absurd he hlt.ne⟩
  · have hlt := h.lt_middle p
    exact ⟨hlt.le, fun he => absurd he hlt.ne'⟩

end NativeBridge.Binary.Format
