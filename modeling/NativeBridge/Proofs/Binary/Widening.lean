import NativeBridge.Proofs.Binary.Conversion

/-! # Rounding in a wider format first

A wider format has all values of a narrower one and all middles between them, so a number of the
narrower one goes through it unchanged. A number that is rounded in the wider one and then in the
narrower one keeps to its side of every middle, unless the first rounding puts it on one.
-/
namespace NativeBridge.Binary

/-- As far from one value of the format as from the next. -/
def Number.Halfway (f : Format) : Number → Prop
  | finite _ x => ∃ a < f.infinity, f.middle a = x
  | _ => False

namespace Format

/-- One format has all values and all middles of another. -/
structure Wider (g f : Format) : Prop where
  exists_half (m shift : Nat) (hm : m ≤ 4 * f.fractions) :
    ∃ q, g.value q = (m * 2 ^ shift : Nat) / (2 * f.one)
  infinity_le : f.value f.infinity ≤ g.value g.infinity

theorem Proper.exists_half {f g : Format} (hg : g.Proper) {m extra : Nat}
    (hs : g.scale = extra + (1 + f.scale)) (hm : m ≤ 2 * g.fractions) (shift : Nat) :
    ∃ q, g.value q = (m * 2 ^ shift : Nat) / (2 * f.one) := by
  obtain ⟨q, hq⟩ := exists_units g hm (extra + shift)
  refine ⟨q, ?_⟩
  rw [hg.value_eq, hq, one_eq, one_eq, hs, pow_add, pow_add, pow_add, pow_one]
  push_cast
  field_simp

theorem wider_double_single : Wider double single where
  exists_half m shift hm :=
    proper_double.exists_half (f := single) (show double.scale = 924 + (1 + single.scale) by decide)
      (hm.trans (by decide)) shift
  infinity_le := by
    have hn : single.units single.infinity * double.one ≤ double.units double.infinity * single.one := by
      decide +kernel
    rw [proper_single.value_eq, proper_double.value_eq,
      div_le_div_iff₀ (Nat.cast_pos.2 one_pos) (Nat.cast_pos.2 one_pos)]
    exact_mod_cast hn

variable {f g : Format} {a p q r : Nat} {x : ℚ}

theorem Proper.middle_strictMono (h : f.Proper) : StrictMono f.middle := by
  refine strictMono_nat_of_lt_succ fun a => ?_
  exact (h.middle_lt a).trans (h.lt_middle (a + 1))

theorem Wider.exists_value (w : Wider g f) (hf : f.Proper) (hg : g.Proper) (hp : p < f.infinity) :
    ∃ q < g.infinity, g.value q = f.value p := by
  obtain ⟨shift, m, hsm, hs, hm⟩ := exists_shift f p
  obtain ⟨q, hq⟩ := w.exists_half (2 * m) shift (by omega)
  have hv : g.value q = f.value p := by
    rw [hq, hf.value_eq, hsm, units_shift hs hm.le]
    push_cast
    field_simp
  refine ⟨q, hg.value_strictMono.lt_iff_lt.1 ?_, hv⟩
  exact hv ▸ (hf.value_strictMono hp).trans_le w.infinity_le

theorem Wider.exists_middle (w : Wider g f) (hf : f.Proper) (hg : g.Proper) (ha : a < f.infinity) :
    ∃ q < g.infinity, g.value q = f.middle a := by
  obtain ⟨shift, m, hsm, hs, hm⟩ := exists_shift f a
  obtain ⟨q, hq⟩ := w.exists_half (2 * m + 1) shift (by omega)
  have hv : g.value q = f.middle a := by
    rw [hq, hf.middle_eq, hsm, Nat.add_assoc, units_shift hs hm.le, units_shift (by omega) (by omega),
      ← Nat.add_mul, two_mul, Nat.add_assoc]
  refine ⟨q, hg.value_strictMono.lt_iff_lt.1 ?_, hv⟩
  have hlt := (hf.middle_lt a).trans_le (hf.value_strictMono.monotone (Nat.succ_le_of_lt ha))
  exact hv ▸ hlt.trans_le w.infinity_le

/-- The nearest value does not pass a value. -/
theorem Nearest.value_le (hn : f.Nearest x p) (hq : q ≤ f.infinity) (hx : x ≤ f.value q) :
    f.value p ≤ f.value q := by
  by_contra hlt
  have hm := (abs_sub_le_iff_of_lt (not_le.1 hlt)).1 (hn.le q hq)
  linarith

theorem Nearest.le_value (hn : f.Nearest x p) (hq : q ≤ f.infinity) (hx : f.value q ≤ x) :
    f.value q ≤ f.value p := by
  by_contra hlt
  have hm := (abs_sub_le_iff_of_gt (not_le.1 hlt)).1 (hn.le q hq)
  linarith

/-- What is nearest to a middle is even. -/
theorem Nearest.even_of_middle (h : f.Proper) (hn : f.Nearest x r) (ha : a < f.infinity)
    (he : f.middle a = x) : r % 2 = 0 := by
  have hc := hn.cell h
  rcases Nat.lt_or_ge a r with hlt | hge
  · obtain ⟨b, rfl⟩ : ∃ b, r = b + 1 := ⟨r - 1, by omega⟩
    have hb : b ≤ a := h.middle_strictMono.le_iff_le.1 (he ▸ (hc.lower b rfl).1)
    obtain rfl : b = a := by omega
    exact (hc.lower b rfl).2 he
  · have hr : r < f.infinity := by omega
    have hb : a ≤ r := h.middle_strictMono.le_iff_le.1 (he ▸ (hc.upper hr).1)
    obtain rfl : a = r := by omega
    exact (hc.upper hr).2 he

/-- Rounded first in a wider format, a number comes to the same value if that has not put it on a
middle, or the value is even anyway. -/
theorem Wider.nearest_iff (w : Wider g f) (hf : f.Proper) (hg : g.Proper) (hq : g.Nearest x q)
    (hr : f.Nearest x r) :
    f.Nearest (g.value q) r ↔ ¬(∃ a < f.infinity, f.middle a = g.value q) ∨ r % 2 = 0 := by
  constructor
  · intro hn
    by_cases hm : ∃ a < f.infinity, f.middle a = g.value q
    · obtain ⟨a, ha, he⟩ := hm
      exact .inr (hn.even_of_middle hf ha he)
    · exact .inl hm
  · intro h
    have heven : ∀ a < f.infinity, f.middle a = g.value q → r % 2 = 0 := by
      intro a ha he
      exact h.resolve_left fun hm => hm ⟨a, ha, he⟩
    have hc := hr.cell hf
    refine Cell.nearest hf ⟨hc.le_infinity, fun a ha => ?_, fun hi => ?_⟩
    · have hai : a < f.infinity := by have := hc.le_infinity; omega
      obtain ⟨b, hb, hv⟩ := w.exists_middle hf hg hai
      exact ⟨hv ▸ hq.le_value hb.le (hv ▸ (hc.lower a ha).1), heven a hai⟩
    · obtain ⟨b, hb, hv⟩ := w.exists_middle hf hg hi
      exact ⟨hv ▸ hq.value_le hb.le (hv ▸ (hc.upper hi).1), heven r hi⟩

end Format

variable {f g : Format} {bits : Nat} {z : Int}

/-- Through a wider format a number goes unchanged. -/
theorem number_convert (w : g.Wider f) (hf : f.Proper) (hg : g.Proper) (hb : bits < 2 * f.signBit) :
    g.number (convert f g bits) = f.number bits := by
  have hr := rounds_convert hf hg hb
  have he := Format.eq_withSign hb
  by_cases hp : bits % f.signBit ≤ f.infinity
  · have hn := hf.number_withSign (f.isNegative bits) hp
    rw [← he] at hn
    by_cases hi : bits % f.signBit = f.infinity
    · rw [if_pos hi] at hn
      rw [hn] at hr ⊢
      rw [show convert f g bits = _ from hr, hg.number_withSign _ le_rfl, if_pos rfl]
    · rw [if_neg hi] at hn
      rw [hn] at hr ⊢
      obtain ⟨p, hnear, hbits⟩ := hr
      obtain ⟨q, hq, hv⟩ := w.exists_value hf hg (Nat.lt_of_le_of_ne hp hi)
      obtain rfl : p = q := hnear.unique hg (hv ▸ hg.nearest_value hq.le)
      rw [hbits, hg.number_withSign _ hq.le, if_neg hq.ne, hv]
  · rw [hf.number_of_infinity_lt hb (Nat.not_le.1 hp)] at hr ⊢
    exact hr

/-- A whole number with no more digits than the fraction and the one before it is a number of the
format. -/
theorem number_ofInt (h : f.Proper) (hz : z.natAbs ≤ 2 * f.fractions)
    (hi : ∃ p < f.infinity, |(z : ℚ)| ≤ f.value p) : f.number (ofInt f z) = Number.ofInt z := by
  obtain ⟨p, hp, hle⟩ := hi
  obtain ⟨q, hq⟩ := Format.exists_units f hz f.scale
  have hv : f.value q = |(z : ℚ)| := by
    have ho : (f.one : ℚ) ≠ 0 := Nat.cast_ne_zero.2 Format.one_pos.ne'
    rw [h.value_eq, hq, Nat.cast_mul, Nat.cast_pow, Nat.cast_ofNat, ← Format.one_eq,
      mul_div_cancel_right₀ _ ho, Nat.cast_natAbs, Int.cast_abs]
  have hlt : q < f.infinity := by
    have := h.value_strictMono.le_iff_le.1 (hv ▸ hle)
    omega
  have hnear : f.Nearest |(z : ℚ)| q := hv ▸ h.nearest_value hlt.le
  have hr : ofInt f z = f.withSign (z < 0) q := by
    rw [← (nearest_natAbs h z).unique h hnear]
    rfl
  rw [hr, h.number_withSign _ hlt.le, if_neg hlt.ne, hv]
  rfl

/-- A whole number below infinity, rounded in a wider format, is rounded right behind that unless it
stands on a middle then. -/
theorem rounds_convert_ofInt_iff (w : g.Wider f) (hf : f.Proper) (hg : g.Proper)
    (hz : ∃ p < g.infinity, |(z : ℚ)| ≤ g.value p) :
    (Number.ofInt z).Rounds f (convert g f (ofInt g z)) ↔
      ¬(g.number (ofInt g z)).Halfway f ∨ ofInt f z % 2 = 0 := by
  obtain ⟨p, hp, hle⟩ := hz
  have hq := nearest_natAbs hg z
  have hr := nearest_natAbs hf z
  have hrounds := rounds_convert hg hf (ofInt_lt (f := g) z)
  have hofg : ofInt g z = g.withSign (z < 0) (roundRatio g (z.natAbs * g.one) 1) := rfl
  have hoff : ofInt f z = f.withSign (z < 0) (roundRatio f (z.natAbs * f.one) 1) := rfl
  rw [hoff, hf.withSign_mod_two]
  rw [hofg] at hrounds ⊢
  generalize roundRatio g (z.natAbs * g.one) 1 = q at hq hrounds ⊢
  generalize roundRatio f (z.natAbs * f.one) 1 = r at hr ⊢
  have hlt : q < g.infinity := by
    have := hg.value_strictMono.le_iff_le.1 (hq.value_le hp.le hle)
    omega
  rw [hg.number_withSign _ hlt.le, if_neg hlt.ne] at hrounds ⊢
  obtain ⟨c, hc, hbits⟩ := hrounds
  have hbound : ∀ {a : Nat}, a ≤ f.infinity → a < f.signBit :=
    fun ha => Nat.lt_of_le_of_lt ha Format.infinity_lt_signBit
  change _ ↔ ¬(∃ a < f.infinity, f.middle a = g.value q) ∨ r % 2 = 0
  rw [← w.nearest_iff hf hg hq hr, hbits]
  constructor
  · rintro ⟨b, hb, he⟩
    obtain rfl := Format.withSign_inj (hbound hc.le_infinity) (hbound hb.le_infinity) he
    exact hb.unique hf hr ▸ hc
  · intro hn
    exact ⟨r, hr, by rw [hc.unique hf hn]⟩

end NativeBridge.Binary
