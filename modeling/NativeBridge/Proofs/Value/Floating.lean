import NativeBridge.Proofs.Binary.Widening
import NativeBridge.Proofs.Value.Residue
import NativeBridge.Value.Cast

/-! # Conversions from and to floating-point values

A value that is converted from a floating-point kind or to one would keep its number as well as the
target can: rounded once to the nearest value, or cut to the whole part and kept within the bounds.
Conversions go through doubles and 128-bit words instead. What is cut to a narrower width behind that
keeps its residue, not its bounds, and what is rounded twice can miss the nearest value.
-/
namespace NativeBridge
open Binary

namespace CallKind

variable {k : CallKind} {f : Format}

/-- The least number of a kind. -/
def least (k : CallKind) : Int := if k.isSigned = true then -2 ^ (8 * k.size - 1) else 0

/-- The greatest number of a kind. -/
def most (k : CallKind) : Int :=
  if k.isSigned = true then 2 ^ (8 * k.size - 1) - 1 else 2 ^ (8 * k.size) - 1

theorem holds_iff_bounds {z : Int} : k.Holds z ↔ k.least ≤ z ∧ z ≤ k.most := by
  unfold Holds least most
  split <;> omega

theorem format?_isSome : k.format?.isSome = k.isFloating := by cases k <;> rfl

theorem isFloating_of_format? (h : k.format? = some f) : k.isFloating = true := by
  rw [← format?_isSome, h]
  rfl

theorem single_or_double (h : k.format? = some f) :
    k = .float ∧ f = single ∨ k ≠ .float ∧ f = Binary.double := by
  cases k <;> cases h <;> simp

/-- What is not floating-point is a whole number or a truth value, or nothing. -/
theorem isWhole_or_bool (h : k.format? = none) (hv : k ≠ .void) : k.isWhole = true ∨ k = .bool := by
  cases k <;> first | exact .inl rfl | exact .inr rfl | exact absurd rfl hv | cases h

theorem patterns_of_format? (h : k.format? = some f) : k.patterns = 2 * f.signBit := by
  cases k <;> cases h <;> decide

theorem proper_of_format? (h : k.format? = some f) : f.Proper := by
  rcases single_or_double h with ⟨-, rfl⟩ | ⟨-, rfl⟩
  · exact Format.proper_single
  · exact Format.proper_double

theorem bounds (k : CallKind) : k.least ≤ 0 ∧ 0 ≤ k.most ∧ wideMin ≤ k.least ∧ k.most ≤ wideMax := by
  cases k <;> decide

end CallKind

namespace Value

variable {v w : Value} {k : CallKind} {f : Format} {z : Int} {n : Number}

/-- Where one side is floating-point, the conversions that there are. -/
def Floats (v : Value) (k : CallKind) : Prop :=
  (v.kind.isFloating = true ∨ k.isFloating = true) ∧ v.kind ≠ .void ∧ k ≠ .void ∧
    ¬(v.kind.isFloating = true ∧ (k = .pointer ∨ k = .bool)) ∧ v.kind ≠ .pointer

/-- The number of a value, which floating-point bits tell by themselves. -/
def number? (v : Value) : Option Number :=
  match v.kind.format? with
  | some f => some (f.number v.bits)
  | none => v.integer?.map Number.ofInt

/-- A value has a number as well as its kind can have it: rounded once to the nearest value, or the
whole part toward zero and within the bounds, which is zero where there is no number. -/
def Keeps (n : Number) (w : Value) : Prop :=
  match w.kind.format? with
  | some f => n.Rounds f w.bits
  | none => w.integer? = some (n.saturated w.kind.least w.kind.most)

theorem keeps_iff_rounds (h : w.kind.format? = some f) : Keeps n w ↔ n.Rounds f w.bits := by
  rw [Keeps, h]

theorem bits_lt_of_format? (h : v.kind.format? = some f) : v.bits < 2 * f.signBit :=
  CallKind.patterns_of_format? h ▸ v.bits_lt

theorem integer?_of_format? (h : v.kind.format? = some f) : v.integer? = none := by
  obtain ⟨k, n, hn⟩ := v
  dsimp only at h
  cases k <;> cases h <;> rfl

/-- No number of a value is near the end of the doubles. -/
theorem abs_le_value (h : v.integer? = some z) :
    ∃ p < double.infinity, |(z : ℚ)| ≤ double.value p := by
  have hz : z.natAbs ≤ 2 ^ 64 := by
    have hp : v.kind.patterns ≤ 2 ^ 64 := by cases v.kind <;> decide
    have hlt := v.bits_lt
    unfold integer? at h
    split at h
    · have := Option.some.inj h
      split at this <;> omega
    · split at h <;> cases h
      all_goals omega
  have hn : 2 ^ 64 * double.one ≤ double.units (double.infinity - 1) := by decide +kernel
  refine ⟨double.infinity - 1, by decide, ?_⟩
  rw [Format.proper_double.value_eq, le_div_iff₀ (Nat.cast_pos.2 Format.one_pos), ← Int.cast_abs,
    ← Nat.cast_natAbs]
  exact_mod_cast (Nat.mul_le_mul_right _ hz).trans hn

theorem number_convert_double (hk : k.format? = some f) {bits : Nat} (hb : bits < 2 * f.signBit) :
    double.number (convert f double bits) = f.number bits := by
  rcases CallKind.single_or_double hk with ⟨-, rfl⟩ | ⟨-, rfl⟩
  · exact number_convert Format.wider_double_single Format.proper_single Format.proper_double hb
  · rw [convert, if_pos rfl]

theorem bits_ofBits_of_format? (hk : k.format? = some f) {bits : Nat} (hb : bits < 2 * f.signBit) :
    (ofBits k bits).bits = bits :=
  CallKind.pattern_of_lt (CallKind.patterns_of_format? hk ▸ hb)

/-- A conversion to a floating-point kind is one from a double. -/
theorem cast_of_double? (hk : k.format? = some f) (hne : v.kind ≠ k) {bits : Nat}
    (hd : v.double? = some bits) (hb : bits < 2 * double.signBit) :
    ∃ w, v.cast k = some w ∧ w.kind = k ∧ w.bits = convert double f bits := by
  refine ⟨ofBits k (convert double f bits), ?_, rfl, bits_ofBits_of_format? hk (convert_lt hb)⟩
  have hvoid : ¬(k = .void ∨ v.kind = .void) := by
    rintro (h | h)
    · rw [h] at hk
      cases hk
    · rw [double?, integer?, h] at hd
      cases hd
  rw [cast, if_neg hne, if_neg hvoid, hk, hd]
  rfl

/-- From one floating-point kind to another a number is rounded once. -/
theorem cast_of_formats {g : Format} (hv : v.kind.format? = some f) (hk : k.format? = some g) :
    ∃ w, v.cast k = some w ∧ w.kind = k ∧ Keeps (f.number v.bits) w := by
  have hb := bits_lt_of_format? hv
  by_cases he : v.kind = k
  · subst he
    refine ⟨v, cast_self v, rfl, (keeps_iff_rounds hv).2 ?_⟩
    exact rounds_self (CallKind.proper_of_format? hv) hb
  · have hd : v.double? = some (convert f double v.bits) := by rw [double?, hv]
    have hlt : convert f double v.bits < 2 * double.signBit := convert_lt hb
    obtain ⟨w, hw, rfl, hbits⟩ := cast_of_double? hk he hd hlt
    refine ⟨w, hw, rfl, (keeps_iff_rounds hk).2 ?_⟩
    rw [hbits, ← number_convert_double hv hb]
    exact rounds_convert Format.proper_double (CallKind.proper_of_format? hk) hlt

/-- The double of a whole number, of which every conversion to a floating-point kind is made. -/
theorem cast_of_integer? (hv : v.integer? = some z) (hp : v.kind ≠ .pointer)
    (hk : k.format? = some f) :
    ∃ w, v.cast k = some w ∧ w.kind = k ∧ w.bits = convert double f (Binary.ofInt double z) := by
  have hnone : v.kind.format? = none := by
    cases h : v.kind.format? with
    | none => rfl
    | some f => rw [integer?_of_format? h] at hv; cases hv
  have hd : v.double? = some (Binary.ofInt double z) := by rw [double?, hnone, if_neg hp, hv]; rfl
  refine cast_of_double? hk ?_ hd (ofInt_lt z)
  rintro rfl
  rw [hk] at hnone
  cases hnone

/-- To a kind of whole numbers goes the residue of the whole part that fits 128 bits. -/
theorem cast_of_whole (hv : v.kind.format? = some f) (hk : k.isWhole = true) (hp : k ≠ .pointer) :
    v.cast k = some (ofInt k ((f.number v.bits).saturated wideMin wideMax)) := by
  have hb := bits_lt_of_format? hv
  have hkf := CallKind.format?_of_isWhole hk
  have hne : v.kind ≠ k := by
    rintro rfl
    rw [hkf] at hv
    cases hv
  have hvoid : ¬(k = .void ∨ v.kind = .void) := by
    rintro (h | h)
    · exact CallKind.ne_void_of_isWhole hk h
    · rw [h] at hv
      cases hv
  have hd : v.double? = some (convert f double v.bits) := by rw [double?, hv]
  rw [cast, if_neg hne, if_neg hvoid, hkf, integer?_of_format? hv, ← number_convert_double hv hb,
    ← truncate_eq Format.proper_double (convert_lt hb)]
  dsimp only
  rw [if_neg hp, hd]
  rfl

/-- What is cut to a width is within the bounds just where that residue is the bounded number's. -/
theorem keeps_ofInt_iff (hk : k.isWhole = true) (y : Int) (n : Number) :
    Keeps n (ofInt k y) ↔ y ≡ n.saturated k.least k.most [ZMOD 2 ^ (8 * k.size)] := by
  obtain ⟨hl, hm, -, -⟩ := k.bounds
  have hholds : k.Holds (n.saturated k.least k.most) := by
    rw [CallKind.holds_iff_bounds, n.saturated_saturated hl hm le_rfl le_rfl]
    omega
  have hkeeps : Keeps n (ofInt k y) ↔
      (ofInt k y).integer? = some (n.saturated k.least k.most) := by
    rw [Keeps, kind_ofInt, CallKind.format?_of_isWhole hk]
  have hr := residue_ofInt hk y
  rw [hkeeps]
  constructor
  · intro h
    obtain ⟨-, m, hm, hy⟩ := hr
    rw [h] at hm
    exact (Option.some.inj hm ▸ hy).symm
  · intro h
    exact ((eq_ofInt_iff hk hholds).1 ((hr.congr h).unique (residue_ofInt hk _))).2

/-- Where a whole number becomes a single, it is the nearest to a double that is the nearest to it. -/
structure ThroughDouble (z : Int) (n : Number) (w : Value) : Prop where
  steps : ∃ d, (Number.ofInt z).Rounds double d ∧ (double.number d).Rounds single w.bits ∧
    (Keeps n w ↔ ¬(double.number d).Halfway single ∨
      ∀ s, (Number.ofInt z).Rounds single s → s % 2 = 0)
  small (hz : z.natAbs ≤ 2 ^ 53) : Keeps n w

theorem throughDouble (hv : v.integer? = some z) (hk : w.kind = .float)
    (hw : w.bits = convert double single (Binary.ofInt double z)) :
    ThroughDouble z (Number.ofInt z) w := by
  have hkeeps : Keeps (Number.ofInt z) w ↔ (Number.ofInt z).Rounds single w.bits :=
    keeps_iff_rounds (by rw [hk]; rfl)
  have hd := rounds_ofInt Format.proper_double z
  have hs := rounds_ofInt Format.proper_single z
  have hds := rounds_convert Format.proper_double Format.proper_single (ofInt_lt (f := double) z)
  have hz := abs_le_value hv
  refine ⟨⟨Binary.ofInt double z, hd, hw ▸ hds, ?_⟩, fun hsmall => ?_⟩
  · rw [hkeeps, hw, rounds_convert_ofInt_iff Format.wider_double_single Format.proper_single
      Format.proper_double hz]
    refine or_congr Iff.rfl ⟨fun h s hr => ?_, fun h => h _ hs⟩
    rwa [hr.unique Format.proper_single (by simp [Number.ofInt]) hs]
  · rw [number_ofInt Format.proper_double hsmall hz] at hds
    exact hkeeps.2 (hw ▸ hds)

/-- What a conversion makes of the number of a value. To a floating-point kind it keeps the number,
except that a whole number goes to a single through a double. To another kind it keeps the residue of
the whole part that fits 128 bits. -/
def Converted (v : Value) (n : Number) (w : Value) : Prop :=
  if w.kind.isFloating = true then
    match v.integer? with
    | some z => if w.kind = .float then ThroughDouble z n w else Keeps n w
    | none => Keeps n w
  else Residue w.kind (n.saturated wideMin wideMax) w ∧
    (Keeps n w ↔ n.saturated wideMin wideMax ≡ n.saturated w.kind.least w.kind.most
      [ZMOD 2 ^ (8 * w.kind.size)])

theorem converted_of_formats {g : Format} (hv : v.kind.format? = some f) (hk : k.format? = some g) :
    ∃ w, v.cast k = some w ∧ w.kind = k ∧ Converted v (f.number v.bits) w := by
  obtain ⟨w, hw, rfl, hkeeps⟩ := cast_of_formats hv hk
  refine ⟨w, hw, rfl, ?_⟩
  rw [Converted, if_pos (CallKind.isFloating_of_format? hk), integer?_of_format? hv]
  exact hkeeps

theorem converted_of_whole (hv : v.kind.format? = some f) (hk : k.isWhole = true) (hp : k ≠ .pointer) :
    ∃ w, v.cast k = some w ∧ w.kind = k ∧ Converted v (f.number v.bits) w := by
  have hkind := kind_ofInt k ((f.number v.bits).saturated wideMin wideMax)
  refine ⟨_, cast_of_whole hv hk hp, hkind, ?_⟩
  have hkf : ¬k.isFloating = true := by
    rw [← CallKind.format?_isSome, CallKind.format?_of_isWhole hk]
    exact Bool.false_ne_true
  rw [Converted, hkind, if_neg hkf]
  exact ⟨residue_ofInt hk _, keeps_ofInt_iff hk _ _⟩

theorem converted_of_integer? (hv : v.integer? = some z) (hp : v.kind ≠ .pointer)
    (hk : k.format? = some f) :
    ∃ w, v.cast k = some w ∧ w.kind = k ∧ Converted v (Number.ofInt z) w := by
  obtain ⟨w, hw, rfl, hbits⟩ := cast_of_integer? hv hp hk
  refine ⟨w, hw, rfl, ?_⟩
  rw [Converted, if_pos (CallKind.isFloating_of_format? hk), hv]
  dsimp only
  rcases CallKind.single_or_double hk with ⟨hs, rfl⟩ | ⟨hd, rfl⟩
  · rw [if_pos hs]
    exact throughDouble hv hs hbits
  · rw [if_neg hd, keeps_iff_rounds hk, hbits, convert, if_pos rfl]
    exact rounds_ofInt Format.proper_double z

/-- Every conversion with a floating-point side that there is gives a value of the kind asked for, and
keeps of the number what is told above. -/
theorem cast_floating (v : Value) (k : CallKind) (h : Floats v k) :
    ∃ n w, v.number? = some n ∧ v.cast k = some w ∧ w.kind = k ∧ Converted v n w := by
  obtain ⟨hside, hvoid, hkvoid, hwhole, hpointer⟩ := h
  cases hv : v.kind.format? with
  | some f =>
    have hn : v.number? = some (f.number v.bits) := by rw [number?, hv]
    refine ⟨f.number v.bits, ?_⟩
    rw [hn]
    cases hk : k.format? with
    | some g => simpa using converted_of_formats hv hk
    | none =>
      rw [not_and_or, not_or] at hwhole
      obtain ⟨hp, hb⟩ := hwhole.resolve_left fun hne => hne (CallKind.isFloating_of_format? hv)
      simpa using converted_of_whole hv ((CallKind.isWhole_or_bool hk hkvoid).resolve_right hb) hp
  | none =>
    obtain ⟨z, hz⟩ := exists_integer?_iff.2 (CallKind.isWhole_or_bool hv hvoid)
    have hn : v.number? = some (Number.ofInt z) := by rw [number?, hv, hz]; rfl
    obtain ⟨f, hk⟩ : ∃ f, k.format? = some f := by
      rw [← Option.isSome_iff_exists, CallKind.format?_isSome]
      rw [← CallKind.format?_isSome, hv] at hside
      exact hside.resolve_left Bool.false_ne_true
    refine ⟨Number.ofInt z, ?_⟩
    rw [hn]
    simpa using converted_of_integer? hz hpointer hk

/-- The number after the middle of two singles, which its double stands on: it becomes the lower one. -/
theorem cast_floating_behind_middle :
    let v := ofInt .long (2 ^ 60 + 2 ^ 36 + 1)
    Floats v .float ∧ ∃ n w, v.number? = some n ∧ v.cast .float = some w ∧
      ThroughDouble (2 ^ 60 + 2 ^ 36 + 1) n w ∧ w.bits = 0x5d800000 ∧ ¬Keeps n w := by
  intro v
  have hv : v.integer? = some (2 ^ 60 + 2 ^ 36 + 1) := by decide
  have hfloats : Floats v .float := by
    unfold Floats
    decide
  obtain ⟨n, w, hn, hw, hk, hc⟩ := cast_floating v .float hfloats
  have hwbits : some w = some (ofBits .float 0x5d800000) := hw.symm.trans (by decide +kernel)
  obtain rfl := Option.some.inj hwbits
  have hnumber : some n = some (Number.ofInt (2 ^ 60 + 2 ^ 36 + 1)) := by
    rw [← hn, number?, show v.kind.format? = none from rfl, hv]
    rfl
  obtain rfl := Option.some.inj hnumber
  rw [Converted, if_pos (CallKind.isFloating_of_format? (f := single) rfl), hv] at hc
  refine ⟨hfloats, _, _, hn, hw, hc, rfl, fun hkeeps => ?_⟩
  -- the nearest single is the one behind the middle
  have hs := rounds_ofInt Format.proper_single (2 ^ 60 + 2 ^ 36 + 1)
  have he := hs.unique Format.proper_single (by simp [Number.ofInt]) hkeeps
  exact absurd he (by decide +kernel)

/-- What does not fit is cut off and not kept within the bounds: three hundred becomes a byte. -/
theorem not_forall_keeps_cast : ¬∀ (v : Value) (k : CallKind), Floats v k →
    ∃ n w, v.number? = some n ∧ v.cast k = some w ∧ w.kind = k ∧ Keeps n w := by
  intro hall
  let v := ofBits .double 0x4072c00000000000
  have hfloats : Floats v .ubyte := by
    unfold Floats
    decide
  obtain ⟨n, w, hn, hw, -, hkeeps⟩ := hall v .ubyte hfloats
  obtain rfl : double.number v.bits = n := Option.some.inj hn
  have hwhole : (double.number v.bits).saturated wideMin wideMax = 300 := by
    rw [← truncate_eq Format.proper_double (bits_lt_of_format? (v := v) rfl)]
    decide +kernel
  have hcast := cast_of_whole (v := v) (k := .ubyte) rfl rfl (by decide)
  rw [hwhole, hw] at hcast
  obtain rfl := Option.some.inj hcast
  obtain ⟨hl, hm, hleast, hmost⟩ := CallKind.ubyte.bounds
  rw [keeps_ofInt_iff rfl, Number.saturated_saturated hl hm hleast hmost, hwhole] at hkeeps
  exact absurd hkeeps (by decide)

end Value

end NativeBridge
