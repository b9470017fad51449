import NativeBridge.Proofs.Value.Word

/-! # Conversion by residues

Integers, UTF-16 units and pointers fill their width, so a value of such a kind is a residue modulo
the number of its patterns. A conversion between them gives the one value of the target that has the
residue of the number converted, and a narrower residue is found from any wider one. A truth value is
a number of its own there, and asks only whether a number is zero.
-/
namespace NativeBridge

namespace CallKind

variable {k : CallKind} {n z : Int}

/-- The kinds whose values are all the numbers of a width. -/
def isWhole (k : CallKind) : Bool := k.isInteger || k == char || k == pointer

theorem patterns_of_isWhole (hk : k.isWhole = true) : k.patterns = 2 ^ (8 * k.size) := by
  cases k <;> first | rfl | cases hk

theorem isWhole_of_isInteger (hk : k.isInteger = true) : k.isWhole = true := by
  rw [isWhole, hk]
  rfl

theorem ne_bool_of_isWhole (hk : k.isWhole = true) : k ≠ bool := by
  rintro rfl
  cases hk

theorem ne_void_of_isWhole (hk : k.isWhole = true) : k ≠ void := by
  rintro rfl
  cases hk

theorem format?_of_isWhole (hk : k.isWhole = true) : k.format? = none := by
  cases k <;> first | rfl | cases hk

/-- The numbers of a kind of whole numbers, which are half of either sign if the kind is signed. -/
def Holds (k : CallKind) (z : Int) : Prop :=
  if k.isSigned = true then -2 ^ (8 * k.size - 1) ≤ z ∧ z < 2 ^ (8 * k.size - 1)
  else 0 ≤ z ∧ z < 2 ^ (8 * k.size)

instance : Decidable (k.Holds z) :=
  inferInstanceAs (Decidable (if k.isSigned = true then _ ∧ _ else _ ∧ _))

theorem half_patterns (hk : k.isWhole = true) : k.patterns = 2 * 2 ^ (8 * k.size - 1) := by
  cases k <;> first | rfl | cases hk

theorem natCast_patterns (hk : k.isWhole = true) : (k.patterns : Int) = 2 ^ (8 * k.size) := by
  rw [patterns_of_isWhole hk]
  exact Int.natCast_pow 2 _

theorem holds_iff_patterns (hk : k.isWhole = true) :
    k.Holds z ↔ if k.isSigned = true then -(k.patterns : Int) ≤ 2 * z ∧ 2 * z < k.patterns
      else 0 ≤ z ∧ z < k.patterns := by
  have hhalf : (k.patterns : Int) = 2 * 2 ^ (8 * k.size - 1) := by
    rw [half_patterns hk, Int.natCast_mul]
    exact congrArg _ (Int.natCast_pow 2 _)
  rw [Holds, ← natCast_patterns hk]
  split <;> omega

/-- No two numbers of a kind leave the same residue. -/
theorem Holds.eq (hk : k.isWhole = true) (hn : k.Holds n) (hz : k.Holds z)
    (h : n ≡ z [ZMOD 2 ^ (8 * k.size)]) : n = z := by
  rw [holds_iff_patterns hk] at hn hz
  rw [← natCast_patterns hk] at h
  have hlt : |z - n| < k.patterns := by
    rw [abs_lt]
    split at hn
    · rw [if_pos ‹_›] at hz
      omega
    · rw [if_neg ‹_›] at hz
      omega
  have := Int.eq_zero_of_abs_lt_dvd h.dvd hlt
  omega

end CallKind

namespace Value

/-- A value of kind `k` whose number is congruent to `z` modulo the width of `k`. -/
def Residue (k : CallKind) (z : Int) (w : Value) : Prop :=
  w.kind = k ∧ ∃ n, w.integer? = some n ∧ n ≡ z [ZMOD 2 ^ (8 * k.size)]

variable {u v w : Value} {k : CallKind} {y z : Int}

theorem exists_integer?_iff : (∃ z, v.integer? = some z) ↔ v.kind.isWhole = true ∨ v.kind = .bool := by
  obtain ⟨k, n, hn⟩ := v
  cases k <;> simp [integer?, CallKind.isWhole, CallKind.isInteger, CallKind.isSigned, CallKind.isUnsigned]

theorem kind_ne_void (h : v.integer? = some z) : v.kind ≠ .void := by
  intro hv
  rcases exists_integer?_iff.1 ⟨z, h⟩ with hk | hk
  · exact CallKind.ne_void_of_isWhole hk hv
  · rw [hv] at hk
    cases hk

theorem emod_of_integer? (h : v.integer? = some z) : z % 2 ^ (8 * v.kind.size) = v.bits := by
  have hp : ((Nat.pow 256 v.kind.size : Nat) : Int) = 2 ^ (8 * v.kind.size) := by
    rw [pow_mul]
    exact Int.natCast_pow 256 _
  rw [← integer?_emod h, hp]

theorem residue_self (h : v.integer? = some z) : Residue v.kind z v := ⟨rfl, z, h, .refl z⟩

/-- The bits of a residue are the least number that is congruent. -/
theorem Residue.bits_eq (h : Residue k z w) : (w.bits : Int) = z % 2 ^ (8 * k.size) := by
  obtain ⟨rfl, n, hn, hz⟩ := h
  rw [← emod_of_integer? hn]
  exact hz

theorem Residue.unique (hu : Residue k z u) (hw : Residue k z w) : u = w := by
  have hb : u.bits = w.bits := Int.ofNat_inj.1 (hu.bits_eq.trans hw.bits_eq.symm)
  have hk : u.kind = w.kind := hu.1.trans hw.1.symm
  cases u
  cases w
  simp_all

theorem Residue.congr (h : Residue k z w) (hy : z ≡ y [ZMOD 2 ^ (8 * k.size)]) : Residue k y w := by
  obtain ⟨hk, n, hn, hz⟩ := h
  exact ⟨hk, n, hn, hz.trans hy⟩

theorem bits_ofInt (hk : k.isWhole = true) (z : Int) :
    ((ofInt k z).bits : Int) = z % 2 ^ (8 * k.size) := by
  have hm : (0 : Int) < 2 ^ (8 * k.size) := Int.pow_pos (by decide)
  have hpow : ((Nat.pow 2 (8 * k.size) : Nat) : Int) = 2 ^ (8 * k.size) := Int.natCast_pow 2 _
  have hnonneg : 0 ≤ z % 2 ^ (8 * k.size) := Int.emod_nonneg z hm.ne'
  have hb : (ofInt k z).bits = k.pattern (z % 2 ^ (8 * k.size)).toNat := by
    rw [ofInt, if_neg (CallKind.ne_bool_of_isWhole hk), hpow]
    rfl
  -- the number that is left is in the width already, so the pattern is that number
  have hlt : (z % 2 ^ (8 * k.size)).toNat < k.patterns := by
    rw [CallKind.patterns_of_isWhole hk, ← Int.ofNat_lt, Int.toNat_of_nonneg hnonneg]
    exact hpow ▸ Int.emod_lt_of_pos z hm
  rw [hb, CallKind.pattern_of_lt hlt, Int.toNat_of_nonneg hnonneg]

theorem residue_ofInt (hk : k.isWhole = true) (z : Int) : Residue k z (ofInt k z) := by
  have hkind := kind_ofInt k z
  obtain ⟨n, hn⟩ : ∃ n, (ofInt k z).integer? = some n :=
    exists_integer?_iff.2 (.inl (by rwa [hkind]))
  refine ⟨hkind, n, hn, ?_⟩
  have he := emod_of_integer? hn
  rwa [hkind, bits_ofInt hk] at he

theorem holds_of_integer? (hk : v.kind.isWhole = true) (h : v.integer? = some z) :
    v.kind.Holds z := by
  have hlt := v.bits_lt
  rw [CallKind.holds_iff_patterns hk]
  unfold integer? at h
  split at h
  · rw [if_pos ‹_›]
    have := Option.some.inj h
    split at this <;> omega
  · rw [if_neg ‹_›]
    split at h
    all_goals cases h
    omega

theorem integer?_ofInt (hk : k.isWhole = true) (hz : k.Holds z) :
    (ofInt k z).integer? = some z := by
  obtain ⟨hkind, n, hn, hmod⟩ := residue_ofInt hk z
  have hh := holds_of_integer? (by rwa [hkind]) hn
  rw [hkind] at hh
  rw [hn, hh.eq hk hz hmod]

/-- The value of a number, by its kind and its number. -/
theorem eq_ofInt_iff (hk : k.isWhole = true) (hz : k.Holds z) :
    v = ofInt k z ↔ v.kind = k ∧ v.integer? = some z := by
  constructor
  · rintro rfl
    exact ⟨kind_ofInt k z, integer?_ofInt hk hz⟩
  · rintro ⟨rfl, hv⟩
    exact (residue_self hv).unique (residue_ofInt hk z)

/-- A conversion to a kind of a whole width gives the residue of the number. -/
theorem cast_eq_ofInt (h : v.integer? = some z) (hk : k.isWhole = true) :
    v.cast k = some (ofInt k z) := by
  by_cases he : v.kind = k
  · have hv : Residue k z v := he ▸ residue_self h
    rw [← hv.unique (residue_ofInt hk z), ← he, cast_self]
  · have hvoid : ¬(k = .void ∨ v.kind = .void) :=
      not_or.2 ⟨CallKind.ne_void_of_isWhole hk, kind_ne_void h⟩
    rw [cast, if_neg he, if_neg hvoid, CallKind.format?_of_isWhole hk, h]

theorem eq_zero_iff (h : v.integer? = some z) : z = 0 ↔ v.bits = 0 := by
  constructor
  · intro hz
    have he := emod_of_integer? h
    rw [hz, Int.zero_emod] at he
    exact Int.ofNat_inj.1 he.symm
  · intro hb
    have hp := v.kind.patterns_pos
    unfold integer? at h
    rw [hb] at h
    split at h
    · exact (Option.some.inj h).symm
    · split at h <;> cases h
      rfl

theorem zero_or_one (hv : v.kind = .bool) (h : v.integer? = some z) : z = 0 ∨ z = 1 := by
  obtain ⟨k, n, hn⟩ := v
  dsimp only at hv
  subst hv
  have hz : (n : Int) = z := Option.some.inj h
  have hlt : n < 2 := hn
  omega

theorem eq_ofBool (hv : v.kind = .bool) (h : v.integer? = some z) : v = ofBool (z ≠ 0) := by
  have hb := eq_zero_iff h
  obtain ⟨k, n, hn⟩ := v
  dsimp only at hv hb
  subst hv
  rcases Nat.le_one_iff_eq_zero_or_eq_one.1 (Nat.lt_succ_iff.1 hn) with rfl | rfl
  · simp [hb, ofBool, ofBits, CallKind.pattern]
  · simp [hb, ofBool, ofBits, CallKind.pattern]

/-- The truth value of a number tells whether it is zero. -/
theorem cast_bool_eq (h : v.integer? = some z) : v.cast .bool = some (ofBool (z ≠ 0)) := by
  by_cases he : v.kind = .bool
  · rw [← eq_ofBool he h, ← he, cast_self]
  · have hvoid : ¬(CallKind.bool = .void ∨ v.kind = .void) :=
      not_or.2 ⟨by decide, kind_ne_void h⟩
    have hz : ofInt .bool z = ofBool (z ≠ 0) := by
      rw [ofInt, if_pos rfl]
      by_cases hz : z = 0 <;> simp [ofBool, ofBits, hz, CallKind.pattern]
    rw [cast, if_neg he, if_neg hvoid, ← hz, h]
    rfl

/-- A residue keeps the residues of all narrower widths. -/
theorem Residue.cast (h : Residue k z w) {j : CallKind} (hj : j.isWhole = true) (hs : j.size ≤ k.size) :
    w.cast j = some (ofInt j z) := by
  obtain ⟨rfl, n, hn, hz⟩ := h
  have hd : (2 : Int) ^ (8 * j.size) ∣ 2 ^ (8 * w.kind.size) := pow_dvd_pow 2 (by omega)
  have hr := (residue_ofInt hj n).congr (hz.of_dvd hd)
  rw [cast_eq_ofInt hn hj, hr.unique (residue_ofInt hj z)]

/-- Every width tells one from zero, so a truth value is found behind it again. -/
theorem Residue.cast_bool (h : Residue k z w) (hk : k.isWhole = true) (hz : z = 0 ∨ z = 1) :
    w.cast .bool = some (ofBool (z ≠ 0)) := by
  have hlt : (1 : Int) < 2 ^ (8 * k.size) := by
    cases k <;> first | decide | cases hk
  have hb := h.bits_eq
  obtain ⟨rfl, n, hn, -⟩ := h
  rw [Int.emod_eq_of_lt (by omega) (by omega)] at hb
  have hzero : n = 0 ↔ z = 0 := by
    rw [eq_zero_iff hn]
    omega
  rw [cast_bool_eq hn]
  simp only [ne_eq, hzero]

/-- Conversions of numbers are residues, whatever kinds they pass through that are wide enough; what
is not narrower gives a value back, and a truth value tells whether a number is zero. -/
theorem cast_residue (v : Value) (hv : v.kind.isWhole = true ∨ v.kind = .bool) :
    ∃ z, v.integer? = some z ∧
      (∀ k, k.isWhole = true →
        ∃ w, v.cast k = some w ∧ Residue k z w ∧ ∀ u, Residue k z u → u = w) ∧
      (∀ j k, j.isWhole = true → k.isWhole = true → k.size ≤ j.size →
        (v.cast j).bind (fun w => w.cast k) = v.cast k) ∧
      (∀ k, k.isWhole = true → v.kind.size ≤ k.size →
        (v.cast k).bind (fun w => w.cast v.kind) = some v) ∧
      v.cast .bool = some (ofBool (z ≠ 0)) := by
  obtain ⟨z, hz⟩ := exists_integer?_iff.2 hv
  refine ⟨z, hz, ?_, ?_, ?_, cast_bool_eq hz⟩
  · intro k hk
    have hr := residue_ofInt hk z
    exact ⟨ofInt k z, cast_eq_ofInt hz hk, hr, fun u hu => hu.unique hr⟩
  · intro j k hj hk hs
    rw [cast_eq_ofInt hz hj, Option.bind_some, (residue_ofInt hj z).cast hk hs, cast_eq_ofInt hz hk]
  · intro k hk hs
    rw [cast_eq_ofInt hz hk, Option.bind_some]
    have hr := residue_ofInt hk z
    rcases hv with hv | hv
    · rw [hr.cast hv hs, ← (residue_self hz).unique (residue_ofInt hv z)]
    · rw [hv, hr.cast_bool hk (zero_or_one hv hz), ← eq_ofBool hv hz]

/-- The byte of minus one widened with its sign, and through a pointer to a UTF-16 unit. -/
theorem cast_residue_negative :
    let v := ofInt .byte (-1)
    v.cast .ulong = some (ofBits .ulong 18446744073709551615) ∧
      (v.cast .pointer).bind (fun w => w.cast .char) = some (ofBits .char 65535) ∧
      (v.cast .uint).bind (fun w => w.cast .byte) = some v := by
  intro v
  obtain ⟨z, -, -, hpath, hback, -⟩ := cast_residue v (.inl (by decide))
  refine ⟨by decide, ?_, hback .uint (by decide) (by decide)⟩
  rw [hpath .pointer .char (by decide) (by decide) (by decide)]
  decide

end Value

end NativeBridge
