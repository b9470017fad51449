import NativeBridge.Proofs.Text.Numeral
import NativeBridge.Proofs.Value.Residue
import NativeBridge.Value.Text

/-! # Literals of values

An integer kind reads the numerals of its own numbers and nothing else, and the value read has the
number that the digits make. What is written for an integer, a truth value or a pointer is read as
that value again, with blanks around it or without.
-/
namespace NativeBridge
open Text

namespace CallKind

variable {k : CallKind}

theorem holds_natCast_iff (hk : k.isInteger = true) (n : Nat) : k.Holds n ↔ n ≤ k.greatest := by
  have hw := isWhole_of_isInteger hk
  have hh := half_patterns hw
  have hpos := k.patterns_pos
  rw [holds_iff_patterns hw, greatest, below]
  split <;> omega

theorem holds_neg_iff (hk : k.isSigned = true) (n : Nat) : k.Holds (-n) ↔ n ≤ k.below := by
  have hi : k.isWhole = true := isWhole_of_isInteger (by rw [isInteger, hk]; rfl)
  have hh := half_patterns hi
  have hpos := k.patterns_pos
  rw [holds_iff_patterns hi, below, if_pos hk, if_pos hk]
  omega

end CallKind

namespace Value

variable {v w : Value} {k : CallKind} {n : Nat} {z : Int}

theorem ofBits_eq_ofInt (hk : k.isWhole = true) (n : Nat) : ofBits k n = ofInt k n := by
  have hb := CallKind.ne_bool_of_isWhole hk
  rw [ofInt, if_neg hb, ← Int.natCast_emod, Int.toNat_natCast]
  simp [ofBits, CallKind.pattern, hb]

/-! Literals of integers. -/

/-- ASCII digits of a number, with zeros before them or without. -/
def Digits (cs : List Char) (n : Nat) : Prop :=
  cs ≠ [] ∧ (∀ c ∈ cs, c.isDigit = true) ∧ Nat.ofDigitChars 10 cs 0 = n

/-- The ways to write a number for an integer kind; only signed kinds know a minus sign. -/
inductive Numeral (k : CallKind) : List Char → Int → Prop
  | plain {cs : List Char} {n : Nat} (digits : Digits cs n) : Numeral k cs n
  | plus {cs : List Char} {n : Nat} (digits : Digits cs n) : Numeral k ('+' :: cs) n
  | minus {cs : List Char} {n : Nat} (signed : k.isSigned = true) (digits : Digits cs n) :
      Numeral k ('-' :: cs) (-n)

theorem unsigned?_ten_eq_some_iff {limit : Nat} {cs : List Char} :
    unsigned? 10 limit cs = some n ↔ Digits cs n ∧ n ≤ limit := by
  rw [unsigned?_eq_some_iff (by decide), Digits]
  simp only [isSome_digit?_ten, and_assoc]
  refine and_congr_right fun _ => and_congr_right fun hall => ?_
  rw [numeral_ten hall]

theorem integerLiteral?_eq_some_iff (hk : k.isInteger = true) {cs : List Char} :
    integerLiteral? k cs = some v ↔ ∃ z, Numeral k cs z ∧ k.Holds z ∧ v = ofInt k z := by
  unfold integerLiteral?
  split
  · rename_i hs
    simp only [Option.map_eq_some_iff, signed?_eq_some_iff, unsigned?_ten_eq_some_iff]
    constructor
    · rintro ⟨z, ⟨ds, n, rfl | rfl, ⟨hd, hn⟩, rfl⟩ | ⟨ds, n, rfl, ⟨hd, hn⟩, rfl⟩, rfl⟩
      · exact ⟨n, .plain hd, (CallKind.holds_natCast_iff hk n).2 hn, rfl⟩
      · exact ⟨n, .plus hd, (CallKind.holds_natCast_iff hk n).2 hn, rfl⟩
      · exact ⟨-n, .minus hs hd, (CallKind.holds_neg_iff hs n).2 hn, rfl⟩
    · rintro ⟨z, hz, hh, rfl⟩
      refine ⟨z, ?_, rfl⟩
      cases hz with
      | plain hd => exact .inl ⟨cs, _, .inl rfl, ⟨hd, (CallKind.holds_natCast_iff hk _).1 hh⟩, rfl⟩
      | plus hd => exact .inl ⟨_, _, .inr rfl, ⟨hd, (CallKind.holds_natCast_iff hk _).1 hh⟩, rfl⟩
      | minus hs hd => exact .inr ⟨_, _, rfl, ⟨hd, (CallKind.holds_neg_iff hs _).1 hh⟩, rfl⟩
  · rename_i hs
    have hw := CallKind.isWhole_of_isInteger hk
    simp only [Option.map_eq_some_iff, positive?_eq_some_iff, unsigned?_ten_eq_some_iff,
      ofBits_eq_ofInt hw]
    constructor
    · rintro ⟨n, ⟨ds, rfl | rfl, hd, hn⟩, rfl⟩
      · exact ⟨n, .plain hd, (CallKind.holds_natCast_iff hk n).2 hn, rfl⟩
      · exact ⟨n, .plus hd, (CallKind.holds_natCast_iff hk n).2 hn, rfl⟩
    · rintro ⟨z, hz, hh, rfl⟩
      cases hz with
      | plain hd => exact ⟨_, ⟨cs, .inl rfl, hd, (CallKind.holds_natCast_iff hk _).1 hh⟩, rfl⟩
      | plus hd => exact ⟨_, ⟨_, .inr rfl, hd, (CallKind.holds_natCast_iff hk _).1 hh⟩, rfl⟩
      | minus hs' _ => exact absurd hs' hs

theorem Digits.not_isBlank {cs : List Char} (h : Digits cs n) : ∀ c ∈ cs, isBlank c = false :=
  fun c hc => not_isBlank_of_digit (digitValue_of_isDigit (h.2.1 c hc))

theorem Numeral.not_isBlank {cs : List Char} (h : Numeral k cs z) : ∀ c ∈ cs, isBlank c = false := by
  cases h with
  | plain hd => exact hd.not_isBlank
  | plus hd => exact List.forall_mem_cons.2 ⟨by decide, hd.not_isBlank⟩
  | minus _ hd => exact List.forall_mem_cons.2 ⟨by decide, hd.not_isBlank⟩

theorem parse?_of_isInteger (hk : k.isInteger = true) (s : String) :
    parse? k s = integerLiteral? k (trim s.toList) := by
  cases k <;> first | rfl | cases hk

/-- An integer kind reads exactly the numerals of its own numbers, as those numbers. -/
theorem parse?_eq_some_iff (hk : k.isInteger = true) {s : String} :
    parse? k s = some v ↔
      ∃ cs z, Padded cs s.toList ∧ Numeral k cs z ∧ k.Holds z ∧ v.kind = k ∧ v.integer? = some z := by
  rw [parse?_of_isInteger hk, integerLiteral?_eq_some_iff hk]
  constructor
  · rintro ⟨z, hnum, hz, hv⟩
    exact ⟨_, z, padded_trim s.toList, hnum, hz, (eq_ofInt_iff (CallKind.isWhole_of_isInteger hk) hz).1 hv⟩
  · rintro ⟨cs, z, hpad, hnum, hz, hv⟩
    rw [trim_of_padded hpad hnum.not_isBlank]
    exact ⟨z, hnum, hz, (eq_ofInt_iff (CallKind.isWhole_of_isInteger hk) hz).2 hv⟩

theorem kind_of_integerLiteral? {cs : List Char} (h : integerLiteral? k cs = some v) : v.kind = k := by
  unfold integerLiteral? at h
  split at h
  · obtain ⟨z, _, rfl⟩ := Option.map_eq_some_iff.1 h
    exact kind_ofInt k z
  · obtain ⟨n, _, rfl⟩ := Option.map_eq_some_iff.1 h
    rfl

theorem kind_of_boolLiteral? {cs : List Char} (h : boolLiteral? cs = some v) : v.kind = .bool := by
  unfold boolLiteral? at h
  split_ifs at h <;> (cases h; rfl)

theorem kind_of_charLiteral? {cs : List Char} (h : charLiteral? cs = some v) : v.kind = .char := by
  unfold charLiteral? at h
  split at h
  · obtain ⟨n, _, rfl⟩ := Option.map_eq_some_iff.1 h
    rfl
  · cases h

theorem kind_of_pointerLiteral? {cs : List Char} (h : pointerLiteral? cs = some v) :
    v.kind = .pointer := by
  unfold pointerLiteral? at h
  split at h
  · split_ifs at h
    obtain ⟨n, _, rfl⟩ := Option.map_eq_some_iff.1 h
    rfl
  · cases h

/-- Whatever is read for a kind is of that kind. -/
theorem kind_of_parse? {s : String} (h : parse? k s = some v) : v.kind = k := by
  unfold parse? at h
  dsimp only at h
  split at h
  · obtain ⟨bits, _, rfl⟩ := Option.map_eq_some_iff.1 h
    rfl
  · split at h
    · cases h
    · exact kind_of_boolLiteral? h
    · exact kind_of_charLiteral? h
    · exact kind_of_pointerLiteral? h
    · exact kind_of_integerLiteral? h

/-! Texts of values. -/

theorem digits_toDigits (n : Nat) : Digits (Nat.toDigits 10 n) n := by
  obtain ⟨hall, hnum⟩ := toDigits_spec (show 1 < 10 by decide) (by decide) n
  have hdigit : ∀ c ∈ Nat.toDigits 10 n, c.isDigit = true :=
    fun c hc => isSome_digit?_ten.1 (hall c hc)
  exact ⟨Nat.toDigits_ne_nil, hdigit, by rw [← numeral_ten hdigit, hnum]⟩

theorem numeral_toString (hk : k.isInteger = true) (hz : k.Holds z) :
    Numeral k (toString z).toList z := by
  cases z with
  | ofNat n =>
    have ht : (toString (Int.ofNat n)).toList = Nat.toDigits 10 n := Nat.toList_repr
    rw [ht]
    exact .plain (digits_toDigits n)
  | negSucc n =>
    have ht : (toString (Int.negSucc n)).toList = '-' :: Nat.toDigits 10 (n + 1) := by
      change ("-" ++ Nat.repr (n + 1)).toList = _
      rw [String.toList_append, Nat.toList_repr]
      rfl
    have hs : k.isSigned = true := by
      rw [CallKind.holds_iff_patterns (CallKind.isWhole_of_isInteger hk)] at hz
      split at hz
      · assumption
      · omega
    rw [ht]
    exact .minus hs (digits_toDigits (n + 1))

theorem text_of_isInteger (hk : v.kind.isInteger = true) (h : v.integer? = some z) :
    v.text = toString z := by
  have ht : v.text = toString (v.integer?.getD 0) := by
    obtain ⟨k, n, hn⟩ := v
    cases k <;> first | rfl | cases hk
  rw [ht, h]
  rfl

theorem parse?_text_of_isInteger (hk : v.kind.isInteger = true) {s : String}
    (hs : Padded v.text.toList s.toList) : parse? v.kind s = some v := by
  obtain ⟨z, hz⟩ := exists_integer?_iff.2 (.inl (CallKind.isWhole_of_isInteger hk))
  have hh := holds_of_integer? (CallKind.isWhole_of_isInteger hk) hz
  rw [text_of_isInteger hk hz] at hs
  exact (parse?_eq_some_iff hk).2 ⟨_, z, hs, numeral_toString hk hh, hh, rfl, hz⟩

theorem parse?_text_of_bool (hk : v.kind = .bool) {s : String}
    (hs : Padded v.text.toList s.toList) : parse? v.kind s = some v := by
  obtain ⟨z, hz⟩ := exists_integer?_iff.2 (.inr hk)
  rw [eq_ofBool hk hz] at hs ⊢
  generalize decide (z ≠ 0) = b at hs
  have hnone : (ofBool b).text.toList.any isBlank = false := by cases b <;> decide
  have hblank : ∀ c ∈ (ofBool b).text.toList, isBlank c = false :=
    fun c hc => Bool.eq_false_iff.2 (List.any_eq_false.1 hnone c hc)
  change boolLiteral? (trim s.toList) = _
  rw [trim_of_padded hs hblank]
  cases b <;> decide

theorem parse?_text_of_pointer (hk : v.kind = .pointer) {s : String}
    (hs : Padded v.text.toList s.toList) : parse? v.kind s = some v := by
  obtain ⟨k, n, hn⟩ := v
  dsimp only at hk
  subst hk
  have htext : text ⟨.pointer, n, hn⟩ = String.ofList ('0' :: 'x' :: Nat.toDigits 16 n) := rfl
  rw [htext, String.toList_ofList] at hs
  obtain ⟨hall, -⟩ := toDigits_spec (show 1 < 16 by decide) (by decide) n
  have hblank : ∀ c ∈ '0' :: 'x' :: Nat.toDigits 16 n, isBlank c = false := by
    refine List.forall_mem_cons.2 ⟨by decide, List.forall_mem_cons.2 ⟨by decide, fun c hc => ?_⟩⟩
    obtain ⟨d, hd⟩ := Option.isSome_iff_exists.1 (hall c hc)
    exact not_isBlank_of_digit (digit?_eq_some_iff.1 hd).1
  have hle : n ≤ CallKind.greatest .pointer := Nat.le_pred_of_lt hn
  have hpos : positive? 16 (CallKind.greatest .pointer) (Nat.toDigits 16 n) = some n :=
    positive?_eq_some_iff.2 ⟨_, .inl rfl, unsigned?_toDigits (by decide) (by decide) hle⟩
  change pointerLiteral? (trim s.toList) = _
  rw [trim_of_padded hs hblank, pointerLiteral?, if_pos (.inl rfl), hpos]
  exact congrArg some (ofBits_bits ⟨.pointer, n, hn⟩)

/-- An integer kind reads exactly the numerals of its numbers, and what is written for an integer, a
truth value or a pointer is read as that value again. -/
theorem parse?_text (k : CallKind) :
    (k.isInteger = true → ∀ (s : String) (v : Value), parse? k s = some v ↔
      ∃ cs z, Padded cs s.toList ∧ Numeral k cs z ∧ k.Holds z ∧ v.kind = k ∧ v.integer? = some z) ∧
    ∀ v : Value, v.kind = k → k.isInteger = true ∨ k = .bool ∨ k = .pointer →
      ∀ s : String, Padded v.text.toList s.toList → parse? k s = some v := by
  refine ⟨fun hk s v => parse?_eq_some_iff hk, ?_⟩
  rintro v rfl (hk | hk | hk) s hs
  · exact parse?_text_of_isInteger hk hs
  · exact parse?_text_of_bool hk hs
  · exact parse?_text_of_pointer hk hs

/-- The least byte behind zeros and between blanks that are no ASCII; the number below it is refused.
The greatest address is read again from its text. -/
theorem parse?_text_least :
    parse? .byte "\u2003-0128\u00a0" = some (ofInt .byte (-128)) ∧ parse? .byte "-129" = none ∧
      parse? .pointer "\t0xffffffffffffffff " = some (ofBits .pointer 18446744073709551615) := by
  have hread := (parse?_text .byte).1 (by decide)
  refine ⟨?_, by decide, ?_⟩
  · rw [hread]
    refine ⟨"-0128".toList, -128, ⟨['\u2003'], ['\u00a0'], ?_, ?_, by decide⟩,
      .minus rfl ⟨by decide, List.all_eq_true.1 (by decide), by decide⟩, by decide, by decide, by decide⟩
    · exact List.forall_mem_singleton.2 (by decide)
    · exact List.forall_mem_singleton.2 (by decide)
  · refine (parse?_text .pointer).2 (ofBits .pointer 18446744073709551615) rfl (.inr (.inr rfl)) _
      ⟨['\t'], [' '], ?_, ?_, by decide⟩
    · exact List.forall_mem_singleton.2 (by decide)
    · exact List.forall_mem_singleton.2 (by decide)

end Value

end NativeBridge
