import Mathlib.Data.List.TakeWhile
import NativeBridge.Text.Blank
import NativeBridge.Text.Numeral

/-! # Numerals are read exactly

A reader that stops where the number passes its limit accepts the numerals whose number does not, since
a number only grows with further digits. The digits that are written for a number are read as that
number, and blanks around a text without any are all that trimming takes away.
-/
namespace NativeBridge.Text

variable {base limit below n m : Nat} {c : Char} {cs : List Char}

/-- The number that further digits make of a number. -/
def numeral (base : Nat) (cs : List Char) (n : Nat) : Nat :=
  cs.foldl (fun n c => n * base + (digitValue c).getD 0) n

theorem le_numeral (hb : 0 < base) (cs : List Char) (n : Nat) : n ≤ numeral base cs n := by
  induction cs generalizing n with
  | nil => exact Nat.le_refl n
  | cons c cs ih =>
    calc n ≤ n * base := Nat.le_mul_of_pos_right n hb
      _ ≤ n * base + (digitValue c).getD 0 := Nat.le_add_right _ _
      _ ≤ numeral base (c :: cs) n := ih _

theorem digit?_eq_some_iff {d : Nat} : digit? base c = some d ↔ digitValue c = some d ∧ d < base := by
  simp [digit?, Option.filter_eq_some_iff]

theorem appendDigits_eq_some_iff (hb : 0 < base) (hn : n ≤ limit) :
    appendDigits base limit n cs = some m ↔
      (∀ c ∈ cs, (digit? base c).isSome = true) ∧ numeral base cs n = m ∧ m ≤ limit := by
  induction cs generalizing n with
  | nil =>
    simp only [appendDigits, Option.some.injEq, List.not_mem_nil, false_implies, implies_true,
      true_and, numeral, List.foldl_nil]
    exact ⟨fun h => ⟨h, h ▸ hn⟩, fun h => h.1⟩
  | cons c cs ih =>
    rw [appendDigits, List.forall_mem_cons]
    cases hd : digit? base c with
    | none => simp
    | some d =>
      have hnum : numeral base (c :: cs) n = numeral base cs (n * base + d) := by
        rw [numeral, List.foldl_cons, (digit?_eq_some_iff.1 hd).1]
        rfl
      rw [hnum]
      by_cases hle : n * base + d ≤ limit
      · simp only [if_pos hle, ih hle, Option.isSome_some, true_and]
      · -- the number only grows from here
        have hlt := le_numeral hb cs (n * base + d)
        simp only [if_neg hle, reduceCtorEq, false_iff, not_and]
        omega

theorem unsigned?_eq_some_iff (hb : 0 < base) :
    unsigned? base limit cs = some m ↔
      cs ≠ [] ∧ (∀ c ∈ cs, (digit? base c).isSome = true) ∧ numeral base cs 0 = m ∧ m ≤ limit := by
  cases cs with
  | nil => simp [unsigned?]
  | cons c cs => simp [unsigned?, appendDigits_eq_some_iff hb (Nat.zero_le limit)]

theorem unsigned?_eq_none (hc : digitValue c = none) : unsigned? base limit (c :: cs) = none := by
  simp [unsigned?, appendDigits, digit?, hc]

theorem positive?_eq_some_iff :
    positive? base limit cs = some m ↔
      ∃ ds, (cs = ds ∨ cs = '+' :: ds) ∧ unsigned? base limit ds = some m := by
  unfold positive?
  split
  · rename_i ds
    constructor
    · exact fun h => ⟨ds, .inr rfl, h⟩
    · rintro ⟨es, rfl | he, h⟩
      · rw [unsigned?_eq_none (by decide)] at h
        cases h
      · cases he
        exact h
  · rename_i hplus
    constructor
    · exact fun h => ⟨cs, .inl rfl, h⟩
    · rintro ⟨ds, rfl | rfl, h⟩
      · exact h
      · exact absurd rfl (hplus ds)

theorem signed?_minus {z : Int} :
    signed? base below limit ('-' :: cs) = some z ↔
      ∃ n, unsigned? base below cs = some n ∧ z = -(n : Int) := by
  rw [signed?]
  cases unsigned? base below cs with
  | none => simp
  | some n => simp [eq_comm]

theorem signed?_eq_some_iff {z : Int} :
    signed? base below limit cs = some z ↔
      (∃ ds n, (cs = ds ∨ cs = '+' :: ds) ∧ unsigned? base limit ds = some n ∧ z = n) ∨
      ∃ ds n, cs = '-' :: ds ∧ unsigned? base below ds = some n ∧ z = -(n : Int) := by
  by_cases hminus : ∃ ds, cs = '-' :: ds
  · obtain ⟨ds, rfl⟩ := hminus
    rw [signed?_minus]
    constructor
    · rintro ⟨n, hn, rfl⟩
      exact .inr ⟨ds, n, rfl, hn, rfl⟩
    · rintro (⟨es, n, rfl | he, hn, -⟩ | ⟨es, n, he, hn, rfl⟩)
      · rw [unsigned?_eq_none (by decide)] at hn
        cases hn
      · cases he
      · cases he
        exact ⟨n, hn, rfl⟩
  · have hs : signed? base below limit cs = (positive? base limit cs).map Int.ofNat := by
      unfold signed?
      split
      · exact absurd ⟨_, rfl⟩ hminus
      · rfl
    simp only [hs, Option.map_eq_some_iff, positive?_eq_some_iff]
    constructor
    · rintro ⟨n, ⟨ds, hds, hn⟩, rfl⟩
      exact .inl ⟨ds, n, hds, hn, rfl⟩
    · rintro (⟨ds, n, hds, hn, rfl⟩ | ⟨ds, n, rfl, -, -⟩)
      · exact ⟨n, ⟨ds, hds, hn⟩, rfl⟩
      · exact absurd ⟨ds, rfl⟩ hminus

/-! Digits in base ten are those of ASCII. -/

theorem digitValue_of_isDigit (h : c.isDigit = true) : digitValue c = some (c.toNat - '0'.toNat) := by
  have hc := Char.isDigit_iff_toNat.1 h
  have h0 : '0' ≤ c ∧ c ≤ '9' := hc
  rw [digitValue, if_pos h0]

theorem isSome_digit?_ten : (digit? 10 c).isSome = true ↔ c.isDigit = true := by
  constructor
  · intro h
    obtain ⟨d, hd⟩ := Option.isSome_iff_exists.1 h
    obtain ⟨hv, hlt⟩ := digit?_eq_some_iff.1 hd
    -- letters stand for ten and more
    unfold digitValue at hv
    split at hv
    · rename_i hc
      exact Char.isDigit_iff_toNat.2 hc
    split at hv
    · cases hv
      omega
    split at hv
    · cases hv
      omega
    · cases hv
  · intro h
    have hd := digitValue_of_isDigit h
    have hc := Char.isDigit_iff_toNat.1 h
    have h9 : '9'.toNat = '0'.toNat + 9 := rfl
    rw [digit?_eq_some_iff.2 ⟨hd, by omega⟩]
    rfl

theorem numeral_ten (h : ∀ c ∈ cs, c.isDigit = true) (n : Nat) :
    numeral 10 cs n = Nat.ofDigitChars 10 cs n := by
  induction cs generalizing n with
  | nil => rfl
  | cons c cs ih =>
    rw [List.forall_mem_cons] at h
    rw [Nat.ofDigitChars_cons, ← ih h.2, numeral, List.foldl_cons, digitValue_of_isDigit h.1,
      Option.getD_some, Nat.mul_comm]
    rfl

/-! Digits that are written. -/

theorem digit?_digitChar {d : Nat} (hb : base ≤ 16) (hd : d < base) :
    digit? base d.digitChar = some d := by
  have h : ∀ d < 16, digitValue (Nat.digitChar d) = some d := by decide
  exact digit?_eq_some_iff.2 ⟨h d (Nat.lt_of_lt_of_le hd hb), hd⟩

theorem numeral_concat (cs : List Char) (c : Char) (n : Nat) :
    numeral base (cs ++ [c]) n = numeral base cs n * base + (digitValue c).getD 0 := by
  rw [numeral, List.foldl_append]
  rfl

/-- The digits of a number are digits of its base and make that number. -/
theorem toDigits_spec (h1 : 1 < base) (hb : base ≤ 16) (n : Nat) :
    (∀ c ∈ Nat.toDigits base n, (digit? base c).isSome = true) ∧
      numeral base (Nat.toDigits base n) 0 = n := by
  induction n using Nat.strong_induction_on with
  | _ n ih =>
    have hlast : n % base < base := Nat.mod_lt n (by omega)
    rw [Nat.toDigits_eq_if h1]
    split
    · rename_i hn
      have hd := digit?_digitChar hb hn
      refine ⟨?_, ?_⟩
      · simp [hd]
      · simp [numeral, (digit?_eq_some_iff.1 hd).1]
    · rename_i hn
      have hd := digit?_digitChar hb hlast
      obtain ⟨hall, hnum⟩ := ih (n / base) (Nat.div_lt_self (by omega) h1)
      refine ⟨?_, ?_⟩
      · rw [List.forall_mem_append, List.forall_mem_singleton, hd]
        exact ⟨hall, rfl⟩
      · rw [numeral_concat, hnum, (digit?_eq_some_iff.1 hd).1, Option.getD_some, Nat.mul_comm,
          Nat.div_add_mod]

theorem unsigned?_toDigits (h1 : 1 < base) (hb : base ≤ 16) (hn : n ≤ limit) :
    unsigned? base limit (Nat.toDigits base n) = some n := by
  obtain ⟨hall, hnum⟩ := toDigits_spec h1 hb n
  exact (unsigned?_eq_some_iff (by omega)).2 ⟨Nat.toDigits_ne_nil, hall, hnum, hn⟩

/-! Blanks at both ends. -/

theorem not_isBlank_of_digit {d : Nat} (h : digitValue c = some d) : isBlank c = false := by
  have hrange : (48 ≤ c.toNat ∧ c.toNat ≤ 57) ∨ (97 ≤ c.toNat ∧ c.toNat ≤ 122) ∨
      (65 ≤ c.toNat ∧ c.toNat ≤ 90) := by
    unfold digitValue at h
    split at h
    · rename_i hc
      exact .inl hc
    split at h
    · rename_i hc
      exact .inr (.inl hc)
    split at h
    · rename_i hc
      exact .inr (.inr hc)
    · cases h
  have hblank : isBlank c = true → False := by
    simp only [isBlank, Bool.or_eq_true, Bool.and_eq_true, decide_eq_true_eq, beq_iff_eq]
    omega
  exact Bool.eq_false_iff.2 hblank

/-- `text` is `cs` with blanks around it. -/
def Padded (cs text : List Char) : Prop :=
  ∃ front back, (∀ c ∈ front, isBlank c = true) ∧ (∀ c ∈ back, isBlank c = true) ∧
    text = front ++ (cs ++ back)

theorem padded_trim (text : List Char) : Padded (trim text) text := by
  let rest := text.dropWhile isBlank
  refine ⟨text.takeWhile isBlank, (rest.reverse.takeWhile isBlank).reverse, ?_, ?_, ?_⟩
  · exact fun c hc => List.mem_takeWhile_imp hc
  · exact fun c hc => List.mem_takeWhile_imp (List.mem_reverse.1 hc)
  · rw [trim, dropBlanksAtEnd, ← List.reverse_append, List.takeWhile_append_dropWhile,
      List.reverse_reverse, List.takeWhile_append_dropWhile]

/-- Trimming takes the blanks around a text away and nothing of a text without blanks. -/
theorem trim_of_padded {text : List Char} (h : Padded cs text) (hcs : ∀ c ∈ cs, isBlank c = false) :
    trim text = cs := by
  obtain ⟨front, back, hfront, hback, rfl⟩ := h
  have hrev : ∀ c ∈ back.reverse, isBlank c = true := fun c hc => hback c (List.mem_reverse.1 hc)
  have hkeep : cs.reverse.dropWhile isBlank = cs.reverse := by
    rw [List.dropWhile_eq_self_iff]
    intro hl
    rw [Bool.not_eq_true]
    exact hcs _ (List.mem_reverse.1 (List.getElem_mem hl))
  have hend : dropBlanksAtEnd (cs ++ back) = cs := by
    rw [dropBlanksAtEnd, List.reverse_append, List.dropWhile_append_of_pos hrev, hkeep,
      List.reverse_reverse]
  rw [trim, List.dropWhile_append_of_pos hfront]
  cases cs with
  | nil =>
    rw [List.nil_append, List.dropWhile_eq_nil_iff.2 hback]
    rfl
  | cons c cs =>
    have hc : ¬isBlank c = true := by rw [hcs c List.mem_cons_self]; decide
    rw [List.cons_append, List.dropWhile_cons_of_neg hc, ← List.cons_append, hend]

end NativeBridge.Text
