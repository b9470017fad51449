import NativeBridge.Config
import NativeBridge.Proofs.Text.Cut
import NativeBridge.Proofs.Value.Literals

/-! # Sizes of argument stacks

A size is read if and only if it is written as one and an address can hold it, and then it is the
number that its digits and its unit make. The text in front of a unit is found by the offset of the
last character, where every text can be cut. A configuration takes a size over unless it is too
small, so none has stacks below the least size.
-/
namespace NativeBridge

open Text Value
open String (utf8Len)

/-- What may stand behind the digits of a size, and how many bytes it stands for. -/
inductive SizeUnit : List Char → Nat → Prop
  | byte : SizeUnit [] 1
  | kilobyte {c : Char} (letter : c = 'k' ∨ c = 'K') : SizeUnit [c] 1024
  | megabyte {c : Char} (letter : c = 'm' ∨ c = 'M') : SizeUnit [c] (1024 * 1024)

/-- A number that may carry a plus sign. -/
inductive Count : List Char → Nat → Prop
  | plain {cs : List Char} {n : Nat} (digits : Digits cs n) : Count cs n
  | plus {cs : List Char} {n : Nat} (digits : Digits cs n) : Count ('+' :: cs) n

/-- The ways to write a number of bytes. -/
inductive SizeText : List Char → Nat → Prop
  | mk {front back : List Char} {n unit : Nat} (count : Count front n) (worth : SizeUnit back unit) :
      SizeText (front ++ back) (n * unit)

variable {cs front back : List Char} {n unit limit : Nat}

theorem positive?_ten_eq_some_iff : positive? 10 limit cs = some n ↔ Count cs n ∧ n ≤ limit := by
  simp only [positive?_eq_some_iff, unsigned?_ten_eq_some_iff]
  constructor
  · rintro ⟨ds, rfl | rfl, hd, hn⟩
    · exact ⟨.plain hd, hn⟩
    · exact ⟨.plus hd, hn⟩
  · rintro ⟨⟨hd⟩ | ⟨hd⟩, hn⟩
    · exact ⟨cs, .inl rfl, hd, hn⟩
    · exact ⟨_, .inr rfl, hd, hn⟩

theorem Count.not_isBlank (h : Count cs n) : ∀ c ∈ cs, isBlank c = false := by
  cases h with
  | plain hd => exact hd.not_isBlank
  | plus hd => exact List.forall_mem_cons.2 ⟨by decide, hd.not_isBlank⟩

/-- A number ends in a digit. -/
theorem Count.exists_concat (h : Count cs n) : ∃ ds d, cs = ds ++ [d] ∧ d.isDigit = true := by
  have hlast {es : List Char} (hd : Digits es n) : ∃ ds d, es = ds ++ [d] ∧ d.isDigit = true := by
    obtain rfl | ⟨ds, d, rfl⟩ := List.eq_nil_or_concat' es
    · exact absurd rfl hd.1
    · exact ⟨ds, d, rfl, hd.2.1 d (by simp)⟩
  cases h with
  | plain hd => exact hlast hd
  | plus hd =>
    obtain ⟨ds, d, rfl, hdigit⟩ := hlast hd
    exact ⟨'+' :: ds, d, rfl, hdigit⟩

theorem SizeUnit.not_isBlank (h : SizeUnit cs unit) : ∀ c ∈ cs, isBlank c = false := by
  cases h with
  | byte => simp
  | kilobyte hc | megabyte hc =>
    obtain rfl | rfl := hc <;> exact List.forall_mem_singleton.2 (by decide)

theorem SizeUnit.pos (h : SizeUnit cs unit) : 0 < unit := by cases h <;> decide

theorem SizeText.not_isBlank (h : SizeText cs n) : ∀ c ∈ cs, isBlank c = false := by
  obtain ⟨hcount, hunit⟩ := h
  exact List.forall_mem_append.2 ⟨hcount.not_isBlank, hunit.not_isBlank⟩

theorem sizeParts_concat (cs : List Char) (c : Char) : sizeParts (cs ++ [c]) =
    if c = 'k' ∨ c = 'K' then some (cs, 1024)
    else if c = 'm' ∨ c = 'M' then some (cs, 1024 * 1024)
    else some (cs ++ [c], 1) := by
  rw [sizeParts, List.getLast?_concat]
  simp only [List.dropLast_concat]

/-- The unit is told from the number in front of it, since no digit is the letter of a unit. -/
theorem sizeParts_append (hc : Count front n) (hu : SizeUnit back unit) :
    sizeParts (front ++ back) = some (front, unit) := by
  cases hu with
  | byte =>
    obtain ⟨ds, d, rfl, hd⟩ := hc.exists_concat
    have hk : ¬(d = 'k' ∨ d = 'K') := by rintro (rfl | rfl) <;> cases hd
    have hm : ¬(d = 'm' ∨ d = 'M') := by rintro (rfl | rfl) <;> cases hd
    rw [List.append_nil, sizeParts_concat, if_neg hk, if_neg hm]
  | kilobyte letter => rw [sizeParts_concat, if_pos letter]
  | megabyte letter =>
    have hk : ∀ c : Char, c = 'm' ∨ c = 'M' → ¬(c = 'k' ∨ c = 'K') := by
      rintro c (rfl | rfl) <;> decide
    rw [sizeParts_concat, if_neg (hk _ letter), if_pos letter]

theorem exists_of_sizeParts (h : sizeParts cs = some (front, unit)) :
    ∃ back, cs = front ++ back ∧ SizeUnit back unit := by
  obtain rfl | ⟨ds, c, rfl⟩ := List.eq_nil_or_concat' cs
  · cases h
  rw [sizeParts_concat] at h
  split_ifs at h with hk hm
  · cases h
    exact ⟨[c], rfl, .kilobyte hk⟩
  · cases h
    exact ⟨[c], rfl, .megabyte hm⟩
  · cases h
    exact ⟨[], (List.append_nil _).symm, .byte⟩

/-- A number of bytes is read where the number and what it comes to in bytes are addresses; the
second is never the smaller one. -/
theorem parseSize?_eq_some_iff {s : String} : parseSize? s = some n ↔
    ∃ cs, Padded cs s.toList ∧ SizeText cs n ∧ n < addressLimit := by
  simp only [parseSize?, Option.bind_eq_bind, Option.bind_eq_some_iff, Prod.exists,
    positive?_ten_eq_some_iff, Option.ite_none_right_eq_some, Option.some.injEq]
  constructor
  · rintro ⟨front, unit, hparts, m, ⟨hcount, -⟩, hlt, rfl⟩
    obtain ⟨back, htrim, hunit⟩ := exists_of_sizeParts hparts
    exact ⟨_, padded_trim s.toList, htrim ▸ .mk hcount hunit, hlt⟩
  · rintro ⟨cs, hpad, hsize, hlt⟩
    rw [trim_of_padded hpad hsize.not_isBlank]
    obtain @⟨front, back, m, unit, hcount, hunit⟩ := hsize
    have hle : m ≤ m * unit := Nat.le_mul_of_pos_right m hunit.pos
    exact ⟨front, unit, sizeParts_append hcount hunit, m, ⟨hcount, by omega⟩, hlt, rfl⟩

/-- The parts of a size as they are found by offsets: the text is cut where its last character
starts. Cutting inside of a character gives no result at all. -/
def sizePartsByOffset (cs : List Char) : Option (Option (List Char × Nat)) :=
  match (charOffsets 0 cs).getLast? with
  | none => some none
  | some (offset, c) =>
    if c = 'k' ∨ c = 'K' then (cut? offset cs).map fun parts => some (parts.1, 1024)
    else if c = 'm' ∨ c = 'M' then (cut? offset cs).map fun parts => some (parts.1, 1024 * 1024)
    else some (some (cs, 1))

/-- Every text can be cut where its last character starts, however many bytes that has. -/
theorem sizePartsByOffset_eq (cs : List Char) : sizePartsByOffset cs = some (sizeParts cs) := by
  obtain rfl | ⟨ds, c, rfl⟩ := List.eq_nil_or_concat' cs
  · rfl
  have hlast : (charOffsets 0 (ds ++ [c])).getLast? = some (utf8Len ds, c) := by
    rw [charOffsets_append, charOffsets, charOffsets, List.getLast?_concat, Nat.zero_add]
  simp only [sizePartsByOffset, hlast, cut?_append, Option.map_some, sizeParts_concat]
  split_ifs <;> rfl

namespace Config

variable {text : Option String}

theorem ofVariable_of_some (h : text.bind parseSize? = some n) :
    ofVariable text = if leastStackSize ≤ n then ⟨n⟩ else default := by
  rw [ofVariable, h]

theorem ofVariable_of_none (h : text.bind parseSize? = none) : ofVariable text = default := by
  rw [ofVariable, h]

theorem leastStackSize_le_default : leastStackSize ≤ (default : Config).stackSize := by decide

theorem leastStackSize_le (text : Option String) : leastStackSize ≤ (ofVariable text).stackSize := by
  cases h : text.bind parseSize? with
  | none =>
    rw [ofVariable_of_none h]
    exact leastStackSize_le_default
  | some n =>
    rw [ofVariable_of_some h]
    split
    · assumption
    · exact leastStackSize_le_default

/-- Sizes are read exactly and without cutting a character in two, and a configuration has the size
that was read, or the default where there is none or too small a one. -/
theorem stackSize_exact :
    (∀ (s : String) (n : Nat), parseSize? s = some n ↔
      ∃ cs, Padded cs s.toList ∧ SizeText cs n ∧ n < addressLimit) ∧
    (∀ s : String, sizePartsByOffset (trim s.toList) = some (sizeParts (trim s.toList))) ∧
    ∀ text : Option String,
      (∀ n, text.bind parseSize? = some n → 256 ≤ n → ofVariable text = ⟨n⟩) ∧
      ((∀ n, text.bind parseSize? = some n → n < 256) → ofVariable text = ⟨8192⟩) ∧
      256 ≤ (ofVariable text).stackSize := by
  refine ⟨fun s n => parseSize?_eq_some_iff, fun s => sizePartsByOffset_eq _, fun text =>
    ⟨fun n hn hle => ?_, fun hsmall => ?_, leastStackSize_le text⟩⟩
  · rw [ofVariable_of_some hn]
    exact if_pos hle
  · cases h : text.bind parseSize? with
    | none => exact ofVariable_of_none h
    | some n =>
      rw [ofVariable_of_some h]
      exact if_neg (Nat.not_le.2 (hsmall n h))

/-- The greatest number of megabytes that addresses can count, between blanks, and the least that they
cannot; a size that is large enough, and one that is too small. -/
theorem stackSize_exact_megabytes :
    parseSize? "\u2003+017592186044415M\n" = some 18446744073708503040 ∧
      parseSize? "17592186044416m" = none ∧ ofVariable (some "256") = ⟨256⟩ ∧
      ofVariable (some "255") = ⟨8192⟩ := by
  refine ⟨?_, by decide, ?_, ?_⟩
  · rw [stackSize_exact.1]
    refine ⟨"+017592186044415M".toList, ⟨['\u2003'], ['\n'], ?_, ?_, by decide⟩, ?_, by decide⟩
    · exact List.forall_mem_singleton.2 (by decide)
    · exact List.forall_mem_singleton.2 (by decide)
    · exact @SizeText.mk "+017592186044415".toList ['M'] 17592186044415 _
        (.plus ⟨by decide, List.all_eq_true.1 (by decide), by decide⟩) (.megabyte (.inr rfl))
  · exact (stackSize_exact.2.2 (some "256")).1 256 (by decide) (by decide)
  · refine (stackSize_exact.2.2 (some "255")).2.1 fun n hn => ?_
    have h255 : (some "255").bind parseSize? = some 255 := by decide
    rw [h255] at hn
    cases hn
    decide

end Config

end NativeBridge
