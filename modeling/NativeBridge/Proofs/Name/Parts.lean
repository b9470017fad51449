import NativeBridge.Proofs.Name.Mangling
import NativeBridge.Proofs.Name.Reading
import NativeBridge.Proofs.Wire.Local

/-! # The parts of a name

A name is made of its package and its short name, its segments are those of the two, and its
encoding is read back, exactly if the name is valid. What is put together from two texts, read or
unmangled is checked for that. The name of a full text alone is not: where the only dot of the text
is its first character, an empty package is split off, and the three fail together.
-/
namespace NativeBridge.SymbolName
open Wire

theorem package_eq_empty_iff {n : SymbolName} : n.package = "" ↔ n.packageChars = [] := by
  rw [package, ← String.toList_eq_nil_iff, String.toList_ofList]

theorem full_eq_iff {n : SymbolName} :
    n.full = n.package ++ "." ++ n.short ↔ n.full.toList = n.packageChars ++ '.' :: n.short.toList := by
  rw [← String.toList_inj, package]
  simp

theorem isValid_iff {n : SymbolName} : n.isValid = true ↔
    n.full = n.short ∨ n.package ≠ "" ∧ n.full = n.package ++ "." ++ n.short := by
  rw [ne_eq, package_eq_empty_iff, full_eq_iff]
  constructor
  · intro h
    have hj := full_eq_join h
    by_cases hp : n.packageChars = []
    · exact .inl (String.toList_inj.1 (by simpa [join, hp] using hj))
    · exact .inr ⟨hp, by simpa [join, hp] using hj⟩
  · rintro (h | ⟨hp, h⟩)
    · simp [isValid, h]
    · have hn : n = ofParts n.packageChars n.short.toList := by
        rw [ofParts, join, if_neg (by simpa using hp), ← h]
        simp
      rw [hn]
      exact isValid_ofParts _ _

theorem segments_eq {n : SymbolName} (h : n.isValid = true) :
    n.segments = n.packageSegments ++ n.nameSegments := by
  rw [segments, full_eq_join h, join, packageSegments, nameSegments]
  split
  · rfl
  · rw [List.splitOn_append_cons_self, List.map_append]

/-- Dots become underscores when the segments between them are joined by underscores. -/
theorem flattenDots_eq_intercalate (cs : List Char) :
    flattenDots cs = ['_'].intercalate (cs.splitOn '.') := by
  by_cases h : '.' ∈ cs
  · obtain ⟨front, tail, hcs, hf⟩ := List.eq_append_cons_of_mem h
    have hlt : tail.length < cs.length := by
      rw [hcs, List.length_append, List.length_cons]
      omega
    obtain ⟨l, ls, hl⟩ := List.exists_cons_of_ne_nil (List.splitOn_ne_nil '.' tail)
    rw [hcs, List.splitOn_append_cons_self, List.splitOn_eq_singleton hf, List.singleton_append, hl,
      List.intercalate_cons_cons, ← hl, ← flattenDots_eq_intercalate tail]
    simp [flattenDots, map_replace_eq_self hf]
  · rw [flattenDots, map_replace_eq_self h, List.splitOn_eq_singleton h]
    simp
termination_by cs.length

theorem mangled_eq_intercalate (n : SymbolName) :
    n.mangled = "_".intercalate n.packageSegments ++ "_" ++ n.short := by
  rw [← String.toList_inj, mangled, mangledChars, packageSegments]
  split
  · rename_i h
    simp [List.isEmpty_iff.1 h, flattenDots]
  · simp [flattenDots_eq_intercalate, String.toList_intercalate, Function.comp_def]

theorem stable_format : format.Stable := fun _ h => ⟨h, rfl⟩

/-- A name that can be encoded is read back if and only if it is valid. -/
theorem decodeAll_encode_eq_ok_iff {n : SymbolName} (h : ∀ l ∈ n.lengths, l ≤ maxLength) :
    (decodeAll decoder n.encode).1 = .ok n ↔ n.isValid = true := by
  have hd := (reads_decoder 0).decodeAll_bytes_eq_ok_iff stable_format (a := n)
  exact hd.trans ⟨fun hn => hn.1.1, fun hv => ⟨⟨hv, h⟩, rfl⟩⟩

/-- The full name is the short name or has a package before it, its segments are those of the two,
and the encoding, where both lengths can be stated, is read back. -/
structure Proper (n : SymbolName) : Prop where
  full : n.full = n.short ∨ n.package ≠ "" ∧ n.full = n.package ++ "." ++ n.short
  segments : n.segments = n.packageSegments ++ n.nameSegments
  reread : (∀ l ∈ n.lengths, l ≤ maxLength) → (decodeAll decoder n.encode).1 = .ok n

theorem proper_iff {n : SymbolName} : n.Proper ↔ n.isValid = true := by
  constructor
  · exact fun h => isValid_iff.2 h.full
  · exact fun h => ⟨isValid_iff.1 h, segments_eq h, fun hl => (decodeAll_encode_eq_ok_iff hl).2 h⟩

/-- The ways to a name: from two texts, from a full text, from a mangled one and from bytes. -/
inductive Made : SymbolName → Prop
  | ofTexts {full short : String} {n : SymbolName} (h : make full short = .ok n) : Made n
  | ofFull (full : String) : Made (ofFull full)
  | ofMangled {mangled : String} {n : SymbolName} (h : ofMangled mangled = .ok n) : Made n
  | ofBytes {r s : Wire.Reader} {n : SymbolName} (h : decoder r = .ok n s) : Made n

theorem isValid_of_ofMangled {mangled : String} {n : SymbolName} (h : ofMangled mangled = .ok n) :
    n.isValid = true := by
  rw [← String.ofList_toList (s := mangled), ofMangled_eq_ok_iff] at h
  obtain ⟨package, short, _, _, _, rfl⟩ := h
  exact isValid_ofParts _ _

section LeadingDot
variable {n : SymbolName} (h : n.full = "." ++ n.short)
include h

theorem packageChars_of_leadingDot : n.packageChars = [] := by
  have hl : n.full.toList.length = n.short.toList.length + 1 := by simp [h, Nat.add_comm]
  rw [packageChars, hl]
  split
  · rfl
  · rw [Nat.add_sub_cancel_left, Nat.sub_self, List.take_zero]

theorem not_isValid_of_leadingDot : ¬n.isValid = true := by
  rw [isValid_iff, ne_eq, package_eq_empty_iff, packageChars_of_leadingDot h]
  rintro (he | ⟨hp, _⟩)
  · have hl := congrArg String.length (h.symm.trans he)
    simp at hl
  · exact hp rfl

/-- The empty text before the dot is a segment of the full name and none of the package. -/
theorem segments_of_leadingDot :
    n.packageSegments = [] ∧ n.segments = "" :: n.nameSegments := by
  constructor
  · simp [packageSegments, packageChars_of_leadingDot h]
  · have hs : n.full.toList = [] ++ '.' :: n.short.toList := by simp [h]
    rw [segments, nameSegments, hs, List.splitOn_append_cons_self]
    simp

end LeadingDot

/-- A full text gives a name that is not valid if it has one dot, before all else. -/
theorem isValid_ofFull_iff (full : String) :
    (ofFull full).isValid = true ↔ (ofFull full).full ≠ "." ++ (ofFull full).short := by
  constructor
  · exact fun hv h => not_isValid_of_leadingDot h hv
  · intro h
    by_cases hm : '.' ∈ full.toList
    · obtain ⟨front, tail, hfull, ht⟩ := exists_last hm
      have hsplit : ofFull full = ⟨full, String.ofList tail⟩ := by
        rw [ofFull, hfull, afterLast_append ht]
      have hne : front ≠ [] := by
        rintro rfl
        apply h
        rw [hsplit, ← String.toList_inj, hfull]
        simp
      have hn : ofFull full = ofParts front tail := by
        rw [hsplit, ofParts, join, if_neg (by simpa using hne), ← hfull, String.ofList_toList]
      rw [hn]
      exact isValid_ofParts front tail
    · rw [ofFull, afterLast_eq_self hm, String.ofList_toList]
      simp [isValid]

theorem Made.isValid_or_eq_ofFull {n : SymbolName} (h : n.Made) :
    n.isValid = true ∨ n = SymbolName.ofFull n.full := by
  cases h with
  | ofTexts h => exact .inl (make_eq_ok_iff.1 h).2
  | ofFull full => exact .inr rfl
  | ofMangled h => exact .inl (isValid_of_ofMangled h)
  | ofBytes h => exact .inl (decoder_eq_ok_iff.1 h).1.1

theorem Made.isValid_iff {n : SymbolName} (h : n.Made) :
    n.isValid = true ↔ n.full ≠ "." ++ n.short := by
  rcases h.isValid_or_eq_ofFull with hv | hn
  · exact iff_of_true hv fun hd => not_isValid_of_leadingDot hd hv
  · have hf := isValid_ofFull_iff n.full
    rwa [← hn] at hf

/-- A name that is not valid is written all the same, and then refused. -/
theorem decodeAll_encode_of_not_isValid {n : SymbolName} (hv : ¬n.isValid = true)
    (hl : ∀ l ∈ n.lengths, l ≤ maxLength) :
    (decodeAll decoder n.encode).1 = .error (.invalidName (.suffixMismatch n.full n.short)) := by
  let s : Reader := ⟨[], n.encode.length, 0, []⟩
  have hp : (Reader.ofBytes n.encode).Past n.encode [] s :=
    ⟨(List.append_nil _).symm, (Nat.zero_add _).symm, rfl, rfl⟩
  obtain ⟨t, ht, hs⟩ := Reader.Past.split (i := []) (j := []) hp
  have hfull := Decoder.text_eq_ok_iff.2 ⟨hl _ (by simp [lengths]), ht⟩
  have hshort := Decoder.text_eq_ok_iff.2 ⟨hl _ (by simp [lengths]), hs⟩
  have hm : make n.full n.short = .error (.suffixMismatch n.full n.short) := if_neg hv
  refine Decoder.decodeAll_of_error (s := s) ?_
  rw [decoder, Run.bind_of_ok hfull, Run.bind_of_ok hshort, hm]
  exact Run.throw_eq_error_iff.2 ⟨rfl, rfl⟩

/-- Names are proper, but for those of a full text whose only dot is its first character. -/
theorem proper_of_made {n : SymbolName} (h : n.Made) :
    (n.Proper ↔ n.full ≠ "." ++ n.short) ∧
      ((∃ full short, make full short = .ok n) ∨ (∃ mangled, ofMangled mangled = .ok n) ∨
        (∃ r s, decoder r = .ok n s) → n.Proper) ∧
      (¬n.Proper → n = ofFull n.full ∧ n.package = "" ∧ n.packageSegments = [] ∧
        n.segments = "" :: n.nameSegments ∧
        ((∀ l ∈ n.lengths, l ≤ maxLength) → (decodeAll decoder n.encode).1 =
          .error (.invalidName (.suffixMismatch n.full n.short)))) := by
  simp only [proper_iff]
  refine ⟨h.isValid_iff, ?_, fun hv => ?_⟩
  · rintro (⟨full, short, h⟩ | ⟨mangled, h⟩ | ⟨r, s, h⟩)
    · exact (make_eq_ok_iff.1 h).2
    · exact isValid_of_ofMangled h
    · exact (decoder_eq_ok_iff.1 h).1.1
  · have hd : n.full = "." ++ n.short := not_not.1 fun hd => hv (h.isValid_iff.2 hd)
    obtain ⟨hp, hs⟩ := segments_of_leadingDot hd
    exact ⟨h.isValid_or_eq_ofFull.resolve_left hv,
      package_eq_empty_iff.2 (packageChars_of_leadingDot hd), hp, hs, decodeAll_encode_of_not_isValid hv⟩

/-- A name of five characters from each of its sources, and two full texts with dots in front. -/
theorem proper_of_made_dots :
    let n : SymbolName := ⟨"a.b.c", "b.c"⟩
    make "a.b.c" "b.c" = .ok n ∧ ofMangled "a_b.c" = .ok n ∧
      (∃ s, decoder (.ofBytes n.encode) = .ok n s) ∧ n.Proper ∧
      (ofFull "..x").Proper ∧ ¬(ofFull ".x").Proper ∧ (ofFull ".x").segments = ["", "x"] ∧
      (decodeAll decoder (ofFull ".x").encode).1 =
        .error (.invalidName (.suffixMismatch ".x" "x")) := by
  intro n
  have hn : make "a.b.c" "b.c" = .ok n := by decide
  have hm : ofMangled "a_b.c" = .ok n := by decide
  have hr : ∃ s, decoder (.ofBytes n.encode) = .ok n s :=
    ⟨⟨[], n.encode.length, 0, []⟩, decoder_eq_ok_iff.2 ⟨admits_iff.2 (by decide),
      (List.append_nil _).symm, (Nat.zero_add _).symm, rfl, rfl⟩⟩
  obtain ⟨_, hproper, _⟩ := proper_of_made (.ofTexts hn)
  obtain ⟨hdot, _, hbad⟩ := proper_of_made (.ofFull ".x")
  have hx : ¬(ofFull ".x").Proper := fun hp => hdot.1 hp (by decide)
  obtain ⟨_, _, _, hs, hd⟩ := hbad hx
  exact ⟨hn, hm, hr, hproper (.inl ⟨_, _, hn⟩), (proper_of_made (.ofFull "..x")).1.2 (by decide), hx,
    hs.trans (by decide), hd (by decide)⟩

/-- The name of a text with a leading dot is not proper. -/
theorem not_forall_proper_of_made : ¬∀ n : SymbolName, n.Made → n.Proper := by
  intro h
  have hr := (h _ (.ofFull ".x")).reread (by decide)
  rw [decodeAll_encode_of_not_isValid (by decide) (by decide)] at hr
  cases hr

end NativeBridge.SymbolName
