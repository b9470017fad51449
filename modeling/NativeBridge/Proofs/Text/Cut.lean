import Mathlib.Data.String.Basic

/-! # Texts cut at byte offsets

A text can be cut at a byte offset where one of its characters starts or where it ends, and at no
other. Each character of a text comes with the offset at which it starts.
-/
namespace NativeBridge.Text

open String (utf8Len)

/-- The texts before and behind a byte offset, if a character starts or the text ends there. -/
def cut? : Nat → List Char → Option (List Char × List Char)
  | 0, cs => some ([], cs)
  | _ + 1, [] => none
  | n + 1, c :: cs =>
    if c.utf8Size ≤ n + 1 then
      (cut? (n + 1 - c.utf8Size) cs).map fun (front, back) => (c :: front, back)
    else none

/-- The characters of a text that starts at an offset, each with its own. -/
def charOffsets : Nat → List Char → List (Nat × Char)
  | _, [] => []
  | n, c :: cs => (n, c) :: charOffsets (n + c.utf8Size) cs

/-- The byte offset of the first of the characters that is this one. -/
def offsetOf? (mark : Char) : List Char → Option Nat
  | [] => none
  | c :: cs => if c = mark then some 0 else (offsetOf? mark cs).map (c.utf8Size + ·)

variable {n : Nat} {cs front back : List Char} {mark : Char}

theorem cut?_eq_some_iff :
    cut? n cs = some (front, back) ↔ cs = front ++ back ∧ utf8Len front = n := by
  fun_induction cut? n cs generalizing front back with
  | case1 cs =>
    rw [String.utf8Len_eq_zero]
    constructor
    · rintro ⟨⟩
      exact ⟨rfl, rfl⟩
    · rintro ⟨rfl, rfl⟩
      rfl
  | case2 n =>
    simp only [reduceCtorEq, false_iff, not_and, List.nil_eq_append_iff]
    rintro ⟨rfl, -⟩ h
    cases h
  | case3 n c cs hc ih =>
    simp only [Option.map_eq_some_iff, Prod.exists, Prod.mk.injEq, ih]
    constructor
    · rintro ⟨front, back, ⟨rfl, hn⟩, rfl, rfl⟩
      refine ⟨rfl, ?_⟩
      rw [String.utf8Len_cons]
      omega
    · rintro ⟨hcs, hn⟩
      cases front with
      | nil => cases hn
      | cons d front =>
        obtain ⟨rfl, rfl⟩ := List.cons.inj hcs
        rw [String.utf8Len_cons] at hn
        exact ⟨front, back, ⟨rfl, by omega⟩, rfl, rfl⟩
  | case4 n c cs hc =>
    simp only [reduceCtorEq, false_iff, not_and]
    intro hcs hn
    cases front with
    | nil => cases hn
    | cons d front =>
      obtain ⟨rfl, rfl⟩ := List.cons.inj hcs
      rw [String.utf8Len_cons] at hn
      omega

theorem cut?_append (front back : List Char) :
    cut? (utf8Len front) (front ++ back) = some (front, back) :=
  cut?_eq_some_iff.2 ⟨rfl, rfl⟩

/-- What ends before the first mark can be cut off there. -/
theorem offsetOf?_append (h : mark ∉ front) (tail : List Char) :
    offsetOf? mark (front ++ mark :: tail) = some (utf8Len front) := by
  induction front with
  | nil => exact if_pos rfl
  | cons c front ih =>
    obtain ⟨hc, hfront⟩ := not_or.1 (mt List.mem_cons.2 h)
    rw [List.cons_append, offsetOf?, if_neg (Ne.symm hc), ih hfront, Option.map_some,
      String.utf8Len_cons, Nat.add_comm]

theorem offsetOf?_eq_none (h : mark ∉ cs) : offsetOf? mark cs = none := by
  induction cs with
  | nil => rfl
  | cons c cs ih =>
    obtain ⟨hc, hcs⟩ := not_or.1 (mt List.mem_cons.2 h)
    rw [offsetOf?, if_neg (Ne.symm hc), ih hcs, Option.map_none]

/-- A text can be cut at its valid positions. -/
theorem isSome_cut?_iff {s : String} :
    (cut? n s.toList).isSome = true ↔ (⟨n⟩ : String.Pos.Raw).IsValid s := by
  rw [Option.isSome_iff_exists, String.Pos.Raw.isValid_iff_exists_append]
  simp only [Prod.exists, cut?_eq_some_iff]
  constructor
  · rintro ⟨front, back, hs, rfl⟩
    refine ⟨String.ofList front, String.ofList back, ?_, ?_⟩
    · rw [← String.ofList_append, ← hs, String.ofList_toList]
    · rw [String.rawEndPos_ofList]
  · rintro ⟨front, back, rfl, hn⟩
    refine ⟨front.toList, back.toList, String.toList_append, ?_⟩
    rw [String.utf8Len_toList]
    exact (congrArg String.Pos.Raw.byteIdx hn).symm

theorem charOffsets_append (n : Nat) (cs ds : List Char) :
    charOffsets n (cs ++ ds) = charOffsets n cs ++ charOffsets (n + utf8Len cs) ds := by
  induction cs generalizing n with
  | nil => rfl
  | cons c cs ih =>
    rw [List.cons_append, charOffsets, ih, charOffsets, List.cons_append, String.utf8Len_cons,
      Nat.add_assoc, Nat.add_comm c.utf8Size]

end NativeBridge.Text
