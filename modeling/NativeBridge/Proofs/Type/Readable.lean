import NativeBridge.Proofs.Name.Reading
import NativeBridge.Proofs.Type.Nodes

/-! # Readable types

A type is readable if its names are valid, its lengths can be stated, its arrays have elements and
its aggregates fit into the address space. Leaving out empty applications keeps a type readable.
Under a limit of height the readable types are a format, and one level more admits exactly the
types whose parts are admitted and that have a size.
-/
namespace NativeBridge
open Wire

namespace Ty

/-- The name of a type itself, not one inside it. -/
def ownName? : Ty → Option SymbolName
  | struct n _ => some n
  | reference n => some n
  | _ => none

/-- The lengths that the encoding of a type states, those inside its parts aside. -/
def ownLengths : Ty → List Nat
  | struct n fs => n.lengths ++ [fs.length]
  | reference n => n.lengths
  | cone _ as => [as.length]
  | _ => []

/-- What reading asks of a type, its parts aside. -/
structure NodeReadable (t : Ty) : Prop where
  lengths : ∀ l ∈ t.ownLengths, l ≤ maxLength
  name : ∀ n ∈ t.ownName?, n.isValid = true
  dims : ∀ e d, t = array e d → d ≠ 0
  size : t.isAggregate = true → t.checkedSize ≠ none

def Readable (t : Ty) : Prop := ∀ u ∈ t.nodes, u.NodeReadable

theorem readable_builtin (k : Kind) : (builtin k).Readable := by
  intro u hu
  simp only [nodes, List.mem_singleton] at hu
  subst hu
  exact ⟨by simp [ownLengths], by simp [ownName?], by simp, by simp [isAggregate]⟩

theorem readable_array_iff {e : Ty} {d : UInt32} :
    (array e d).Readable ↔ e.Readable ∧ d ≠ 0 ∧ (array e d).checkedSize ≠ none := by
  simp only [Readable, mem_nodes_array, forall_eq_or_imp]
  constructor
  · rintro ⟨h, he⟩
    exact ⟨he, h.dims e d rfl, h.size rfl⟩
  · rintro ⟨he, hd, hs⟩
    refine ⟨⟨by simp [ownLengths], by simp [ownName?], ?_, fun _ => hs⟩, he⟩
    rintro e' d' h
    cases h
    exact hd

theorem readable_struct_iff {n : SymbolName} {fs : List Ty} : (struct n fs).Readable ↔
    SymbolName.format.Admits n ∧ fs.length ≤ maxLength ∧ (struct n fs).checkedSize ≠ none ∧
      ∀ f ∈ fs, f.Readable := by
  simp only [Readable, mem_nodes_struct, forall_eq_or_imp]
  constructor
  · rintro ⟨h, hf⟩
    exact ⟨⟨h.name n rfl, fun l hl => h.lengths l (by simp [ownLengths, hl])⟩,
      h.lengths fs.length (by simp [ownLengths]), h.size rfl, fun f hm u hu => hf u ⟨f, hm, hu⟩⟩
  · rintro ⟨hn, hl, hs, hf⟩
    refine ⟨⟨?_, ?_, by simp, fun _ => hs⟩, fun u ⟨f, hm, hu⟩ => hf f hm u hu⟩
    · intro l hm
      rcases List.mem_append.1 hm with h | h
      · exact hn.2 l h
      · rw [List.mem_singleton.1 h]
        exact hl
    · intro m hm
      cases hm
      exact hn.1

theorem readable_reference_iff {n : SymbolName} :
    (reference n).Readable ↔ SymbolName.format.Admits n := by
  simp only [Readable, nodes, List.mem_singleton, forall_eq]
  constructor
  · intro h
    exact ⟨h.name n rfl, h.lengths⟩
  · intro h
    refine ⟨h.2, ?_, by simp, by simp [isAggregate]⟩
    intro m hm
    cases hm
    exact h.1

theorem readable_cone_iff {g : Ty} {as : List TypeArgument} : (cone g as).Readable ↔
    g.Readable ∧ as.length ≤ maxLength ∧ ∀ t, TypeArgument.concrete t ∈ as → t.Readable := by
  simp only [Readable, mem_nodes_cone, forall_eq_or_imp]
  constructor
  · rintro ⟨h, hp⟩
    exact ⟨fun u hu => hp u (.inl hu), h.lengths as.length (by simp [ownLengths]),
      fun t ht u hu => hp u (.inr ⟨t, ht, hu⟩)⟩
  · rintro ⟨hg, hl, ha⟩
    refine ⟨⟨by simpa [ownLengths] using hl, by simp [ownName?], by simp, by simp [isAggregate]⟩, ?_⟩
    rintro u (hu | ⟨t, ht, hu⟩)
    · exact hg u hu
    · exact ha t ht u hu

/-- What is asked of aggregates holds of all readable types. -/
theorem Readable.checkedSize_ne_none {t : Ty} (h : t.Readable) : t.checkedSize ≠ none := by
  induction t using Ty.inductionOn with
  | builtin k => simp [checkedSize]
  | array e d _ => exact (readable_array_iff.1 h).2.2
  | struct n fs _ => exact (readable_struct_iff.1 h).2.2.1
  | reference n => simp [checkedSize]
  | cone g as ihg _ =>
    rw [checkedSize]
    exact ihg (readable_cone_iff.1 h).1

theorem Readable.pruned {t : Ty} (h : t.Readable) : t.pruned.Readable := by
  intro u hu
  obtain ⟨v, hv, rfl, hne⟩ := mem_nodes_pruned hu
  have hn := h v hv
  cases v with
  | builtin k => exact hn
  | array e d =>
    refine ⟨by simp [Ty.pruned, ownLengths], by simp [Ty.pruned, ownName?], ?_, ?_⟩
    · intro e' d' he
      cases he
      exact hn.dims e d rfl
    · intro _
      rw [checkedSize_pruned]
      exact hn.size rfl
  | struct n fs =>
    refine ⟨?_, hn.name, by simp [Ty.pruned], ?_⟩
    · simpa [Ty.pruned, prunedAll_eq, ownLengths] using hn.lengths
    · intro _
      rw [checkedSize_pruned]
      exact hn.size rfl
  | reference n => exact hn
  | cone g as =>
    have ha : as ≠ [] := by
      rintro rfl
      exact hne g rfl
    rw [pruned_cone ha]
    refine ⟨?_, by simp [ownName?], by simp, by simp [isAggregate]⟩
    simpa [prunedArguments_eq, ownLengths] using hn.lengths

/-- The readable types of at most a height, read without their empty applications. -/
def format (budget : Nat) : Format Ty where
  bytes := encode
  ids _ := []
  Admits t := t.Readable ∧ t.height ≤ budget
  value := pruned

def argumentFormat (budget : Nat) : Format TypeArgument where
  bytes := encodeArgument
  ids _ := []
  Admits a := ∀ t, a = .concrete t → (format budget).Admits t
  value := prunedArgument

/-- The parts of a type are read where `budget` levels may be entered, and beside its size nothing
is wrong with the type itself. -/
def PartsAdmitted (budget : Nat) : Ty → Prop
  | builtin _ => True
  | array e d => (format budget).Admits e ∧ d ≠ 0
  | struct n fs => SymbolName.format.Admits n ∧ (format budget).list.Admits fs
  | reference n => SymbolName.format.Admits n
  | cone g as => (format budget).Admits g ∧ (argumentFormat budget).list.Admits as

theorem list_argumentFormat_admits_iff {budget : Nat} {as : List TypeArgument} :
    (argumentFormat budget).list.Admits as ↔ as.length ≤ maxLength ∧
      ∀ t, TypeArgument.concrete t ∈ as → (format budget).Admits t := by
  constructor
  · rintro ⟨hl, ha⟩
    exact ⟨hl, fun t ht => ha _ ht t rfl⟩
  · rintro ⟨hl, ha⟩
    exact ⟨hl, fun a hm t ht => ha t (ht ▸ hm)⟩

/-- One more level admits what has admitted parts and a size. -/
theorem admits_succ_iff {budget : Nat} {t : Ty} :
    (format (budget + 1)).Admits t ↔ PartsAdmitted budget t ∧ t.checkedSize ≠ none := by
  cases t with
  | builtin k => simp [format, PartsAdmitted, readable_builtin, height, checkedSize]
  | array e d =>
    simp only [format, PartsAdmitted, readable_array_iff, height, Nat.add_le_add_iff_right]
    tauto
  | struct n fs =>
    simp only [format, PartsAdmitted, Format.list, readable_struct_iff, height, heights_le_iff,
      Nat.add_le_add_iff_right]
    constructor
    · rintro ⟨⟨hn, hl, hs, hf⟩, hh⟩
      exact ⟨⟨hn, hl, fun f hm => ⟨hf f hm, hh f hm⟩⟩, hs⟩
    · rintro ⟨⟨hn, hl, hf⟩, hs⟩
      exact ⟨⟨hn, hl, hs, fun f hm => (hf f hm).1⟩, fun f hm => (hf f hm).2⟩
  | reference n => simp [format, PartsAdmitted, readable_reference_iff, height, checkedSize]
  | cone g as =>
    simp only [PartsAdmitted, list_argumentFormat_admits_iff]
    simp only [format, readable_cone_iff, height, Nat.add_le_add_iff_right, max_le_iff,
      argumentHeights_le_iff]
    constructor
    · rintro ⟨⟨hg, hl, ha⟩, hgh, hah⟩
      exact ⟨⟨⟨hg, hgh⟩, hl, fun t ht => ⟨ha t ht, hah t ht⟩⟩, hg.checkedSize_ne_none⟩
    · rintro ⟨⟨⟨hg, hgh⟩, hl, ha⟩, _⟩
      exact ⟨⟨hg, hl, fun t ht => (ha t ht).1⟩, hgh, fun t ht => (ha t ht).2⟩

theorem not_admits_zero (t : Ty) : ¬(format 0).Admits t := by
  rintro ⟨_, h⟩
  have := t.height_pos
  omega

/-- The check of sizes that follows a reading is only needed of aggregates. -/
theorem PartsAdmitted.checked_iff {budget : Nat} {t : Ty} (h : PartsAdmitted budget t) :
    (t.pruned.isAggregate && t.pruned.checkedSize.isNone) = false ↔ t.checkedSize ≠ none := by
  rw [checkedSize_pruned]
  cases t with
  | builtin k => simp [pruned, isAggregate, checkedSize]
  | array e d => simp [pruned, isAggregate, Option.isSome_iff_ne_none]
  | struct n fs => simp [pruned, isAggregate, Option.isSome_iff_ne_none]
  | reference n => simp [pruned, isAggregate, checkedSize]
  | cone g as =>
    have hs : (cone g as).checkedSize ≠ none := by
      rw [checkedSize]
      exact h.1.1.checkedSize_ne_none
    simp [hs, Option.isSome_iff_ne_none]

theorem list_ids_eq_nil {α : Type} {f : Format α} (h : ∀ a, f.ids a = []) (xs : List α) :
    f.list.ids xs = [] := by simp [Format.list, h]

end Ty

end NativeBridge
