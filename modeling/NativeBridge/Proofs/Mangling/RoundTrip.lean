import NativeBridge.Proofs.Mangling.Completeness
import NativeBridge.Proofs.Mangling.Writing
import NativeBridge.Proofs.Type.Chains

/-! # Mangled types are read again

What is written for a list of types is read as the list of their canonical forms. The parser cannot
know how the opening marks of arrays directly in each other were divided among them; nothing else
is lost, as long as the names can be restored and the fields of structs be looked up.
-/
namespace NativeBridge

/-- Names that are read again from their mangled form, and do not end early in it. -/
def SymbolName.Manglable (n : SymbolName) : Prop := n.Reversible ∧ '$' ∉ n.full.toList

namespace Ty

/-- What a node must satisfy to be read again. -/
def NodeManglable (resolve : Resolver) : Ty → Prop
  | builtin _ => True
  | array _ d => d ≠ 0
  | struct n fs => n.Manglable ∧ resolve n = some fs
  | reference n => n.Manglable
  | cone _ as => as ≠ []

def Manglable (resolve : Resolver) (t : Ty) : Prop := ∀ u ∈ t.visible, u.NodeManglable resolve

section
variable {resolve : Resolver} {e g : Ty} {d : UInt32} {as : List TypeArgument}

theorem Manglable.element (h : (array e d).Manglable resolve) : e.Manglable resolve :=
  fun u hu => h u (mem_visible_array.2 (.inr hu))

theorem Manglable.generic (h : (cone g as).Manglable resolve) : g.Manglable resolve :=
  fun u hu => h u (mem_visible_cone.2 (.inr (.inl hu)))

theorem Manglable.argument (h : (cone g as).Manglable resolve) {t : Ty}
    (ht : TypeArgument.concrete t ∈ as) : t.Manglable resolve :=
  fun u hu => h u (mem_visible_cone.2 (.inr (.inr ⟨t, ht, hu⟩)))

theorem Manglable.dims_ne_zero (h : e.Manglable resolve) :
    ∀ f c, array f c ∈ e.visible → c ≠ 0 := fun _ _ hf => h _ hf

end

end Ty

namespace Mangled
open Ty

theorem name_mangledBetween {n : SymbolName} (h : n.Manglable) (letter : Char) :
    NameText letter (n.mangledBetween letter) n := by
  refine .mk (fun hm => h.2 ?_) h.1.ofMangled_mangledChars
  exact SymbolName.mem_full_of_mem_mangledChars h.1.valid (by decide) hm

/-- Only the text of an array starts with its mark. -/
theorem opening_of_chainLength {t : Ty} (h : t.chainLength = 0) :
    Opening t.mangledChars ∧ ¬ openMark 'A' <+: t.mangledChars := by
  induction t using Ty.inductionOn with
  | builtin k =>
    rw [mangledChars_builtin]
    cases k <;> exact ⟨⟨_, [], rfl, by decide⟩, by decide⟩
  | array e d ih => simp [chainLength] at h
  | struct n fs ih =>
    rw [mangledChars_struct]
    exact ⟨⟨'S', _, rfl, by simp⟩, by simp [SymbolName.mangledBetween, openMark]⟩
  | reference n =>
    rw [mangledChars_reference]
    exact ⟨⟨'C', _, rfl, by simp⟩, by simp [SymbolName.mangledBetween, openMark]⟩
  | cone g as ihg iha =>
    obtain ⟨ho, hn⟩ := ihg h
    rw [mangledChars_cone]
    exact ⟨ho.append _, ho.not_openArray hn _⟩

/-- A text that starts with a chain of arrays: the opening marks of them all, the element of the
innermost, and the levels that close around it. -/
inductive ChainText (inner : Texts Ty) (t : Ty) : Prop
  | mk {s mid last : List Char} {e : Ty} {levels : List (List (List TypeArgument))}
    {groups : List (List TypeArgument)} (element : inner s e) (plain : ¬ openMark 'A' <+: s)
    (closed : Items (LevelText inner) mid levels) (closing : LevelText inner last groups)
    (text : t.mangledChars = repeatMark (openMark 'A') t.chainDims ++ (s ++ (mid ++ last)))
    (length : levels.length + 1 = t.chainLength)
    (reshaped : ∀ dims, t.reshaped dims = (array (e.nested levels) dims).applied groups) :
    ChainText inner t

section
variable {resolve : Resolver} {inner : Texts Ty} {e g : Ty} {d : UInt32}
  {as : List TypeArgument}

theorem chainDims_eq_zero {t : Ty} (h : t.chainLength = 0) : t.chainDims = 0 := by
  induction t using Ty.inductionOn with
  | array e d ih => simp [chainLength] at h
  | cone g as ihg iha => exact ihg h
  | builtin k => rfl
  | struct n fs ih => rfl
  | reference n => rfl

theorem ChainText.innermost (hs : inner e.mangledChars e.canonical) (he : e.chainLength = 0) :
    ChainText inner (array e d) := by
  refine .mk hs (opening_of_chainLength he).2 .nil (.mk .nil) ?_ ?_ ?_
  · rw [mangledChars_array, chainDims, chainDims_eq_zero he, Nat.zero_add]
    rfl
  · rw [chainLength, he]
    rfl
  · intro dims
    rw [Ty.reshaped, reshaped_eq_canonical he]
    rfl

theorem ChainText.array (h : ChainText inner e) : ChainText inner (array e d) := by
  obtain ⟨hs, hA, hmid, hlast, ht, hl, hr⟩ := h
  refine .mk hs hA (hmid.append (.single hlast)) (.mk .nil) ?_ ?_ ?_
  · rw [mangledChars_array, ht, chainDims, Nat.add_comm, repeatMark_add]
    simp only [List.append_assoc, List.append_nil]
  · rw [chainLength, List.length_append, ← hl]
    rfl
  · intro dims
    rw [Ty.reshaped, hr, nested_append]
    rfl

theorem ChainText.cone (h : ChainText inner g)
    (ha : GroupText inner (mangledApplication as) (canonicalArguments as)) (hne : as ≠ []) :
    ChainText inner (cone g as) := by
  obtain ⟨hs, hA, hmid, ⟨hg⟩, ht, hl, hr⟩ := h
  refine .mk hs hA hmid (.mk (hg.append (.single ha))) ?_ hl ?_
  · rw [mangledChars_cone, ht, chainDims]
    simp only [List.append_assoc]
  · intro dims
    rw [Ty.reshaped, hr, applied_append, applied_cons, applied_nil, apply_of_ne_nil]
    simpa using hne

end

section
variable {resolve : Resolver} {budget : Nat} {inner : Texts Ty}

theorem group_canonical
    (hi : ∀ t : Ty, t.Manglable resolve → t.height ≤ budget → inner t.mangledChars t.canonical)
    {as : List TypeArgument} (hne : as ≠ [])
    (hm : ∀ t, TypeArgument.concrete t ∈ as → t.Manglable resolve)
    (hb : argumentHeights as ≤ budget) :
    GroupText inner (mangledApplication as) (canonicalArguments as) := by
  rw [mangledApplication_of_ne_nil hne, canonicalArguments_eq]
  refine .mk (.of_forall fun a ha => ?_)
  cases a with
  | star => exact .star
  | concrete t =>
    have hr := hi t (hm t ha) (argumentHeights_le_iff.1 hb t ha)
    exact .concrete hr

/-- With the types inside of it in their canonical forms, so is the type around them. -/
theorem typeText_canonical
    (hi : ∀ t : Ty, t.Manglable resolve → t.height ≤ budget → inner t.mangledChars t.canonical)
    {t : Ty} (hm : t.Manglable resolve) (hb : t.height ≤ budget + 1) :
    (t.chainLength = 0 → TypeText resolve inner t.mangledChars t.canonical) ∧
      (t.chainLength ≠ 0 → ChainText inner t) := by
  -- down the elements and generics only: arguments lie one level further in, so they are `hi`'s
  induction t using Ty.inductionOn with
  | builtin k =>
    rw [mangledChars_builtin]
    exact ⟨fun _ => (PlainText.builtin k).typeText, fun h => absurd rfl h⟩
  | array e d ih =>
    rw [height] at hb
    refine ⟨fun h => by simp [chainLength] at h, fun _ => ?_⟩
    by_cases he : e.chainLength = 0
    · exact .innermost (hi e hm.element (by omega)) he
    · exact ((ih hm.element (by omega)).2 he).array
  | struct n fs ih =>
    obtain ⟨hn, hf⟩ := hm _ (self_mem_visible _)
    rw [mangledChars_struct]
    have hs : PlainText resolve _ _ := .struct (name_mangledBetween hn 'S') hf
    exact ⟨fun _ => hs.typeText, fun h => absurd rfl h⟩
  | reference n =>
    have hn := hm _ (self_mem_visible _)
    rw [mangledChars_reference]
    have hs : PlainText resolve _ _ := .reference (name_mangledBetween hn 'C')
    exact ⟨fun _ => hs.typeText, fun h => absurd rfl h⟩
  | cone g as ihg iha =>
    rw [height] at hb
    have hne : as ≠ [] := hm _ (self_mem_visible _)
    have ha := group_canonical hi hne (fun t ht => hm.argument ht) (by omega)
    obtain ⟨hg, hc⟩ := ihg hm.generic (by omega)
    refine ⟨fun h => ?_, fun h => (hc h).cone ha hne⟩
    have hs := (hg h).applied (.single ha)
    rw [applied_cons, applied_nil, apply_of_ne_nil (by simpa using hne)] at hs
    rw [mangledChars_cone]
    exact hs

/-- What is written for a type is read as its canonical form. -/
theorem within_canonical {t : Ty} (hm : t.Manglable resolve) (hb : t.height ≤ budget) :
    Within resolve budget t.mangledChars t.canonical := by
  induction budget generalizing t with
  | zero => exact absurd (height_pos t) (by omega)
  | succ budget ih =>
    obtain ⟨hplain, hchain⟩ := typeText_canonical (fun t => ih) hm hb
    by_cases h : t.chainLength = 0
    · exact hplain h
    · obtain ⟨hs, hA, hmid, hlast, ht, hl, hr⟩ := hchain h
      have hd := chainLength_le_chainDims hm.dims_ne_zero
      have hx : TypeText resolve (Within resolve budget) _ _ := .array hs hA hmid hlast
        (Nat.lt_of_succ_le (hl.trans_le hd))
      rw [canonical, hr, outerDims, ht, ← hl, Nat.add_sub_cancel]
      exact hx

end

/-- The text of a type has the texts of all that is visible in it. -/
theorem mangledChars_isInfix {t u : Ty} (h : u ∈ t.visible) : u.mangledChars <:+: t.mangledChars := by
  induction t using Ty.inductionOn with
  | builtin k =>
    rw [visible, List.mem_singleton] at h
    rw [h]
  | array e d ih =>
    rcases mem_visible_array.1 h with rfl | h
    · exact List.infix_rfl
    · rw [mangledChars_array, ← List.append_assoc]
      exact (ih h).trans (List.infix_append _ _ _)
  | struct n fs ih =>
    rw [visible, List.mem_singleton] at h
    rw [h]
  | reference n =>
    rw [visible, List.mem_singleton] at h
    rw [h]
  | cone g as ihg iha =>
    rcases mem_visible_cone.1 h with rfl | h | ⟨t, ht, h⟩
    · exact List.infix_rfl
    · rw [mangledChars_cone]
      exact (ihg h).trans (List.prefix_append _ _).isInfix
    · have hi : mangledArgument (.concrete t) <:+: as.flatMap mangledArgument :=
        List.infix_of_mem_flatten (List.mem_map_of_mem ht)
      rw [mangledChars_cone, mangledApplication_of_ne_nil (List.ne_nil_of_mem ht)]
      have ha := (iha t ht h).trans (hi.trans (List.infix_append (openMark 'T') _ (closeMark 'T')))
      exact ha.trans (List.suffix_append _ _).isInfix

theorem two_mul_chainDims_le (t : Ty) : 2 * t.chainDims ≤ t.mangledChars.length := by
  induction t using Ty.inductionOn with
  | array e d ih =>
    rw [mangledChars_array, List.length_append, List.length_append, length_repeatMark, chainDims]
    omega
  | cone g as ihg iha =>
    rw [mangledChars_cone, List.length_append, chainDims]
    omega
  | builtin k => exact Nat.zero_le _
  | struct n fs ih => exact Nat.zero_le _
  | reference n => exact Nat.zero_le _

end Mangled

open Mangled

/-- What is written for a list of types is read as the list of their canonical forms, in which no
sum of dimensions is out of range. It is read as the list itself if and only if no array directly in
another has more than one element. -/
theorem demangleList_mangledList {resolve : Resolver} {ts : List Ty}
    (hm : ∀ t ∈ ts, t.Manglable resolve) (hh : ∀ t ∈ ts, t.height ≤ maxNesting)
    (hl : (Ty.mangledList ts).utf8ByteSize < 2 ^ 32) :
    demangleList (Ty.mangledList ts) resolve = .ok (ts.map Ty.canonical) ∧
      (∀ t ∈ ts, ∀ u ∈ t.visible, u.outerDims.toNat = u.chainDims - (u.chainLength - 1)) ∧
      (demangleList (Ty.mangledList ts) resolve = .ok ts ↔ ∀ t ∈ ts, t.Flat) := by
  have hlen := (Demangle.length_le_utf8ByteSize (Ty.mangledList ts)).trans_lt hl
  have hr : demangleList (Ty.mangledList ts) resolve = .ok (ts.map Ty.canonical) := by
    refine (demangleList_eq_ok_iff hlen).2 ⟨?_, ?_⟩
    · rw [Ty.mangledList, String.toList_ofList]
      exact .of_forall fun t ht => within_canonical (hm t ht) (hh t ht)
    · intro u hu
      obtain ⟨t, ht, rfl⟩ := List.mem_map.1 hu
      rw [Ty.height_canonical]
      exact hh t ht
  refine ⟨hr, ?_, ?_⟩
  · intro t ht u hu
    rw [Ty.mangledList, String.toList_ofList] at hlen
    have hi : u.mangledChars <:+: Ty.mangledListChars ts :=
      (mangledChars_isInfix hu).trans (List.infix_of_mem_flatten (List.mem_map_of_mem ht))
    have hd := two_mul_chainDims_le u
    have hu := hi.length_le
    exact UInt32.toNat_ofNat_of_lt' (show _ < 2 ^ 32 by omega)
  · rw [hr, Except.ok.injEq, map_eq_self_iff]
    exact forall₂_congr fun t _ => Ty.canonical_eq_self_iff

theorem demangleList_mangledList_nested :
    Ty.mangledList [.array (.array (.struct ⟨"a.B", "B"⟩ [.builtin .int]) 2) 3] =
        "A$A$A$A$A$S$a_B$S$A$A" ∧
      demangleList "A$A$A$A$A$S$a_B$S$A$A" (fun _ => some [.builtin .int]) =
        .ok [.array (.array (.struct ⟨"a.B", "B"⟩ [.builtin .int]) 1) 4] := by
  have hw : Ty.mangledList [.array (.array (.struct ⟨"a.B", "B"⟩ [.builtin .int]) 2) 3] =
      "A$A$A$A$A$S$a_B$S$A$A" := by decide +kernel
  have hn : SymbolName.Manglable ⟨"a.B", "B"⟩ := by
    refine ⟨⟨?_, ?_, ?_, ?_⟩, ?_⟩ <;> decide +kernel
  have hm : ∀ t ∈ [Ty.array (.array (.struct ⟨"a.B", "B"⟩ [.builtin .int]) 2) 3],
      t.Manglable fun _ => some [.builtin .int] := by
    intro t ht u hu
    rw [List.mem_singleton] at ht
    subst ht
    simp only [Ty.visible, List.mem_cons, List.not_mem_nil, or_false] at hu
    rcases hu with rfl | rfl | rfl
    · exact (by decide : (3 : UInt32) ≠ 0)
    · exact (by decide : (2 : UInt32) ≠ 0)
    · exact ⟨hn, rfl⟩
  have h := demangleList_mangledList hm (by decide +kernel) (by rw [hw]; decide)
  rw [hw] at h
  exact ⟨hw, h.1.trans (by decide +kernel)⟩

end NativeBridge
